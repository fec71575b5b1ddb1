import SemanticLayer.Sql.Dialect
import SemanticLayer.Sql.Expr
import SemanticLayer.Text.Find
import SemanticLayer.Text.Space

/-! # Tokens

The words, literals and symbols of an SQL text. White space and comments vanish here.
-/

namespace SemanticLayer.Sql

inductive Token where
  /-- A bare or quoted word; a quoted one keeps its opening quote. -/
  | word (value : String) (quote : Option Char)
  | number (digits : String) (long : Bool)
  | quoted (kind : Quoting) (content : String)
  | placeholder (text : String)
  | symbol (text : String)
  deriving Repr, DecidableEq, BEq

namespace Token

/-- What is read and the text behind it, or nothing if the text ends inside a literal. -/
abbrev Scan (α : Type) := Option (α × List Char)

/-- The rest of a quoted text behind its opening quote; the closing quote inside it is written
    twice. With `escapes`, a backslash takes the next character as it stands or as a control. -/
def scanQuoted (close : Char) (escapes : Bool) : List Char → Scan (List Char)
  | [] => none
  | c :: rest =>
    if c = close then
      match rest with
      | d :: rest' =>
        if d = close then (scanQuoted close escapes rest').map fun (s, r) => (c :: s, r)
        else some ([], d :: rest')
      | [] => some ([], [])
    else if c = '\\' && escapes then
      match rest with
      | [] => none
      | d :: rest' =>
        let e := match d with
          | '0' => Char.ofNat 0
          | 'a' => Char.ofNat 7
          | 'b' => Char.ofNat 8
          | 'f' => Char.ofNat 12
          | 'n' => '\n'
          | 'r' => '\r'
          | 't' => '\t'
          | 'Z' => Char.ofNat 26
          | d => d
        (scanQuoted close escapes rest').map fun (s, r) => (e :: s, r)
    else (scanQuoted close escapes rest).map fun (s, r) => (c :: s, r)

def hexValue? (c : Char) : Option Nat :=
  if c.isDigit then some (c.toNat - 48)
  else if 'a' ≤ c && c ≤ 'f' then some (c.toNat - 87)
  else if 'A' ≤ c && c ≤ 'F' then some (c.toNat - 55)
  else none

def digitsValue (base : Nat) (ds : List Char) : Nat :=
  ds.foldl (fun n c => n * base + (hexValue? c).getD 0) 0

def charOf? (n : Nat) : Option Char :=
  if n = 0 then none else if n.isValidChar then some (Char.ofNat n) else none

/-- The digits of one backslash escape: at most `most` of them, and the rest. -/
def takeDigits (isDigit : Char → Bool) (most : Nat) (cs : List Char) : List Char × List Char :=
  let ds := (cs.take most).takeWhile isDigit
  (ds, cs.drop ds.length)

/-- The character a backslash escape stands for, from the character behind the backslash. -/
def scanEscape (c : Char) (rest : List Char) : Scan Char :=
  let isHex := fun c => (hexValue? c).isSome
  let isOctal := fun c => '0' ≤ c && c ≤ '7'
  let byte := fun n => if n % 256 ≤ 127 then charOf? (n % 256) else none
  let unicode := fun count =>
    let (ds, rest') := takeDigits isHex count rest
    if ds.length = count then (charOf? (digitsValue 16 ds)).map (·, rest') else none
  match c with
  | 'b' => some (Char.ofNat 8, rest)
  | 'f' => some (Char.ofNat 12, rest)
  | 'n' => some ('\n', rest)
  | 'r' => some ('\r', rest)
  | 't' => some ('\t', rest)
  | 'u' => unicode 4
  | 'U' => unicode 8
  | 'x' =>
    let (ds, rest') := takeDigits isHex 2 rest
    if ds.isEmpty then some ('x', rest') else (byte (digitsValue 16 ds)).map (·, rest')
  | c =>
    if isOctal c then
      let (ds, rest') := takeDigits isOctal 2 rest
      (byte (digitsValue 8 (c :: ds))).map (·, rest')
    else some (c, rest)

def scanEscaped : Nat → List Char → Scan (List Char)
  | 0, _ => none
  | _ + 1, [] => none
  | n + 1, c :: rest =>
    if c = '\'' then
      match rest with
      | '\'' :: rest' => (scanEscaped n rest').map fun (s, r) => ('\'' :: s, r)
      | _ => some ([], rest)
    else if c = '\\' then
      match rest with
      | [] => none
      | d :: rest' =>
        (scanEscape d rest').bind fun (e, rest'') =>
          (scanEscaped n rest'').map fun (s, r) => (e :: s, r)
    else (scanEscaped n rest).map fun (s, r) => (c :: s, r)

def scanCode (count : Nat) (cs : List Char) : Scan Char :=
  let ds := cs.take count
  if ds.length = count && ds.all fun c => (hexValue? c).isSome then
    let n := digitsValue 16 ds
    if n.isValidChar then some (Char.ofNat n, cs.drop count) else none
  else none

def scanUnicode : Nat → List Char → Scan (List Char)
  | 0, _ => none
  | _ + 1, [] => none
  | n + 1, '\'' :: '\'' :: rest => (scanUnicode n rest).map fun (s, r) => ('\'' :: s, r)
  | _ + 1, '\'' :: rest => some ([], rest)
  | n + 1, '\\' :: '\\' :: rest => (scanUnicode n rest).map fun (s, r) => ('\\' :: s, r)
  | n + 1, '\\' :: '+' :: rest =>
    (scanCode 6 rest).bind fun (c, rest) => (scanUnicode n rest).map fun (s, r) => (c :: s, r)
  | n + 1, '\\' :: rest =>
    (scanCode 4 rest).bind fun (c, rest) => (scanUnicode n rest).map fun (s, r) => (c :: s, r)
  | n + 1, c :: rest => (scanUnicode n rest).map fun (s, r) => (c :: s, r)

/-- What follows a comment opened by `/*`; comments nest. `previous` is the last character. -/
def skipComment (depth : Nat) (previous : Char) : List Char → Option (List Char)
  | [] => none
  | c :: rest =>
    if previous = '/' && c = '*' then skipComment (depth + 1) c rest
    else if previous = '*' && c = '/' then
      match depth with
      | 0 | 1 => some rest
      | depth + 1 => skipComment depth c rest
    else skipComment depth c rest

def scanNumber (cs : List Char) : Token × List Char :=
  let (whole, rest) := cs.span Char.isDigit
  match whole, rest with
  | ['0'], 'x' :: rest =>
    let (ds, rest) := rest.span fun c => (hexValue? c).isSome
    (.quoted .hex (String.ofList ds), rest)
  | _, _ =>
    let (point, rest) := match rest with
      | '.' :: rest => (['.'], rest)
      | _ => ([], rest)
    let (places, rest) := rest.span Char.isDigit
    if whole.isEmpty && places.isEmpty then (.symbol ".", rest)
    else
      let mantissa := whole ++ point ++ places
      let (exponent, rest) := match rest with
        | e :: after =>
          if e = 'e' || e = 'E' then
            let (sign, after) := match after with
              | '+' :: r => (['+'], r)
              | '-' :: r => (['-'], r)
              | r => ([], r)
            let (ds, after) := after.span Char.isDigit
            if ds.isEmpty then ([], rest) else (e :: (sign ++ ds), after)
          else ([], rest)
        | [] => ([], [])
      match rest with
      | 'L' :: rest => (.number (String.ofList (mantissa ++ exponent)) true, rest)
      | rest => (.number (String.ofList (mantissa ++ exponent)) false, rest)

def scanDollar (rest : List Char) : Scan Token :=
  let (tag, after) := rest.span fun c => Text.isLetter c || c.isDigit || c == '_'
  match after with
  | '$' :: after =>
    let mark := '$' :: (tag ++ ['$'])
    (Text.splitChars? mark after).map fun (s, r) =>
      (.quoted (.other (String.ofList mark) (String.ofList mark)) (String.ofList s), r)
  | _ => some (.placeholder (String.ofList ('$' :: tag)), after)

def longSymbols : List String :=
  ["!~~*", "<=>", "->>", "#>>", "||/", "!~*", "!~~", "~~*", "->", "<=", "<>", "<<", "<@", ">=", ">>",
   "=>", "==", "!=", "!!", "!~", "||", "|/", "&&", "::", ":=", "^@", "~~", "~*", "#>", "#-", "@>",
   "@?", "@@", "?|", "?&"]

/-- Symbols that an operator of the postgres dialect may go on from. -/
def startsOperator (s : String) : Bool :=
  ["=", "==", "=>", "!=", "<>", "+", "*", "/", "::", ":=", "(", ")", ",", ";", ".", ":", "[", "]",
    "\x7b", "\x7d", "\\", "?", "`"].all (· != s)

def scanSymbol (d : Dialect) (c : Char) (rest : List Char) : Token × List Char :=
  let cs := c :: rest
  let known := match longSymbols.find? fun s => s.toList.isPrefixOf cs with
    | some s => s
    | none => if d == .generic && "//".toList.isPrefixOf cs then "//" else String.singleton c
  let rest := cs.drop known.length
  let (more, after) := rest.span d.continuesOperator
  if !more.isEmpty && startsOperator known then (.symbol (known ++ String.ofList more), after)
  else (.symbol (if known == "!=" then "<>" else known), rest)

/-- A literal opened by a letter and a quote, if one stands here. -/
def scanPrefixed (d : Dialect) (c : Char) (rest : List Char) : Option (Scan Token) :=
  let plain (close : Char) (escapes : Bool) (kind : Quoting) (rest : List Char) : Option (Scan Token) :=
    some ((scanQuoted close escapes rest).map fun (s, r) => (.quoted kind (String.ofList s), r))
  match c, rest with
  | 'N', '\'' :: rest | 'n', '\'' :: rest => plain '\'' true .national rest
  | 'X', '\'' :: rest | 'x', '\'' :: rest => plain '\'' false .hex rest
  | 'E', '\'' :: rest | 'e', '\'' :: rest =>
    some ((scanEscaped (rest.length + 1) rest).map fun (s, r) =>
      (.quoted .escaped (String.ofList s), r))
  | 'U', '&' :: '\'' :: rest | 'u', '&' :: '\'' :: rest =>
    if d == .sqlite then none
    else
      some ((scanUnicode (rest.length + 1) rest).map fun (s, r) =>
        (.quoted .unicode (String.ofList s), r))
  | 'B', '\'' :: rest | 'b', '\'' :: rest =>
    if d == .generic then plain '\'' false (.other "B'" "'") rest else none
  | 'R', '\'' :: rest | 'r', '\'' :: rest =>
    if d == .generic then plain '\'' false (.other "R'" "'") rest else none
  | 'B', '"' :: rest | 'b', '"' :: rest =>
    if d == .generic then plain '"' false (.other "B\"" "\"") rest else none
  | 'R', '"' :: rest | 'r', '"' :: rest =>
    if d == .generic then plain '"' false (.other "R\"" "\"") rest else none
  | _, _ => none

/-- The token at the head of a text; `none` for white space and comments. -/
def scan (d : Dialect) : List Char → Scan (Option Token)
  | [] => none
  | c :: rest =>
    if c = ' ' || c = '\t' || c = '\n' || c = '\r' then some (none, rest)
    else
      match scanPrefixed d c rest with
      | some literal => literal.map fun (t, r) => (some t, r)
      | none =>
        if d.startsName c then
          let (more, after) := rest.span d.continuesName
          some (some (.word (String.ofList (c :: more)) none), after)
        else if c = '\'' then
          (scanQuoted '\'' false rest).map fun (s, r) => (some (.quoted .plain (String.ofList s)), r)
        else
          match d.closingQuote c with
          | some close =>
            (scanQuoted close false rest).map fun (s, r) =>
              (some (.word (String.ofList s) (some c)), r)
          | none =>
            if c.isDigit || c = '.' then
              let (t, r) := scanNumber (c :: rest)
              some (some t, r)
            else
              match c, rest with
              | '-', '-' :: rest' => some (none, rest'.dropWhile (· ≠ '\n'))
              | '/', '*' :: rest' => (skipComment 1 ' ' rest').map (none, ·)
              | '$', _ => (scanDollar rest).map fun (t, r) => (some t, r)
              | '?', _ =>
                if d == .postgres then
                  let (t, r) := scanSymbol d c rest
                  some (some t, r)
                else
                  let (ds, after) := rest.span Char.isDigit
                  some (some (.placeholder (String.ofList (c :: ds))), after)
              | _, _ =>
                if Text.isSpace c then some (none, rest)
                else
                  let (t, r) := scanSymbol d c rest
                  some (some t, r)

def scanAll (d : Dialect) : Nat → List Char → Option (List Token)
  | _, [] => some []
  | 0, _ :: _ => none
  | n + 1, cs => do
    let (t, rest) ← scan d cs
    let ts ← scanAll d n rest
    return match t with
      | some t => t :: ts
      | none => ts

def ofText (d : Dialect) (sql : String) : Option (List Token) :=
  scanAll d sql.toList.length sql.toList

end Token

end SemanticLayer.Sql
