import SemanticLayer.Json.Basic

/-! # Reading JSON -/

namespace SemanticLayer.Json

def isBlank (c : Char) : Bool := c = ' ' || c = '\n' || c = '\t' || c = '\r'

def skip (cs : List Char) : List Char := cs.dropWhile isBlank

def hexValue? (c : Char) : Option Nat :=
  if c.isDigit then some (c.toNat - 48)
  else if 'a' ≤ c && c ≤ 'f' then some (c.toNat - 87)
  else if 'A' ≤ c && c ≤ 'F' then some (c.toNat - 55)
  else none

def hexWord? (a b c d : Char) : Option Nat := do
  return (((← hexValue? a) * 16 + (← hexValue? b)) * 16 + (← hexValue? c)) * 16 + (← hexValue? d)

/-- The second half of a surrogate pair, if it comes next. -/
def lowSurrogate? : List Char → Option Nat
  | '\\' :: 'u' :: a :: b :: c :: d :: _ =>
    match hexWord? a b c d with
    | some n => if 0xDC00 ≤ n && n ≤ 0xDFFF then some n else none
    | none => none
  | _ => none

def simpleEscape? : Char → Option Char
  | '"' => some '"'
  | '\\' => some '\\'
  | '/' => some '/'
  | 'b' => some (Char.ofNat 8)
  | 'f' => some (Char.ofNat 12)
  | 'n' => some '\n'
  | 'r' => some '\r'
  | 't' => some '\t'
  | _ => none

/-- The rest of a string behind its opening quote; its text is missing if it holds half of a
    surrogate pair. At most `n` characters are read. -/
def stringRest : Nat → List Char → Option (Option (List Char) × List Char)
  | 0, _ => none
  | _ + 1, [] => none
  | n + 1, c :: rest =>
    let next (c : Option Char) (rest : List Char) : Option (Option (List Char) × List Char) :=
      (stringRest n rest).map fun (s, r) =>
        (match c, s with
          | some c, some s => some (c :: s)
          | _, _ => none, r)
    if c = '"' then some (some [], rest)
    else if c = '\\' then
      match rest with
      | 'u' :: a :: b :: c :: d :: rest =>
        match hexWord? a b c d with
        | none => none
        | some word =>
          if 0xD800 ≤ word && word ≤ 0xDBFF then
            match lowSurrogate? rest with
            | some low =>
              next (some (Char.ofNat (0x10000 + (word - 0xD800) * 0x400 + (low - 0xDC00))))
                (rest.drop 6)
            | none => next none rest
          else if 0xDC00 ≤ word && word ≤ 0xDFFF then next none rest
          else next (some (Char.ofNat word)) rest
      | e :: rest =>
        match simpleEscape? e with
        | some c => next (some c) rest
        | none => none
      | [] => none
    else if c.toNat < 32 then none
    else next (some c) rest

def stringChars? (cs : List Char) : Option (Option (List Char) × List Char) :=
  stringRest (cs.length + 1) cs

def number? (cs : List Char) : Option (List Char × List Char) :=
  let (sign, rest) := match cs with
    | '-' :: rest => (['-'], rest)
    | _ => ([], cs)
  let (whole, rest) := match rest with
    | '0' :: rest => (['0'], rest)
    | _ => rest.span Char.isDigit
  if whole.isEmpty then none
  else
    match fraction? rest with
    | none => none
    | some (places, rest) =>
      match exponent? rest with
      | none => none
      | some (power, rest) => some (sign ++ whole ++ places ++ power, rest)
where
  /-- A point and digits behind it, or nothing. -/
  fraction? : List Char → Option (List Char × List Char)
    | '.' :: rest =>
      let (ds, rest) := rest.span Char.isDigit
      if ds.isEmpty then none else some ('.' :: ds, rest)
    | rest => some ([], rest)
  exponent? : List Char → Option (List Char × List Char)
    | e :: rest =>
      if e = 'e' || e = 'E' then
        let (sign, rest) := match rest with
          | '+' :: rest => (['+'], rest)
          | '-' :: rest => (['-'], rest)
          | rest => ([], rest)
        let (ds, rest) := rest.span Char.isDigit
        if ds.isEmpty then none else some (e :: (sign ++ ds), rest)
      else some ([], e :: rest)
    | [] => some ([], [])

mutual

/-- A value and what follows it; `n` bounds the work. -/
def readValue : Nat → List Char → Option (Json × List Char)
  | 0, _ => none
  | n + 1, cs =>
    match skip cs with
    | 'n' :: 'u' :: 'l' :: 'l' :: rest => some (.null, rest)
    | 't' :: 'r' :: 'u' :: 'e' :: rest => some (.bool true, rest)
    | 'f' :: 'a' :: 'l' :: 's' :: 'e' :: rest => some (.bool false, rest)
    | '"' :: rest =>
      match stringChars? rest with
      | some (some s, rest) => some (.string (String.ofList s), rest)
      | some (none, rest) => some (.brokenString, rest)
      | none => none
    | '[' :: rest =>
      match skip rest with
      | ']' :: rest => some (.array [], rest)
      | rest => (readItems n rest).map fun (items, rest) => (.array items, rest)
    | '\x7b' :: rest =>
      match skip rest with
      | '\x7d' :: rest => some (.object [], rest)
      | rest => (readMembers n rest).map fun (members, rest) => (.object members, rest)
    | cs => (number? cs).map fun (text, rest) => (.number (String.ofList text), rest)

def readItems : Nat → List Char → Option (List Json × List Char)
  | 0, _ => none
  | n + 1, cs =>
    match readValue n cs with
    | none => none
    | some (item, rest) =>
      match skip rest with
      | ']' :: rest => some ([item], rest)
      | ',' :: rest => (readItems n rest).map fun (items, rest) => (item :: items, rest)
      | _ => none

def readMembers : Nat → List Char → Option (List (String × Json) × List Char)
  | 0, _ => none
  | n + 1, cs =>
    match skip cs with
    | '"' :: rest =>
      match stringChars? rest with
      | some (some name, rest) =>
        match skip rest with
        | ':' :: rest =>
          match readValue n rest with
          | none => none
          | some (value, rest) =>
            let member := (String.ofList name, value)
            match skip rest with
            | '\x7d' :: rest => some ([member], rest)
            | ',' :: rest => (readMembers n rest).map fun (members, rest) => (member :: members, rest)
            | _ => none
        | _ => none
      | _ => none
    | _ => none

end

def read? (text : String) : Option Json :=
  let cs := text.toList
  match readValue (2 * cs.length + 2) cs with
  | some (j, rest) => if (skip rest).isEmpty then some j else none
  | none => none

end SemanticLayer.Json
