import SemanticLayer.Json.Basic

/-! # Writing JSON

Only the quote, the backslash and control characters are escaped. The pretty form indents by two
spaces and leaves empty arrays and objects on one line.
-/

namespace SemanticLayer.Json

def hexDigit (n : Nat) : Char := if n < 10 then Char.ofNat (48 + n) else Char.ofNat (87 + n)

def escapeChar (c : Char) : List Char :=
  match c with
  | '"' => ['\\', '"']
  | '\\' => ['\\', '\\']
  | '\n' => ['\\', 'n']
  | '\r' => ['\\', 'r']
  | '\t' => ['\\', 't']
  | c =>
    if c.toNat = 8 then ['\\', 'b']
    else if c.toNat = 12 then ['\\', 'f']
    else if c.toNat < 32 then ['\\', 'u', '0', '0', hexDigit (c.toNat / 16), hexDigit (c.toNat % 16)]
    else [c]

def quoteChars (s : String) : List Char := '"' :: (s.toList.flatMap escapeChar ++ ['"'])

def newLine (level : Nat) : List Char := '\n' :: List.replicate (2 * level) ' '

/-- The pretty form of a value whose lines are indented by a level. -/
def prettyChars (level : Nat) : Json → List Char
  | .null => "null".toList
  | .bool true => "true".toList
  | .bool false => "false".toList
  | .number text => text.toList
  | .string s => quoteChars s
  | .brokenString => "null".toList
  | .array [] => "[]".toList
  | .array (item :: items) =>
    '[' :: (newLine (level + 1) ++ item.prettyChars (level + 1) ++ prettyItems items ++
      newLine level ++ [']'])
  | .object [] => ['\x7b', '\x7d']
  | .object ((name, value) :: members) =>
    '\x7b' :: (newLine (level + 1) ++ quoteChars name ++ [':', ' '] ++ value.prettyChars (level + 1) ++
      prettyMembers members ++ newLine level ++ ['\x7d'])
where
  prettyItems : List Json → List Char
    | [] => []
    | item :: items =>
      ',' :: (newLine (level + 1) ++ item.prettyChars (level + 1) ++ prettyItems items)
  prettyMembers : List (String × Json) → List Char
    | [] => []
    | (name, value) :: members =>
      ',' :: (newLine (level + 1) ++ quoteChars name ++ [':', ' '] ++ value.prettyChars (level + 1) ++
        prettyMembers members)

def pretty (j : Json) : String := String.ofList (j.prettyChars 0)

def compact : Json → String
  | .null => "null"
  | .bool true => "true"
  | .bool false => "false"
  | .number text => text
  | .string s => String.ofList (quoteChars s)
  | .brokenString => "null"
  | .array items => "[" ++ ",".intercalate (compactItems items) ++ "]"
  | .object members => "\x7b" ++ ",".intercalate (compactMembers members) ++ "\x7d"
where
  compactItems : List Json → List String
    | [] => []
    | item :: items => item.compact :: compactItems items
  compactMembers : List (String × Json) → List String
    | [] => []
    | (name, value) :: members =>
      (String.ofList (quoteChars name) ++ ":" ++ value.compact) :: compactMembers members

end SemanticLayer.Json
