import SemanticLayer.Text.Printable

/-! # Text as it is shown in messages

A shown text stands between double quotes; quotes, backslashes and what cannot be printed are
escaped.
-/

namespace SemanticLayer.Text

def hexDigits (n : Nat) : List Char := Nat.toDigits 16 n

def shownChar (c : Char) : List Char :=
  match c with
  | '"' => ['\\', '"']
  | '\\' => ['\\', '\\']
  | '\t' => ['\\', 't']
  | '\n' => ['\\', 'n']
  | '\r' => ['\\', 'r']
  | c =>
    if c.toNat = 0 then ['\\', '0']
    else if isPrintable c then [c]
    else ['\\', 'u', '\x7b'] ++ hexDigits c.toNat ++ ['\x7d']

def shown (s : String) : String := "\"" ++ String.ofList (s.toList.flatMap shownChar) ++ "\""

def shownSet (texts : List String) : String :=
  "\x7b" ++ ", ".intercalate ((texts.eraseDups.mergeSort (· ≤ ·)).map shown) ++ "\x7d"

end SemanticLayer.Text
