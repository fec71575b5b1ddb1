/-! # Finding text -/

namespace SemanticLayer.Text

def occursInChars (part : List Char) : List Char → Bool
  | [] => part.isEmpty
  | c :: rest => part.isPrefixOf (c :: rest) || occursInChars part rest

def occursIn (part whole : String) : Bool := occursInChars part.toList whole.toList

/-- The characters in front of the first occurrence of a part, and those behind it. -/
def splitChars? (part : List Char) : List Char → Option (List Char × List Char)
  | [] => if part.isEmpty then some ([], []) else none
  | c :: rest =>
    if part.isPrefixOf (c :: rest) then some ([], (c :: rest).drop part.length)
    else (splitChars? part rest).map fun (before, after) => (c :: before, after)

/-- Replaces every occurrence of a part, from the left; `n` bounds the length of the text. -/
def replaceChars (part replacement : List Char) : Nat → List Char → List Char
  | 0, cs => cs
  | n + 1, cs =>
    match splitChars? part cs with
    | none => cs
    | some (before, after) => before ++ replacement ++ replaceChars part replacement n after

def replace (part replacement s : String) : String :=
  if part.isEmpty then s
  else String.ofList (replaceChars part.toList replacement.toList s.toList.length s.toList)

end SemanticLayer.Text
