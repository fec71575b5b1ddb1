/-! # Text between quotes

A quote inside quoted text is written twice. Text that already holds the quote twice, or behind a
backslash, is taken as escaped and kept.
-/

namespace SemanticLayer.Text

/-- The characters between two `quote`s, given the character written before them. -/
def escapeFrom (quote previous : Char) : List Char → List Char
  | [] => []
  | c :: rest =>
    if c = quote then
      if previous = '\\' then c :: escapeFrom quote previous rest
      else
        match rest with
        | d :: rest' =>
          if d = quote then c :: c :: escapeFrom quote c rest'
          else c :: c :: escapeFrom quote c (d :: rest')
        | [] => [c, c]
    else c :: escapeFrom quote c rest

def quoted (quote : Char) (s : String) : String :=
  String.ofList (quote :: (escapeFrom quote (Char.ofNat 0) s.toList ++ [quote]))

end SemanticLayer.Text
