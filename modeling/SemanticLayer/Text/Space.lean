import SemanticLayer.Text.Range

/-! # White space

The property `White_Space` of the Unicode standard, and trimming by it.
-/

namespace SemanticLayer.Text

/-- The code points with the property `White_Space`. -/
def spaceRanges : Ranges :=
  [(9, 13), (32, 32), (133, 133), (160, 160), (5760, 5760), (8192, 8202), (8232, 8233),
   (8239, 8239), (8287, 8287), (12288, 12288)]

def isSpace (c : Char) : Bool := spaceRanges.has c

def trimEndChars (cs : List Char) : List Char := (cs.reverse.dropWhile isSpace).reverse

def trimChars (cs : List Char) : List Char := trimEndChars (cs.dropWhile isSpace)

def trim (s : String) : String := String.ofList (trimChars s.toList)

end SemanticLayer.Text
