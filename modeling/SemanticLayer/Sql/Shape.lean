/-! # Written shapes

Most of SQL is carried along unread. Such a construct is kept as its written shape: pieces of text
with holes, and the expressions that fill the holes. Holes are numbered, because a few constructs
are walked in another order than they are written.
-/

namespace SemanticLayer.Sql

inductive Piece where
  | text (s : String)
  /-- The place of the `index`-th part. -/
  | hole (index : Nat)
  deriving Repr, DecidableEq, BEq

/-- Text with numbered holes. -/
abbrev Shape := List Piece

namespace Shape

/-- Renumbers the holes to start `n` places later. -/
def shift (n : Nat) (shape : Shape) : Shape :=
  shape.map fun
    | .text s => .text s
    | .hole i => .hole (n + i)

def fill (parts : List String) (shape : Shape) : String :=
  String.join (shape.map fun
    | .text s => s
    | .hole i => parts.getD i "")

end Shape

end SemanticLayer.Sql
