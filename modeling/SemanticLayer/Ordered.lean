/-! # Ordered sets

Sets as ordered lists without repetition.
-/

namespace SemanticLayer

/-- Puts a value into an ordered list, unless it is there already. -/
def insertOrdered {α : Type} [BEq α] (le : α → α → Bool) (a : α) : List α → List α
  | [] => [a]
  | b :: rest =>
    if a == b then b :: rest
    else if le a b then a :: b :: rest
    else b :: insertOrdered le a rest

def insertName : String → List String → List String := insertOrdered (· ≤ ·)

def orderedNames (names : List String) : List String := names.foldr insertName []

end SemanticLayer
