import SemanticLayer.Text.Quoted

/-! # Names

An identifier keeps its spelling and its quotes; a path is a dotted name.
-/

namespace SemanticLayer.Sql

structure Ident where
  value : String
  /-- The opening quote, if the identifier is quoted. -/
  quote : Option Char := none
  deriving Repr, DecidableEq, BEq, Inhabited

namespace Ident

def render (i : Ident) : String :=
  match i.quote with
  | none => i.value
  | some '[' => "[" ++ i.value ++ "]"
  | some q => Text.quoted q i.value

end Ident

abbrev Path := List Ident

namespace Path

def render (p : Path) : String := ".".intercalate (p.map Ident.render)

def values (p : Path) : List String := p.map Ident.value

end Path

/-- The name a relation gets in a FROM clause, with names for its columns. -/
structure Alias where
  name : Ident
  columns : List Ident := []
  deriving Repr, DecidableEq, BEq

namespace Alias

def render (a : Alias) : String :=
  match a.columns with
  | [] => a.name.render
  | columns => a.name.render ++ " (" ++ ", ".intercalate (columns.map Ident.render) ++ ")"

end Alias

end SemanticLayer.Sql
