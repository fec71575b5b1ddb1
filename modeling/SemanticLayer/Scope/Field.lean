import SemanticLayer.Layer

/-! # Fields

A field is a column that a name in a query can mean. It answers to its own name, alone or behind the
last parts of what its relation is called.
-/

namespace SemanticLayer

abbrev DottedName := List String

namespace DottedName

def render (name : DottedName) : String := ".".intercalate name

/-- The last part, empty if there is none. -/
def suffix (name : DottedName) : String := name.getLast?.getD ""

/-- Everything before the last part, if there is anything. -/
def qualifier? (name : DottedName) : Option DottedName :=
  if name.length > 1 then some name.dropLast else none

end DottedName

structure Field where
  table : TableName
  column : String
  name : String
  /-- What the relation is called in the query, if it has an alias. -/
  label : Option DottedName := none
  typeName : String
  relationship : Option String := none
  /-- The model a relationship leads to. -/
  target : Option String := none
  deriving Repr, DecidableEq, BEq

namespace Field

def plain (table : TableName) (name typeName : String) : Field :=
  { table, column := name, name, typeName }

def ofColumn (table : TableName) (c : Column) : Field :=
  { plain table c.name c.typeName with
    relationship := c.relationship
    target := c.relationship.map fun _ => c.typeName }

def isRelationship (f : Field) : Bool := f.relationship.isSome

def relationName (f : Field) : DottedName :=
  f.label.getD [f.table.catalog, f.table.schema, f.table.table]

/-- The name a query puts before the field. -/
def qualifier (f : Field) : String := DottedName.suffix f.relationName

def answersTo (f : Field) (name : DottedName) : Bool :=
  DottedName.suffix name == f.name &&
    match DottedName.qualifier? name with
    | none => true
    | some qualifier => qualifier.isSuffixOf f.relationName

def relabel (label : String) (f : Field) : Field := { f with label := some [label] }

end Field

end SemanticLayer
