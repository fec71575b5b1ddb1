import SemanticLayer.Layer

/-! # Maps by full name -/

namespace SemanticLayer

/-- A map from the full names of objects. -/
abbrev KeyMap (α : Type) := List (TableName × α)

namespace KeyMap

variable {α : Type}

def get? (m : KeyMap α) (key : TableName) : Option α := (m.find? (·.1 == key)).map (·.2)

def has (m : KeyMap α) (key : TableName) : Bool := (m.get? key).isSome

def erase (m : KeyMap α) (key : TableName) : KeyMap α := m.filter (·.1 != key)

def set (m : KeyMap α) (key : TableName) (value : α) : KeyMap α := (key, value) :: m.erase key

def keys (m : KeyMap α) : List TableName := m.map (·.1)

end KeyMap

end SemanticLayer
