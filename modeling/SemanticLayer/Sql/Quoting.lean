import SemanticLayer.Sql.Keyword
import SemanticLayer.Sql.Name

/-! # Quoting names

A name that comes from outside a query is quoted when it would not read back as a name.
-/

namespace SemanticLayer.Sql

def startsBare (c : Char) : Bool := c.isAlpha || c == '_'

def continuesBare (c : Char) : Bool := c.isAlphanum || c == '_'

def isBare (name : String) : Bool :=
  match name.toList with
  | [] => false
  | c :: rest =>
    startsBare c && rest.all continuesBare &&
      !(reservedForTables.contains (Text.upperAscii name) ||
        reservedForColumns.contains (Text.upperAscii name))

def Ident.ofName (name : String) : Ident :=
  if isBare name then { value := name } else { value := name, quote := some '"' }

def quotedName (name : String) : String := (Ident.ofName name).render

end SemanticLayer.Sql
