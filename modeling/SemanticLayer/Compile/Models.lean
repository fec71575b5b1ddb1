import SemanticLayer.Analysis.Query
import SemanticLayer.Compile.With

/-! # Models

A model becomes a WITH entry that selects its columns from its SQL text or from its base model, with
the columns its relationships join on.
-/

namespace SemanticLayer

open Sql (Query quotedName)

namespace Model

def item (c : Column) : String :=
  match c.relationship, c.sql? with
  | some relationship, _ => "'relationship<" ++ relationship ++ ">' AS " ++ quotedName c.name
  | none, some e => e ++ " AS " ++ quotedName c.name
  | none, none => quotedName c.name

def keysIn (model : String) (condition : Sql.Expr Query) : List String :=
  condition.deepNames.filterMap fun
    | [qualifier, column] => if qualifier.value == model then some column.value else none
    | _ => none

def joinKeys (l : Layer) (m : Model) : Except CompileError (List String) := do
  let keys ← (l.relationshipsOf m.name).mapM fun r =>
    match Sql.Expr.parseItem r.condition with
    | .error fault => throw (.badCondition r.condition fault)
    | .ok condition => return keysIn m.name condition
  return keys.flatten.eraseDups

/-- A SQL text without the space around it and the semicolons behind it. -/
def bareSql (sql : String) : String :=
  String.ofList (((Text.trim sql).toList.reverse.dropWhile (· == ';')).reverse)

def sourceSql (m : Model) : Except CompileError String :=
  match m.refSql, m.baseModel with
  | some sql, _ => .ok ("(" ++ bareSql sql ++ ") AS " ++ quotedName m.name)
  | none, some base => .ok (quotedName base ++ " AS " ++ quotedName m.name)
  | none, none => .error (.modelWithoutSource m.name)

def sql (l : Layer) (m : Model) : Except CompileError String := do
  let keys ← m.joinKeys l
  let hidden := keys.filter fun key => (m.column? key).isNone
  let items := m.columns.map item ++ hidden.map quotedName
  let source ← m.sourceSql
  let list := if items.isEmpty then "*" else Sql.commas items
  return "SELECT " ++ list ++ " FROM " ++ source

end Model

/-- Adds the entry of a model and those of its base models, unless they are there; at most `n` base
    models are followed. -/
def addModelUpTo (l : Layer) : Nat → List String → String → Query → Except CompileError Query
  | 0, _, name, _ => .error (.ownBaseModel name)
  | n + 1, visiting, name, q => do
    if With.has q name then return q
    if visiting.contains name then throw (.ownBaseModel name)
    let some m := l.model? name | throw (.modelNotFound name)
    let q ← match m.baseModel with
      | some base => addModelUpTo l n (name :: visiting) base q
      | none => pure q
    let body ← readQuery (← m.sql l)
    return With.push l name body q

def addModel (l : Layer) (name : String) (q : Query) : Except CompileError Query :=
  addModelUpTo l (l.manifest.models.length + 2) [] name q

def addModels (l : Layer) (names : List String) (q : Query) : Except CompileError Query :=
  names.foldlM (fun q name => addModel l name q) q

namespace Context

variable (c : Context)

def stripRelation (r : Sql.Relation Query) : Sql.Relation Query :=
  match r with
  | .table name args ordinality label hints =>
    if name.length ≤ 1 then r
    else
      match c.session.tableName name with
      | .error _ => r
      | .ok table =>
        if (c.kind? table).isSome then .table [.ofName table.table] args ordinality label hints else r
  | r => r

def strip (q : Query) : Query :=
  Id.run (q.edit { Sql.Edit.keep Id with relation := fun r => c.stripRelation r })

def viewsOf (statement : Query) : List String :=
  orderedNames (statement.relations.filter fun name => c.layer.kind? name == some .view)

def checkViewUpTo : Nat → List String → String → Except CompileError Unit
  | 0, path, name => .error (.viewCycle (path ++ [name]))
  | n + 1, path, name => do
    if path.contains name then throw (.viewCycle (path ++ [name]))
    let some view := c.layer.view? name | return ()
    let body ← readQuery view.statement
    (c.viewsOf body).forM (checkViewUpTo n (path ++ [name]))

def checkView (name : String) : Except CompileError Unit :=
  c.checkViewUpTo (c.layer.manifest.views.length + 2) [] name

def addView (q : Query) (name : String) : Except CompileError Query := do
  c.checkView name
  let some view := c.layer.view? name | throw (.viewNotFound name)
  let body ← readQuery view.statement
  return With.push c.layer name (c.strip body) q

def addViewsUpTo : Nat → Query → Except CompileError Query
  | 0, q => return q
  | n + 1, q => do
    let analysis ← c.analyze q
    match analysis.views.filter fun view => !With.has q view with
    | [] => return q
    | pending => addViewsUpTo n (← pending.foldlM c.addView q)

def addViews (q : Query) : Except CompileError Query :=
  c.addViewsUpTo (c.layer.manifest.views.length + 1) q

/-- Compiles the models and views of a query: each becomes a WITH entry. -/
def compileModels (q : Query) : Except CompileError Query := do
  let q ← c.addViews (c.strip q)
  let analysis ← c.analyze q
  return With.sort (← addModels c.layer analysis.models q)

end Context

end SemanticLayer
