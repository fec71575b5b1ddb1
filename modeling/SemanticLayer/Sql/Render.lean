import SemanticLayer.Sql.Height

/-! # SQL text

The one text of a tree: keywords in upper case, lists joined by a comma and a space, parentheses
exactly where they were written.
-/

namespace SemanticLayer.Sql

def commas (texts : List String) : String := ", ".intercalate texts

/-- A text with a space before it, nothing if it is empty. -/
def spaced (text : String) : String := if text.isEmpty then "" else " " ++ text

/-- Backslash escapes inside `E'...'`. -/
def escapedChar : Char → List Char
  | '\'' => ['\\', '\'']
  | '\\' => ['\\', '\\']
  | '\n' => ['\\', 'n']
  | '\t' => ['\\', 't']
  | '\r' => ['\\', 'r']
  | c => [c]

def hexCode (width n : Nat) : List Char :=
  let ds := (Nat.toDigits 16 n).map Char.toUpper
  List.replicate (width - ds.length) '0' ++ ds

/-- Code points inside `U&'...'`. -/
def unicodeChar (c : Char) : List Char :=
  match c with
  | '\'' => ['\'', '\'']
  | '\\' => ['\\', '\\']
  | c =>
    if c.toNat < 128 then [c]
    else if c.toNat ≤ 0xFFFF then '\\' :: hexCode 4 c.toNat
    else '\\' :: '+' :: hexCode 6 c.toNat

def Literal.render : Literal → String
  | .number digits long => if long then digits ++ "L" else digits
  | .quoted .plain content => Text.quoted '\'' content
  | .quoted .national content => "N'" ++ content ++ "'"
  | .quoted .hex content => "X'" ++ content ++ "'"
  | .quoted .escaped content => "E'" ++ String.ofList (content.toList.flatMap escapedChar) ++ "'"
  | .quoted .unicode content => "U&'" ++ String.ofList (content.toList.flatMap unicodeChar) ++ "'"
  | .quoted (.other before after) content => before ++ content ++ after
  | .word text => text

section Parts

variable {Q : Type} (nested : Q → String)

/-- The text of an expression, given the text of nested queries. -/
def Expr.renderWith : Expr Q → String
  | .ident name => name.render
  | .path parts => Path.render parts
  | .literal value => value.render
  | .binary op left right => left.renderWith ++ " " ++ op.render ++ " " ++ right.renderWith
  | .nested inner => "(" ++ inner.renderWith ++ ")"
  | .call name shape parts => Path.render name ++ shape.fill (renderAll parts)
  | .form shape parts => shape.fill (renderAll parts)
  | .query q => nested q
where
  /-- The texts of several expressions. -/
  renderAll : List (Expr Q) → List String
    | [] => []
    | part :: rest => part.renderWith :: renderAll rest

def aliasSuffix : Option Alias → String
  | none => ""
  | some label => " AS " ++ label.render

def JoinConstraint.suffix : JoinConstraint Q → String
  | .condition expr => " ON " ++ expr.renderWith nested
  | .columns names => " USING(" ++ commas (names.map Ident.render) ++ ")"
  | .natural | .none => ""

def JoinKind.around (kind : JoinKind Q) (constraint : JoinConstraint Q) (relation : String) : String :=
  let natural := match constraint with
    | .natural => "NATURAL "
    | _ => ""
  match kind with
  | .plain word => " " ++ natural ++ word ++ "JOIN " ++ relation ++ constraint.suffix nested
  | .cross => " CROSS JOIN " ++ relation
  | .crossApply => " CROSS APPLY " ++ relation
  | .outerApply => " OUTER APPLY " ++ relation
  | .asOf condition =>
    " ASOF JOIN " ++ relation ++ " MATCH_CONDITION (" ++ condition.renderWith nested ++ ")" ++
      constraint.suffix nested

mutual

def Relation.renderWith : Relation Q → String
  | .table name args ordinality label hints =>
    let call := match args with
      | none => ""
      | some args => "(" ++ commas (Expr.renderWith.renderAll nested args) ++ ")"
    Path.render name ++ call ++ (if ordinality then " WITH ORDINALITY" else "") ++
      aliasSuffix label ++ hints.renderWith nested
  | .derived lateral query label =>
    (if lateral then "LATERAL " else "") ++ "(" ++ nested query ++ ")" ++ aliasSuffix label
  | .nested first joins label =>
    "(" ++ first.renderWith ++ Join.renderAll joins ++ ")" ++ aliasSuffix label
  | .unnest arrays suffix => "UNNEST(" ++ commas (Expr.renderWith.renderAll nested arrays) ++ ")" ++ suffix
  | .pivot source turn => source.renderWith ++ turn.renderWith nested
  | .other construct => construct.renderWith nested

def Join.renderAll : List (Join Q) → String
  | [] => ""
  | .mk isGlobal kind relation constraint :: rest =>
    (if isGlobal then " GLOBAL" else "") ++ kind.around nested constraint relation.renderWith ++
      Join.renderAll rest

end

def FromItem.renderWith (item : FromItem Q) : String :=
  item.first.renderWith nested ++ Join.renderAll nested item.joins

def SelectItem.renderWith : SelectItem Q → String
  | .wildcard options => "*" ++ options.renderWith nested
  | .qualifiedWildcard name options => Path.render name ++ ".*" ++ options.renderWith nested
  | .expr e => e.renderWith nested
  | .aliased e label => e.renderWith nested ++ " AS " ++ label.render

def GroupBy.renderWith : GroupBy Q → String
  | .all modifiers => " GROUP BY ALL" ++ spaced modifiers
  | .exprs [] _ => ""
  | .exprs items modifiers =>
    " GROUP BY " ++ commas (Expr.renderWith.renderAll nested items) ++ spaced modifiers

def clause (word : String) : Option (Expr Q) → String
  | none => ""
  | some e => " " ++ word ++ " " ++ e.renderWith nested

def Select.renderWith (s : Select Q) : String :=
  "SELECT" ++ s.quantifier.renderWith nested ++ " " ++
    commas (s.items.map (SelectItem.renderWith nested)) ++
    (match s.into with
      | none => ""
      | some target => " " ++ target) ++
    (match s.source with
      | [] => ""
      | source => " FROM " ++ commas (source.map (FromItem.renderWith nested))) ++
    s.views.renderWith nested ++ clause nested "WHERE" s.filter ++ s.groupBy.renderWith nested ++
    s.distribution.renderWith nested ++ clause nested "HAVING" s.having ++
    s.windows.renderWith nested ++ clause nested "QUALIFY" s.qualify ++ s.trailer.renderWith nested

def Write.renderWith (w : Write Q) : String :=
  w.start ++ w.target.renderWith nested ++ w.change.renderWith nested ++
    (match w.source with
      | none => ""
      | some item => " FROM " ++ item.renderWith nested) ++
    w.trailer.renderWith nested

def Body.renderWith : Body Q → String
  | .select s => s.renderWith nested
  | .query q => "(" ++ nested q ++ ")"
  | .setOp word left right => left.renderWith ++ " " ++ word ++ " " ++ right.renderWith
  | .values rows explicitRow =>
    "VALUES " ++ commas (rows.map fun row =>
      (if explicitRow then "ROW" else "") ++ "(" ++ commas (Expr.renderWith.renderAll nested row) ++ ")")
  | .table name => "TABLE " ++ name
  | .write w => w.renderWith nested

def OrderItem.renderWith (item : OrderItem Q) : String :=
  item.expr.renderWith nested ++
    (match item.ascending with
      | none => ""
      | some true => " ASC"
      | some false => " DESC") ++
    (match item.nullsFirst with
      | none => ""
      | some true => " NULLS FIRST"
      | some false => " NULLS LAST")

def Cte.renderWith (cte : Cte Q) : String :=
  Alias.render ⟨cte.name, cte.columns⟩ ++ " AS " ++
    (match cte.materialized with
      | none => ""
      | some true => "MATERIALIZED "
      | some false => "NOT MATERIALIZED ") ++
    "(" ++ nested cte.query ++ ")" ++
    (match cte.origin with
      | none => ""
      | some name => " FROM " ++ name.render)

end Parts

def Query.renderWith (nested : Query → String) (q : Query) : String :=
  (match q.ctes with
    | [] => ""
    | ctes => "WITH " ++ (if q.recursive then "RECURSIVE " else "") ++
        commas (ctes.map (Cte.renderWith nested)) ++ " ") ++
    q.body.renderWith nested ++
    (match q.orderBy with
      | [] => ""
      | items => " ORDER BY " ++ commas (items.map (OrderItem.renderWith nested))) ++
    clause nested "LIMIT" q.limit ++ q.trailer.renderWith nested

def Query.renderAt : Nat → Query → String
  | 0, _ => ""
  | n + 1, q => q.renderWith (Query.renderAt n)

def Query.render (q : Query) : String := q.renderAt q.height

def Expr.render (e : Expr Query) : String := e.renderWith Query.render

def Relation.render (r : Relation Query) : String := r.renderWith Query.render

def Body.render (b : Body Query) : String := b.renderWith Query.render

def Statement.render : Statement → String
  | .query q => q.render
  | .command text => text

end SemanticLayer.Sql
