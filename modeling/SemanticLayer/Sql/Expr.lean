import SemanticLayer.Sql.Name
import SemanticLayer.Sql.Shape

/-! # Expressions

An expression keeps apart what the compiler looks at (names, literals, comparisons, conjunctions,
parentheses, function names, nested queries) and holds everything else as a written shape. The type
of nested queries is a parameter, so every walk over an expression is structural.
-/

namespace SemanticLayer.Sql

inductive Quoting where
  | plain
  | national
  | hex
  | escaped
  | unicode
  /-- Any other form, with the text before and after the content. -/
  | other (before after : String)
  deriving Repr, DecidableEq, BEq

inductive Literal where
  /-- A number as written; `long` if an `L` follows it. -/
  | number (digits : String) (long : Bool)
  | quoted (kind : Quoting) (content : String)
  /-- `true`, `false`, `NULL` and placeholders. -/
  | word (text : String)
  deriving Repr, DecidableEq, BEq

/-- A binary operator. Only conjunction and the comparisons are looked at. -/
inductive Operator where
  | and
  | eq
  | notEq
  | lt
  | ltEq
  | gt
  | gtEq
  | other (text : String)
  deriving Repr, DecidableEq, BEq

namespace Operator

def render : Operator → String
  | .and => "AND"
  | .eq => "="
  | .notEq => "<>"
  | .lt => "<"
  | .ltEq => "<="
  | .gt => ">"
  | .gtEq => ">="
  | .other text => text

def isComparison : Operator → Bool
  | .eq | .notEq | .lt | .ltEq | .gt | .gtEq => true
  | .and | .other _ => false

end Operator

/-- An expression over nested queries of type `Q`. -/
inductive Expr (Q : Type) where
  /-- A bare name. -/
  | ident (name : Ident)
  | path (parts : Path)
  | literal (value : Literal)
  | binary (op : Operator) (left right : Expr Q)
  | nested (inner : Expr Q)
  /-- A function call: its name, and everything after the name. -/
  | call (name : Path) (shape : Shape) (parts : List (Expr Q))
  | form (shape : Shape) (parts : List (Expr Q))
  /-- A nested query, without the parentheses around it. -/
  | query (q : Q)

namespace Expr

variable {Q : Type}

def empty : Expr Q := .form [] []

def text (s : String) : Expr Q := .form [.text s] []

/-- What a walk does with names, function names and nested queries. -/
structure Walk (m : Type → Type) (Q R : Type) where
  /-- A bare name. -/
  ident : Ident → m (Expr R)
  path : Path → m (Expr R)
  /-- The name of a function. -/
  call : Path → Path
  query : Q → m R

variable {R : Type} {m : Type → Type} [Monad m]

def Walk.keep (m : Type → Type) [Monad m] (Q : Type) : Walk m Q Q where
  ident name := pure (.ident name)
  path parts := pure (.path parts)
  call name := name
  query q := pure q

/-- Walks an expression, parents before children. -/
def walk (w : Walk m Q R) : Expr Q → m (Expr R)
  | .ident name => w.ident name
  | .path parts => w.path parts
  | .literal value => pure (.literal value)
  | .binary op left right => do
    let left ← left.walk w
    let right ← right.walk w
    return .binary op left right
  | .nested inner => do return .nested (← inner.walk w)
  | .call name shape parts => do return .call (w.call name) shape (← walkAll parts)
  | .form shape parts => do return .form shape (← walkAll parts)
  | .query q => do return .query (← w.query q)
where
  /-- Walks expressions from the first to the last. -/
  walkAll : List (Expr Q) → m (List (Expr R))
    | [] => pure []
    | part :: rest => do
      let part ← part.walk w
      let rest ← walkAll rest
      return part :: rest

/-- The names an expression refers to, in the order of walking. Names inside nested queries do not
    count. -/
def names : Expr Q → List Path
  | .ident name => [[name]]
  | .path parts => [parts]
  | .literal _ => []
  | .binary _ left right => left.names ++ right.names
  | .nested inner => inner.names
  | .call _ _ parts => namesAll parts
  | .form _ parts => namesAll parts
  | .query _ => []
where
  namesAll : List (Expr Q) → List Path
    | [] => []
    | part :: rest => part.names ++ namesAll rest

/-- The queries nested in an expression, in the order of walking. -/
def queries : Expr Q → List Q
  | .ident _ | .path _ | .literal _ => []
  | .binary _ left right => left.queries ++ right.queries
  | .nested inner => inner.queries
  | .call _ _ parts => queriesAll parts
  | .form _ parts => queriesAll parts
  | .query q => [q]
where
  /-- The queries nested in several expressions. -/
  queriesAll : List (Expr Q) → List Q
    | [] => []
    | part :: rest => part.queries ++ queriesAll rest

end Expr

end SemanticLayer.Sql
