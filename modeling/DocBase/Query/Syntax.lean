import DocBase.Double.Text
import DocBase.Text.Cut
/-!
# Query expressions

The expressions of the query language as they are written, before names are resolved: literals,
variables, the context item, sequences, filters with predicates, `for` with an optional `where`,
comparisons, `and`/`or`, set operators and function calls.
-/

namespace DocBase.Query

/-- A name with an optional qualifier before a colon. -/
structure QName where
  qualifier : Option String
  name : String
deriving DecidableEq, Repr

namespace QName

/-- A text is cut at its first colon. -/
def parse (s : String) : QName :=
  match Text.cutFirst ':' s.toList with
  | some (q, n) => ⟨some (String.ofList q), String.ofList n⟩
  | none => ⟨none, s⟩

def text (n : QName) : String :=
  match n.qualifier with
  | some q => q ++ ":" ++ n.name
  | none => n.name

end QName

inductive Literal where
  | integer (value : Int64)
  | double (value : Double)
  | string (value : String)
deriving DecidableEq, Repr

/-- Comparisons hold between two sequences when they hold between some of their items. -/
inductive Comparison where
  | eq
  | ne
  | lt
  | le
  | gt
  | ge
deriving DecidableEq, Repr

inductive Connective where
  | and
  | or
deriving DecidableEq, Repr

inductive SetOperator where
  | union
  | intersect
  | except
deriving DecidableEq, Repr

inductive Expr where
  | literal (value : Literal)
  | var (name : QName)
  | contextItem
  /-- Items between commas, and whatever stands in parentheses. -/
  | sequence (items : List Expr)
  | filter (input : Expr) (predicates : List Expr)
  | forEach (bound : QName) (input : Expr) (condition : Option Expr) (body : Expr)
  | compare (op : Comparison) (left right : Expr)
  | connect (op : Connective) (left right : Expr)
  | combine (op : SetOperator) (left right : Expr)
  | call (function : QName) (arguments : List Expr)
deriving Repr

namespace Comparison

def symbol : Comparison → String
  | eq => "="
  | ne => "!="
  | lt => "<"
  | le => "<="
  | gt => ">"
  | ge => ">="

end Comparison

def Connective.symbol : Connective → String
  | .and => "and"
  | .or => "or"

def SetOperator.symbol : SetOperator → String
  | .union => "union"
  | .intersect => "intersect"
  | .except => "except"

end DocBase.Query
