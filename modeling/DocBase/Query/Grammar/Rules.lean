import DocBase.Query.Grammar.Token
import DocBase.Text.Integer
/-!
# The grammar of the query language

One rule per level of expressions, from `or` down to primary expressions; binary operators group to
the left, and at most one comparison stands between two operands. Layout may stand between any two
tokens. Rules for the inside of brackets and of `for` take the rule for single expressions as a
parameter, so only `single` recurs.

A literal integer that does not fit 64 bits is no syntax error: it is read, and reported once the
whole text has turned out to be well formed.
-/

namespace DocBase.Query.Grammar

/-- A literal integer beyond 64 bits, and the text from the literal on. -/
structure OutOfRange where
  digits : String
  onward : List Char
deriving DecidableEq, Repr

/-- What was read, or the first literal in it that is out of range. -/
abbrev Reading (α : Type) : Type := Except OutOfRange α

/-- The values of several readings in order. -/
def gather {α : Type} : List (Reading α) → Reading (List α)
  | [] => .ok []
  | r :: rs => do
    let a ← r
    let as ← gather rs
    return a :: as

/-! ## Primary expressions -/

/-- The value of an integer literal that a text begins with. -/
def integerValue (ds text : List Char) : Reading Expr :=
  match Text.readInt64 ds with
  | .ok i => .ok (.literal (.integer i))
  | .error _ => .error ⟨String.ofList ds, text⟩

def integerLiteral : Rule (Reading Expr) := Rule.named fun s =>
  (do return integerValue (← Rule.scan List.length digits?) s : Rule (Reading Expr)) s

/-- The text of a number token is always a decimal. -/
def doubleValue (ds : List Char) : Reading Expr :=
  .ok (.literal (.double ((Double.read? ds).getD Double.nan)))

def decimalLiteral : Rule (Reading Expr) := Rule.named do
  return doubleValue (← Rule.scan List.length decimal?)

def doubleLiteral : Rule (Reading Expr) := Rule.named do
  return doubleValue (← Rule.scan List.length scientific?)

def stringLiteral : Rule (Reading Expr) := Rule.named do
  return .ok (.literal (.string (String.ofList (← quoted))))

def literal : Rule (Reading Expr) :=
  -- a longer form begins like a shorter one, so it is tried first
  doubleLiteral.orElse (decimalLiteral.orElse (integerLiteral.orElse stringLiteral))

/-- A dollar sign and a name without layout between them. -/
def varName : Rule QName := Rule.named do
  mark "$"
  name

/-- Expressions between commas. -/
def commaList (single : Rule (Reading Expr)) : Rule (Reading (List Expr)) := do
  let first ← single
  let others ← Rule.many do
    layout
    mark ","
    layout
    single
  return gather (first :: others)

def expressions (single : Rule (Reading Expr)) : Rule (Reading (List Expr)) :=
  (commaList single).named

def parenthesized (single : Rule (Reading Expr)) : Rule (Reading Expr) := Rule.named do
  mark "("
  layout
  let items ← (expressions single).optional
  layout
  mark ")"
  return (items.getD (.ok [])).map .sequence

def contextItem : Rule (Reading Expr) := Rule.named do
  mark "."
  return .ok .contextItem

def call (single : Rule (Reading Expr)) : Rule (Reading Expr) := Rule.named do
  let function ← name
  layout
  mark "("
  layout
  let arguments ← (commaList single).optional
  layout
  mark ")"
  return (arguments.getD (.ok [])).map (.call function)

def primary (single : Rule (Reading Expr)) : Rule (Reading Expr) :=
  literal.orElse <| Rule.orElse (do let n ← varName; return .ok (.var n)) <|
    (parenthesized single).orElse <| contextItem.orElse (call single)

/-! ## Operators -/

/-- One expression stands for itself, several for their sequence. -/
def ofList : List Expr → Expr
  | [e] => e
  | es => .sequence es

def predicate (single : Rule (Reading Expr)) : Rule (Reading Expr) := Rule.named do
  mark "["
  layout
  let es ← expressions single
  layout
  mark "]"
  return es.map ofList

def filterLevel (single : Rule (Reading Expr)) : Rule (Reading Expr) := Rule.named do
  let input ← primary single
  let predicates ← Rule.many do
    layout
    predicate single
  return do
    -- the input stands before the predicates, and so does a fault in it
    let e ← input
    match ← gather predicates with
    | [] => return e
    | ps => return .filter e ps

/-- Applies operators from left to right. -/
def applyAll (first : Reading Expr) (others : List ((Expr → Expr → Expr) × Reading Expr)) :
    Reading Expr :=
  others.foldl (fun left (op, right) => do
    let l ← left
    let r ← right
    return op l r) first

/-- Operands with operators between them, grouped to the left. -/
def chain (operand : Rule (Reading Expr)) (operator : Rule (Expr → Expr → Expr)) :
    Rule (Reading Expr) := do
  let first ← operand
  let others ← Rule.many do
    layout
    let op ← operator
    layout
    let right ← operand
    return (op, right)
  return applyAll first others

/-- A rule that stands for a fixed value. -/
def means {α : Type} (p : Rule Unit) (a : α) : Rule α := do
  p
  return a

def exceptOperator : Rule (Expr → Expr → Expr) := Rule.named <|
  (means (keyword "intersect") (Expr.combine .intersect)).orElse
    (means (keyword "except") (Expr.combine .except))

def exceptLevel (single : Rule (Reading Expr)) : Rule (Reading Expr) :=
  (chain (filterLevel single) exceptOperator).named

def unionOperator : Rule (Expr → Expr → Expr) := Rule.named <|
  means ((keyword "union").orElse (mark "|")) (Expr.combine .union)

def unionLevel (single : Rule (Reading Expr)) : Rule (Reading Expr) :=
  (chain (exceptLevel single) unionOperator).named

/-- Longer marks are tried before the marks they begin with. -/
def comparisonOperator : Rule (Expr → Expr → Expr) := Rule.named <|
  (means (mark "!=") (Expr.compare .ne)).orElse <| (means (mark "<=") (Expr.compare .le)).orElse <|
    (means (mark ">=") (Expr.compare .ge)).orElse <| (means (mark "=") (Expr.compare .eq)).orElse <|
      (means (mark "<") (Expr.compare .lt)).orElse (means (mark ">") (Expr.compare .gt))

def comparisonLevel (single : Rule (Reading Expr)) : Rule (Reading Expr) := Rule.named do
  let first ← unionLevel single
  let second ← Rule.optional do
    layout
    let op ← comparisonOperator
    layout
    let right ← unionLevel single
    return (op, right)
  return applyAll first second.toList

def andLevel (single : Rule (Reading Expr)) : Rule (Reading Expr) :=
  (chain (comparisonLevel single) (means (keyword "and") (Expr.connect .and))).named

def orLevel (single : Rule (Reading Expr)) : Rule (Reading Expr) :=
  (chain (andLevel single) (means (keyword "or") (Expr.connect .or))).named

/-! ## Whole queries -/

def whereClause (single : Rule (Reading Expr)) : Rule (Reading Expr) := Rule.named do
  keyword "where"
  layout
  single

def forLoop (single : Rule (Reading Expr)) : Rule (Reading Expr) := Rule.named do
  keyword "for"
  layout
  let bound ← varName
  layout
  keyword "in"
  layout
  let input ← single
  layout
  let condition ← (whereClause single).optional
  layout
  keyword "return"
  layout
  let body ← single
  return do
    let i ← input
    let c ← match condition with
      | some r => r.map some
      | none => .ok none
    let b ← body
    return .forEach bound i c b

/-- A single expression in which brackets and loops are at most `n` deep. -/
def single : Nat → Rule (Reading Expr)
  | 0 => Rule.fail
  | n + 1 => (forLoop (single n)).orElse (orLevel (single n))

/-- A whole text. Every bracket or loop takes a character of it, so they are not nested deeper than
the text is long. -/
def query (s : List Char) : Match (Reading Expr) :=
  (Rule.named do
    layout
    let es ← expressions (single (s.length + 1))
    layout
    endOfText
    return es.map ofList) s

end DocBase.Query.Grammar
