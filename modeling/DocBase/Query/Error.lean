import DocBase.Query.Builtin
import DocBase.Query.Parse
import DocBase.Query.Value
import DocBase.Store.Basic
/-!
# Query errors

Everything that may be wrong with a query or with running it. Each cause has a code, a kind (found
before the query runs, or while it runs) and a message; some stem from an error of another part,
which is told after them.
-/

namespace DocBase.Query

inductive ErrorCode where
  /-- Malformed query. -/
  | xpst0003
  /-- Undeclared variable. -/
  | xpst0008
  /-- Unknown function or wrong number of arguments. -/
  | xpst0017
  /-- No context item, or no value for a variable. -/
  | xpdy0002
  /-- Wrong type. -/
  | xpty0004
  /-- No boolean value. -/
  | forg0006
  /-- A resource could not be retrieved. -/
  | fodc0002
  /-- The uri of a resource is no string literal. -/
  | xqdb0001
  /-- Too many expressions. -/
  | xqdb0002
  /-- A lock was not taken. -/
  | lock0001
deriving DecidableEq, Repr

def ErrorCode.name : ErrorCode → String
  | .xpst0003 => "err:XPST0003"
  | .xpst0008 => "err:XPST0008"
  | .xpst0017 => "err:XPST0017"
  | .xpdy0002 => "err:XPDY0002"
  | .xpty0004 => "err:XPTY0004"
  | .forg0006 => "err:FORG0006"
  | .fodc0002 => "err:FODC0002"
  | .xqdb0001 => "err:XQDB0001"
  | .xqdb0002 => "err:XQDB0002"
  | .lock0001 => "err:LOCK0001"

inductive QueryError where
  | malformed (error : ParseError)
  | undeclared (name : String)
  | unknownFunction (name : QName) (arguments : Nat)
  | wrongArity (function : Builtin) (arguments : Nat)
  /-- The context item, or a function that reads its place, where no context item is established. -/
  | noFocus (function : Option Builtin)
  | resourceNotLiteral (function : Builtin)
  /-- Like `resourceNotLiteral`, found only when the query is run. -/
  | uriNotLiteral
  | tooManyExpressions
  /-- An expression that is part of itself. -/
  | circular
  | focusAbsent
  | noValue (name : String)
  | argumentMissing (function : Builtin)
  | incomparable (left right : Atomic)
  | notANumber (text : String)
  | notANode (operator : SetOperator) (value : Atomic)
  | notOneNode (function : Builtin) (items : Nat)
  | noBooleanValue
  | noDefaultCollection
  | retrieval (error : StoreError)
  | lock (error : Lock.Error)
deriving DecidableEq, Repr

namespace QueryError

def code : QueryError → ErrorCode
  | malformed _ => .xpst0003
  | undeclared _ => .xpst0008
  | unknownFunction _ _ | wrongArity _ _ | argumentMissing _ => .xpst0017
  | noFocus _ | focusAbsent | noValue _ => .xpdy0002
  | resourceNotLiteral _ | uriNotLiteral => .xqdb0001
  | tooManyExpressions | circular => .xqdb0002
  | incomparable _ _ | notANumber _ | notANode _ _ | notOneNode _ _ => .xpty0004
  | noBooleanValue => .forg0006
  | noDefaultCollection | retrieval _ => .fodc0002
  | lock _ => .lock0001

/-- Whether the error lies in the query itself, whatever it is run on. -/
def isStatic : QueryError → Bool
  | malformed _ | undeclared _ | unknownFunction _ _ | wrongArity _ _ | noFocus _
  | resourceNotLiteral _ | uriNotLiteral | tooManyExpressions | circular => true
  | _ => false

def kind (e : QueryError) : String := if e.isStatic then "static" else "dynamic"

/-- How set operators are called in messages. -/
def operatorName : SetOperator → String
  | .union => "Union"
  | .intersect => "Intersect"
  | .except => "Except"

def message : QueryError → String
  | malformed e => e.text
  | undeclared x => "variable $" ++ x ++ " is not declared"
  | unknownFunction f n => "unknown function " ++ f.text ++ "#" ++ toString n
  | wrongArity f n => f.name ++ " does not accept " ++ toString n ++ " argument(s)"
  | noFocus f =>
    (f.map Builtin.name).getD "the context item" ++
      " is used outside of a predicate or where clause"
  | resourceNotLiteral f =>
    f.name ++
      " expects string literal arguments so its documents can be locked before evaluation"
  | uriNotLiteral => "resource uri must be a string literal"
  | tooManyExpressions => "query has too many expressions"
  | circular => "query has an expression that is part of itself"
  | focusAbsent => "the context item is absent"
  | noValue x => "no value supplied for variable $" ++ x
  | argumentMissing f => f.name ++ " is called without its argument"
  | incomparable a b => "cannot compare " ++ a.typeName ++ " with " ++ b.typeName
  | notANumber s => "cannot convert '" ++ s ++ "' to a number"
  | notANode op v =>
    operatorName op ++ " operands must be nodes, found atomic value '" ++ v.text ++ "'"
  | notOneNode f n => f.name ++ " expects a single node, got " ++ toString n ++ " item(s)"
  | noBooleanValue =>
    "effective boolean value is not defined for a sequence of two or more atomic values"
  | noDefaultCollection => "collection() called without a default collection"
  | retrieval e => e.message
  | lock e =>
    "could not acquire " ++ e.mode.name ++ " lock on document " ++ toString e.document.toNat

/-- Kind, message and code. -/
def text (e : QueryError) : String :=
  e.kind ++ ": " ++ e.message ++ " (" ++ e.code.name ++ ")"

/-- The text of the error this one stems from. -/
def source? : QueryError → Option String
  | malformed e => some e.text
  | retrieval e => some e.message
  | lock e => some e.message
  | _ => none

/-- An error of the store met by a query. -/
def ofStore : StoreError → QueryError
  | .lock e => .lock e
  | e => .retrieval e

end QueryError
end DocBase.Query
