import DocBase.Query.Grammar.Rules
/-!
# Reading queries

A query is read by the grammar. A text that is not well formed is reported where the farthest of the
rules tried on it began; a well-formed text may still hold an integer that is out of range, and the
first of them is reported.
-/

namespace DocBase.Query

inductive ParseFault where
  | malformed
  | integerOutOfRange (digits : String)
deriving DecidableEq, Repr

def ParseFault.message : ParseFault → String
  | .malformed => "syntax error"
  | .integerOutOfRange ds => "integer literal " ++ ds ++ " is out of range"

/-- What is wrong with a text and where, counted from one. -/
structure ParseError where
  fault : ParseFault
  line : Nat
  column : Nat
deriving DecidableEq, Repr

namespace ParseError

def message (e : ParseError) : String := e.fault.message

def text (e : ParseError) : String :=
  e.message ++ " at line " ++ toString e.line ++ ", column " ++ toString e.column

/-- A fault in a text behind its first `offset` characters. Lines end with a line feed. -/
def placed (s : List Char) (offset : Nat) (fault : ParseFault) : ParseError :=
  let before := s.take offset
  { fault
    line := 1 + before.count '\n'
    column := 1 + (before.reverse.takeWhile (· != '\n')).length }

end ParseError

/-- Reads a query. -/
def parse (text : String) : Except ParseError Expr :=
  let s := text.toList
  let m := Grammar.query s
  match m.result with
  | some (.ok e, _) => .ok e
  | some (.error r, _) =>
    .error (.placed s (s.length - r.onward.length) (.integerOutOfRange r.digits))
  | none => .error (.placed s (m.farthest.getD 0) .malformed)

end DocBase.Query
