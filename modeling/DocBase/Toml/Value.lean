import DocBase.Double.Basic
/-!
# Values of a settings file

Texts, integers, numbers with a fraction, truth values, dates, arrays and tables. A record is
written as a table with one key per field, or as an array with the fields in order; other keys are
refused, while further elements of an array are not looked at.
-/

namespace DocBase.Toml

inductive Value where
  | text (value : String)
  | integer (value : Int64)
  | fraction (value : Double)
  | boolean (value : Bool)
  /-- A date or a time. No field takes one, so which one it is is not kept. -/
  | moment
  | array (elements : List Value)
  | table (entries : List (String × Value))
deriving Repr

namespace Value

def text? : Value → Option String
  | text s => some s
  | _ => none

def boolean? : Value → Option Bool
  | boolean b => some b
  | _ => none

/-- An integer that is not negative. -/
def nat? : Value → Option Nat
  | integer i => if 0 ≤ i.toInt then some i.toInt.toNat else none
  | _ => none

/-- An array whose elements `read` accepts. -/
def list? {α : Type} (read : Value → Option α) : Value → Option (List α)
  | array vs => vs.mapM read
  | _ => none

end Value

/-- The fields of a record. -/
structure Fields where
  given : List (String × Value)
  /-- Whether the fields were given in order. Then every field before the last must be there. -/
  inOrder : Bool

/-- The fields of a record with these names. -/
def Value.fields? (names : List String) : Value → Option Fields
  | .table entries => if entries.all (names.contains ·.1) then some ⟨entries, false⟩ else none
  | .array vs => some ⟨names.zip vs, true⟩
  | _ => none

namespace Fields

variable {α : Type}

def required (f : Fields) (name : String) (read : Value → Option α) : Option α :=
  (f.given.lookup name).bind read

/-- A field that may be left out. -/
def withDefault (f : Fields) (name : String) (read : Value → Option α) (default : α) : Option α :=
  match f.given.lookup name with
  | some v => read v
  | none => some default

/-- A field without a value of its own when it is left out; among fields in order it cannot be. -/
def optional (f : Fields) (name : String) (read : Value → Option α) : Option (Option α) :=
  match f.given.lookup name with
  | some v => (read v).map some
  | none => if f.inOrder then none else some none

end Fields
end DocBase.Toml
