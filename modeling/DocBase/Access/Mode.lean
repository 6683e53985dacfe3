import DocBase.Text.Blank
import DocBase.Text.Integer
/-!
# Modes in octal

The mode of a permission is written with octal digits, with or without `0o` before them. Main
statement: a mode that was read has nine bits (`parse_lt`).
-/

namespace DocBase.Mode

/-- Why a text is no mode. -/
inductive Fault where
  | notOctal (text : String) (fault : Text.IntegerFault)
  | outOfRange (text : String)
deriving DecidableEq, Repr

namespace Fault

def message : Fault → String
  | notOctal s _ => "invalid octal mode '" ++ s ++ "'"
  | outOfRange s => "mode '" ++ s ++ "' is out of range"

/-- What the fault comes from. -/
def source? : Fault → Option String
  | notOctal _ f => some f.message
  | outOfRange _ => none

end Fault

/-- Leaves out the marks of octal numbers at the front, however many there are. -/
def dropMarks : List Char → List Char
  | '0' :: 'o' :: s => dropMarks s
  | s => s

/-- Reads a mode; blanks around it do not count. -/
def parse (text : String) : Except Fault Nat :=
  match Text.readUnsigned 8 (1 <<< 32) (dropMarks (Text.trim text.toList)) with
  | .error f => .error (.notOctal text f)
  | .ok n => if n < 0o1000 then .ok n else .error (.outOfRange text)

/-- A mode that was read has nine bits. -/
theorem parse_lt {text : String} {n : Nat} (h : parse text = .ok n) : n < 0o1000 := by
  unfold parse at h
  split at h
  · simp at h
  · split at h
    · next hn => simp only [Except.ok.injEq] at h; omega
    · simp at h

end DocBase.Mode
