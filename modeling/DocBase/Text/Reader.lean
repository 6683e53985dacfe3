/-!
# Readers

A reader takes a value off the front of a text and leaves the rest, or it fails; of two alternatives
the second is tried on the same text. Main statement: a repetition never fails (`many_isSome`).
-/

namespace DocBase.Text

abbrev Reader (α : Type) : Type := StateT (List Char) Option α

namespace Reader

variable {α β : Type}

/-- One character that satisfies `p`. -/
def next (p : Char → Bool) : Reader Char
  | [] => none
  | c :: s => if p c then some (c, s) else none

def char (c : Char) : Reader Char := next (· == c)

/-- The characters of `w`. -/
def word : List Char → Reader Unit
  | [], s => some ((), s)
  | c :: w, s => (char c s).bind fun (_, s) => word w s

/-- As many characters as satisfy `p`. -/
def span (p : Char → Bool) : Reader (List Char) := fun s => some (s.span p)

/-- As many characters as satisfy `p`, at least one. -/
def span1 (p : Char → Bool) : Reader (List Char) := fun s =>
  match s.span p with
  | ([], _) => none
  | found => some found

/-- The end of the text. -/
def atEnd : Reader Unit
  | [] => some ((), [])
  | _ => none

/-- A value or nothing. -/
def opt (p : Reader α) : Reader (Option α) := fun s =>
  match p s with
  | some (a, rest) => some (some a, rest)
  | none => some (none, s)

/-- As many values as can be read, at most one for each element of `clock`. -/
def upTo (p : Reader α) : (clock : List Char) → Reader (List α)
  | [], s => some ([], s)
  | _ :: clock, s =>
    match p s with
    | none => some ([], s)
    | some (a, rest) => (upTo p clock rest).map fun (as, rest) => (a :: as, rest)

/-- As many values as can be read. A reader that takes a character each time fails before the clock
runs out. -/
def many (p : Reader α) : Reader (List α) := fun s => upTo p s s

/-- Values with separators between them, or none at all. -/
def separated (p : Reader α) (separator : Reader β) : Reader (List α) :=
  (do
    let a ← p
    let as ← many (separator *> p)
    pure (a :: as)) <|> pure []

/-- The value of a whole text. -/
def whole (p : Reader α) (s : List Char) : Option α :=
  match p s with
  | some (a, []) => some a
  | _ => none

theorem upTo_isSome (p : Reader α) (clock s : List Char) : (upTo p clock s).isSome = true := by
  induction clock generalizing s with
  | nil => rfl
  | cons _ clock ih =>
    unfold upTo
    split
    · rfl
    · simpa using ih _

/-- A repetition never fails. -/
theorem many_isSome (p : Reader α) (s : List Char) : (many p s).isSome = true :=
  upTo_isSome p s s

end Reader
end DocBase.Text
