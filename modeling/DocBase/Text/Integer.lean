/-!
# Reading integers

Whole numbers written in a radix, with an optional sign, that have to fit a fixed width. Reading
stops at the first character that is no digit or carries the number out of its range, so of two
faults the first in the text is reported.
-/

namespace DocBase.Text

/-- Why a text is not an integer of the width asked for. -/
inductive IntegerFault where
  | empty
  | invalidDigit
  | tooLarge
deriving DecidableEq, Repr

def IntegerFault.message : IntegerFault → String
  | .empty => "cannot parse integer from empty string"
  | .invalidDigit => "invalid digit found in string"
  | .tooLarge => "number too large to fit in target type"

/-- The value of a digit; letters of either case follow the digits. -/
def digitValue? (radix : Nat) (c : Char) : Option Nat :=
  let d :=
    if '0' ≤ c ∧ c ≤ '9' then c.toNat - '0'.toNat
    else if 'a' ≤ c ∧ c ≤ 'z' then c.toNat - 'a'.toNat + 10
    else if 'A' ≤ c ∧ c ≤ 'Z' then c.toNat - 'A'.toNat + 10
    else radix
  if d < radix then some d else none

/-- The digits of a number below `bound`, the digits before them being worth `value`. -/
def readDigits (radix bound : Nat) : Nat → List Char → Except IntegerFault Nat
  | value, [] => .ok value
  | value, c :: cs =>
    match digitValue? radix c with
    | none => .error .invalidDigit
    | some d =>
      let next := value * radix + d
      if next < bound then readDigits radix bound next cs else .error .tooLarge

/-- An unsigned number below `bound`; a plus sign may precede it. -/
def readUnsigned (radix bound : Nat) : List Char → Except IntegerFault Nat
  | [] => .error .empty
  | '+' :: [] => .error .invalidDigit
  | '+' :: cs => readDigits radix bound 0 cs
  | cs => readDigits radix bound 0 cs

/-- A decimal number of 64 bits with an optional sign. -/
def readInt64 : List Char → Except IntegerFault Int64
  | [] => .error .empty
  | '-' :: [] => .error .invalidDigit
  | '-' :: cs => (readDigits 10 ((1 <<< 63) + 1) 0 cs).map fun n => Int64.ofInt (-(n : Int))
  | cs => (readUnsigned 10 (1 <<< 63) cs).map fun n => Int64.ofInt (n : Int)

/-- Without a sign, all characters are digits. -/
theorem readInt64_unsigned {c : Char} (hminus : c ≠ '-') (hplus : c ≠ '+') (cs : List Char) :
    readInt64 (c :: cs) =
      match readDigits 10 (1 <<< 63) 0 (c :: cs) with
      | .ok n => .ok (Int64.ofInt n)
      | .error e => .error e := by
  have hunsigned : readUnsigned 10 (1 <<< 63) (c :: cs) = readDigits 10 (1 <<< 63) 0 (c :: cs) := by
    rw [readUnsigned.eq_def]
    split <;> simp_all
  rw [readInt64.eq_def, ← hunsigned]
  split
  · simp_all
  · simp_all
  · simp_all
  · cases readUnsigned 10 (1 <<< 63) (c :: cs) <;> rfl

/-- A number that was read is in range. -/
theorem readDigits_lt {radix bound value n : Nat} {cs : List Char} (hv : value < bound)
    (h : readDigits radix bound value cs = .ok n) : n < bound := by
  induction cs generalizing value with
  | nil => simp only [readDigits, Except.ok.injEq] at h; omega
  | cons c cs ih =>
    simp only [readDigits] at h
    split at h
    · simp at h
    · split at h
      · next hn => exact ih hn h
      · simp at h

end DocBase.Text
