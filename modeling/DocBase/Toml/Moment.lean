import DocBase.Text.Integer
import DocBase.Text.Reader
/-!
# Dates and times

A day of the calendar, a time of day, or a day with a time and perhaps an offset from universal
time. They are told apart from other values and not kept. Main statement: a number that is read lies
within the bounds of its field (`number_mem`).
-/

namespace DocBase.Toml

open Text Text.Reader

/-- A field of `n` digits, with the least and the greatest number it may hold. -/
def number (n low high : Nat) : Reader Nat := fun s =>
  if (s.take n).length = n then
    match readDigits 10 (high + 1) 0 (s.take n) with
    | .ok v => if low ≤ v then some (v, s.drop n) else none
    | .error _ => none
  else none

def isLeap (year : Nat) : Bool := year % 4 == 0 && (year % 100 != 0 || year % 400 == 0)

def daysIn (year month : Nat) : Nat :=
  match month with
  | 2 => if isLeap year then 29 else 28
  | 4 | 6 | 9 | 11 => 30
  | _ => 31

def day : Reader Unit := do
  let year ← number 4 0 9999
  let _ ← char '-'
  let month ← number 2 1 12
  let _ ← char '-'
  let _ ← number 2 1 (daysIn year month)

/-- Hours, minutes and seconds, of which the last may be a leap second and have a fraction. -/
def timeOfDay : Reader Unit := do
  let _ ← number 2 0 23
  let _ ← char ':'
  let _ ← number 2 0 59
  let _ ← char ':'
  let _ ← number 2 0 60
  let _ ← opt (char '.' *> span1 Char.isDigit)

/-- How far local time is ahead of universal time or behind it. -/
def offset : Reader Unit :=
  (do let _ ← next fun c => c == 'Z' || c == 'z') <|> do
    let _ ← next fun c => c == '+' || c == '-'
    let _ ← number 2 0 23
    let _ ← char ':'
    let _ ← number 2 0 59

/-- A day, a day with a time, or a time; only a day with a time has an offset. -/
def moment : Reader Unit :=
  (do
    day
    let _ ← opt do
      let _ ← next fun c => c == 'T' || c == 't' || c == ' '
      timeOfDay
      let _ ← opt offset) <|> timeOfDay

/-- A number that is read lies within the bounds of its field. -/
theorem number_mem {n low high v : Nat} {s rest : List Char}
    (h : number n low high s = some (v, rest)) : low ≤ v ∧ v ≤ high := by
  unfold number at h
  split at h
  · split at h
    · next hv =>
      split at h
      · next hl =>
        simp only [Option.some.injEq, Prod.mk.injEq] at h
        obtain ⟨rfl, _⟩ := h
        exact ⟨hl, Nat.le_of_lt_succ (readDigits_lt (Nat.succ_pos _) hv)⟩
      · simp at h
    · simp at h
  · simp at h

end DocBase.Toml
