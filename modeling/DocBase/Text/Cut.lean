/-!
# Cutting texts at a character

A text is cut at the first or at the last place where a character stands. Main statement: the two
parts of the last cut and the character between them make up the text, and the character does not
stand behind the cut (`cutLast_eq`).
-/

namespace DocBase.Text

/-- The parts before and after the first `c`. -/
def cutFirst (c : Char) : List Char → Option (List Char × List Char)
  | [] => none
  | x :: xs =>
    if x = c then some ([], xs)
    else (cutFirst c xs).map fun (front, back) => (x :: front, back)

/-- The parts before and after the last `c`. -/
def cutLast (c : Char) : List Char → Option (List Char × List Char)
  | [] => none
  | x :: xs =>
    match cutLast c xs with
    | some (front, back) => some (x :: front, back)
    | none => if x = c then some ([], xs) else none

theorem cutLast_eq_none {c : Char} {s : List Char} : cutLast c s = none ↔ c ∉ s := by
  induction s with
  | nil => simp [cutLast]
  | cons x xs ih =>
    cases h : cutLast c xs with
    | some p =>
      have : c ∈ xs := by
        apply Classical.byContradiction
        intro hn
        simp [ih.2 hn] at h
      simp [cutLast, h, this]
    | none =>
      by_cases hx : x = c
      · simp [cutLast, h, hx]
      · simp [cutLast, h, hx, ih.1 h, Ne.symm hx]

/-- The last cut leaves no further `c` behind it. -/
theorem cutLast_eq {c : Char} {s front back : List Char} (h : cutLast c s = some (front, back)) :
    s = front ++ c :: back ∧ c ∉ back := by
  induction s generalizing front with
  | nil => simp [cutLast] at h
  | cons x xs ih =>
    cases hc : cutLast c xs with
    | some p =>
      simp only [cutLast, hc, Option.some.injEq, Prod.mk.injEq] at h
      obtain ⟨rfl, rfl⟩ := h
      have := ih hc
      exact ⟨by simp [this.1], this.2⟩
    | none =>
      by_cases hx : x = c
      · simp only [cutLast, hc, hx, if_true, Option.some.injEq, Prod.mk.injEq] at h
        obtain ⟨rfl, rfl⟩ := h
        exact ⟨by simp [hx], cutLast_eq_none.1 hc⟩
      · simp [cutLast, hc, hx] at h

end DocBase.Text
