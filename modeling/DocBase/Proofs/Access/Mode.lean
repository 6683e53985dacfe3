import DocBase.Access.Mode
import DocBase.Proofs.Text.Integer
/-!
# Which texts are modes

A mode is written with octal digits, of which the first ones may be zeros, and with blanks around
them. A mark `0o` may stand before them; so may several, since marks are dropped for as long as
there are any, and a plus sign, since the digits are read as those of any number. Main statements:

* `exists_eq_marks_append` and `dropMarks_marks_append` — which marks are dropped;
* `parse_iff_spells` — the texts that are modes, those that are too large, and no others;
* `not_parse_iff_marked_once` — they are more than those with one mark at most and no sign.
-/

namespace DocBase.Mode

open Text (sign)

variable {s rest digits : List Char} {text : String} {m : Nat}

/-- So many marks of octal numbers, one behind the other. -/
def marks : Nat → List Char
  | 0 => []
  | n + 1 => '0' :: 'o' :: marks n

/-- Without the blanks around it, the text is made of so many marks, a plus sign or none, and octal
digits of the number. -/
def Spells (text : String) (marked : Nat) (plus : Bool) (m : Nat) : Prop :=
  ∃ digits, Text.trim text.toList = marks marked ++ (sign plus ++ digits) ∧ digits ≠ [] ∧
    (∀ d ∈ digits, '0' ≤ d ∧ d ≤ '7') ∧ Nat.ofDigitChars 8 digits 0 = m

/-! ## Marks -/

theorem exists_eq_marks_append (s : List Char) : ∃ n, s = marks n ++ dropMarks s := by
  fun_induction dropMarks s with
  | case1 s ih =>
    rcases ih with ⟨n, hn⟩
    exact ⟨n + 1, congrArg (fun r => '0' :: 'o' :: r) hn⟩
  | case2 s _ => exact ⟨0, rfl⟩

/-- Marks are dropped up to where there is none. -/
theorem dropMarks_marks_append (h : ∀ r, rest ≠ '0' :: 'o' :: r) (n : Nat) :
    dropMarks (marks n ++ rest) = rest := by
  induction n with
  | zero =>
    show dropMarks rest = rest
    unfold dropMarks
    split
    · next r => exact absurd rfl (h r)
    · rfl
  | succ n ih => exact ih

/-- Neither a sign nor a digit is taken for a mark. -/
theorem ne_mark_of_digits (hdigits : ∀ d ∈ digits, '0' ≤ d ∧ d ≤ '7') (plus : Bool) (r : List Char) :
    sign plus ++ digits ≠ '0' :: 'o' :: r := by
  intro h
  cases plus with
  | true => simp [sign] at h
  | false =>
    obtain rfl : digits = '0' :: 'o' :: r := h
    exact absurd (hdigits 'o' (by simp)).2 (by decide)

/-! ## Texts -/

/-- What is read behind the marks of a text is the number it spells. -/
theorem readUnsigned_dropMarks_iff :
    Text.readUnsigned 8 (1 <<< 32) (dropMarks (Text.trim text.toList)) = .ok m ↔
      (∃ marked plus, Spells text marked plus m) ∧ m < 1 <<< 32 := by
  rw [Text.readUnsigned_eq_ok_iff (by decide) (by decide) (by decide)]
  simp only [Text.isFigure_iff 8 '7' rfl]
  constructor
  · rintro ⟨plus, digits, hdrop, hne, hdigits, hvalue, hlt⟩
    rcases exists_eq_marks_append (Text.trim text.toList) with ⟨marked, hmarks⟩
    rw [hdrop] at hmarks
    exact ⟨⟨marked, plus, digits, hmarks, hne, hdigits, hvalue⟩, hlt⟩
  · rintro ⟨⟨marked, plus, digits, hmarks, hne, hdigits, hvalue⟩, hlt⟩
    refine ⟨plus, digits, ?_, hne, hdigits, hvalue, hlt⟩
    rw [hmarks, dropMarks_marks_append (ne_mark_of_digits hdigits plus)]

theorem parse_eq_ok_iff :
    parse text = .ok m ↔
      Text.readUnsigned 8 (1 <<< 32) (dropMarks (Text.trim text.toList)) = .ok m ∧ m ≤ 0o777 := by
  unfold parse
  cases Text.readUnsigned 8 (1 <<< 32) (dropMarks (Text.trim text.toList)) with
  | error fault => simp
  | ok n =>
    dsimp only
    split
    · simp only [Except.ok.injEq, iff_self_and]
      omega
    · simp only [reduceCtorEq, Except.ok.injEq, false_iff, not_and]
      omega

theorem parse_eq_outOfRange_iff :
    parse text = .error (.outOfRange text) ↔ ∃ m,
      Text.readUnsigned 8 (1 <<< 32) (dropMarks (Text.trim text.toList)) = .ok m ∧ 0o777 < m := by
  unfold parse
  cases Text.readUnsigned 8 (1 <<< 32) (dropMarks (Text.trim text.toList)) with
  | error fault => simp
  | ok n =>
    dsimp only
    split
    · simp only [reduceCtorEq, Except.ok.injEq, exists_eq_left', false_iff]
      omega
    · simp only [Except.ok.injEq, exists_eq_left', true_iff]
      omega

/-- A text is read as a mode exactly if it spells this mode, with any number of marks, with a plus
sign or without, and the mode has nine bits. It is out of range exactly if it spells a greater
number of 32 bits. -/
theorem parse_iff_spells (text : String) :
    (∀ m, parse text = .ok m ↔ m ≤ 0o777 ∧ ∃ marked plus, Spells text marked plus m) ∧
    (parse text = .error (.outOfRange text) ↔
      ∃ m, 0o777 < m ∧ m < UInt32.size ∧ ∃ marked plus, Spells text marked plus m) := by
  constructor
  · -- a mode is in range if it has nine bits, and those are far below the bound of what is read
    intro m
    rw [parse_eq_ok_iff, readUnsigned_dropMarks_iff]
    constructor
    · rintro ⟨⟨hspells, -⟩, hle⟩
      exact ⟨hle, hspells⟩
    · rintro ⟨hle, hspells⟩
      exact ⟨⟨hspells, Nat.lt_of_le_of_lt hle (by decide)⟩, hle⟩
  · rw [parse_eq_outOfRange_iff]
    refine exists_congr fun m => ?_
    rw [readUnsigned_dropMarks_iff]
    constructor
    · rintro ⟨⟨hspells, hlt⟩, hgreat⟩
      exact ⟨hgreat, hlt, hspells⟩
    · rintro ⟨hgreat, hlt, hspells⟩
      exact ⟨⟨hspells, hlt⟩, hgreat⟩

/-- So it is not true that one mark at most stands before the digits of a mode. -/
theorem not_parse_iff_marked_once :
    ¬∀ text m, parse text = .ok m ↔ m ≤ 0o777 ∧ ∃ marked ≤ 1, Spells text marked false m := by
  intro hclaim
  have hread : parse "0o0o7" = .ok 7 := rfl
  rcases ((hclaim "0o0o7" 7).1 hread).2 with ⟨marked, hle, digits, htext, -, hdigits, -⟩
  -- a second mark would stand among the digits
  have hletter : 'o' ∈ digits := by
    have htrim : Text.trim "0o0o7".toList = ['0', 'o', '0', 'o', '7'] := by decide
    rw [htrim] at htext
    obtain rfl | rfl : marked = 0 ∨ marked = 1 := by omega
    · have hall : ['0', 'o', '0', 'o', '7'] = digits := htext
      simp [← hall]
    · have hrest : ['0', 'o', '7'] = digits := by simpa [marks, sign] using htext
      simp [← hrest]
  exact absurd (hdigits 'o' hletter).2 (by decide)

end DocBase.Mode
