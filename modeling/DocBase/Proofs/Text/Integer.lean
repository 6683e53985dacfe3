import DocBase.Text.Integer
/-!
# What is read as a number

A text is read as a number if it is made of digits, a plus sign perhaps before them, and the number
they stand for is below the bound. Zeros at the front neither count nor harm, and what has been read
of a number is never larger than all of it, so a number below the bound is not refused on the way.
These laws are about the radices whose digits are figures, up to ten. Main statements:

* `readDigits_eq_ok_iff` — which digits are read as which number;
* `readUnsigned_eq_ok_iff` — the same for a text with or without a sign.
-/

namespace DocBase.Text

variable {radix bound value n d : Nat} {c : Char} {ds s : List Char}

/-- The figures that stand for numbers below the radix. -/
def IsFigure (radix : Nat) (c : Char) : Prop := '0' ≤ c ∧ c.toNat < '0'.toNat + radix

theorem isFigure_iff (radix : Nat) (last : Char) (hlast : '0'.toNat + radix = last.toNat + 1) :
    IsFigure radix c ↔ '0' ≤ c ∧ c ≤ last := by
  rw [IsFigure, hlast, Nat.lt_succ_iff, Char.le_def (b := last), UInt32.le_iff_toNat_le]
  rfl

theorem isFigure_ten_iff : IsFigure 10 c ↔ c.isDigit = true := by
  rw [isFigure_iff 10 '9' rfl]
  simp [Char.isDigit, Char.le_def]

theorem IsFigure.mono {radix' : Nat} (hc : IsFigure radix c) (hle : radix ≤ radix') :
    IsFigure radix' c :=
  ⟨hc.1, Nat.lt_of_lt_of_le hc.2 (Nat.add_le_add_left hle _)⟩

/-- Letters stand for ten and more, so they are no digits here. -/
theorem digitValue?_eq_some_iff (hradix : radix ≤ 10) :
    digitValue? radix c = some d ↔ IsFigure radix c ∧ c.toNat - '0'.toNat = d := by
  unfold digitValue?
  by_cases hfigure : '0' ≤ c ∧ c ≤ '9'
  · have hzero : '0'.toNat ≤ c.toNat := UInt32.le_iff_toNat_le.1 (Char.le_def.1 hfigure.1)
    have hbelow : IsFigure radix c ↔ c.toNat - '0'.toNat < radix := by
      simp only [IsFigure, hfigure.1, true_and]
      omega
    simp only [if_pos hfigure, hbelow, Option.ite_none_right_eq_some, Option.some.injEq]
  · -- letters stand for ten and more, which a radix up to ten does not have
    have hnot : ¬IsFigure radix c := fun hc =>
      hfigure ((isFigure_iff 10 '9' rfl).1 (hc.mono hradix))
    simp only [if_neg hfigure, hnot, false_and, iff_false]
    split
    · simp only [Char.reduceToNat, Option.ite_none_right_eq_some, not_and]
      omega
    · split
      · simp only [Char.reduceToNat, Option.ite_none_right_eq_some, not_and]
        omega
      · simp

/-- More digits make no smaller number. -/
theorem le_ofDigitChars (hradix : 0 < radix) (ds : List Char) (value : Nat) :
    value ≤ Nat.ofDigitChars radix ds value := by
  induction ds generalizing value with
  | nil => simp [Nat.ofDigitChars_eq_foldl]
  | cons d ds ih =>
    rw [Nat.ofDigitChars_cons]
    have hle := ih (radix * value + (d.toNat - '0'.toNat))
    have hmul := Nat.le_mul_of_pos_left value hradix
    omega

/-- Digits read one after another make up the number they stand for, as long as it is below the
bound. -/
theorem readDigits_eq_ok_iff (hpos : 0 < radix) (hradix : radix ≤ 10) (hvalue : value < bound) :
    readDigits radix bound value ds = .ok n ↔
      (∀ d ∈ ds, IsFigure radix d) ∧ Nat.ofDigitChars radix ds value = n ∧ n < bound := by
  -- the value read so far is generalised, as each digit changes it
  induction ds generalizing value with
  | nil =>
    simp only [readDigits, Except.ok.injEq, List.not_mem_nil, false_imp_iff, implies_true, true_and,
      Nat.ofDigitChars_eq_foldl, List.foldl_nil]
    constructor
    · rintro rfl
      exact ⟨rfl, hvalue⟩
    · exact And.left
  | cons c cs ih =>
    rw [Nat.ofDigitChars_cons, List.forall_mem_cons]
    cases hdigit : digitValue? radix c with
    | none =>
      have hnot : ¬IsFigure radix c := by
        intro hc
        have hsome := (digitValue?_eq_some_iff hradix).2 ⟨hc, rfl⟩
        rw [hdigit] at hsome
        contradiction
      simp [readDigits, hdigit, hnot]
    | some d =>
      rcases (digitValue?_eq_some_iff hradix).1 hdigit with ⟨hc, rfl⟩
      rw [Nat.mul_comm radix value]
      simp only [readDigits, hdigit, hc, true_and]
      split
      · next hnext => exact ih hnext
      · next hnext =>
        -- the number is no smaller than what has been read of it
        have hle := le_ofDigitChars hpos cs (value * radix + (c.toNat - '0'.toNat))
        simp only [reduceCtorEq, false_iff, not_and]
        rintro - rfl
        omega

/-- A plus sign, or nothing. -/
def sign (plus : Bool) : List Char := if plus then ['+'] else []

theorem not_isFigure_plus : ¬IsFigure radix '+' := by
  rintro ⟨hle, -⟩
  exact absurd hle (by decide)

/-- A number may have a plus sign before its digits, of which there is at least one. -/
theorem readUnsigned_eq_ok_iff (hpos : 0 < radix) (hradix : radix ≤ 10) (hbound : 0 < bound) :
    readUnsigned radix bound s = .ok n ↔ ∃ plus ds, s = sign plus ++ ds ∧ ds ≠ [] ∧
      (∀ d ∈ ds, IsFigure radix d) ∧ Nat.ofDigitChars radix ds 0 = n ∧ n < bound := by
  constructor
  · intro h
    unfold readUnsigned at h
    split at h
    · -- an empty text and a sign alone are no numbers
      simp at h
    · simp at h
    · next ds hne =>
      exact ⟨true, ds, rfl, by simpa using hne, (readDigits_eq_ok_iff hpos hradix hbound).1 h⟩
    · next hne _ _ =>
      exact ⟨false, s, rfl, hne, (readDigits_eq_ok_iff hpos hradix hbound).1 h⟩
  · rintro ⟨plus, ds, rfl, hne, hread⟩
    have hok := (readDigits_eq_ok_iff hpos hradix hbound).2 hread
    rcases ds with _ | ⟨d, ds⟩
    · contradiction
    · cases plus with
      | true => exact hok
      -- without a sign the first character is a figure, and so it is not taken for one
      | false =>
        have hd : d ≠ '+' := by
          rintro rfl
          exact not_isFigure_plus (hread.1 '+' List.mem_cons_self)
        rw [← hok, readUnsigned.eq_def]
        split <;> simp_all [sign]

end DocBase.Text
