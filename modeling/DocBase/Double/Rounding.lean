import DocBase.Double.Basic
/-!
# Rounding to a double

The double nearest to a quotient of natural numbers, ties going to the even significand. With the
quotient counted in units of 2⁻¹⁰⁷⁴ the significand keeps at most 53 of its bits, and the word is
the significand plus one step of the exponent field per bit that was dropped: a significand that
rounds up to 2⁵³ carries into the exponent by itself.
-/

namespace DocBase

/-- The whole number nearest to `num / den`; a half goes to the even one. -/
def roundHalfEven (num den : Nat) : Nat :=
  let q := num / den
  let r := num % den
  if den < 2 * r then q + 1
  else if 2 * r = den then q + q % 2
  else q

/-- A rounded quotient is within half a unit of the quotient. -/
theorem roundHalfEven_close (num den : Nat) (h : 0 < den) :
    2 * (roundHalfEven num den * den) ≤ 2 * num + den ∧
      2 * num ≤ 2 * (roundHalfEven num den * den) + den := by
  have hd := Nat.div_add_mod num den
  have hm := Nat.mod_lt num h
  have hc : num / den * den = den * (num / den) := Nat.mul_comm _ _
  simp only [roundHalfEven]
  split
  · rw [Nat.add_mul]
    omega
  · split
    · rcases Nat.mod_two_eq_zero_or_one (num / den) with he | he <;> rw [he, Nat.add_mul] <;> omega
    · omega

namespace Double

/-- The double nearest to `num / den`, infinity from half a unit above the largest finite one. -/
def ofRatio (negative : Bool) (num den : Nat) : Double :=
  let scaled := num <<< 1074
  -- how many bits the whole part of the quotient has beyond 53
  let dropped := (scaled / den).log2 + 1 - 53
  let word := (dropped <<< 52) + roundHalfEven scaled (den <<< dropped)
  -- a full exponent field is no finite double
  if word < 2047 <<< 52 then ofFields negative word else infinity negative

/-- The double nearest to a whole number. -/
def ofInt (i : Int) : Double := ofRatio (i < 0) i.natAbs 1

end Double
end DocBase
