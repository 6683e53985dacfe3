import DocBase.Double.Basic
/-!
# The fewest digits of a double

Every real number between two bounds rounds to a given double: the bounds lie half way to its
neighbours and belong to it when its significand is even. Among the decimals in that range the one
on the coarsest grid of powers of ten is taken, of two the nearer, of two equally near the greater.
-/

namespace DocBase.Double

/-- A decimal `digits · 10 ^ exponent`. -/
structure Decimal where
  digits : Nat
  exponent : Int
deriving DecidableEq, Repr

/-- The reals that round to a double, in quarters of units of 2⁻¹⁰⁷⁴. -/
structure Span where
  low : Nat
  value : Nat
  high : Nat
  inclusive : Bool

/-- The neighbour below a power of two is only half as far away as the one above, unless the double
is subnormal or the smallest normal one. -/
def span (x : Double) : Span :=
  let step := 1 <<< x.shift
  let value := 4 * x.magnitude
  let below := if x.fractionField = 0 ∧ 1 < x.exponentField then step else 2 * step
  ⟨value - below, value, value + 2 * step, x.significand % 2 == 0⟩

/-- Whether `num / den` lies in the span. -/
def Span.holds (s : Span) (num den : Nat) : Bool :=
  if s.inclusive then s.low * den ≤ num && num ≤ s.high * den
  else s.low * den < num && num < s.high * den

/-- The multiple of `10 ^ exponent` in the span that is nearest to the value. One quarter unit is
2⁻¹⁰⁷⁶, so `value / 10 ^ exponent` is the quotient `num / den` below. -/
def Span.onGrid? (s : Span) (exponent : Int) : Option Nat :=
  let up := Nat.pow 10 (-exponent).toNat
  let den := Nat.pow 10 exponent.toNat <<< 1076
  let num := s.value * up
  let c := num / den
  let floorHolds := s.holds (c * den) up
  let ceilHolds := s.holds ((c + 1) * den) up
  if floorHolds && ceilHolds then
    -- both neighbours read back: the nearer one, and of two equally near the greater
    if (2 * c + 1) * den ≤ 2 * num then some (c + 1) else some c
  else if ceilHolds then some (c + 1)
  else if floorHolds then some c
  else none

/-- The first hit on the grids from `exponent` on downwards. -/
def Span.search (s : Span) : Nat → Int → Option Decimal
  | 0, _ => none
  | fuel + 1, exponent =>
    match s.onGrid? exponent with
    | some digits => some ⟨digits, exponent⟩
    | none => s.search fuel (exponent - 1)

/-- An exponent whose power of ten is above every real in the span: 0.30103 is slightly more than
the decimal logarithm of two. -/
def Span.topExponent (s : Span) : Int :=
  ((s.high.log2 : Int) + 1 - 1076) * 30103 / 100000 + 1

/-- The shortest decimal of a finite double other than zero. Seventeen digits always suffice, and
the search starts at most three grids above the first digit. -/
def shortest (x : Double) : Decimal :=
  let s := x.span
  (s.search 24 s.topExponent).getD ⟨0, 0⟩

end DocBase.Double
