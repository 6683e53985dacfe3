/-!
# Doubles

A double is a binary64 word. Its fields are read off by shifts, and its value is an exact whole
number of units of 2⁻¹⁰⁷⁴, the smallest positive double; so doubles are ordered by comparing
integers. Main statement: `compare_swap` — comparing the other way round gives the opposite.
-/

namespace DocBase

/-- A binary64 word: sign, eleven bits of exponent, 52 bits of fraction. -/
structure Double where
  bits : UInt64
deriving DecidableEq, Repr

namespace Double

def negative (x : Double) : Bool := 1 <<< 63 ≤ x.bits.toNat

def exponentField (x : Double) : Nat := (x.bits.toNat >>> 52) % 0x800

def fractionField (x : Double) : Nat := x.bits.toNat % (1 <<< 52)

/-- Neither finite nor infinite: the exponent field is full and the fraction is not zero. -/
def isNaN (x : Double) : Bool := x.exponentField == 2047 && x.fractionField != 0

def isInfinite (x : Double) : Bool := x.exponentField == 2047 && x.fractionField == 0

/-- The 53-bit significand; subnormal words lack the leading bit. -/
def significand (x : Double) : Nat :=
  if x.exponentField = 0 then x.fractionField else (1 <<< 52) + x.fractionField

/-- How many bits the significand stands above the unit 2⁻¹⁰⁷⁴. -/
def shift (x : Double) : Nat := x.exponentField - 1

/-- The absolute value in units of 2⁻¹⁰⁷⁴. Infinity gets 2¹⁰²⁴, above every finite double. -/
def magnitude (x : Double) : Nat := x.significand <<< x.shift

/-- The value in units of 2⁻¹⁰⁷⁴; both zeros have the value zero. -/
def units (x : Double) : Int := if x.negative then -(x.magnitude : Int) else x.magnitude

def isZero (x : Double) : Bool := x.magnitude == 0

/-- The order of two doubles; a NaN is ordered with nothing. -/
def compare? (x y : Double) : Option Ordering :=
  if x.isNaN || y.isNaN then none else some (compare x.units y.units)

/-- Numerical equality: the zeros are equal, a NaN equals nothing. -/
def numEq (x y : Double) : Bool := x.compare? y == some .eq

/-- The word with a sign and the other 63 bits. -/
def ofFields (negative : Bool) (rest : Nat) : Double :=
  ⟨UInt64.ofNat (rest + if negative then 1 <<< 63 else 0)⟩

def infinity (negative : Bool) : Double := ofFields negative (2047 <<< 52)

def zero (negative : Bool) : Double := ofFields negative 0

def nan : Double := ofFields false ((2047 <<< 52) + (1 <<< 51))

/-- Comparing the other way round gives the opposite. -/
theorem compare_swap (x y : Double) : y.compare? x = (x.compare? y).map Ordering.swap := by
  unfold compare?
  cases x.isNaN <;> cases y.isNaN <;> simp [Int.compare_swap]

end Double
end DocBase
