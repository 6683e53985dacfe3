import DocBase.Double.Digits
import DocBase.Double.Rounding
/-!
# Doubles as text

Written, a double has the fewest digits that read back as the same double, in positional notation
however large or small it is; whole numbers have no point. Read, a text is a decimal with an
optional sign, point and exponent, or a name of infinity or of no number in any letter case, and it
is rounded to the nearest double.
-/

namespace DocBase.Double

/-! ## Writing -/

/-- Digits with the decimal point moved to where the exponent puts it. -/
def positional (d : Decimal) : List Char :=
  let digits := Nat.toDigits 10 d.digits
  if 0 ≤ d.exponent then digits ++ List.replicate d.exponent.toNat '0'
  else
    let places := (-d.exponent).toNat
    if places < digits.length then
      digits.take (digits.length - places) ++ '.' :: digits.drop (digits.length - places)
    else '0' :: '.' :: (List.replicate (places - digits.length) '0' ++ digits)

def text (x : Double) : String :=
  if x.isNaN then "NaN"
  else
    let sign := if x.negative then ['-'] else []
    if x.isInfinite then String.ofList (sign ++ "inf".toList)
    else if x.isZero then String.ofList (sign ++ ['0'])
    else String.ofList (sign ++ positional x.shortest)

/-! ## Reading -/

def decimalValue (digits : List Char) : Nat :=
  digits.foldl (fun n c => 10 * n + (c.toNat - '0'.toNat)) 0

/-- The double nearest to `digits · 10 ^ exponent`. Decimals from 10³¹⁰ on are infinite and those
below 10⁻³³⁰ are zero, so no large power is computed for them. -/
def ofDecimal (negative : Bool) (digits : Nat) (exponent : Int) : Double :=
  let top := ((Nat.toDigits 10 digits).length : Int) + exponent
  if digits = 0 then zero negative
  else if 310 < top then infinity negative
  else if top < -330 then zero negative
  else if 0 ≤ exponent then ofRatio negative (digits * Nat.pow 10 exponent.toNat) 1
  else ofRatio negative digits (Nat.pow 10 (-exponent).toNat)

/-- An exponent mark, an optional sign and at least one digit, up to the end of the text; nothing at
all is the exponent zero. -/
def readExponent? : List Char → Option Int
  | [] => some 0
  | c :: cs =>
    if c = 'e' ∨ c = 'E' then
      let (negative, digits) := match cs with
        | '-' :: ds => (true, ds)
        | '+' :: ds => (false, ds)
        | ds => (false, ds)
      if digits ≠ [] ∧ digits.all Char.isDigit then
        some (if negative then -(decimalValue digits : Int) else decimalValue digits)
      else none
    else none

/-- A decimal without a sign: digits before or after the point, or both. -/
def readDecimal? (negative : Bool) (s : List Char) : Option Double :=
  let whole := s.takeWhile Char.isDigit
  let (fraction, rest) := match s.dropWhile Char.isDigit with
    | '.' :: r => (r.takeWhile Char.isDigit, r.dropWhile Char.isDigit)
    | r => ([], r)
  if whole = [] ∧ fraction = [] then none
  else
    (readExponent? rest).map fun exponent =>
      ofDecimal negative (decimalValue (whole ++ fraction)) (exponent - fraction.length)

/-- A name of infinity or of no number, else a decimal. -/
def readUnsigned? (negative : Bool) (s : List Char) : Option Double :=
  let lower := String.ofList (s.map Char.toLower)
  if lower = "inf" ∨ lower = "infinity" then some (infinity negative)
  else if lower = "nan" then some nan
  else readDecimal? negative s

def read? : List Char → Option Double
  | '-' :: s => readUnsigned? true s
  | '+' :: s => readUnsigned? false s
  | s => readUnsigned? false s

end DocBase.Double
