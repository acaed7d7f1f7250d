/-!
The double next to a rational number. Halfway cases go to the even neighbour, numbers beyond the
largest double to infinity.
-/
namespace CallChain.Decimal

/-- The quotient, rounded to the nearest whole number; a half goes to the even neighbour. -/
def roundDiv (num den : Nat) : Nat :=
  let q := num / den
  let r := num % den
  if 2 * r < den then q
  else if den < 2 * r then q + 1
  else q + q % 2

/-- `num / (den * 2 ^ power)`, as numerator and denominator. -/
def scaled (num den : Nat) (power : Int) : Nat × Nat :=
  (num * Nat.pow 2 (-power).toNat, den * Nat.pow 2 power.toNat)

/-- Exponent of the last binary place of the double next to `num / den`. -/
def lastPlace (num den : Nat) : Int :=
  let guess := max ((num.log2 : Int) - den.log2 - 53) (-1074)
  let (n, d) := scaled num den guess
  if n / d < Nat.pow 2 53 then guess else guess + 1

/-- Bit pattern of infinity. -/
def infinityBits : Nat := 2047 * Nat.pow 2 52

/-- Bit pattern of the double next to `num / den`. A mantissa that is rounded up to the next power of two
carries over into the exponent. -/
def nearestBits (num den : Nat) : Nat :=
  if num = 0 then 0
  else
    let place := lastPlace num den
    let (n, d) := scaled num den place
    let mantissa := roundDiv n d
    if mantissa < Nat.pow 2 52 then mantissa
    else min ((place + 1075).toNat * Nat.pow 2 52 + (mantissa - Nat.pow 2 52)) infinityBits

/-- Bit pattern of the double next to `mantissa * 10 ^ exponent`. Numbers far outside the range of doubles
are not computed. -/
def decimalBits (mantissa : Nat) (exponent : Int) : Nat :=
  let magnitude := (toString mantissa).length + exponent
  if mantissa = 0 || magnitude < -400 then 0
  else if 400 < magnitude then infinityBits
  else nearestBits (mantissa * Nat.pow 10 exponent.toNat) (Nat.pow 10 (-exponent).toNat)

/-- The double next to a decimal number. -/
def nearest (negative : Bool) (mantissa : Nat) (exponent : Int) : Float :=
  Float.ofBits (UInt64.ofNat (decimalBits mantissa exponent + if negative then Nat.pow 2 63 else 0))

end CallChain.Decimal
