/-!
# Binary floating-point numbers of 64 bits

A number is given by its 64 bits as a natural number: the sign, eleven bits of exponent and 52 of
fraction. `Binary64.ofDecimal` rounds a decimal number to the nearest of them, a tie to the even
fraction, in exact arithmetic.
-/

namespace TreeLint.Binary64

/-- The bits of positive infinity. -/
def infinity : Nat := 0x7FF0000000000000

/-- The bits of the number that is none. -/
def notANumber : Nat := 0x7FF8000000000000

/-- The `bits` of a number without sign, with the other sign. -/
def negate (bits : Nat) : Nat := bits + 0x8000000000000000

/-- `num / den` rounded to the nearest integer, a tie to the even one. -/
def roundDiv (num den : Nat) : Nat :=
  let n := num / den
  let twice := 2 * (num % den)
  if twice < den then n
  else if twice = den then n + n % 2
  else n + 1

/-- `num / den` as two numbers whose quotient is `num / (den * 2 ^ power)`. -/
def scaleDown (num den : Nat) (power : Int) : Nat × Nat :=
  (num * Nat.pow 2 (-power).toNat, den * Nat.pow 2 power.toNat)

/-- The bits of the number nearest to `num / den`. Both must be positive. -/
def ofQuotient (num den : Nat) : Nat :=
  let guess : Int := (num.log2 : Int) - den.log2 - 53
  -- The quotient has 53 or 54 binary digits at this power; the least power is that of the
  -- smallest numbers.
  let (n, d) := scaleDown num den guess
  let power := max (-1074) (if n / d < Nat.pow 2 53 then guess else guess + 1)
  let (n, d) := scaleDown num den power
  let significand := roundDiv n d
  let least := Nat.pow 2 52
  if significand < least then significand
  else
    let bits := (power + 1075).toNat * least + (significand - least)
    min bits infinity

/-- The bits of the number nearest to `digits * 10 ^ exponent`. Numbers far outside the range are
not computed. -/
def ofDecimal (digits : Nat) (exponent : Int) : Nat :=
  let size : Int := (Nat.toDigits 10 digits).length + exponent
  if digits = 0 || size < -400 then 0
  else if size > 400 then infinity
  else ofQuotient (digits * Nat.pow 10 exponent.toNat) (Nat.pow 10 (-exponent).toNat)

end TreeLint.Binary64
