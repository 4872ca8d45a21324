/-!
# Doubles

The double nearest to a decimal fraction, by exact arithmetic on natural numbers. A double is given
by its 64 bits; numbers too large for one give infinity.
-/

namespace Sema.Double

/-- The bits of positive infinity. -/
def infinity : Nat := 0x7FF0000000000000

/-- The quotient rounded to the nearest integer, a half to the even one. -/
def roundDiv (num den : Nat) : Nat :=
  let q := num / den
  let r := 2 * (num % den)
  if r < den || (r == den && q % 2 == 0) then q else q + 1

/-- The quotient `num / den`, scaled down by two to the power `e - 1074`. -/
def scaled (num den e : Nat) : Nat × Nat :=
  (num <<< (1074 - e), den <<< (e - 1074))

/-- The least `e` for which `num / den`, scaled down by two to the power `e - 1074`, is below two to
the power 53. The lengths of the two numbers give it up to one. -/
def exponent (num den : Nat) : Nat :=
  let guess := 1074 + num.log2 - den.log2 - 53
  let (n, d) := scaled num den guess
  if num = 0 then 0 else if n < d <<< 53 then guess else guess + 1

/-- The bits of the double nearest to the fraction `num / den`. A significand that rounds up to two
to the power 53 carries into the exponent. -/
def ofFraction (num den : Nat) : Nat :=
  let e := exponent num den
  let (n, d) := scaled num den e
  min infinity (e <<< 52 + roundDiv n d)

/-- The bits of the double nearest to `digits` divided by ten to the power `places`. -/
def ofDecimal (digits places : Nat) : UInt64 :=
  UInt64.ofNat (ofFraction digits (Nat.pow 10 places))

end Sema.Double
