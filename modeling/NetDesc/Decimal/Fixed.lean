import NetDesc.Binary64

namespace NetDesc

namespace Decimal

/-- The integer nearest to `num / den`, the even one where two are equally near. -/
def roundDiv (num den : Nat) : Nat :=
  let quotient := num / den
  let twice := 2 * (num % den)
  if twice < den then
    quotient
  else if twice = den then
    quotient + quotient % 2
  else
    quotient + 1

/-- `mantissa * 2 ^ exponent` in units of `10 ^ (-places)`. The number is multiplied by the power
    of ten and divided once, and nothing is rounded before that. -/
def inPlaces (mantissa : Nat) (exponent : Int) (places : Nat) : Nat :=
  roundDiv (mantissa * Nat.pow 2 exponent.toNat * Nat.pow 10 places)
    (Nat.pow 2 (-exponent).toNat)

/-- The digits of `n`, the last `places` of them after a point. -/
def pointed (n places : Nat) : String :=
  let digits := toString n
  let padded := "".pushn '0' (places + 1 - digits.length) ++ digits
  let whole := padded.length - places
  if places = 0 then padded
  else (padded.take whole).toString ++ "." ++ (padded.drop whole).toString

/-- `mantissa * 2 ^ exponent` with exactly `places` digits after the point. -/
def fixed (mantissa : Nat) (exponent : Int) (places : Nat) : String :=
  pointed (inPlaces mantissa exponent places) places

end Decimal

end NetDesc
