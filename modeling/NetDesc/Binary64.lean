namespace NetDesc

/-- A floating-point number taken apart, so that what has to be exact about numbers can be said
    in integers. `finite` stands for `± mantissa * 2 ^ exponent`; both zeros have mantissa zero
    and keep their sign. -/
inductive Binary64 where
  | nan
  | infinite (negative : Bool)
  | finite (negative : Bool) (mantissa : Nat) (exponent : Int)
deriving DecidableEq, Inhabited

namespace Binary64

/-- The exponent of the smallest positive number. -/
def minExponent : Int := -1074

/-- The mantissas of normal numbers start here and end below twice this. -/
def hiddenBit : Nat := Nat.pow 2 52

/-- Reads sign, exponent and fraction off their places in the bits. -/
def ofBits (bits : Nat) : Binary64 :=
  let negative := bits / Nat.pow 2 63 % 2 == 1
  let biased : Nat := bits / Nat.pow 2 52 % Nat.pow 2 11
  let fraction : Nat := bits % Nat.pow 2 52
  if biased = Nat.pow 2 11 - 1 then
    if fraction = 0 then .infinite negative else .nan
  else if biased = 0 then
    .finite negative fraction minExponent
  else
    .finite negative (hiddenBit + fraction) ((biased : Int) + minExponent - 1)

def ofFloat (x : Float) : Binary64 :=
  ofBits x.toBits.toNat

/-- The bits of `± mantissa * 2 ^ exponent`, for a mantissa below `2 ^ 53` and an exponent of at
    least `minExponent`: the mantissa is moved left until it has the hidden bit or the exponent
    has reached its least value. -/
def bitsOf (negative : Bool) (mantissa : Nat) (exponent : Int) : Nat :=
  let shift := min (52 - mantissa.log2) (exponent - minExponent).toNat
  let moved := mantissa * Nat.pow 2 shift
  let sign := if negative then Nat.pow 2 63 else 0
  if moved < hiddenBit then
    sign + moved
  else
    sign + (exponent - shift - minExponent + 1).toNat * Nat.pow 2 52 + (moved - hiddenBit)

/-- The number `± mantissa * 2 ^ exponent` where it is one. -/
def toFloat (negative : Bool) (mantissa : Nat) (exponent : Int) : Float :=
  Float.ofBits (UInt64.ofNat (bitsOf negative mantissa exponent))

/-- The integer that a number is, if it is one. -/
def toInt? : Binary64 → Option Int
  | .finite negative mantissa exponent =>
    let magnitude? : Option Nat :=
      if 0 ≤ exponent then
        some (mantissa * Nat.pow 2 exponent.toNat)
      else
        let unit := Nat.pow 2 (-exponent).toNat
        if mantissa % unit = 0 then some (mantissa / unit) else none
    magnitude?.map fun magnitude => if negative then -(magnitude : Int) else magnitude
  | _ => none

/-- What remains of the first number when the second is taken from it as often as it goes. The
    remainder has the first number's sign and no rounding takes place. -/
def remainder (x y : Float) : Float :=
  match ofFloat x, ofFloat y with
  | .finite negative mx ex, .finite _ my ey =>
    if my = 0 then
      0 / 0
    else
      let exponent := min ex ey
      let scaled (m : Nat) (e : Int) := m * Nat.pow 2 (e - exponent).toNat
      toFloat negative (scaled mx ex % scaled my ey) exponent
  | .finite .., .infinite _ => x
  | _, _ => 0 / 0

end Binary64

end NetDesc
