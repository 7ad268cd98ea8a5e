import NetDesc.Binary64

namespace NetDesc

/-- The decimal `digits * 10 ^ exponent`. -/
structure Decimal where
  digits : Nat
  exponent : Int
deriving DecidableEq, Inhabited

namespace Decimal

/-- A fraction with a positive denominator, for exact comparison. -/
structure Ratio where
  num : Nat
  den : Nat

namespace Ratio

/-- `n * 2 ^ e` as a fraction. -/
def binary (n : Nat) (e : Int) : Ratio :=
  ⟨n * Nat.pow 2 e.toNat, Nat.pow 2 (-e).toNat⟩

/-- `n * 10 ^ e` as a fraction. -/
def decimal (n : Nat) (e : Int) : Ratio :=
  ⟨n * Nat.pow 10 e.toNat, Nat.pow 10 (-e).toNat⟩

def lt (x y : Ratio) : Bool :=
  x.num * y.den < y.num * x.den

def le (x y : Ratio) : Bool :=
  x.num * y.den ≤ y.num * x.den

end Ratio

/-- How many decimal digits a natural number has; zero has one. -/
def length (n : Nat) : Nat :=
  (Nat.toDigits 10 n).length

/-- The number `k` with `10 ^ (k - 1) ≤ x < 10 ^ k`, for a positive `x`. -/
def magnitude (x : Ratio) : Int :=
  if x.den ≤ x.num then
    length (x.num / x.den)
  else
    1 - (length ((x.den - 1) / x.num) : Int)

/-- The reals that round to `mantissa * 2 ^ exponent`: those between the two midpoints, which
    belong to it iff the mantissa is even. The number below a power of two is only half as far
    away, unless exponents end there. -/
def roundsTo (mantissa : Nat) (exponent : Int) (x : Ratio) : Bool :=
  let atPower := mantissa == Binary64.hiddenBit && Binary64.minExponent < exponent
  let low := Ratio.binary (4 * mantissa - if atPower then 1 else 2) (exponent - 2)
  let high := Ratio.binary (4 * mantissa + 2) (exponent - 2)
  if mantissa % 2 = 0 then low.le x && x.le high else low.lt x && x.lt high

/-- Where a number goes that is equally far from two neighbours. -/
inductive Tie where
  | up
  | toEven
deriving DecidableEq, Inhabited

/-- Whether the neighbour above `lower` is preferred for a number that lies `twice / (2 * den)`
    above `lower`. -/
def Tie.prefersUpper (tie : Tie) (lower twice den : Nat) : Bool :=
  den < twice || (twice == den && (tie == .up || lower % 2 == 1))

/-- Of the two multiples of `10 ^ grid` around `x`, the nearest that `accepts` holds of. -/
def nearest? (tie : Tie) (x : Ratio) (grid : Int) (accepts : Ratio → Bool) : Option Decimal :=
  let num := x.num * Nat.pow 10 (-grid).toNat
  let den := x.den * Nat.pow 10 grid.toNat
  let lower := num / den
  let below := accepts (.decimal lower grid)
  let above := accepts (.decimal (lower + 1) grid)
  if above && (!below || tie.prefersUpper lower (2 * (num % den)) den) then
    some ⟨lower + 1, grid⟩
  else if below then
    some ⟨lower, grid⟩
  else
    none

/-- The most digits that a number ever needs. -/
def maxDigits : Nat := 17

/-- The shortest decimal that rounds to `mantissa * 2 ^ exponent`, for a positive mantissa, and
    of the shortest the nearest. For one digit, two digits and so on, the two decimals of that
    many digits next to the number are looked at. -/
def shortest (tie : Tie) (mantissa : Nat) (exponent : Int) : Decimal :=
  let x := Ratio.binary mantissa exponent
  let top := magnitude x
  let found := (List.range maxDigits).findSome? fun (n : Nat) =>
    nearest? tie x (top - (n + 1)) (roundsTo mantissa exponent)
  match found with
  | some ⟨10, grid⟩ => ⟨1, grid + 1⟩
  | some d => d
  | none => ⟨mantissa, exponent⟩

/-- All digits in their places: zeros are filled in up to the units, or after the point. -/
def positional (d : Decimal) : String :=
  let digits := toString d.digits
  if 0 ≤ d.exponent then
    digits ++ "".pushn '0' d.exponent.toNat
  else
    let places := (-d.exponent).toNat
    let padded := "".pushn '0' (places + 1 - digits.length) ++ digits
    let whole := padded.length - places
    (padded.take whole).toString ++ "." ++ (padded.drop whole).toString

end Decimal

end NetDesc
