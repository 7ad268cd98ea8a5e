import NetDesc.Number

namespace NetDesc

namespace Json

/-- A number as it is written: digits before the point, digits after it, and the exponent. -/
structure Numeral where
  negative : Bool
  whole : List Nat
  fraction : Option (List Nat) := none
  exponent : Option Int := none
deriving DecidableEq, Inhabited

namespace Numeral

/-- What a numeral stands for. Integers of at most 64 bits are told apart from other numbers
    because some places in a document allow only them. -/
inductive Meaning where
  | whole (i : Int)
  | real (x : Float)
deriving DecidableEq

/-- Significands stay below this. -/
def significandLimit : Nat := Nat.pow 2 64

/-- Appends digits to a significand as long as it stays below the limit. Gives the significand,
    how many digits it took, and the digits that are left. -/
def accumulate : Nat → List Nat → Nat × Nat × List Nat
  | significand, [] => (significand, 0, [])
  | significand, digit :: rest =>
    let next := 10 * significand + digit
    if next < significandLimit then
      let (final, taken, left) := accumulate next rest
      (final, taken + 1, left)
    else
      (significand, 0, digit :: rest)

/-- The largest power of ten that is a number, as an exponent. -/
def maxPower : Nat := 308

def powerOfTen (n : Nat) : Float :=
  Float.ofScientific 1 false n

/-- `x` divided by `10 ^ n`, in steps of the largest power. -/
def scaleDown (x : Float) (n : Nat) : Float :=
  if n ≤ maxPower then x / powerOfTen n
  else if x == 0 then x
  else scaleDown (x / powerOfTen maxPower) (n - maxPower)
termination_by n
decreasing_by simp only [maxPower] at *; omega

/-- `significand * 10 ^ exponent`, or nothing when that is too large for a number. Whatever is
    too small becomes zero. One multiplication or division is exact for the numbers people write
    and may be off in the last bit for others. -/
def scaled? (significand : Nat) (exponent : Int) : Option Float :=
  let x := (UInt64.ofNat significand).toFloat
  if exponent < 0 then
    some (scaleDown x (-exponent).toNat)
  else if exponent ≤ maxPower then
    let product := x * powerOfTen exponent.toNat
    if product.isInf then none else some product
  else if significand = 0 then
    some x
  else
    none

/-- Integers of this magnitude can still be negative. -/
def negativeLimit : Nat := Nat.pow 2 63

def ofSign (negative : Bool) (x : Float) : Float :=
  if negative then -x else x

/-- What the numeral stands for, or nothing when it is out of range. Minus zero is no integer. -/
def meaning? (n : Numeral) : Option Meaning :=
  let (significand, _, left) := accumulate 0 n.whole
  match n.fraction, n.exponent, left with
  | none, none, [] =>
    if !n.negative then
      some (.whole significand)
    else if 0 < significand ∧ significand ≤ negativeLimit then
      some (.whole (-significand))
    else
      some (.real (-(UInt64.ofNat significand).toFloat))
  | fraction, exponent, left =>
    let (significand, taken, _) := accumulate significand (fraction.getD [])
    let power := (left.length : Int) - taken + exponent.getD 0
    (scaled? significand power).map fun x => .real (ofSign n.negative x)

end Numeral

/-- The text of digits with a point after the first of them and an exponent of ten, which always has
    a sign. -/
def scientific (digits : String) (exponent : Int) : String :=
  let head := (digits.take 1).toString
  let tail := (digits.drop 1).toString
  let mantissa := if tail.isEmpty then head else head ++ "." ++ tail
  let sign := if exponent < 0 then "-" else "+"
  s!"{mantissa}e{sign}{exponent.natAbs}"

/-- The text of a decimal: positional from `10 ^ -5` up to `10 ^ 16`, where integers get a zero
    after the point. -/
def decimalText (d : Decimal) : String :=
  let digits := toString d.digits
  let magnitude := d.exponent + digits.length
  if -5 < magnitude ∧ magnitude ≤ 16 then
    if 0 ≤ d.exponent then d.positional ++ ".0" else d.positional
  else
    scientific digits (magnitude - 1)

/-- The text of a number: the shortest one, with an even last digit where two are equally near.
    Numbers that are not finite have none and are written as null. -/
def realText (x : Float) : String :=
  match Binary64.ofFloat x with
  | .finite negative 0 _ => Number.signText negative ++ "0.0"
  | .finite negative mantissa exponent =>
    Number.signText negative ++ decimalText (Decimal.shortest .toEven mantissa exponent)
  | _ => "null"

end Json

end NetDesc
