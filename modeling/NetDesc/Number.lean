import NetDesc.Decimal.Shortest
import NetDesc.Decimal.Fixed

namespace NetDesc

namespace Number

/-- The sign that stands before a number's digits. -/
def signText (negative : Bool) : String :=
  if negative then "-" else ""

/-- The shortest text that reads back as the number, rounded up where two are equally near. There is
    never an exponent and never a point in an integer; the sign of zero is kept. -/
def text (x : Float) : String :=
  match Binary64.ofFloat x with
  | .nan => "NaN"
  | .infinite negative => signText negative ++ "inf"
  | .finite negative 0 _ => signText negative ++ "0"
  | .finite negative mantissa exponent =>
    signText negative ++ (Decimal.shortest .up mantissa exponent).positional

/-- The number with exactly `places` digits after the point. -/
def fixedText (x : Float) (places : Nat) : String :=
  match Binary64.ofFloat x with
  | .nan => "NaN"
  | .infinite negative => signText negative ++ "inf"
  | .finite negative mantissa exponent =>
    signText negative ++ Decimal.fixed mantissa exponent places

/-- Integers beyond this magnitude are not all numbers of the language. -/
def maxExactInt : Nat := Nat.pow 2 53

/-- The number as an index or a count: it has to be an integer of at most `maxExactInt`. -/
def toIndex? (x : Float) : Option Int64 :=
  match (Binary64.ofFloat x).toInt? with
  | some i => if i.natAbs ≤ maxExactInt then some (Int64.ofInt i) else none
  | none => none

/-- The number that an index or a count is. -/
def ofIndex (i : Int64) : Float :=
  Float.ofInt i.toInt

end Number

end NetDesc
