import NetDesc.EvalError
import NetDesc.Number

namespace NetDesc

structure FormatSpec where
  leftAlign : Bool := false
  zeroPad : Bool := false
  plusSign : Bool := false
  width : Nat := 0
  precision : Option Nat := none
deriving DecidableEq, Inhabited

namespace Word

/-- The product, unless it does not fit into a machine word. -/
def checkedMul? (x y : UInt64) : Option UInt64 :=
  if x.toNat * y.toNat < UInt64.size then some (x * y) else none

/-- The sum, unless it does not fit into a machine word. -/
def checkedAdd? (x y : UInt64) : Option UInt64 :=
  if x.toNat + y.toNat < UInt64.size then some (x + y) else none

end Word

namespace FormatSpec

/-- Neither width nor precision may be larger. -/
def maxWidth : UInt64 := 4096

/-- What a flag sets, if the character is one. -/
def withFlag? (spec : FormatSpec) : Char → Option FormatSpec
  | '-' => some { spec with leftAlign := true }
  | '0' => some { spec with zeroPad := true }
  | '+' => some { spec with plusSign := true }
  | _ => none

/-- Reads flags up to the first character that is none, so zeros at the front are flags. Gives what
    they set and what follows them. -/
def readFlags (spec : FormatSpec) : List Char → FormatSpec × List Char
  | [] => (spec, [])
  | c :: rest =>
    match spec.withFlag? c with
    | some spec => readFlags spec rest
    | none => (spec, c :: rest)

/-- The number with one more digit, if it can be told and may be a width. -/
def withDigit? (size : UInt64) (digit : Char) : Option UInt64 := do
  let tens ← Word.checkedMul? size 10
  let next ← Word.checkedAdd? tens (.ofNat (digit.toNat - '0'.toNat))
  if next ≤ maxWidth then some next else none

/-- Reads digits up to the first character that is none, each with the number that those before it
    denote, which is zero at first. Gives the number that all denote and what follows them. -/
def readSize? (size : UInt64) : List Char → Option (UInt64 × List Char)
  | [] => some (size, [])
  | c :: rest =>
    if c.isDigit then do
      let size ← withDigit? size c
      readSize? size rest
    else some (size, c :: rest)

/-- Reads a point with optional digits, or nothing at all. -/
def readPrecision? : List Char → Option (Option UInt64 × List Char)
  | '.' :: rest => do
    let (size, rest) ← readSize? 0 rest
    return (some size, rest)
  | rest => some (none, rest)

/-- The specification that a text denotes, as in `-08.3`: flags, a width and a precision, with
    nothing behind them. A width is a lower bound, and a precision counts digits or characters. -/
def ofChars? (how : List Char) : Option FormatSpec := do
  let (spec, rest) := readFlags {} how
  let (width, rest) ← readSize? 0 rest
  let (precision, rest) ← readPrecision? rest
  if rest.isEmpty then
    some { spec with width := width.toNat, precision := precision.map UInt64.toNat }
  else
    none

/-- The specification that a text denotes, for a value at `location`. -/
def parse (how : String) (location : Location) : Except EvalError FormatSpec :=
  if how.toList.contains '%' then
    .error (.invalidArgument s!"format specification must not contain '%': '{how}'" location)
  else
    match ofChars? how.toList with
    | some spec => .ok spec
    | none => .error (.invalidArgument s!"invalid format specification '{how}'" location)

/-- Puts zeros between a sign and what follows it. -/
def zeroFill (zeros : Nat) : List Char → List Char
  | '-' :: rest => '-' :: List.replicate zeros '0' ++ rest
  | '+' :: rest => '+' :: List.replicate zeros '0' ++ rest
  | rest => List.replicate zeros '0' ++ rest

/-- Fills a text up to the width. Zeros are for numbers that are not aligned to the left. -/
def pad (spec : FormatSpec) (isNumber : Bool) (s : String) : String :=
  let missing := spec.width - s.length
  if missing = 0 then
    s
  else if spec.leftAlign then
    s ++ "".pushn ' ' missing
  else if spec.zeroPad && isNumber then
    String.ofList (zeroFill missing s.toList)
  else
    "".pushn ' ' missing ++ s

/-- Integers below this magnitude are written without a point. -/
def integerLimit : Nat := Nat.pow 10 15

/-- An integer with at least as many digits as the precision asks for. -/
def integerText (spec : FormatSpec) (i : Int) : String :=
  let digits := toString i.natAbs
  let zeros := spec.precision.getD 0 - digits.length
  Number.signText (i < 0) ++ "".pushn '0' zeros ++ digits

/-- A number before it is filled up to the width. Numbers that are no integers have six places
    unless the precision says otherwise. -/
def numberText (spec : FormatSpec) (x : Float) : String :=
  let fractional := Number.fixedText x (spec.precision.getD 6)
  let unsigned :=
    match (Binary64.ofFloat x).toInt? with
    | some i => if i.natAbs < integerLimit then spec.integerText i else fractional
    | none => fractional
  if spec.plusSign && 0 ≤ x then "+" ++ unsigned else unsigned

def formatNumber (spec : FormatSpec) (x : Float) : String :=
  spec.pad true (spec.numberText x)

/-- A string has at most as many characters as the precision says. -/
def formatText (spec : FormatSpec) (s : String) : String :=
  spec.pad false <|
    match spec.precision with
    | some count => (s.take count).toString
    | none => s

def formatTruth (spec : FormatSpec) (b : Bool) : String :=
  spec.pad false (if b then "true" else "false")

end FormatSpec

end NetDesc
