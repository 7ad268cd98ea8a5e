import NetDesc.Json.Numeral

namespace NetDesc

namespace Json

/-- Why text is no JSON: it says something that JSON does not, or it ends too early. -/
inductive Fault where
  | malformed
  | ended
deriving DecidableEq, Inhabited

/-- One token. `text` holds what is wrong with the characters of a string that is otherwise
    complete. `bad` is the last token of text that cannot be cut further. Some faults matter only
    where a value is used: `used` is the fault where a value is read here and `skipped` the one
    where it is passed over. -/
inductive Token where
  | openBrace
  | closeBrace
  | openBracket
  | closeBracket
  | comma
  | colon
  | null
  | truth (value : Bool)
  | number (numeral : Numeral)
  | text (content : Except Fault String)
  | bad (quoted : Bool) (used skipped : Fault)

namespace Token

/-- A scanned token and the characters after it. Nothing follows a bad token. -/
structure Scan where
  token : Token
  rest : List Char

namespace Scan

def bad (quoted : Bool) (used skipped : Fault) : Scan :=
  ⟨.bad quoted used skipped, []⟩

end Scan

/-- The characters of a string read so far, the last one first, and half of a surrogate pair that
    still waits for its other half. -/
abbrev Content := Except Fault (List Char × Option Nat)

namespace Content

/-- Half of a surrogate pair that comes first. -/
def isHigh (unit : Nat) : Bool :=
  0xD800 ≤ unit && unit < 0xDC00

/-- Half of a surrogate pair that comes second. -/
def isLow (unit : Nat) : Bool :=
  0xDC00 ≤ unit && unit < 0xE000

/-- Adds a character. None may come between the halves of a pair. -/
def addChar (c : Char) : Content → Content
  | .ok (chars, none) => .ok (c :: chars, none)
  | .ok (_, some _) => .error .malformed
  | .error fault => .error fault

/-- Adds an escaped 16-bit unit: a character or one half of a pair. -/
def addUnit (unit : Nat) : Content → Content
  | .ok (chars, none) =>
    if isHigh unit then .ok (chars, some unit)
    else if isLow unit then .error .malformed
    else .ok (Char.ofNat unit :: chars, none)
  | .ok (chars, some high) =>
    if isLow unit then
      .ok (Char.ofNat (0x10000 + (high - 0xD800) * 0x400 + (unit - 0xDC00)) :: chars, none)
    else
      .error .malformed
  | .error fault => .error fault

/-- The whole string, at its closing quote. -/
def close : Content → Except Fault String
  | .ok (chars, none) => .ok (String.ofList chars.reverse)
  | .ok (_, some _) => .error .malformed
  | .error fault => .error fault

/-- The string cannot be read further. A fault in its characters comes first where it is used. -/
def cut (content : Content) (fault : Fault) : Scan :=
  match content with
  | .ok _ => .bad true fault fault
  | .error earlier => .bad true earlier fault

end Content

/-- The character that a backslash and this letter stand for. -/
def escaped? : Char → Option Char
  | '"' => some '"'
  | '\\' => some '\\'
  | '/' => some '/'
  | 'b' => some '\x08'
  | 'f' => some '\x0c'
  | 'n' => some '\n'
  | 'r' => some '\r'
  | 't' => some '\t'
  | _ => none

def hexDigit? (c : Char) : Option Nat :=
  if '0' ≤ c ∧ c ≤ '9' then some (c.toNat - '0'.toNat)
  else if 'a' ≤ c ∧ c ≤ 'f' then some (c.toNat - 'a'.toNat + 10)
  else if 'A' ≤ c ∧ c ≤ 'F' then some (c.toNat - 'A'.toNat + 10)
  else none

def hexUnit? (a b c d : Char) : Option Nat := do
  return (((← hexDigit? a) * 16 + (← hexDigit? b)) * 16 + (← hexDigit? c)) * 16 + (← hexDigit? d)

/-- The four digits of an escape are missing. The text counts as ended when fewer than four bytes
    are left of it. -/
def missingDigits (rest : List Char) : Fault :=
  if (String.ofList rest).utf8ByteSize < 4 then .ended else .malformed

/-- Reads a string from after its opening quote. -/
def scanText (content : Content) : List Char → Scan
  | [] => content.cut .ended
  | '"' :: rest => ⟨.text content.close, rest⟩
  | '\\' :: 'u' :: a :: b :: c :: d :: rest =>
    match hexUnit? a b c d with
    | some unit => scanText (content.addUnit unit) rest
    | none => content.cut .malformed
  | '\\' :: 'u' :: rest => content.cut (missingDigits rest)
  | '\\' :: c :: rest =>
    match escaped? c with
    | some escaped => scanText (content.addChar escaped) rest
    | none => content.cut .malformed
  | ['\\'] => content.cut .ended
  | c :: rest =>
    if c.toNat < 0x20 then content.cut .malformed else scanText (content.addChar c) rest

def digitsOf (chars : List Char) : List Nat :=
  chars.map fun c => c.toNat - '0'.toNat

/-- Digits had to come here. The end of the text is told apart only where the number is used. -/
def missingDigit : List Char → Scan
  | [] => .bad false .ended .malformed
  | _ => .bad false .malformed .malformed

/-- Reads an exponent, if there is one, and completes the numeral with it. -/
def scanExponent (n : Numeral) : List Char → Scan
  | mark :: rest =>
    if mark = 'e' ∨ mark = 'E' then
      let (negative, rest) :=
        match rest with
        | '+' :: rest => (false, rest)
        | '-' :: rest => (true, rest)
        | rest => (false, rest)
      let digits := rest.takeWhile Char.isDigit
      if digits.isEmpty then
        missingDigit rest
      else
        let size : Int := Nat.ofDigitChars 10 digits 0
        let exponent := if negative then -size else size
        ⟨.number { n with exponent := some exponent }, rest.dropWhile Char.isDigit⟩
    else
      ⟨.number n, mark :: rest⟩
  | [] => ⟨.number n, []⟩

/-- Reads the digits after the point, if there is one, and what follows them. -/
def scanFraction (n : Numeral) : List Char → Scan
  | '.' :: rest =>
    let digits := rest.takeWhile Char.isDigit
    if digits.isEmpty then
      missingDigit rest
    else
      scanExponent { n with fraction := some (digitsOf digits) } (rest.dropWhile Char.isDigit)
  | rest => scanExponent n rest

/-- Reads a number from after its sign. A zero may not be followed by further digits. -/
def scanNumber (negative : Bool) (chars : List Char) : Scan :=
  let digits := chars.takeWhile Char.isDigit
  match digits with
  | [] => missingDigit chars
  | '0' :: _ :: _ => .bad false .malformed .malformed
  | digits => scanFraction { negative, whole := digitsOf digits } (chars.dropWhile Char.isDigit)

/-- Reads the rest of a word that has to go on with these letters. -/
def scanWord (token : Token) : List Char → List Char → Scan
  | [], rest => ⟨token, rest⟩
  | _ :: _, [] => .bad false .ended .ended
  | expected :: letters, c :: rest =>
    if c = expected then scanWord token letters rest else .bad false .malformed .malformed

/-- Reads one token that starts with `c`. -/
def scan (c : Char) (rest : List Char) : Scan :=
  match c with
  | '{' => ⟨.openBrace, rest⟩
  | '}' => ⟨.closeBrace, rest⟩
  | '[' => ⟨.openBracket, rest⟩
  | ']' => ⟨.closeBracket, rest⟩
  | ',' => ⟨.comma, rest⟩
  | ':' => ⟨.colon, rest⟩
  | '"' => scanText (.ok ([], none)) rest
  | 'n' => scanWord .null ['u', 'l', 'l'] rest
  | 't' => scanWord (.truth true) ['r', 'u', 'e'] rest
  | 'f' => scanWord (.truth false) ['a', 'l', 's', 'e'] rest
  | '-' => scanNumber true rest
  | c =>
    if c.isDigit then scanNumber false (c :: rest) else .bad false .malformed .malformed

def isBlank (c : Char) : Bool :=
  c = ' ' ∨ c = '\n' ∨ c = '\t' ∨ c = '\r'

/-- Cuts text into tokens. Every step takes at least one character, so `fuel` need not exceed
    their number. -/
def cutFrom : (fuel : Nat) → List Char → List Token
  | _, [] => []
  | 0, _ => []
  | fuel + 1, c :: rest =>
    if isBlank c then
      cutFrom fuel rest
    else
      let scanned := scan c rest
      scanned.token :: cutFrom fuel scanned.rest

/-- The tokens of a text. -/
def ofText (text : String) : List Token :=
  cutFrom text.length text.toList

end Token

end Json

end NetDesc
