import NetDesc.Json.Numeral

namespace NetDesc

/-- A document. Objects keep their fields in the order in which they are written. Words are
    natural numbers of 32 bits, which are written without a point. -/
inductive Json where
  | truth (value : Bool)
  | word (value : UInt32)
  | real (value : Float)
  | text (value : String)
  | list (items : List Json)
  | object (fields : List (String × Json))

namespace Json

/-- The four hexadecimal digits of a control character's code. -/
def controlCode (c : Char) : String :=
  let digits := String.ofList (Nat.toDigits 16 c.toNat)
  "".pushn '0' (4 - digits.length) ++ digits

/-- A character as it stands in a string. -/
def escapedChar (c : Char) : String :=
  match c with
  | '"' => "\\\""
  | '\\' => "\\\\"
  | '\n' => "\\n"
  | '\r' => "\\r"
  | '\t' => "\\t"
  | '\x08' => "\\b"
  | '\x0c' => "\\f"
  | c => if c.toNat < 0x20 then "\\u" ++ controlCode c else c.toString

def stringText (s : String) : String :=
  "\"" ++ String.join (s.toList.map escapedChar) ++ "\""

mutual

/-- The text of a document, without blanks. -/
def render : Json → String
  | .truth value => if value then "true" else "false"
  | .word value => toString value
  | .real value => realText value
  | .text value => stringText value
  | .list items => "[" ++ renderItems items ++ "]"
  | .object fields => "\x7b" ++ renderFields fields ++ "\x7d"

def renderItems : List Json → String
  | [] => ""
  | [item] => item.render
  | item :: rest => item.render ++ "," ++ renderItems rest

def renderFields : List (String × Json) → String
  | [] => ""
  | [(name, value)] => stringText name ++ ":" ++ value.render
  | (name, value) :: rest => stringText name ++ ":" ++ value.render ++ "," ++ renderFields rest

end

end Json

end NetDesc
