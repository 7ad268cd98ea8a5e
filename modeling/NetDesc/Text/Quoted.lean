import NetDesc.Text.Invisible

namespace NetDesc

namespace Text

/-- The code of a character in hexadecimal. -/
def hexCode (c : Char) : String :=
  String.ofList (Nat.toDigits 16 c.toNat)

/-- A character as it stands between quotes. -/
def quotedChar (c : Char) : String :=
  match c with
  | '"' => "\\\""
  | '\\' => "\\\\"
  | '\n' => "\\n"
  | '\r' => "\\r"
  | '\t' => "\\t"
  | c =>
    if c.toNat = 0 then "\\0"
    else if isInvisible c then "\\u\x7b" ++ hexCode c ++ "\x7d"
    else c.toString

/-- The text in quotes, as messages show it. Quotes, backslashes and characters that cannot be
    seen are escaped, everything else stands for itself. -/
def quoted (s : String) : String :=
  "\"" ++ String.join (s.toList.map quotedChar) ++ "\""

end Text

end NetDesc
