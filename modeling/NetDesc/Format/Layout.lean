namespace NetDesc

namespace Layout

/-- Spaces to put in front of a line. -/
def margin (indent : Nat) : List Char :=
  List.replicate indent ' '

/-- A character with the margin of the line that starts after it, if one does. -/
def withMargin (indent : Nat) (c : Char) : List Char :=
  if c = '\n' then c :: margin indent else [c]

/-- Puts a margin in front of every line, also of empty ones. -/
def indentChars (indent : Nat) (chars : List Char) : List Char :=
  margin indent ++ chars.flatMap (withMargin indent)

/-- The text with every line moved to the right by the same number of spaces. -/
def indent (s : String) (width : Nat) : String :=
  String.ofList (indentChars width s.toList)

/-- The text between brackets and moved to the right by two. The brackets stand on lines of their
    own, or the first line follows the opening one and the closing one follows the last. The first
    line has one space less in its margin, since a bracket or a line break with a space stands
    before it. -/
def nest (s : String) (opening : Char) (ownLines : Bool) (closing : Char) : String :=
  let body := (indentChars 2 s.toList).drop 1
  if ownLines then
    String.ofList (opening :: '\n' :: ' ' :: body ++ ['\n', closing])
  else
    String.ofList (opening :: body ++ [' ', closing])

end Layout

end NetDesc
