import NetDesc.Json.Skip
import NetDesc.Tree.LoadError
import NetDesc.Tree.Shape

namespace NetDesc

namespace Tree

open Json (Token)

/-- Reads something from the front of the tokens and gives the tokens after it. -/
abbrev Reader (α : Type) := List Token → Except LoadError (α × List Token)

/-- Arrays and objects may be nested this deep. -/
def maxNesting : Nat := 127

/-- The tokens start with something else than what was expected. -/
def wrongType (expected : String) : List Token → LoadError
  | [] => .ended
  | .null :: _ => .data (.wrongType .null expected)
  | .truth value :: _ => .data (.wrongType (.truth value) expected)
  | .number numeral :: _ =>
    match numeral.meaning? with
    | some (.whole i) => .data (.wrongType (.whole i) expected)
    | some (.real x) => .data (.wrongType (.real x) expected)
    | none => .malformed
  | .text (.ok value) :: _ => .data (.wrongType (.text value) expected)
  | .text (.error fault) :: _ => .text fault
  | .openBracket :: _ => .data (.wrongType .sequence expected)
  | .openBrace :: _ => .data (.wrongType .map expected)
  | .bad _ used _ :: _ => .text used
  | _ => .malformed

def readNumber : Reader Float
  | .number numeral :: rest =>
    match numeral.meaning? with
    | some (.whole i) => .ok (Float.ofInt i, rest)
    | some (.real x) => .ok (x, rest)
    | none => .error .malformed
  | tokens => .error (wrongType "f64" tokens)

/-- Reads a natural number of 32 bits. -/
def readWord : Reader UInt32
  | .number numeral :: rest =>
    match numeral.meaning? with
    | some (.whole i) =>
      if 0 ≤ i ∧ i < UInt32.size then .ok (UInt32.ofNat i.toNat, rest)
      else .error (.data (.wrongValue (.whole i) "u32"))
    | some (.real x) => .error (.data (.wrongType (.real x) "u32"))
    | none => .error .malformed
  | tokens => .error (wrongType "u32" tokens)

def readFlag : Reader Bool
  | .truth value :: rest => .ok (value, rest)
  | tokens => .error (wrongType "a boolean" tokens)

def readText : Reader String
  | .text (.ok value) :: rest => .ok (value, rest)
  | tokens => .error (wrongType "a string" tokens)

/-- Reads null, which is all that may come with a name that has no contents. -/
def readNothing : Reader Unit
  | .null :: rest => .ok ((), rest)
  | tokens => .error (wrongType "unit" tokens)

/-- Finds the next item of a list. Gives the tokens it starts with, or nothing in front of the
    closing bracket. -/
def nextItem (isFirst : Bool) : List Token → Except LoadError (Option (List Token))
  | [] => .error .ended
  | .closeBracket :: _ => .ok none
  | token :: rest =>
    if isFirst then
      .ok (some (token :: rest))
    else
      match token, rest with
      | .comma, [] => .error .ended
      | .comma, .closeBracket :: _ => .error .malformed
      | .comma, rest => .ok (some rest)
      | _, _ => .error .malformed

/-- Reads the key of an object's field, which has to be a string. -/
def readKey : Reader String
  | [] => .error .ended
  | .text (.ok name) :: rest => .ok (name, rest)
  | .text (.error fault) :: _ => .error (.text fault)
  | .bad true used _ :: _ => .error (.text used)
  | _ => .error .malformed

/-- Finds the next field of an object. Gives its key and the tokens after that, or nothing in front
    of the closing brace. -/
def nextKey (isFirst : Bool) : List Token → Except LoadError (Option (String × List Token))
  | [] => .error .ended
  | .closeBrace :: _ => .ok none
  | token :: rest => do
    if isFirst then
      return some (← readKey (token :: rest))
    else
      match token with
      | .comma => return some (← readKey rest)
      | _ => throw .malformed

/-- One particular token has to come here. -/
def expect (token : Token) : List Token → Except LoadError (List Token)
  | [] => .error .ended
  | found :: rest =>
    match token, found with
    | .colon, .colon => .ok rest
    | .closeBracket, .closeBracket => .ok rest
    | .closeBrace, .closeBrace => .ok rest
    | _, _ => .error .malformed

/-- Reads items up to the closing bracket. Every round takes a token, so `fuel` need not exceed
    their number. -/
def readItems (item : Reader Part) : (fuel : Nat) → (isFirst : Bool) → Reader (List Part)
  | 0, _, _ => .error .malformed
  | fuel + 1, isFirst, tokens => do
    match ← nextItem isFirst tokens with
    | none => return ([], ← expect .closeBracket tokens)
    | some tokens =>
      let (first, tokens) ← item tokens
      let (others, tokens) ← readItems item fuel false tokens
      return (first :: others, tokens)

/-- The message's words for how many fields a group has. -/
def lengthText (g : Group) : String :=
  s!"{g.title} with {g.fields.length} elements"

/-- Reads the fields of a group from an array, in the order of declaration. At the end of the array
    the remaining fields have to have defaults. -/
def readInOrder (g : Group) (read : Shape → Reader Part) (count : Nat) :
    List Field → Reader (List Part)
  | [], tokens => do return ([], ← expect .closeBracket tokens)
  | field :: fields, tokens => do
    match ← nextItem (count == 0) tokens with
    | some tokens =>
      let (part, tokens) ← read field.shape tokens
      let (parts, tokens) ← readInOrder g read (count + 1) fields tokens
      return (part :: parts, tokens)
    | none =>
      match field.default? with
      | some part =>
        let (parts, tokens) ← readInOrder g read (count + 1) fields tokens
        return (part :: parts, tokens)
      | none => throw (.data (.wrongLength count (lengthText g)))

/-- The fields that an object gave, by name, completed by defaults. -/
def completed (found : List (String × Part)) : List Field → Except LoadError (List Part)
  | [] => .ok []
  | field :: fields =>
    match found.lookup field.name <|> field.default? with
    | some part => do return part :: (← completed found fields)
    | none => .error (.data (.missingField field.name))

/-- Reads the fields of a group from an object, in any order, and adds them to those already found.
    Fields that are not known are passed over. Every round takes a token, so `fuel` need not exceed
    their number. -/
def readByName (g : Group) (read : Shape → Reader Part) (found : List (String × Part)) :
    (fuel : Nat) → (isFirst : Bool) → Reader (List Part)
  | 0, _, _ => .error .malformed
  | fuel + 1, isFirst, tokens => do
    match ← nextKey isFirst tokens with
    | none =>
      let parts ← completed found g.fields
      return (parts, ← expect .closeBrace tokens)
    | some (name, tokens) =>
      match g.fields.find? (·.name == name) with
      | some field =>
        if (found.lookup name).isSome then
          throw (.data (.duplicateField name))
        let tokens ← expect .colon tokens
        let (part, tokens) ← read field.shape tokens
        readByName g read ((name, part) :: found) fuel false tokens
      | none =>
        let tokens ← expect .colon tokens
        match Json.skipValue tokens with
        | .ok tokens => readByName g read found fuel false tokens
        | .error fault => throw (.text fault)

/-- An assembled part, together with the tokens after it. -/
def assembled (part? : Option Part) (tokens : List Token) : Except LoadError (Part × List Token) :=
  match part? with
  | some part => .ok (part, tokens)
  | none => .error .malformed

/-- How to read what is nested one level deeper, unless that is too deep. -/
def deeper (inner : Option (Shape → Reader Part)) : Except LoadError (Shape → Reader Part) :=
  match inner with
  | some read => .ok read
  | none => .error .malformed

def readGroup (fuel : Nat) (inner : Option (Shape → Reader Part)) (g : Group) : Reader Part
  | .openBracket :: tokens => do
    let (parts, tokens) ← readInOrder g (← deeper inner) 0 g.fields tokens
    assembled (g.assemble? parts) tokens
  | .openBrace :: tokens => do
    let (parts, tokens) ← readByName g (← deeper inner) [] fuel true tokens
    assembled (g.assemble? parts) tokens
  | tokens => .error (wrongType g.title tokens)

def readList (fuel : Nat) (inner : Option (Shape → Reader Part)) (item : Shape) : Reader Part
  | .openBracket :: tokens => do
    let read ← deeper inner
    let (parts, tokens) ← readItems (read item) fuel true tokens
    return (.list parts, tokens)
  | tokens => .error (wrongType "a sequence" tokens)

/-- The alternative of this name. -/
def Choice.named (c : Choice) (name : String) : Except LoadError Variant :=
  match c.variants.find? (·.name == name) with
  | some variant => .ok variant
  | none => .error (.data (.unknownVariant name (c.variants.map (·.name))))

/-- Reads what comes with the name of an alternative. -/
def readContents (read : Shape → Reader Part) : Contents → Reader Part
  | .nothing, tokens => do
    let ((), tokens) ← readNothing tokens
    return (.nothing, tokens)
  | .one shape, tokens => read shape tokens
  | .group g, tokens => read (.group g) tokens

/-- Reads a choice: the bare name of an alternative without contents, or an object with the name as
    its only key. -/
def readChoice (inner : Option (Shape → Reader Part)) (c : Choice) : Reader Part
  | [] => .error .ended
  | .text (.ok name) :: tokens => do
    match (← c.named name).contents with
    | .nothing => assembled (c.assemble? name .nothing) tokens
    | .one _ => throw (.data (.wrongType .bareName "newtype variant"))
    | .group _ => throw (.data (.wrongType .bareName "struct variant"))
  | .text (.error fault) :: _ => .error (.text fault)
  | .bad true used _ :: _ => .error (.text used)
  | .openBrace :: tokens => do
    let read ← deeper inner
    let (name, tokens) ← readKey tokens
    let variant ← c.named name
    let tokens ← expect .colon tokens
    let (contents, tokens) ← readContents read variant.contents tokens
    let tokens ← expect .closeBrace tokens
    assembled (c.assemble? name contents) tokens
  | _ => .error .malformed

/-- Reads one level, given how to read what is nested in it. -/
def readLevel (fuel : Nat) (inner : Option (Shape → Reader Part)) : Shape → Reader Part
  | .number, tokens => do
    let (value, tokens) ← readNumber tokens
    return (.number value, tokens)
  | .text, tokens => do
    let (value, tokens) ← readText tokens
    return (.text value, tokens)
  | .flag, tokens => do
    let (value, tokens) ← readFlag tokens
    return (.flag value, tokens)
  | .word, tokens => do
    let (value, tokens) ← readWord tokens
    return (.word value, tokens)
  | .list item, tokens => readList fuel inner item tokens
  | .group g, tokens => readGroup fuel inner g tokens
  | .choice c, tokens => readChoice inner c tokens

/-- Reads a part of the given shape, nested at most `depth` levels, from left to right, so the
    first fault in the text is the one that is reported. A group is an object of its fields in
    any order or an array of them in the order of declaration. -/
def read (fuel : Nat) : (depth : Nat) → Shape → Reader Part
  | 0 => readLevel fuel none
  | depth + 1 => readLevel fuel (some (read fuel depth))

/-- The tree that a sequence of tokens describes. Nothing may follow it. -/
def ofTokens (tokens : List Token) : Except LoadError Expr := do
  match ← read (tokens.length + 1) maxNesting (.group .expr) tokens with
  | (.expr e, []) => return e
  | _ => throw .malformed

/-- The tree that a text describes. -/
def ofText (text : String) : Except LoadError Expr :=
  ofTokens (Token.ofText text)

end Tree

end NetDesc
