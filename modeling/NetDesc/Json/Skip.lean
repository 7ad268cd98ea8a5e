import NetDesc.Json.Token

namespace NetDesc

namespace Json

/-- A bracket that is still open. -/
inductive Opened where
  | list
  | object
deriving DecidableEq, Inhabited

/-- What may come next while a value is passed over. `first` is the place right after an opening
    bracket and `next` the place after a value. -/
inductive Awaited where
  | value
  | first
  | next
  | key
  | colon
deriving DecidableEq, Inhabited

/-- What is open and what is awaited after a token that starts a value. -/
def startValue (opened : List Opened) : Token → Except Fault (List Opened × Awaited)
  | .null | .truth _ | .number _ | .text _ => .ok (opened, .next)
  | .openBracket => .ok (.list :: opened, .first)
  | .openBrace => .ok (.object :: opened, .first)
  | .bad _ _ skipped => .error skipped
  | _ => .error .malformed

/-- What is awaited after a token that has to be a key. -/
def startKey : Token → Except Fault Awaited
  | .text _ => .ok .colon
  | .bad true _ skipped => .error skipped
  | _ => .error .malformed

/-- Passes over the tokens up to the end of the value and gives those after it. The value may be
    nested to any depth, so what is still open is kept in a list instead of recursing into it. -/
def skipFrom (opened : List Opened) (awaited : Awaited) :
    List Token → Except Fault (List Token)
  | [] =>
    match opened, awaited with
    | [], .next => .ok []
    | _, _ => .error .ended
  | token :: rest =>
    match opened, awaited, token with
    | [], .next, _ => .ok (token :: rest)
    | .list :: outer, .first, .closeBracket => skipFrom outer .next rest
    | .list :: outer, .next, .closeBracket => skipFrom outer .next rest
    | .list :: _, .next, .comma => skipFrom opened .value rest
    | .object :: outer, .first, .closeBrace => skipFrom outer .next rest
    | .object :: outer, .next, .closeBrace => skipFrom outer .next rest
    | .object :: _, .next, .comma => skipFrom opened .key rest
    | _, .next, _ => .error .malformed
    | _, .colon, .colon => skipFrom opened .value rest
    | _, .colon, _ => .error .malformed
    | _, .key, _ => do skipFrom opened (← startKey token) rest
    | .object :: _, .first, _ => do skipFrom opened (← startKey token) rest
    | _, _, _ => do
      let (opened, awaited) ← startValue opened token
      skipFrom opened awaited rest

/-- The tokens after the value that the tokens start with. -/
def skipValue (tokens : List Token) : Except Fault (List Token) :=
  skipFrom [] .value tokens

end Json

end NetDesc
