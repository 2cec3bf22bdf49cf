import ViewLogic.Json.Token

/-!
# JSON text

Reading a text is a fold over its tokens, with a stack of the containers that are still open, so
containers may be nested to any depth. Writing uses no blanks.
-/

namespace ViewLogic.Json

/-- A container that is still open, with its last item first. There is no list of fields once a name
of the object is garbled. -/
inductive Frame where
  | arr (items : List Json)
  | obj (fields : Option (List (String × Json)))
  /-- An object whose last field has a name and no value yet. -/
  | field (fields : Option (List (String × Json))) (name : Option String)

/-- What the next token has to be. -/
inductive Expected where
  | value
  | valueOrEnd
  | name
  | nameOrEnd
  | colon
  | commaOrEnd

/-- What has been read: the open containers, or a whole value. -/
inductive Reading where
  | inside (stack : List Frame) (expected : Expected)
  | whole (value : Json)

namespace Reading

/-- Places a complete value into the innermost open container. -/
def place (value : Json) : List Frame → Option Reading
  | [] => some (whole value)
  | .arr items :: stack => some (inside (.arr (value :: items) :: stack) .commaOrEnd)
  | .field fields name :: stack =>
    let entry := name.map (·, value)
    some (inside (.obj (entry.bind fun e => fields.map (e :: ·)) :: stack) .commaOrEnd)
  | .obj _ :: _ => none

/-- Closes the innermost array. -/
def closeArr : List Frame → Option Reading
  | .arr items :: stack => place (.arr items.reverse) stack
  | _ => none

/-- Closes the innermost object. -/
def closeObj : List Frame → Option Reading
  | .obj (some fields) :: stack => place (.obj fields.reverse) stack
  | .obj none :: stack => place .garbled stack
  | _ => none

/-- Reads the first token of a value. -/
def stepValue (stack : List Frame) : Token → Option Reading
  | .scalar value => place value stack
  | .openArr => some (inside (.arr [] :: stack) .valueOrEnd)
  | .openObj => some (inside (.obj (some []) :: stack) .nameOrEnd)
  | _ => none

/-- Reads the name of a field. -/
def stepName : List Frame → Token → Option Reading
  | .obj fields :: stack, .scalar (.str name) =>
    some (inside (.field fields (some name) :: stack) .colon)
  | .obj fields :: stack, .scalar .garbled =>
    some (inside (.field fields none :: stack) .colon)
  | _, _ => none

/-- Reads a comma or the end of a container. -/
def stepComma : List Frame → Token → Option Reading
  | stack@(.arr _ :: _), .comma => some (inside stack .value)
  | stack@(.obj _ :: _), .comma => some (inside stack .name)
  | stack, .closeArr => closeArr stack
  | stack, .closeObj => closeObj stack
  | _, _ => none

/-- Reads one token. -/
def step : Reading → Token → Option Reading
  | whole _, _ => none
  | inside stack .value, t => stepValue stack t
  | inside stack .valueOrEnd, .closeArr => closeArr stack
  | inside stack .valueOrEnd, t => stepValue stack t
  | inside stack .name, t => stepName stack t
  | inside stack .nameOrEnd, .closeObj => closeObj stack
  | inside stack .nameOrEnd, t => stepName stack t
  | inside stack .colon, .colon => some (inside stack .value)
  | inside _ .colon, _ => none
  | inside stack .commaOrEnd, t => stepComma stack t

end Reading

/-- The value of a list of tokens. -/
def ofTokens? (tokens : List Token) : Option Json := do
  match ← tokens.foldlM Reading.step (.inside [] .value) with
  | .whole value => some value
  | .inside _ _ => none

/-- The value of a text, which may hold garbled strings. -/
def parseAny? (text : String) : Option Json := tokens? text >>= ofTokens?

/-- The value of a text each of whose strings stands for a text. -/
def parse? (text : String) : Option Json := do
  let tokens ← tokens? text
  if tokens.any Token.isGarbled then none else ofTokens? tokens

/-- A hexadecimal digit. -/
def hexDigit (n : Nat) : Char := Nat.digitChar (n % 16)

/-- The characters that stand for a character of a string. -/
def escape (c : Char) : List Char :=
  if c = '"' then ['\\', '"']
  else if c = '\\' then ['\\', '\\']
  else if c.toNat < 0x20 then ['\\', 'u', '0', '0', hexDigit (c.toNat / 16), hexDigit c.toNat]
  else [c]

/-- The text of a string value. -/
def quote (s : String) : String := "\"" ++ String.ofList (s.toList.flatMap escape) ++ "\""

mutual

/-- The text of a value. A garbled string is shown as the replacement character. -/
def render : Json → String
  | null => "null"
  | bool b => if b then "true" else "false"
  | int n => toString n
  | number text => text
  | str s => quote s
  | garbled => quote "\uFFFD"
  | arr items => "[" ++ String.intercalate "," (renderItems items) ++ "]"
  | obj fields => "\x7b" ++ String.intercalate "," (renderFields fields) ++ "\x7d"

/-- The texts of the items of an array. -/
def renderItems : List Json → List String
  | [] => []
  | v :: vs => v.render :: renderItems vs

/-- The texts of the fields of an object. -/
def renderFields : List (String × Json) → List String
  | [] => []
  | (name, v) :: fields => (quote name ++ ":" ++ v.render) :: renderFields fields

end

end ViewLogic.Json
