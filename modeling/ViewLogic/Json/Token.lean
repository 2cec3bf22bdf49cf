import ViewLogic.Json

/-!
# Tokens of JSON text

The text is read one character at a time. What has been read of an unfinished token is the mode, and
`Mode.step` is total, so a text is read by a fold over its characters. A string may not hold a raw
control character. Its code points are joined to characters at its end: an escaped surrogate is one
half of a character, and a string with an unpaired half is garbled.
-/

namespace ViewLogic.Json

/-- A token: a bracket, a sign between values, or a value that is no container. -/
inductive Token where
  | openObj
  | closeObj
  | openArr
  | closeArr
  | colon
  | comma
  | scalar (value : Json)

/-- Whether a token is a garbled string. -/
def Token.isGarbled : Token → Bool
  | scalar .garbled => true
  | _ => false

/-- Whether all characters are digits and there is one. -/
def isDigits (cs : List Char) : Bool := !cs.isEmpty && cs.all Char.isDigit

/-- Whether the characters may follow the digits of a number's exponent sign. -/
def isExponent : List Char → Bool
  | '+' :: cs | '-' :: cs => isDigits cs
  | cs => isDigits cs

/-- Whether the characters are an exponent, or nothing. -/
def isExponentPart : List Char → Bool
  | [] => true
  | c :: cs => (c == 'e' || c == 'E') && isExponent cs

/-- Whether the characters are a fraction and an exponent, each of which may be missing. -/
def isFractionPart : List Char → Bool
  | '.' :: cs => isDigits (cs.takeWhile Char.isDigit) && isExponentPart (cs.dropWhile Char.isDigit)
  | cs => isExponentPart cs

/-- The number that decimal digits stand for. -/
def digitsValue (cs : List Char) : Nat := cs.foldl (fun n c => 10 * n + (c.toNat - '0'.toNat)) 0

/-- The number without a sign that the characters stand for. Its digits before the point have no
leading zero. -/
def unsigned? (negative : Bool) (cs : List Char) : Option Json :=
  let digits := cs.takeWhile Char.isDigit
  let rest := cs.dropWhile Char.isDigit
  if digits.isEmpty || (digits.head? == some '0' && digits.length != 1) then none
  else if rest.isEmpty then
    some (.int (if negative then -digitsValue digits else digitsValue digits))
  else if isFractionPart rest then
    some (.number (String.ofList (if negative then '-' :: cs else cs)))
  else none

/-- The value of a word: a number or one of the three names. -/
def word? (cs : List Char) : Option Json :=
  if cs = "true".toList then some (.bool true)
  else if cs = "false".toList then some (.bool false)
  else if cs = "null".toList then some .null
  else match cs with
    | '-' :: digits => unsigned? true digits
    | digits => unsigned? false digits

/-- Whether a character can be part of a word. -/
def isWordChar (c : Char) : Bool := c.isAlphanum || c == '-' || c == '+' || c == '.'

/-- Whether a code point is the first half of a surrogate pair. -/
def isHigh (n : Nat) : Bool := decide (0xD800 ≤ n ∧ n < 0xDC00)

/-- Whether a code point is the second half of a surrogate pair. -/
def isLow (n : Nat) : Bool := decide (0xDC00 ≤ n ∧ n < 0xE000)

/-- The character of a surrogate pair. -/
def pairChar (high low : Nat) : Char :=
  Char.ofNat (0x10000 + (high - 0xD800) * 0x400 + (low - 0xDC00))

/-- Puts a code point in front of characters, in front of which a second half may wait for its first
half. -/
def prepend? : List Char × Option Nat → Nat → Option (List Char × Option Nat)
  | (cs, some low), n => if isHigh n then some (pairChar n low :: cs, none) else none
  | (cs, none), n =>
    if isLow n then some (cs, some n)
    else if isHigh n then none
    else some (Char.ofNat n :: cs, none)

/-- The value of a string from its code points, the last one first. -/
def stringValue (read : List Nat) : Json :=
  match read.foldlM prepend? ([], none) with
  | some (cs, none) => .str (String.ofList cs)
  | _ => .garbled

/-- What has been read of an unfinished token. The characters of a word and the code points of a
string are held with the last one first. -/
inductive Mode where
  | between
  | word (read : List Char)
  | text (read : List Nat)
  /-- A backslash was read. -/
  | escape (read : List Nat)
  /-- Hexadecimal digits of an escaped code point were read. -/
  | unit (read : List Nat) (digits value : Nat)

/-- The value of a hexadecimal digit. -/
def hexDigit? (c : Char) : Option Nat :=
  if c.isDigit then some (c.toNat - '0'.toNat)
  else if 'a' ≤ c ∧ c ≤ 'f' then some (c.toNat - 'a'.toNat + 10)
  else if 'A' ≤ c ∧ c ≤ 'F' then some (c.toNat - 'A'.toNat + 10)
  else none

/-- The character of an escape by one letter. -/
def escaped? : Char → Option Char
  | '"' => some '"'
  | '\\' => some '\\'
  | '/' => some '/'
  | 'b' => some (Char.ofNat 8)
  | 'f' => some (Char.ofNat 12)
  | 'n' => some '\n'
  | 'r' => some '\r'
  | 't' => some '\t'
  | _ => none

namespace Mode

/-- Reads a character outside of words and strings. -/
def stepBetween (c : Char) : Option (Mode × List Token) :=
  if c = ' ' ∨ c = '\t' ∨ c = '\n' ∨ c = '\r' then some (between, [])
  else if isWordChar c then some (word [c], [])
  else match c with
    | '"' => some (text [], [])
    | '\x7b' => some (between, [.openObj])
    | '\x7d' => some (between, [.closeObj])
    | '[' => some (between, [.openArr])
    | ']' => some (between, [.closeArr])
    | ':' => some (between, [.colon])
    | ',' => some (between, [.comma])
    | _ => none

/-- Reads one character: the new mode and the tokens that the character completes. -/
def step : Mode → Char → Option (Mode × List Token)
  | between, c => stepBetween c
  | word read, c =>
    if isWordChar c then some (word (c :: read), [])
    else do
      let value ← word? read.reverse
      let (mode, tokens) ← stepBetween c
      some (mode, .scalar value :: tokens)
  | text read, c =>
    if c = '"' then some (between, [.scalar (stringValue read)])
    else if c = '\\' then some (escape read, [])
    else if c.toNat < 0x20 then none
    else some (text (c.toNat :: read), [])
  | escape read, c =>
    if c = 'u' then some (unit read 0 0, [])
    else (escaped? c).map fun c => (text (c.toNat :: read), [])
  | unit read digits value, c => do
    let d ← hexDigit? c
    if digits = 3 then some (text ((16 * value + d) :: read), [])
    else some (unit read (digits + 1) (16 * value + d), [])

/-- The last token, if the text ends here. -/
def finish : Mode → Option (List Token)
  | between => some []
  | word read => (word? read.reverse).map ([.scalar ·])
  | _ => none

end Mode

/-- The tokens of a text. -/
def tokens? (text : String) : Option (List Token) := do
  let (mode, read) ← text.toList.foldlM (fun (mode, read) c => do
    let (mode, tokens) ← mode.step c
    some (mode, tokens.reverse ++ read)) (Mode.between, [])
  let last ← mode.finish
  some (read.reverse ++ last)

end ViewLogic.Json
