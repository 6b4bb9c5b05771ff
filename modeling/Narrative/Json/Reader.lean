import Narrative.Json.Numeral

/-!
# Reading JSON text

The reader goes through the octets from left to right and the first problem it
meets decides the error: a text that ends inside a value is told apart from one
that breaks a rule. Arrays and objects may be nested 127 deep. A repeated key of
an object keeps its first position and takes its last value.
-/

namespace Narrative.Json

/-! ## Strings -/

/-- Where the reader stands inside a string. -/
inductive StringState where
  | plain
  /-- After a backslash. -/
  | escape
  /-- Inside the four digits of a `\u` escape: digits to come, their value so far unless one was no
  digit, and the first half of a surrogate pair if this is the second. -/
  | hex (remaining : Nat) (value : Option Nat) (high : Option Nat)
  /-- After the first half of a surrogate pair, before the backslash of the second. -/
  | pairBackslash (high : Nat)
  /-- After that backslash. -/
  | pairMark (high : Nat)

/-- What one octet does to a string. -/
inductive StringStep where
  /-- The string ends here. -/
  | close
  /-- Octets of the text, and the state after them. -/
  | push (octets : Octets) (next : StringState)
  | fail

namespace StringState

def isHighSurrogate (n : Nat) : Bool := decide (0xd800 ≤ n) && decide (n ≤ 0xdbff)

def isLowSurrogate (n : Nat) : Bool := decide (0xdc00 ≤ n) && decide (n ≤ 0xdfff)

/-- The character with a code, as octets. -/
def encoded (code : Nat) : Octets := String.utf8EncodeChar (Char.ofNat code)

/-- The code that a surrogate pair stands for. -/
def pairCode (high low : Nat) : Nat := (high - 0xd800) * 0x400 + (low - 0xdc00) + 0x10000

/-- The end of a `\u` escape. -/
def finishHex (code : Nat) : Option Nat → StringStep
  | none =>
    if isLowSurrogate code then .fail
    else if isHighSurrogate code then .push [] (.pairBackslash code)
    else .push (encoded code) .plain
  | some high =>
    if isLowSurrogate code then .push (encoded (pairCode high code)) .plain else .fail

/-- The octet that a one-letter escape stands for. -/
def escaped? (b : UInt8) : Option UInt8 :=
  if b = Octet.quote ∨ b = Octet.backslash ∨ b = Octet.ofChar '/' then some b
  else if b = Octet.ofChar 'b' then some 0x08
  else if b = Octet.ofChar 'f' then some 0x0c
  else if b = Octet.ofChar 'n' then some 0x0a
  else if b = Octet.ofChar 'r' then some 0x0d
  else if b = Octet.ofChar 't' then some 0x09
  else none

/-- One octet inside a string. -/
def step : StringState → UInt8 → StringStep
  | plain, b =>
    if b = Octet.quote then .close
    else if b = Octet.backslash then .push [] escape
    else if b < 0x20 then .fail
    else .push [b] plain
  | escape, b =>
    match escaped? b with
    | some octet => .push [octet] plain
    | none => if b = Octet.ofChar 'u' then .push [] (hex 4 (some 0) none) else .fail
  | hex remaining value high, b =>
    let value := do
      let n ← value
      let d ← Octet.hexDigit? b
      some (n * 16 + d)
    if 1 < remaining then .push [] (hex (remaining - 1) value high)
    else match value with
      | none => .fail
      | some code => finishHex code high
  | pairBackslash high, b =>
    if b = Octet.backslash then .push [] (pairMark high) else .fail
  | pairMark high, b =>
    if b = Octet.ofChar 'u' then .push [] (hex 4 (some 0) (some high)) else .fail

end StringState

/-- The octets of a string up to its closing quote, with escapes replaced. -/
def stringOctets : StringState → Octets → Except ReadError (Front Octets)
  | _, [] => .error .endOfText
  | state, b :: rest =>
    match state.step b with
    | .close => .ok ([], rest)
    | .fail => .error .malformed
    | .push octets next => do
      let (more, rest) ← stringOctets next rest
      .ok (octets ++ more, rest)

/-- A string after its opening quote; its octets have to be UTF-8. -/
def readString (input : Octets) : Except ReadError (Front String) := do
  let (octets, rest) ← stringOctets .plain input
  match octets.toString? with
  | some text => .ok (text, rest)
  | none => .error .malformed

/-! ## Values -/

/-- What reads one value from the front of a text. -/
abbrev ValueReader := Octets → Except ReadError (Front Json)

/-- The rest of a fixed word. -/
def readWord : (word : Octets) → Octets → Except ReadError Octets
  | [], input => .ok input
  | _ :: _, [] => .error .endOfText
  | w :: word, b :: rest => if b = w then readWord word rest else .error .malformed

/-- Items up to the closing bracket, each read by `item`; there are at most `fuel` of them. -/
def readItems (item : ValueReader) :
    (fuel : Nat) → Octets → Except ReadError (Front (List Json))
  | 0, _ => .error .malformed
  | fuel + 1, input => do
    let (value, rest) ← item input
    match rest.skipBlanks with
    | [] => .error .endOfText
    | b :: rest =>
      if b = Octet.comma then do
        let (values, rest) ← readItems item fuel rest
        .ok (value :: values, rest)
      else if b = Octet.closeBracket then .ok ([value], rest)
      else .error .malformed

/-- An array after its opening bracket. -/
def readArray (item : ValueReader) (input : Octets) : Except ReadError (Front Json) :=
  match input.skipBlanks with
  | [] => .error .endOfText
  | b :: rest =>
    if b = Octet.closeBracket then .ok (.arr [], rest)
    else do
      let (values, rest) ← readItems item (b :: rest).length (b :: rest)
      .ok (.arr values, rest)

/-- A key and the colon after it. -/
def readKey (input : Octets) : Except ReadError (Front String) :=
  match input.skipBlanks with
  | [] => .error .endOfText
  | b :: rest =>
    if b = Octet.quote then do
      let (key, rest) ← readString rest
      match rest.skipBlanks with
      | [] => .error .endOfText
      | b :: rest => if b = Octet.colon then .ok (key, rest) else .error .malformed
    else .error .malformed

/-- Entries up to the closing brace, each value read by `item`; there are at most `fuel` of them. -/
def readEntries (item : ValueReader) :
    (fuel : Nat) → Octets → Except ReadError (Front (List (String × Json)))
  | 0, _ => .error .malformed
  | fuel + 1, input => do
    let (key, rest) ← readKey input
    let (value, rest) ← item rest
    match rest.skipBlanks with
    | [] => .error .endOfText
    | b :: rest =>
      if b = Octet.comma then do
        let (entries, rest) ← readEntries item fuel rest
        .ok ((key, value) :: entries, rest)
      else if b = Octet.closeBrace then .ok ([(key, value)], rest)
      else .error .malformed

/-- An object after its opening brace. -/
def readObject (item : ValueReader) (input : Octets) : Except ReadError (Front Json) :=
  match input.skipBlanks with
  | [] => .error .endOfText
  | b :: rest =>
    if b = Octet.closeBrace then .ok (.obj [], rest)
    else do
      let (entries, rest) ← readEntries item (b :: rest).length (b :: rest)
      .ok (.obj (Dict.ofList entries), rest)

/-- A value that starts at the given octet; what follows a bracket or brace is left to `array` and
`object`. -/
def readFrom (array object : ValueReader) (b : UInt8) (rest : Octets) :
    Except ReadError (Front Json) :=
  if b = Octet.quote then do
    let (text, rest) ← readString rest
    .ok (.str text, rest)
  else if b = Octet.openBracket then array rest
  else if b = Octet.openBrace then object rest
  else if b = Octet.minus then Numeral.read true rest
  else if Octet.isDigit b then Numeral.read false (b :: rest)
  else if b = Octet.ofChar 'n' then do
    .ok (.null, ← readWord ("ull".toList.map Octet.ofChar) rest)
  else if b = Octet.ofChar 't' then do
    .ok (.bool true, ← readWord ("rue".toList.map Octet.ofChar) rest)
  else if b = Octet.ofChar 'f' then do
    .ok (.bool false, ← readWord ("alse".toList.map Octet.ofChar) rest)
  else .error .malformed

/-- A value after leading blanks, with at most `depth` arrays and objects inside each other. -/
def readValue : (depth : Nat) → Octets → Except ReadError (Front Json)
  | 0, input =>
    match input.skipBlanks with
    | [] => .error .endOfText
    | b :: rest => readFrom (fun _ => .error .malformed) (fun _ => .error .malformed) b rest
  | depth + 1, input =>
    match input.skipBlanks with
    | [] => .error .endOfText
    | b :: rest => readFrom (readArray (readValue depth)) (readObject (readValue depth)) b rest

/-- Arrays and objects may be nested this deep. -/
def depthLimit : Nat := 127

/-- Reads a whole text; only blanks may follow the value. -/
def ofOctets (input : Octets) : Except ReadError Json := do
  let (value, rest) ← readValue depthLimit input
  if rest.skipBlanks.isEmpty then .ok value else .error .malformed

/-- Reads a whole text. -/
def parse (text : String) : Except ReadError Json := ofOctets (Octets.ofString text)

end Narrative.Json
