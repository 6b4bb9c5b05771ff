import Narrative.Json.Escape
import Narrative.Json.Value
import Narrative.Number.Decimal

/-!
# Writing JSON text step by step

A writer holds the text so far and a stack of what is open. Every operation
first checks that it is allowed where the writer stands; an operation that is
not allowed there stops with a `WriterFault` and leaves the writer as it was at
that point. Commas are placed by the writer.
-/

namespace Narrative.Json

/-- What a writer has opened and not yet closed. -/
inductive Opening where
  | object
  | array
  | property
  | propertyName
  | string
deriving DecidableEq

namespace Opening

def label : Opening → String
  | object => "Object"
  | array => "Array"
  | property => "Property"
  | propertyName => "PropertyName"
  | string => "String"

end Opening

/-- Something open, with the number of values or properties written in it. -/
structure Frame where
  opening : Opening
  count : Nat := 0
deriving DecidableEq

/-- Text being written. -/
structure Writer where
  text : String := ""
  /-- What is open, innermost first. -/
  stack : List Frame := []
  /-- Whether the top-level value has been begun. -/
  begun : Bool := false
  /-- Octets written so far. -/
  size : Nat := 0
deriving DecidableEq

/-- An operation that is not allowed where the writer stands. -/
inductive WriterFault where
  | objectEndOutside
  | arrayEndOutside
  | propertyOutside
  | propertyEndOutside
  | propertyNotFilled
  | propertyFilled
  | nameOutside
  | stringOutside
  | valueIn (opening : Opening)
  | secondValue
deriving DecidableEq

namespace WriterFault

def message : WriterFault → String
  | objectEndOutside => "object end outside an object"
  | arrayEndOutside => "array end outside an array"
  | propertyOutside => "property outside an object"
  | propertyEndOutside => "property end outside a property"
  | propertyNotFilled => "property must have exactly one value"
  | propertyFilled => "property already has a value"
  | nameOutside => "not inside a property name"
  | stringOutside => "not inside a string"
  | valueIn opening => "value written in state " ++ opening.label
  | secondValue => "second top-level value"

end WriterFault

/-- A step of writing; the writer is kept when a step fails. -/
abbrev Writing := EStateM WriterFault Writer

namespace Writer

def empty : Writer := {}

/-- Whether exactly one value has been written to its end. -/
def isComplete (writer : Writer) : Bool := writer.stack.isEmpty && writer.begun

def opening? (writer : Writer) : Option Opening := writer.stack.head?.map Frame.opening

def count (writer : Writer) : Nat := (writer.stack.head?.map Frame.count).getD 0

def append (writer : Writer) (piece : String) : Writer :=
  { writer with text := writer.text ++ piece, size := writer.size + piece.utf8ByteSize }

def push (writer : Writer) (opening : Opening) : Writer :=
  { writer with stack := { opening } :: writer.stack }

def pop (writer : Writer) : Writer := { writer with stack := writer.stack.tail }

/-- Counts one more value or property in what is open. -/
def increment (writer : Writer) : Writer :=
  match writer.stack with
  | [] => writer
  | frame :: rest => { writer with stack := { frame with count := frame.count + 1 } :: rest }

/-- Writes a comma between neighbours. -/
def separate (writer : Writer) : Writer :=
  if 0 < writer.count then writer.append "," else writer

/-- Writes text as the inside of a string. -/
def appendEscaped (writer : Writer) (text : String) : Writer :=
  ((piecesOf text).map (Piece.written text)).foldl append writer

end Writer

namespace Writing

/-- Stops with a fault unless a condition holds. -/
def require (condition : Bool) (fault : WriterFault) : Writing Unit :=
  if condition then pure () else throw fault

/-- Stops with a fault unless the innermost thing open is of one kind. -/
def requireInside (opening : Opening) (fault : WriterFault) : Writing Unit := do
  require ((← get).opening? == some opening) fault

def put (piece : String) : Writing Unit := modify (Writer.append · piece)

/-- Makes room for a value where one may stand. -/
def beginValue : Writing Unit := do
  let writer ← get
  match writer.opening? with
  | none => do
    require (!writer.begun) .secondValue
    set { writer with begun := true }
  | some .property => do
    require (writer.count == 0) .propertyFilled
    set writer.increment
  | some .array => set writer.separate.increment
  | some opening => throw (.valueIn opening)

/-- A value of one piece. -/
def scalar (piece : String) : Writing Unit := do
  beginValue
  put piece

def objectStart : Writing Unit := do
  beginValue
  modify (Writer.push · .object)
  put "\x7b"

def objectEnd : Writing Unit := do
  requireInside .object .objectEndOutside
  modify Writer.pop
  put "\x7d"

def arrayStart : Writing Unit := do
  beginValue
  modify (Writer.push · .array)
  put "["

def arrayEnd : Writing Unit := do
  requireInside .array .arrayEndOutside
  modify Writer.pop
  put "]"

/-- A property name; exactly one value comes next. -/
def propertyStart (name : String) : Writing Unit := do
  requireInside .object .propertyOutside
  modify fun writer =>
    ((writer.separate.append "\"").appendEscaped name).append "\":" |>.increment.push .property

def propertyEnd : Writing Unit := do
  requireInside .property .propertyEndOutside
  require ((← get).count == 1) .propertyNotFilled
  modify Writer.pop

/-- A property whose value is written by the given step. -/
def property (name : String) (value : Writing Unit) : Writing Unit := do
  propertyStart name
  value
  propertyEnd

/-- An object whose properties are written by the given step. -/
def object (body : Writing Unit) : Writing Unit := do
  objectStart
  body
  objectEnd

/-- An array whose items are written by the given step. -/
def array (body : Writing Unit) : Writing Unit := do
  arrayStart
  body
  arrayEnd

/-- Begins a property name that comes in pieces. -/
def nameStart : Writing Unit := do
  requireInside .object .propertyOutside
  modify fun writer =>
    (writer.separate.append "\"").increment.push .property |>.push .propertyName

def nameInner (text : String) : Writing Unit := do
  requireInside .propertyName .nameOutside
  modify (Writer.appendEscaped · text)

def nameEnd : Writing Unit := do
  requireInside .propertyName .nameOutside
  modify Writer.pop
  put "\":"

def null : Writing Unit := scalar "null"

def bool (value : Bool) : Writing Unit := scalar (if value then "true" else "false")

def int (value : Int32) : Writing Unit := scalar value.toInt.repr

def float (value : Single) : Writing Unit := scalar value.wireText

def str (text : String) : Writing Unit := do
  beginValue
  put "\""
  modify (Writer.appendEscaped · text)
  put "\""

/-- Begins a string that comes in pieces. -/
def stringStart : Writing Unit := do
  beginValue
  modify (Writer.push · .string)
  put "\""

def stringInner (text : String) : Writing Unit := do
  requireInside .string .stringOutside
  modify (Writer.appendEscaped · text)

def stringEnd : Writing Unit := do
  requireInside .string .stringOutside
  modify Writer.pop
  put "\""

def strProperty (name text : String) : Writing Unit := property name (str text)

def intProperty (name : String) (value : Int32) : Writing Unit := property name (int value)

def boolProperty (name : String) (value : Bool) : Writing Unit := property name (bool value)

mutual

/-- A whole value. -/
def value : Json → Writing Unit
  | .null => null
  | .bool b => bool b
  | .int n => int n
  | .float x => float x
  | .str text => str text
  | .arr items => array (values items)
  | .obj fields => object (properties fields)

def values : List Json → Writing Unit
  | [] => pure ()
  | item :: rest => do
    value item
    values rest

def properties : List (String × Json) → Writing Unit
  | [] => pure ()
  | (key, item) :: rest => do
    property key (value item)
    properties rest

end

/-- The text that a step writes from the beginning. -/
def text (step : Writing Unit) : String :=
  match step.run .empty with
  | .ok _ writer => writer.text
  | .error _ writer => writer.text

end Writing

/-- The compact text of a value. -/
def text (value : Json) : String := (Writing.value value).text

end Narrative.Json
