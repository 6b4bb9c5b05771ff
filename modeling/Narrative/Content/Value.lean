import Narrative.Number.Decimal
import Narrative.Path

/-!
# Values

What content and the evaluation stack hold as data. `Value.equal` compares
floats as numbers, so a NaN is not equal to itself.
-/

namespace Narrative

/-- A value of a running story. -/
inductive Value where
  | bool (value : Bool)
  | int (value : Int32)
  | float (value : Single)
  | string (text : String)
  /-- An address that can be jumped to. -/
  | divertTarget (path : Path)
  /-- A variable by name, in a call frame or, at -1, in one yet to be found. -/
  | variablePointer (name : String) (context : Int32)
deriving DecidableEq

namespace Value

def isNumber : Value → Bool
  | int _ => true
  | float _ => true
  | _ => false

def int? : Value → Option Int32
  | int value => some value
  | _ => none

def string? : Value → Option String
  | string text => some text
  | _ => none

def typeName : Value → String
  | bool _ => "bool"
  | int _ => "int"
  | float _ => "float"
  | string _ => "string"
  | divertTarget _ => "divert target"
  | variablePointer _ _ => "variable pointer"

/-- The text of a value in a message. -/
def text : Value → String
  | bool value => if value then "true" else "false"
  | int value => value.toInt.repr
  | float value => value.plainText
  | string text => text
  | divertTarget path => "DivertTargetValue(" ++ path.text ++ ")"
  | variablePointer name _ => "VariablePointerValue(" ++ name ++ ")"

/-- Equality of values, with floats compared as numbers. -/
def equal : Value → Value → Bool
  | float x, float y => x.equal y
  | a, b => decide (a = b)

end Value

namespace StoryText

def isNewline (text : String) : Bool := text == "\n"

/-- Spaces and tabs only, at least one. -/
def isInlineBlank (text : String) : Bool :=
  !text.isEmpty && text.toList.all fun c => c == ' ' || c == '\t'

def isVisible (text : String) : Bool :=
  !isNewline text && !isInlineBlank text && !text.isEmpty

end StoryText

end Narrative
