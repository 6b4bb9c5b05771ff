import Narrative.Dict
import Narrative.Number.Single

/-!
# JSON values

Numbers are split as documents need them: a number written without fraction and
exponent is a 32-bit integer, any other a 32-bit float. Objects keep their
entries in order; `Dict` says what a repeated key means.
-/

namespace Narrative

/-- A JSON value. -/
inductive Json where
  | null
  | bool (value : Bool)
  | int (value : Int32)
  | float (value : Single)
  | str (text : String)
  | arr (items : List Json)
  | obj (fields : List (String × Json))

namespace Json

instance : Inhabited Json := ⟨null⟩

def isNull : Json → Bool
  | null => true
  | _ => false

def bool? : Json → Option Bool
  | bool value => some value
  | _ => none

def int? : Json → Option Int32
  | int value => some value
  | _ => none

/-- The number as a float; an integer is rounded to the nearest one. -/
def float? : Json → Option Single
  | float value => some value
  | int value => some (Single.ofInt value.toInt)
  | _ => none

def str? : Json → Option String
  | str text => some text
  | _ => none

def arr? : Json → Option (List Json)
  | arr items => some items
  | _ => none

def obj? : Json → Option (Dict Json)
  | obj fields => some fields
  | _ => none

/-- The name of the kind of a value. -/
def typeName : Json → String
  | null => "null"
  | bool _ => "bool"
  | int _ => "int"
  | float _ => "float"
  | str _ => "string"
  | arr _ => "array"
  | obj _ => "object"

end Json

end Narrative
