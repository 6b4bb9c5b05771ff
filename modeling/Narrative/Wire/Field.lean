import Narrative.Json.Reader
import Narrative.Json.Writer
import Narrative.Wire.Error

/-!
# Fields of object tokens

Looking up a field and asking for its type. An error quotes the whole object. A text
that is asked for its fields has to be an object.
-/

namespace Narrative.Wire

/-- A field has the wrong type or range. -/
def invalid (fields : Dict Json) (field : String) : DecodeError :=
  .invalidField field (Json.obj fields).text

/-- A field is not there. -/
def missing (fields : Dict Json) (field : String) : DecodeError :=
  .missingField field (Json.obj fields).text

def asStr (fields : Dict Json) (field : String) (value : Json) : Except DecodeError String :=
  match value.str? with
  | some text => .ok text
  | none => .error (invalid fields field)

def asInt (fields : Dict Json) (field : String) (value : Json) : Except DecodeError Int32 :=
  match value.int? with
  | some n => .ok n
  | none => .error (invalid fields field)

/-- An integer that is not negative, as a word. -/
def asWord (fields : Dict Json) (field : String) (value : Json) : Except DecodeError UInt32 := do
  let n ← asInt fields field value
  if n < 0 then .error (invalid fields field) else .ok n.toUInt32

def requiredStr (fields : Dict Json) (field : String) : Except DecodeError String :=
  match Dict.get? fields field with
  | some value => asStr fields field value
  | none => .error (missing fields field)

def requiredInt (fields : Dict Json) (field : String) : Except DecodeError Int32 :=
  match Dict.get? fields field with
  | some value => asInt fields field value
  | none => .error (missing fields field)

/-- An integer that may be left out. -/
def optionalInt (fields : Dict Json) (field : String) (default : Int32) :
    Except DecodeError Int32 :=
  match Dict.get? fields field with
  | some value => asInt fields field value
  | none => .ok default

/-- A word that is zero when it is left out. -/
def optionalWord (fields : Dict Json) (field : String) : Except DecodeError UInt32 :=
  match Dict.get? fields field with
  | some value => asWord fields field value
  | none => .ok 0

/-- A mark that is false when it is left out. -/
def flag (fields : Dict Json) (field : String) : Except DecodeError Bool :=
  match Dict.get? fields field with
  | none => .ok false
  | some value =>
    match value.bool? with
    | some b => .ok b
    | none => .error (invalid fields field)

/-- The fields of a text. -/
def fieldsOfText (text : String) : Except DecodeError (Dict Json) :=
  match Json.parse text with
  | .ok token =>
    match token.obj? with
    | some fields => .ok fields
    | none => .error (.expectedObject token.text)
  | .error error => .error (.json error)

end Narrative.Wire
