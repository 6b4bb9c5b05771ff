import Narrative.Json.Writer

/-!
# Writer operations as data

A `WriterCall` names one operation of a writer; the forms with a body run the
calls in it between an opening and a closing. `WriterCall.run` performs a call.
-/

namespace Narrative.Json

/-- One operation of a writer. -/
inductive WriterCall where
  | objectStart
  | objectEnd
  | object (body : List WriterCall)
  | arrayStart
  | arrayEnd
  | array (body : List WriterCall)
  | propertyStart (name : String)
  | propertyEnd
  | property (name : String) (body : List WriterCall)
  | strProperty (name text : String)
  | intProperty (name : String) (value : Int32)
  | boolProperty (name : String) (value : Bool)
  | nameStart
  | nameInner (text : String)
  | nameEnd
  | null
  | bool (value : Bool)
  | int (value : Int32)
  | float (value : Single)
  | str (text : String)
  | stringStart
  | stringInner (text : String)
  | stringEnd
  | value (value : Json)

namespace WriterCall

mutual

def run : WriterCall → Writing Unit
  | objectStart => Writing.objectStart
  | objectEnd => Writing.objectEnd
  | object body => Writing.object (runAll body)
  | arrayStart => Writing.arrayStart
  | arrayEnd => Writing.arrayEnd
  | array body => Writing.array (runAll body)
  | propertyStart name => Writing.propertyStart name
  | propertyEnd => Writing.propertyEnd
  | property name body => Writing.property name (runAll body)
  | strProperty name text => Writing.strProperty name text
  | intProperty name n => Writing.intProperty name n
  | boolProperty name b => Writing.boolProperty name b
  | nameStart => Writing.nameStart
  | nameInner text => Writing.nameInner text
  | nameEnd => Writing.nameEnd
  | null => Writing.null
  | bool b => Writing.bool b
  | int n => Writing.int n
  | float x => Writing.float x
  | str text => Writing.str text
  | stringStart => Writing.stringStart
  | stringInner text => Writing.stringInner text
  | stringEnd => Writing.stringEnd
  | value v => Writing.value v

/-- Calls one after the other, up to the first fault. -/
def runAll : List WriterCall → Writing Unit
  | [] => pure ()
  | call :: rest => do
    run call
    runAll rest

end

end WriterCall

end Narrative.Json
