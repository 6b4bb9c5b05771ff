import Narrative.Content.Command
import Narrative.Content.Divert
import Narrative.Content.Operator
import Narrative.Content.Value

/-!
# Leaves

Everything a story's content is made of except containers.
-/

namespace Narrative

/-- A place where the player may choose. -/
structure ChoicePoint where
  path : Path
  flags : UInt32
deriving DecidableEq

namespace ChoicePoint

/-- Whether any of the given bits is set. -/
def hasFlag (point : ChoicePoint) (flag : UInt32) : Bool := point.flags &&& flag != 0

end ChoicePoint

/-- What is read from a variable. -/
inductive VariableReference where
  | named (name : String)
  /-- How often the content at a path has been visited. -/
  | readCount (path : Path)
deriving DecidableEq

namespace VariableReference

def name? : VariableReference → Option String
  | named name => some name
  | readCount _ => none

def path? : VariableReference → Option Path
  | readCount path => some path
  | named _ => none

end VariableReference

/-- A change of a variable. -/
structure Assignment where
  name : String
  isGlobal : Bool
  /-- Whether the variable begins here. -/
  isNew : Bool
deriving DecidableEq

/-- A choice that has been offered to the player. -/
structure Choice where
  text : String
  index : Int32
  /-- Where the choice was generated, as text. -/
  source : String
  thread : Int32
  target : Path
deriving DecidableEq

/-- Content that holds no other content. -/
inductive Leaf where
  | value (value : Value)
  | command (command : Command)
  | divert (divert : Divert)
  | choicePoint (point : ChoicePoint)
  | reference (reference : VariableReference)
  | assignment (assignment : Assignment)
  | operator (operator : Operator)
  | glue
  | tag (text : String)
  | void
  | choice (choice : Choice)
deriving DecidableEq

namespace Leaf

/-- The name of the kind of a leaf. -/
def kindName : Leaf → String
  | value _ => "Value"
  | command _ => "ControlCommand"
  | divert _ => "Divert"
  | choicePoint _ => "ChoicePoint"
  | reference _ => "VariableReference"
  | assignment _ => "VariableAssignment"
  | operator _ => "NativeFunctionCall"
  | glue => "Glue"
  | tag _ => "Tag"
  | void => "Void"
  | choice _ => "Choice"

/-- Equality of leaves, with floats compared as numbers. -/
def equal : Leaf → Leaf → Bool
  | value a, value b => a.equal b
  | a, b => decide (a = b)

end Leaf

end Narrative
