import Narrative.Compiler.Complaint
import Narrative.Content.Leaf
import Narrative.Tree.Container

/-!
# Fragments

A fragment is what a piece of a story is lowered to before it has a place in a
tree: the steps to perform, in order, and the diagnostics met on the way. A step
whose name can be looked up only when all flows are there carries a `Lookup`.
-/

namespace Narrative.Compiler

/-- A question about how often or when something was visited. -/
inductive CountQuery where
  | turnsSince
  | readCount
deriving DecidableEq

namespace CountQuery

/-- The function that asks the question in a story. -/
def functionName : CountQuery → String
  | turnsSince => "TURNS_SINCE"
  | readCount => "READ_COUNT"

/-- The command that answers it. -/
def command : CountQuery → Command
  | turnsSince => .turnsSince
  | readCount => .readCount

/-- What has to be counted to answer it. -/
def requiredFlags : CountQuery → CountFlags
  | turnsSince => .turns
  | readCount => CountFlags.turns.union .visits

end CountQuery

/-- How a jump is made. -/
inductive JumpMode where
  | plain
  | function
  | tunnel
deriving DecidableEq

/-- The divert of a mode to a path. -/
def JumpMode.divert (mode : JumpMode) (path : Path) : Divert :=
  match mode with
  | plain => .toPath path
  | function => .functionCall path
  | tunnel => .tunnel path

/-- A name to look up. -/
inductive Subject where
  | reading (name : String) (countedBy : Option CountQuery)
  | target (name : String) (countedBy : Option CountQuery)
  | jump (name : String) (mode : JumpMode) (arguments : Nat)
deriving DecidableEq

/-- A name to look up, with the range of the statement it stands in. -/
structure Lookup where
  subject : Subject
  location : Option SourceRange := none
deriving DecidableEq

/-- One step of lowered code. -/
structure Step where
  leaf : Leaf
  range : Option SourceRange := none
  lookup : Option Lookup := none
deriving DecidableEq

/-- Lowered code and the diagnostics met on the way. -/
structure Fragment where
  steps : List Step := []
  diagnostics : List Diagnostic := []

namespace Fragment

def empty : Fragment := {}

def append (a b : Fragment) : Fragment :=
  ⟨a.steps ++ b.steps, a.diagnostics ++ b.diagnostics⟩

instance : Append Fragment := ⟨append⟩

/-- Fragments one after the other. -/
def concat (fragments : List Fragment) : Fragment := fragments.foldr append empty

def ofStep (step : Step) : Fragment := ⟨[step], []⟩

def leaf (leaf : Leaf) : Fragment := ofStep { leaf }

def command (command : Command) : Fragment := leaf (.command command)

def value (value : Value) : Fragment := leaf (.value value)

def diagnostic (diagnostic : Diagnostic) : Fragment := ⟨[], [diagnostic]⟩

/-- A fragment between the commands that start and end evaluation. -/
def evaluated (body : Fragment) : Fragment :=
  command .evalStart ++ body ++ command .evalEnd

/-- Gives the first step a range, unless it has its own. -/
def located (fragment : Fragment) (range : Option SourceRange) : Fragment :=
  match fragment.steps with
  | [] => fragment
  | first :: rest =>
    { fragment with steps := { first with range := first.range <|> range } :: rest }

end Fragment

end Narrative.Compiler
