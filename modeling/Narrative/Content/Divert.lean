import Narrative.Path

/-!
# Diverts

Jumps from one container to another: plain ones, calls of functions and tunnels,
which come back, and calls of functions that the host of the story supplies.
-/

namespace Narrative

/-- What a divert leaves on the call stack to come back to. -/
inductive StackPush where
  | tunnel
  | function
deriving DecidableEq

/-- Where a divert goes. -/
inductive DivertTarget where
  | path (path : Path)
  /-- Wherever a variable points. -/
  | named (name : String)
deriving DecidableEq

/-- A jump. -/
structure Divert where
  target : DivertTarget
  push : Option StackPush := none
  /-- Whether the target is a function of the host. -/
  isExternal : Bool := false
  externalArguments : UInt32 := 0
  isConditional : Bool := false
deriving DecidableEq

namespace Divert

def toPath (path : Path) : Divert := { target := .path path }

def toVariable (name : String) : Divert := { target := .named name }

def functionCall (path : Path) : Divert := { target := .path path, push := some .function }

def tunnel (path : Path) : Divert := { target := .path path, push := some .tunnel }

/-- A call of a host function; its name is one component, dots included. -/
def external (name : String) (arguments : UInt32) : Divert :=
  { target := .path (.absolute [.name name]), isExternal := true, externalArguments := arguments }

def conditional (divert : Divert) : Divert := { divert with isConditional := true }

def pushesToStack (divert : Divert) : Bool := divert.push.isSome

def variableName? (divert : Divert) : Option String :=
  match divert.target with
  | .named name => some name
  | .path _ => none

def path? (divert : Divert) : Option Path :=
  match divert.target with
  | .path path => some path
  | .named _ => none

def hasVariableTarget (divert : Divert) : Bool := divert.variableName?.isSome

/-- The text of the target: a dotted path or the name of a variable. -/
def targetText (divert : Divert) : String :=
  match divert.target with
  | .path path => path.text
  | .named name => name

end Divert

end Narrative
