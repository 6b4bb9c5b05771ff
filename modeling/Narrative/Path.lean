import Narrative.Segments

/-!
# Addresses of story content

A path is a list of components, read from the root or, when it is relative,
from a container near the reader. Its dotted text (`knot.0.stitch`, `.^.c`) is
the form that documents store. `Path.parse` never fails: a segment that is
neither `^` nor the printed form of a 64-bit number is a name.
-/

namespace Narrative

/-- One step of a path. -/
inductive Component where
  /-- The child at a position of a container's content. -/
  | index (position : Nat)
  /-- The child that a container lists under a name. -/
  | name (text : String)
  /-- The enclosing container. -/
  | parent
deriving DecidableEq

namespace Component

/-- Positions in a text are below this bound. -/
def indexBound : Nat := 18446744073709551616

/-- The number that a segment spells, when the segment is exactly how that number is printed. -/
def index? (segment : String) : Option Nat :=
  let value := Nat.ofDigitChars 10 segment.toList 0
  if segment.toList.all Char.isDigit && decide (value < indexBound) && value.repr == segment then
    some value
  else none

/-- The component that one dotted segment stands for. -/
def parse (segment : String) : Component :=
  if segment = "^" then .parent
  else match index? segment with
    | some position => .index position
    | none => .name segment

/-- The segment that a component is written as. -/
def text : Component → String
  | index position => position.repr
  | name text => text
  | parent => "^"

def isIndex : Component → Bool
  | index _ => true
  | _ => false

def isParent : Component → Bool
  | parent => true
  | _ => false

def name? : Component → Option String
  | name text => some text
  | _ => none

def position? : Component → Option Nat
  | index position => some position
  | _ => none

end Component

/-- An address: absolute from the root, or relative to a container. -/
structure Path where
  components : List Component := []
  isRelative : Bool := false
deriving DecidableEq

namespace Path

/-- The address of the root. -/
def root : Path := {}

def absolute (components : List Component) : Path := { components }

def relative (components : List Component) : Path := { components, isRelative := true }

/-- The components of a dotted text; the empty text has none. -/
def componentsOf : List Char → List Component
  | [] => []
  | body => (segmentsAt '.' body).map fun piece => Component.parse (String.ofList piece)

/-- Reads a dotted text; a leading dot makes the path relative. -/
def parse (text : String) : Path :=
  match text.toList with
  | '.' :: body => relative (componentsOf body)
  | body => absolute (componentsOf body)

/-- Component texts with a dot between neighbours. -/
def dotted : List Component → String
  | [] => ""
  | [component] => component.text
  | component :: rest => component.text ++ "." ++ dotted rest

/-- The dotted text of a path, as documents store it. -/
def text (path : Path) : String :=
  (if path.isRelative then "." else "") ++ dotted path.components

def length (path : Path) : Nat := path.components.length

def isEmpty (path : Path) : Bool := path.components.isEmpty

def head? (path : Path) : Option Component := path.components.head?

def last? (path : Path) : Option Component := path.components.getLast?

/-- Everything after the first component; a relative path stays relative. -/
def tail (path : Path) : Path := { path with components := path.components.tail }

def push (path : Path) (component : Component) : Path :=
  { path with components := path.components ++ [component] }

end Path

end Narrative
