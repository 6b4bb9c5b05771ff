import Narrative.Content.Leaf

/-!
# Containers

A container holds children in order (its content) and a table of children by
name. An entry of the table is positional when its child also stands in the
content; the other entries are reachable by name only. Children are given by
their places in a tree; `Narrative.Tree` keeps content, table and the children's
own links in step.
-/

namespace Narrative

/-- What is counted about a container, as bits. -/
structure CountFlags where
  bits : UInt32 := 0
deriving DecidableEq

namespace CountFlags

def empty : CountFlags := {}

/-- Visits are counted. -/
def visits : CountFlags := ⟨1⟩

/-- The turn of the last visit is kept. -/
def turns : CountFlags := ⟨2⟩

/-- Only entries at the start count. -/
def startOnly : CountFlags := ⟨4⟩

def isEmpty (flags : CountFlags) : Bool := flags.bits == 0

def contains (flags other : CountFlags) : Bool := flags.bits &&& other.bits == other.bits

def union (flags other : CountFlags) : CountFlags := ⟨flags.bits ||| other.bits⟩

def remove (flags other : CountFlags) : CountFlags := ⟨flags.bits &&& ~~~other.bits⟩

def text (flags : CountFlags) : String := flags.bits.toNat.repr

end CountFlags

/-- The place of a node in its tree. -/
abbrev NodeId := Nat

/-- A child in a table of names. -/
structure NamedEntry where
  name : String
  id : NodeId
  /-- Whether the child also stands in the content. -/
  positional : Bool
deriving DecidableEq

/-- A node that holds other nodes. -/
structure Container where
  content : List NodeId := []
  table : List NamedEntry := []
  flags : CountFlags := {}
  name : Option String := none
deriving DecidableEq

namespace Container

/-- The entries that are reachable by name only. -/
def namedOnly (container : Container) : List NamedEntry :=
  container.table.filter fun entry => !entry.positional

def hasNamedOnly (container : Container) : Bool :=
  container.table.any fun entry => !entry.positional

/-- The child under a name. -/
def namedChild? (container : Container) (name : String) : Option NodeId :=
  (container.table.find? fun entry => entry.name == name).map NamedEntry.id

/-- The container's own name, unless it is empty. -/
def validName? (container : Container) : Option String :=
  container.name.filter fun name => !name.isEmpty

def hasValidName (container : Container) : Bool := container.validName?.isSome

/-- The place of a child in the content. -/
def positionOf? (container : Container) (child : NodeId) : Option Nat :=
  container.content.findIdx? fun id => id == child

/-- The children, content first, then those reachable by name only. -/
def children (container : Container) : List NodeId :=
  container.content ++ container.namedOnly.map NamedEntry.id

/-- The container without its children. -/
def emptied (container : Container) : Container := { container with content := [], table := [] }

/-- The table without the entries of a child. -/
def dropEntries (container : Container) (child : NodeId) : Container :=
  { container with table := container.table.filter fun entry => entry.id != child }

/-- The container without a child. -/
def removeChild (container : Container) (child : NodeId) : Container :=
  { container.dropEntries child with
    content := container.content.filter fun id => id != child }

/-- Enters a child in the table under a name, if it has one. -/
def enter (container : Container) (name : Option String) (child : NodeId) (positional : Bool) :
    Container :=
  match name with
  | some name => { container with table := container.table ++ [⟨name, child, positional⟩] }
  | none => container

/-- Adds a child at the end of the content. -/
def append (container : Container) (child : NodeId) : Container :=
  { container with content := container.content ++ [child] }

/-- Puts a child in the place of another one in the content. -/
def substitute (container : Container) (previous child : NodeId) : Container :=
  match container.positionOf? previous with
  | some slot => { container with content := container.content.set slot child }
  | none => container

def rename (container : Container) (name : Option String) : Container := { container with name }

def setFlags (container : Container) (flags : CountFlags) : Container :=
  { container with flags }

def insertFlags (container : Container) (flags : CountFlags) : Container :=
  { container with flags := container.flags.union flags }

end Container

end Narrative
