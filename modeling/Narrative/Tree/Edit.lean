import Narrative.Tree.Navigation

/-!
# Editing a tree

Every edit first checks that it is allowed and then changes the tree, one node
after the other. A change looks its node up again and can be refused as well;
what was changed before that point stays. `Narrative.Proofs.Tree.Refusal` shows
that this happens only when an edit names a node that the tree does not have.
-/

namespace Narrative

/-- Why an edit is refused. -/
inductive TreeError where
  | notAContainer (id : NodeId)
  | duplicateName (name : String)
  | unnamedContent (id : NodeId)
  | cycle (id : NodeId)
  | indexOutOfRange (index length : Nat)
  | containerReplacement (id : NodeId)
  /-- The tree has no such node. -/
  | noSuchNode (id : NodeId)
deriving DecidableEq

namespace TreeError

def nodeName (id : NodeId) : String := "node #" ++ id.repr

def message : TreeError → String
  | notAContainer id => nodeName id ++ " is not a container"
  | duplicateName name => "container already has content named '" ++ name ++ "'"
  | unnamedContent id => nodeName id ++ " has no name and cannot be added as named-only content"
  | cycle id => "cannot add " ++ nodeName id ++ " inside itself"
  | indexOutOfRange index length =>
    "index " ++ index.repr ++ " out of range for container with " ++ length.repr ++ " items"
  | containerReplacement id => nodeName id ++ " is a container and cannot be replaced in place"
  | noSuchNode id => nodeName id ++ " is not in the tree"

end TreeError

namespace Tree

/-! ## Checks -/

/-- Why a node cannot go into a container, whatever its name. -/
def attachFault? (tree : Tree) (container child : NodeId) : Option TreeError :=
  if (tree.container? container).isNone then some (.notAContainer container)
  else if child ∈ tree.lineage container then some (.cycle child)
  else none

/-- Why a name cannot be entered in a container: a child other than the allowed ones has it. -/
def nameFault? (tree : Tree) (container : NodeId) (name : Option String) (allowed : List NodeId) :
    Option TreeError :=
  match name with
  | none => none
  | some name =>
    match tree.namedChild? container name with
    | some existing => if existing ∈ allowed then none else some (.duplicateName name)
    | none => none

/-! ## Changes -/

/-- The tree with a node taken out of its parent. -/
def detached (tree : Tree) (child : NodeId) : Tree :=
  match tree.parent? child with
  | some parent => (tree.modifyContainer parent (·.removeChild child)).setParent child none
  | none => tree

end Tree

/-- A step of editing; when a step is refused, the tree it has reached is kept. -/
abbrev Edit := EStateM TreeError Tree

namespace Edit

/-- Refuses when a check found a reason to. -/
def refuse : Option TreeError → Edit Unit
  | some error => throw error
  | none => pure ()

/-- Refuses when the tree has no such node. -/
def requireNode (id : NodeId) : Edit Unit := do
  if (← get).contains id then pure () else throw (.noSuchNode id)

/-- Refuses when a node is not a container. -/
def requireContainer (id : NodeId) : Edit Unit := do
  if ((← get).container? id).isSome then pure () else throw (.notAContainer id)

/-- Changes a container; refused when the node is none. -/
def changeContainer (id : NodeId) (f : Container → Container) : Edit Unit := do
  requireContainer id
  modify (·.modifyContainer id f)

/-- Refuses when a node does not stand in the content of a container. -/
def requireChild (container child : NodeId) (error : TreeError) : Edit Unit := do
  requireContainer container
  if child ∈ (← get).content container then pure () else throw error

/-- Sets the parent of a node, or takes it away. -/
def setParent (id : NodeId) (parent : Option NodeId) : Edit Unit := do
  requireNode id
  modify (·.setParent id parent)

/-- Adds a detached node and returns its place; a container starts without children. -/
def add (payload : Payload) (range : Option SourceRange := none) : Edit NodeId := do
  let tree ← get
  set (tree.push payload range)
  pure tree.size

/-- Adds a detached node with the payload of another one. -/
def copy (id : NodeId) : Edit NodeId := do
  match (← get).payload? id with
  | some payload => add payload
  | none => throw (.noSuchNode id)

/-- Takes a node out of its parent, if it has one. -/
def detach (child : NodeId) : Edit Unit := modify (·.detached child)

/-- Moves a node to the end of a container's content. -/
def addContent (container child : NodeId) : Edit Unit := do
  let tree ← get
  let name := tree.validName? child
  refuse (tree.attachFault? container child)
  refuse (tree.nameFault? container name [child])
  detach child
  changeContainer container fun c => (c.append child).enter name child true
  setParent child (some container)

/-- Moves a named container into another one, where it is reachable by name only. -/
def addNamed (container child : NodeId) : Edit Unit := do
  let tree ← get
  refuse (tree.attachFault? container child)
  match tree.validName? child with
  | none => throw (.unnamedContent child)
  | some name => do
    refuse (tree.nameFault? container (some name) [child])
    detach child
    changeContainer container (·.enter (some name) child false)
    setParent child (some container)

/-- Puts a node in a place of a container's content and returns the child that was there. -/
def setChild (container : NodeId) (index : Nat) (child : NodeId) : Edit NodeId := do
  let tree ← get
  refuse (tree.attachFault? container child)
  match (tree.content container)[index]? with
  | none => throw (.indexOutOfRange index (tree.content container).length)
  | some previous =>
    if previous = child then pure previous
    else do
      let name := tree.validName? child
      refuse (tree.nameFault? container name [child, previous])
      -- Taking the child out may have moved the place, so it is looked for again.
      detach child
      requireChild container previous (.indexOutOfRange index (tree.content container).length)
      changeContainer container fun c =>
        ((c.substitute previous child).dropEntries previous).enter name child true
      setParent previous none
      setParent child (some container)
      pure previous

/-- Renames a container. A child that was listed by name only and has no name any more leaves its
parent. -/
def setName (id : NodeId) (name : Option String) : Edit Unit := do
  requireContainer id
  let tree ← get
  match tree.parent? id with
  | none => changeContainer id (·.rename name)
  | some parent => do
    let valid := Container.validName? { name }
    let positional := ((tree.container? parent).bind (·.positionOf? id)).isSome
    refuse (tree.nameFault? parent valid [id])
    changeContainer parent fun c => (c.dropEntries id).enter valid id positional
    changeContainer id (·.rename name)
    if valid.isNone && !positional then setParent id none

/-- Exchanges the payload of a leaf and returns the old one. -/
def replace (id : NodeId) (payload : Payload) : Edit Payload := do
  let tree ← get
  match tree.payload? id with
  | none => throw (.noSuchNode id)
  | some old =>
    if old.isContainer || payload.isContainer then throw (.containerReplacement id)
    else do
      set (tree.setPayload id payload)
      pure old

def setFlags (id : NodeId) (flags : CountFlags) : Edit Unit := changeContainer id (·.setFlags flags)

def insertFlags (id : NodeId) (flags : CountFlags) : Edit Unit :=
  changeContainer id (·.insertFlags flags)

def setRange (id : NodeId) (range : Option SourceRange) : Edit Unit := do
  requireNode id
  modify (·.setRange id range)

end Edit

end Narrative
