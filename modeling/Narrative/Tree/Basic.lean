import Narrative.SourceRange
import Narrative.Tree.Container

/-!
# Trees of content

A tree is an array of nodes; a node is named by its place. Every node knows its
parent, and a container lists its children. Nodes are never removed, so a place
stays valid; a node that was detached has no parent.

This module holds the nodes and how they are looked up. `Narrative.Tree.Edit` has
the operations that keep the links in step, and `Narrative.Tree.Navigation` those
that follow them.
-/

namespace Narrative

/-- What a node is. -/
inductive Payload where
  | leaf (leaf : Leaf)
  | container (container : Container)
deriving DecidableEq

namespace Payload

def isContainer : Payload → Bool
  | container _ => true
  | leaf _ => false

def container? : Payload → Option Container
  | container c => some c
  | leaf _ => none

def kindName : Payload → String
  | container _ => "Container"
  | leaf l => l.kindName

/-- The payload as a node starts with it: a container has no children yet. -/
def emptied : Payload → Payload
  | container c => container c.emptied
  | leaf l => leaf l

/-- Equality of payloads, with floats compared as numbers. -/
def equal : Payload → Payload → Bool
  | leaf a, leaf b => a.equal b
  | container a, container b => decide (a = b)
  | _, _ => false

end Payload

/-- A node of a tree. -/
structure Node where
  parent : Option NodeId := none
  /-- Where in the source the node comes from, if it says so itself. -/
  range : Option SourceRange := none
  payload : Payload
deriving DecidableEq

/-- Nodes by place. -/
structure Tree where
  nodes : Array Node := #[]
deriving DecidableEq

namespace Tree

def empty : Tree := {}

def size (tree : Tree) : Nat := tree.nodes.size

def isEmpty (tree : Tree) : Bool := tree.nodes.isEmpty

def get? (tree : Tree) (id : NodeId) : Option Node := tree.nodes[id]?

def contains (tree : Tree) (id : NodeId) : Bool := decide (id < tree.size)

def payload? (tree : Tree) (id : NodeId) : Option Payload := (tree.get? id).map Node.payload

def container? (tree : Tree) (id : NodeId) : Option Container :=
  (tree.payload? id).bind Payload.container?

def parent? (tree : Tree) (id : NodeId) : Option NodeId := (tree.get? id).bind Node.parent

/-- The content of a container; a leaf has none. -/
def content (tree : Tree) (id : NodeId) : List NodeId :=
  match tree.container? id with
  | some container => container.content
  | none => []

/-- The children of a container; a leaf has none. -/
def children (tree : Tree) (id : NodeId) : List NodeId :=
  match tree.container? id with
  | some container => container.children
  | none => []

/-- The child of a container under a name. -/
def namedChild? (tree : Tree) (id : NodeId) (name : String) : Option NodeId :=
  (tree.container? id).bind (Container.namedChild? · name)

/-- The name under which a node can be listed: a container's own name, unless it is empty. -/
def validName? (tree : Tree) (id : NodeId) : Option String :=
  (tree.container? id).bind Container.validName?

/-- Adds a node at the next place. -/
def push (tree : Tree) (payload : Payload) (range : Option SourceRange) : Tree :=
  { nodes := tree.nodes.push { range, payload := payload.emptied } }

/-- Changes the node at a place. -/
def modify (tree : Tree) (id : NodeId) (f : Node → Node) : Tree :=
  { nodes := tree.nodes.modify id f }

def setParent (tree : Tree) (id : NodeId) (parent : Option NodeId) : Tree :=
  tree.modify id fun node => { node with parent }

def setPayload (tree : Tree) (id : NodeId) (payload : Payload) : Tree :=
  tree.modify id fun node => { node with payload }

def setRange (tree : Tree) (id : NodeId) (range : Option SourceRange) : Tree :=
  tree.modify id fun node => { node with range }

/-- Changes the container at a place; a leaf stays as it is. -/
def modifyContainer (tree : Tree) (id : NodeId) (f : Container → Container) : Tree :=
  tree.modify id fun node =>
    match node.payload with
    | .container container => { node with payload := .container (f container) }
    | .leaf _ => node

/-- The first nodes only. -/
def truncate (tree : Tree) (size : Nat) : Tree := { nodes := tree.nodes.take size }

end Tree

end Narrative
