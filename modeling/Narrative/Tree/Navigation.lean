import Narrative.Tree.Basic

/-!
# Finding one's way in a tree

Addresses of nodes, following an address, and the order in which the nodes below
a node are listed. Walks up and down a tree are bounded by the number of nodes,
which no walk exceeds when the links of the tree are in step.
-/

namespace Narrative.Tree

/-! ## Upward -/

/-- A node and its ancestors, nearest first, up to `fuel` steps. -/
def lineageWithin (tree : Tree) : (fuel : Nat) → NodeId → List NodeId
  | 0, id => [id]
  | fuel + 1, id =>
    match tree.parent? id with
    | some parent => id :: lineageWithin tree fuel parent
    | none => [id]

/-- A node and its ancestors, nearest first. -/
def lineage (tree : Tree) (id : NodeId) : List NodeId := tree.lineageWithin tree.size id

/-- The last ancestor of a node; the node itself when it has no parent. -/
def topmost (tree : Tree) (id : NodeId) : NodeId := (tree.lineage id).getLast?.getD id

/-- The topmost ancestor of a node, if it is a container. -/
def rootContainer? (tree : Tree) (id : NodeId) : Option NodeId :=
  if tree.contains id && (tree.container? (tree.topmost id)).isSome then some (tree.topmost id)
  else none

/-- A node, if it is a container, and otherwise its parent. -/
def nearestContainer? (tree : Tree) (id : NodeId) : Option NodeId :=
  if (tree.container? id).isSome then some id else tree.parent? id

/-- The source range of a node, or of its nearest ancestor that has one. -/
def range? (tree : Tree) (id : NodeId) : Option SourceRange :=
  (tree.lineage id).findSome? fun ancestor => (tree.get? ancestor).bind Node.range

/-! ## Addresses -/

/-- How a parent addresses a child: by its name if it has one, and by its position otherwise. -/
def component? (tree : Tree) (parent child : NodeId) : Option Component :=
  match tree.validName? child with
  | some name => some (.name name)
  | none => ((tree.container? parent).bind (Container.positionOf? · child)).map .index

/-- The components along a lineage, innermost first. -/
def componentsUp (tree : Tree) : List NodeId → List Component
  | child :: parent :: rest =>
    match tree.component? parent child with
    | some component => component :: componentsUp tree (parent :: rest)
    | none => []
  | _ => []

/-- The absolute address of a node. -/
def path (tree : Tree) (id : NodeId) : Path :=
  .absolute (tree.componentsUp (tree.lineage id)).reverse

/-- One step from a node. -/
def step? (tree : Tree) (id : NodeId) : Component → Option NodeId
  | .parent => tree.parent? id
  | .index position => (tree.content id)[position]?
  | .name name => tree.namedChild? id name

/-- Follows components from a node. -/
def follow? (tree : Tree) (id : NodeId) : List Component → Option NodeId
  | [] => some id
  | component :: rest =>
    match tree.step? id component with
    | some next => follow? tree next rest
    | none => none

/-- Follows a path from a node, whether the path is relative or not. -/
def contentAt? (tree : Tree) (start : NodeId) (path : Path) : Option NodeId :=
  tree.follow? start path.components

/-- What a path means to a node: an absolute path starts at the root container, a relative one at
the nearest container. From a leaf a leading parent step is the step to that container. -/
def resolve? (tree : Tree) (origin : NodeId) (path : Path) : Option NodeId :=
  if path.isRelative then
    match tree.nearestContainer? origin with
    | none => none
    | some start =>
      if path.head? = some .parent ∧ start ≠ origin then tree.contentAt? start path.tail
      else tree.contentAt? start path
  else
    match tree.rootContainer? origin with
    | none => none
    | some root => tree.contentAt? root path

/-- The first source line of what a path means to a node. -/
def lineAt? (tree : Tree) (origin : NodeId) (path : Path) : Option Nat :=
  ((tree.resolve? origin path).bind tree.range?).map fun range => range.start.line

/-! ## Downward -/

/-- Takes a node off the front of a worklist and puts its children in its place, `fuel` times. -/
def descendantsWithin (tree : Tree) : (fuel : Nat) → List NodeId → List NodeId
  | 0, _ => []
  | _ + 1, [] => []
  | fuel + 1, id :: rest => id :: descendantsWithin tree fuel (tree.children id ++ rest)

/-- A node and everything below it, each node before its children. -/
def descendants (tree : Tree) (id : NodeId) : List NodeId :=
  tree.descendantsWithin (tree.size + 1) [id]

end Narrative.Tree
