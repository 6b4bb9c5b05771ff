import Narrative.Tree.Basic

/-!
# The shape of a subtree

An outline is a subtree without places, parents and source ranges: what is left
is what a document stores. `Tree.outline?` reads it off a tree.
-/

namespace Narrative

/-- A subtree by its content. -/
inductive Outline where
  | leaf (leaf : Leaf)
  /-- A container with its content and the children it lists by name only. -/
  | container (name : Option String) (flags : CountFlags) (content : List Outline)
      (named : List (String × Outline))

namespace Tree

/-- The outline of a subtree at most `fuel` nodes deep. -/
def outlineWithin? (tree : Tree) : (fuel : Nat) → NodeId → Option Outline
  | 0, _ => none
  | fuel + 1, id =>
    match tree.payload? id with
    | none => none
    | some (.leaf leaf) => some (.leaf leaf)
    | some (.container c) => do
      let content ← c.content.mapM (outlineWithin? tree fuel)
      let named ← c.namedOnly.mapM fun entry =>
        (outlineWithin? tree fuel entry.id).map fun outline => (entry.name, outline)
      some (.container c.name c.flags content named)

/-- The outline of the subtree at a node; `none` when the tree has no such node. -/
def outline? (tree : Tree) (id : NodeId) : Option Outline := tree.outlineWithin? tree.size id

end Tree

end Narrative
