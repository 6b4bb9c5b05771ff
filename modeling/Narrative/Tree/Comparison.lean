import Narrative.Tree.Basic

/-!
# Comparing subtrees

Two subtrees have the same structure when they agree in everything a document
stores; the order of children that are listed by name only does not count, and
floats are compared as numbers.
-/

namespace Narrative.Tree

/-- Comparison of subtrees at most `fuel` nodes deep. -/
def sameWithin (a b : Tree) : (fuel : Nat) → NodeId → NodeId → Bool
  | 0, _, _ => false
  | fuel + 1, x, y =>
    match a.payload? x, b.payload? y with
    | some (.container c), some (.container d) =>
      decide (c.name = d.name) && decide (c.flags = d.flags) &&
        decide (c.content.length = d.content.length) &&
        (c.content.zip d.content).all (fun pair => sameWithin a b fuel pair.1 pair.2) &&
        decide (c.namedOnly.length = d.namedOnly.length) &&
        c.namedOnly.all fun entry =>
          match d.namedChild? entry.name with
          | some other => sameWithin a b fuel entry.id other
          | none => false
    | some p, some q => p.equal q
    | _, _ => false

/-- Whether the subtree at `x` in one tree has the structure of the subtree at `y` in another. -/
def sameStructure (a : Tree) (x : NodeId) (b : Tree) (y : NodeId) : Bool :=
  a.sameWithin b a.size x y

end Narrative.Tree
