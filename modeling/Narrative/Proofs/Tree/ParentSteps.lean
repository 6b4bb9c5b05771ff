import Narrative.Proofs.Tree.Addresses

/-!
# Paths that go up first

A relative path that begins with parent steps is read from an ancestor of the node
that holds it, as many links above as there are such steps. It makes no difference
whether the node is a container, which takes all the steps itself, or a leaf, whose
first step is spent on getting to the container around it. Below an ancestor the
address of a node goes on from that of the ancestor, so what is left of it leads from
the one to the other.
-/

namespace Narrative.Tree

variable {tree : Tree}

/-- The node that is a number of parent links above a node. -/
def ancestor? (tree : Tree) : (steps : Nat) → NodeId → Option NodeId
  | 0, id => some id
  | steps + 1, id => (tree.parent? id).bind (tree.ancestor? steps)

/-! ## Upward -/

/-- Leading parent steps are taken one link at a time. -/
theorem follow?_parents (steps : Nat) (start : NodeId) (rest : List Component) :
    tree.follow? start (List.replicate steps .parent ++ rest) =
      (tree.ancestor? steps start).bind (tree.follow? · rest) := by
  induction steps generalizing start with
  | zero => rfl
  | succ steps ih =>
    rw [List.replicate_succ, List.cons_append, follow?, ancestor?, step?]
    cases tree.parent? start with
    | none => rfl
    | some parent => exact ih parent

theorem resolve?_relative (origin : NodeId) (components : List Component) :
    tree.resolve? origin (.relative components) =
      match tree.nearestContainer? origin with
      | none => none
      | some start =>
        if components.head? = some .parent ∧ start ≠ origin then tree.follow? start components.tail
        else tree.follow? start components := rfl

/-- A container takes all parent steps itself. -/
theorem resolve?_parents_of_container {origin : NodeId}
    (hcontainer : (tree.container? origin).isSome = true) (steps : Nat) (rest : List Component) :
    tree.resolve? origin (.relative (List.replicate steps .parent ++ rest)) =
      (tree.ancestor? steps origin).bind (tree.follow? · rest) := by
  have hnearest : tree.nearestContainer? origin = some origin := by
    rw [nearestContainer?, if_pos hcontainer]
  simp only [resolve?_relative, hnearest]
  rw [if_neg fun hspent => hspent.2 rfl]
  exact follow?_parents steps origin rest

/-- A leaf spends its first parent step on the container around it. -/
theorem WellFormed.resolve?_parents_of_leaf (h : tree.WellFormed) {origin : NodeId}
    (hleaf : (tree.container? origin).isSome = false) (steps : Nat) (rest : List Component) :
    tree.resolve? origin (.relative (List.replicate (steps + 1) .parent ++ rest)) =
      (tree.ancestor? (steps + 1) origin).bind (tree.follow? · rest) := by
  have hnearest : tree.nearestContainer? origin = tree.parent? origin := by
    rw [nearestContainer?, hleaf]
    rfl
  simp only [resolve?_relative, hnearest, ancestor?]
  cases hparent : tree.parent? origin with
  | none => rfl
  | some parent =>
    have hspent : (List.replicate (steps + 1) Component.parent ++ rest).head? = some .parent ∧
        parent ≠ origin := ⟨rfl, h.parent_ne hparent⟩
    simp only [if_pos hspent]
    exact follow?_parents steps parent rest

theorem WellFormed.resolve?_parents (h : tree.WellFormed) (origin : NodeId) {steps : Nat}
    (hsteps : 0 < steps) (rest : List Component) :
    tree.resolve? origin (.relative (List.replicate steps .parent ++ rest)) =
      (tree.ancestor? steps origin).bind (tree.follow? · rest) := by
  cases hcontainer : (tree.container? origin).isSome with
  | true => exact resolve?_parents_of_container hcontainer steps rest
  | false =>
    obtain ⟨fewer, rfl⟩ := Nat.exists_eq_succ_of_ne_zero (Nat.ne_of_gt hsteps)
    exact h.resolve?_parents_of_leaf hcontainer fewer rest

/-! ## Downward again -/

/-- The address of a node goes on from the address of whoever stands above it. -/
theorem WellFormed.exists_rest_of_within (h : tree.WellFormed) {top target : NodeId}
    (hwithin : tree.Within top target) :
    ∃ rest, (tree.path target).components = (tree.path top).components ++ rest ∧
      tree.follow? top rest = some target := by
  induction hwithin using Relation.ReflTransGen.head_induction_on with
  | refl => exact ⟨[], (List.append_nil _).symm, rfl⟩
  | head hup _ ih =>
    obtain ⟨rest, hpath, hfollow⟩ := ih
    obtain ⟨component, hcomponent, hstep⟩ := h.exists_step hup
    refine ⟨rest ++ [component], ?_, ?_⟩
    · rw [h.components_path_of_parent hup hcomponent, hpath, List.append_assoc]
    · rw [follow?_append, hfollow, Option.bind_some, follow?, hstep]
      rfl

theorem WellFormed.follow?_drop (h : tree.WellFormed) {top target : NodeId}
    (hwithin : tree.Within top target) :
    tree.follow? top ((tree.path target).components.drop (tree.path top).length) = some target := by
  obtain ⟨rest, hpath, hfollow⟩ := h.exists_rest_of_within hwithin
  rw [hpath, Path.length, List.drop_left, hfollow]

/-- In every tree that calls lead to, a relative path that begins with parent steps means to a node
what the rest of it leads to from the ancestor so many links above, and nothing if there is none. What
the address of a node below that ancestor adds to the address of the ancestor leads to the node. -/
theorem parent_steps_start_above (hreach : tree.Reachable) (origin : NodeId) {steps : Nat}
    (hsteps : 0 < steps) :
    (∀ path : Path,
      tree.resolve? origin (.relative (List.replicate steps .parent ++ path.components)) =
        (tree.ancestor? steps origin).bind (tree.contentAt? · path)) ∧
      ∀ top target, tree.ancestor? steps origin = some top → tree.Within top target →
        tree.resolve? origin (.relative (List.replicate steps .parent ++
          (tree.path target).components.drop (tree.path top).length)) = some target := by
  have h := hreach.wellFormed
  refine ⟨fun path => h.resolve?_parents origin hsteps path.components, ?_⟩
  intro top target htop hwithin
  rw [h.resolve?_parents origin hsteps, htop, Option.bind_some, h.follow?_drop hwithin]

/-- From the leaf in the stitch, and from the stitch itself, up to the root and to the leaf beside the
knot; and one step more than there are ancestors. -/
theorem parent_steps_start_above_stitch :
    (TreeCall.runAll .empty stitchCalls).resolve? 1
        (.relative [.parent, .parent, .parent, .index 1]) = some 4 ∧
      (TreeCall.runAll .empty stitchCalls).resolve? 3 (.relative [.parent, .parent, .index 1]) =
        some 4 ∧
      (TreeCall.runAll .empty stitchCalls).resolve? 1
        (.relative [.parent, .parent, .parent, .parent]) = none := by
  have hreach : (TreeCall.runAll .empty stitchCalls).Reachable := ⟨stitchCalls, by decide, rfl⟩
  have hbeside : (TreeCall.runAll .empty stitchCalls).parent? 4 = some 0 := by decide
  have hwithin : (TreeCall.runAll .empty stitchCalls).Within 0 4 := .single hbeside
  have hleaf := parent_steps_start_above hreach 1 (show 0 < 3 by decide)
  have hstitch := parent_steps_start_above hreach 3 (show 0 < 2 by decide)
  have hbeyond := parent_steps_start_above hreach 1 (show 0 < 4 by decide)
  refine ⟨hleaf.2 0 4 (by decide) hwithin, hstitch.2 0 4 (by decide) hwithin, ?_⟩
  exact (hbeyond.1 .root).trans (by decide)

end Narrative.Tree
