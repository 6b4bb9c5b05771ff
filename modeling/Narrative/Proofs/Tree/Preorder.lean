import Mathlib.Data.List.Nodup
import Mathlib.Logic.Relation
import Narrative.Proofs.Tree.Reachable
import Narrative.Proofs.Tree.Subtree

/-!
# Walking down a tree

The nodes below a node are listed with a stack: the node on top is listed, and its
children take its place on the stack. In a well-formed tree the stack runs empty,
and what was listed is what the recursive walk visits: a container, then its
content, then the children that it lists by name only. These are exactly the nodes
from which parent links lead up to the first one, each of them once.
-/

namespace Narrative

namespace Tree

/-- The children that a node lists by name only, in the order of its table; a leaf has none. -/
def named (tree : Tree) (id : NodeId) : List NodeId :=
  match tree.container? id with
  | some container => container.namedOnly.map NamedEntry.id
  | none => []

/-! ## The walk with a stack -/

/-- A walk on its way: what it has listed, and the stack of nodes to come, the next one last. -/
structure Walk where
  listed : List NodeId
  stack : List NodeId

/-- One turn of the walk, unless the stack is empty. The children are put on the stack backwards,
so that the content is taken off first. -/
def Walk.step? (tree : Tree) (walk : Walk) : Option Walk :=
  walk.stack.getLast?.map fun id =>
    { listed := walk.listed ++ [id]
      stack := walk.stack.dropLast ++ (tree.named id).reverse ++ (tree.content id).reverse }

/-- The walk comes to an end, and this is what it has listed. -/
inductive Walk.Ends (tree : Tree) : Walk → List NodeId → Prop where
  | stop {walk : Walk} : walk.step? tree = none → Ends tree walk walk.listed
  | turn {walk next : Walk} {result : List NodeId} :
      walk.step? tree = some next → Ends tree next result → Ends tree walk result

/-! ## The recursive walk -/

/-- The recursive walk from several nodes: each of them, then its content, then the children that it
lists by name only. -/
inductive Preorder (tree : Tree) : List NodeId → List NodeId → Prop where
  | nil : Preorder tree [] []
  | cons {id : NodeId} {rest content named others : List NodeId} :
      Preorder tree (tree.content id) content → Preorder tree (tree.named id) named →
      Preorder tree rest others →
      Preorder tree (id :: rest) (id :: (content ++ named ++ others))

variable {tree : Tree}

theorem children_eq (tree : Tree) (id : NodeId) :
    tree.children id = tree.content id ++ tree.named id := by
  rw [children, content, named]
  cases tree.container? id <;> rfl

namespace WellFormed

theorem mem_children_iff (h : tree.WellFormed) {id child : NodeId} :
    child ∈ tree.children id ↔ tree.parent? child = some id := by
  rw [h.parent_iff, children]
  cases tree.container? id <;> simp

theorem children_nodup (h : tree.WellFormed) (id : NodeId) : (tree.children id).Nodup := by
  rw [children]
  cases hc : tree.container? id with
  | none => exact List.nodup_nil
  | some c =>
    have htidy := h.tidy id c hc
    have hnamed : (c.namedOnly.map NamedEntry.id).Nodup :=
      htidy.ids_nodup.sublist (List.filter_sublist.map _)
    refine htidy.content_nodup.append hnamed fun child hcontent hlisted => ?_
    obtain ⟨entry, hentry, rfl⟩ := List.mem_map.mp hlisted
    obtain ⟨hentry, hpositional⟩ := List.mem_filter.mp hentry
    rw [(htidy.positional_iff entry hentry).mpr hcontent] at hpositional
    cases hpositional

/-- No node is within the subtrees of two children of one node. -/
theorem eq_of_within_siblings (h : tree.WellFormed) {parent first second id : NodeId}
    (hfirst : tree.parent? first = some parent) (hsecond : tree.parent? second = some parent)
    (hin : tree.Within first id) (hin' : tree.Within second id) : first = second := by
  have hunique : Relator.RightUnique tree.Up := fun child p q hp hq =>
    Option.some.inj (hp.symm.trans hq)
  -- A sibling above another one would be above the parent of both, and so above itself.
  have habove : ∀ {a b : NodeId}, tree.parent? a = some parent → tree.parent? b = some parent →
      Relation.ReflTransGen tree.Up a b → a = b := by
    intro a b ha hb hup
    rcases Relation.ReflTransGen.cases_head hup with rfl | ⟨p, hp, hrest⟩
    · rfl
    · cases ha.symm.trans hp
      exact absurd (Relation.TransGen.tail' hrest hb) (h.acyclic parent)
  rcases Relation.ReflTransGen.total_of_right_unique hunique hin hin' with hup | hup
  · exact habove hfirst hsecond hup
  · exact (habove hsecond hfirst hup).symm

end WellFormed

namespace Preorder

theorem append {roots more first second : List NodeId} (h₁ : Preorder tree roots first)
    (h₂ : Preorder tree more second) : Preorder tree (roots ++ more) (first ++ second) := by
  induction h₁ with
  | nil => exact h₂
  | cons hcontent hnamed _ _ _ ih =>
    rw [List.cons_append, List.cons_append, List.append_assoc]
    exact .cons hcontent hnamed ih

theorem single {id : NodeId} {content named : List NodeId}
    (hcontent : Preorder tree (tree.content id) content)
    (hnamed : Preorder tree (tree.named id) named) :
    Preorder tree [id] (id :: (content ++ named)) := by
  have hwalk := Preorder.cons hcontent hnamed .nil
  rwa [List.append_nil] at hwalk

theorem exists_of_each {roots : List NodeId} (h : ∀ id ∈ roots, ∃ walk, Preorder tree [id] walk) :
    ∃ walk, Preorder tree roots walk := by
  induction roots with
  | nil => exact ⟨[], .nil⟩
  | cons id rest ih =>
    obtain ⟨⟨first, hfirst⟩, hrest⟩ := List.forall_mem_cons.mp h
    obtain ⟨others, hothers⟩ := ih hrest
    exact ⟨first ++ others, hfirst.append hothers⟩

/-- The stack runs down to what lay below some nodes when these have been walked. -/
theorem ends {roots walk : List NodeId} (h : Preorder tree roots walk)
    {listed below result : List NodeId} (hrest : Walk.Ends tree ⟨listed ++ walk, below⟩ result) :
    Walk.Ends tree ⟨listed, below ++ roots.reverse⟩ result := by
  induction h generalizing listed below with
  | nil => simpa using hrest
  | @cons id rest content named others _ _ _ ihContent ihNamed ihRest =>
    have hturn : Walk.step? tree ⟨listed, below ++ (id :: rest).reverse⟩ =
        some ⟨listed ++ [id],
          below ++ rest.reverse ++ (tree.named id).reverse ++ (tree.content id).reverse⟩ := by
      simp [Walk.step?, ← List.append_assoc]
    refine .turn hturn (ihContent (ihNamed (ihRest ?_)))
    simpa using hrest

/-- The bounded walk goes through some nodes and on to the rest of its worklist. -/
theorem descendantsWithin_append {roots walk : List NodeId} (h : Preorder tree roots walk)
    (fuel : Nat) (rest : List NodeId) :
    tree.descendantsWithin (walk.length + fuel) (roots ++ rest) =
      walk ++ tree.descendantsWithin fuel rest := by
  induction h generalizing fuel rest with
  | nil => simp
  | @cons id roots content named others _ _ _ ihContent ihNamed ihRest =>
    have hlength : (id :: (content ++ named ++ others)).length + fuel =
        content.length + (named.length + (others.length + fuel)) + 1 := by
      simp only [List.length_cons, List.length_append]
      omega
    rw [hlength, List.cons_append, Tree.descendantsWithin, children_eq, List.append_assoc,
      ihContent, ihNamed, ihRest]
    simp

/-- The recursive walk visits what is within the subtrees of the nodes that it starts from. -/
theorem mem_iff (hwf : tree.WellFormed) {roots walk : List NodeId} (h : Preorder tree roots walk)
    {id : NodeId} : id ∈ walk ↔ ∃ root ∈ roots, tree.Within root id := by
  induction h with
  | nil => simp
  | @cons root rest content named others _ _ _ ihContent ihNamed ihRest =>
    have hbelow : tree.Within root id ↔ id = root ∨ id ∈ content ++ named := by
      rw [within_iff, List.mem_append, ihContent, ihNamed, ← exists_or]
      simp only [← or_and_right, ← List.mem_append, ← children_eq, hwf.mem_children_iff]
    rw [List.exists_mem_cons_iff, hbelow, ← ihRest, List.mem_cons, List.mem_append, or_assoc]

/-- No node is visited twice when the walk starts from nodes with nothing in common below them. -/
theorem nodup (hwf : tree.WellFormed) {roots walk : List NodeId} (h : Preorder tree roots walk)
    (hroots : roots.Pairwise fun a b => ∀ id, tree.Within a id → ¬ tree.Within b id) :
    walk.Nodup := by
  induction h with
  | nil => exact List.nodup_nil
  | @cons root rest content named others hcontent hnamed hrest ihContent ihNamed ihRest =>
    obtain ⟨hapart, hroots⟩ := List.pairwise_cons.mp hroots
    have hchildren : (tree.content root ++ tree.named root).Pairwise
        fun a b => ∀ id, tree.Within a id → ¬ tree.Within b id := by
      rw [← children_eq]
      refine (hwf.children_nodup root).imp_of_mem fun ha hb hne id hin hin' => hne ?_
      exact hwf.eq_of_within_siblings (hwf.mem_children_iff.mp ha) (hwf.mem_children_iff.mp hb)
        hin hin'
    obtain ⟨hfirst, hsecond, hcross⟩ := List.pairwise_append.mp hchildren
    have hbelow : (content ++ named).Nodup := by
      refine (ihContent hfirst).append (ihNamed hsecond) fun id hin hin' => ?_
      obtain ⟨a, ha, hwithin⟩ := (hcontent.mem_iff hwf).mp hin
      obtain ⟨b, hb, hwithin'⟩ := (hnamed.mem_iff hwf).mp hin'
      exact hcross a ha b hb id hwithin hwithin'
    -- What the walk visits below a child is below the root, but the root itself is not.
    have hinside : ∀ id ∈ content ++ named, Relation.TransGen tree.Up id root := by
      intro id hid
      obtain ⟨child, hchild, hwithin⟩ := ((hcontent.append hnamed).mem_iff hwf).mp hid
      rw [← children_eq, hwf.mem_children_iff] at hchild
      exact Relation.TransGen.tail' hwithin hchild
    refine List.nodup_cons.mpr ⟨fun hmem => ?_, ?_⟩
    · rcases List.mem_append.mp hmem with hmem | hmem
      · exact hwf.acyclic root (hinside root hmem)
      · obtain ⟨other, hother, hwithin⟩ := (hrest.mem_iff hwf).mp hmem
        exact hapart other hother root .refl hwithin
    · refine hbelow.append (ihRest hroots) fun id hid hmem => ?_
      obtain ⟨other, hother, hwithin⟩ := (hrest.mem_iff hwf).mp hmem
      exact hapart other hother id (hinside id hid).to_reflTransGen hwithin

end Preorder

/-! ## The nodes below a node -/

theorem lt_size_of_within {root id : NodeId} (hroot : root < tree.size)
    (hin : tree.Within root id) : id < tree.size := by
  rcases Relation.ReflTransGen.cases_head hin with rfl | ⟨parent, hparent, -⟩
  · exact hroot
  · exact tree.lt_size_of_parent? hparent

namespace WellFormed

theorem exists_preorder (h : tree.WellFormed) (root : NodeId) :
    ∃ walk, Preorder tree [root] walk := by
  induction root using h.wellFounded_up.induction with
  | _ id ih =>
    have hchild : ∀ child, child ∈ tree.content id ∨ child ∈ tree.named id →
        ∃ walk, Preorder tree [child] walk := by
      intro child hmem
      rw [← List.mem_append, ← children_eq, h.mem_children_iff] at hmem
      exact ih child hmem
    obtain ⟨content, hcontent⟩ := Preorder.exists_of_each fun child hmem => hchild child (.inl hmem)
    obtain ⟨named, hnamed⟩ := Preorder.exists_of_each fun child hmem => hchild child (.inr hmem)
    exact ⟨_, .single hcontent hnamed⟩

/-- The nodes below a node are listed in the order of the recursive walk. -/
theorem preorder_descendants (h : tree.WellFormed) {root : NodeId} (hroot : root < tree.size) :
    Preorder tree [root] (tree.descendants root) := by
  obtain ⟨walk, hwalk⟩ := h.exists_preorder root
  have hnodup := hwalk.nodup h (List.pairwise_singleton _ _)
  have hsub : walk ⊆ List.range tree.size := by
    intro id hid
    obtain ⟨_, hmem, hin⟩ := (hwalk.mem_iff h).mp hid
    cases List.mem_singleton.mp hmem
    exact List.mem_range.mpr (lt_size_of_within hroot hin)
  -- No node is visited twice, so the bound on the walk is not reached.
  have hlength : walk.length ≤ tree.size := by
    simpa using (hnodup.subperm hsub).length_le
  obtain ⟨fuel, hfuel⟩ := Nat.exists_eq_add_of_le (Nat.le_succ_of_le hlength)
  have hlisted := hwalk.descendantsWithin_append fuel []
  rw [List.append_nil, ← hfuel, descendantsWithin_nil, List.append_nil] at hlisted
  rw [descendants, hlisted]
  exact hwalk

theorem mem_descendants_iff (h : tree.WellFormed) {root id : NodeId} (hroot : root < tree.size) :
    id ∈ tree.descendants root ↔ tree.Within root id := by
  rw [(h.preorder_descendants hroot).mem_iff h]
  simp

theorem descendants_nodup (h : tree.WellFormed) {root : NodeId} (hroot : root < tree.size) :
    (tree.descendants root).Nodup :=
  (h.preorder_descendants hroot).nodup h (List.pairwise_singleton _ _)

end WellFormed

/-- The walk with a stack ends, and it lists what the recursive walk visits: the nodes from which
parent links lead up to the first one, each of them once. -/
theorem stack_walk_is_preorder (hreach : tree.Reachable) {root : NodeId}
    (hroot : root < tree.size) :
    Walk.Ends tree ⟨[], [root]⟩ (tree.descendants root) ∧
      Preorder tree [root] (tree.descendants root) ∧ (tree.descendants root).Nodup ∧
      ∀ id, id ∈ tree.descendants root ↔ tree.Within root id := by
  have h := hreach.wellFormed
  have hwalk := h.preorder_descendants hroot
  have hends : Walk.Ends tree ⟨[], [] ++ [root].reverse⟩ (tree.descendants root) :=
    hwalk.ends (.stop rfl)
  exact ⟨hends, hwalk, h.descendants_nodup hroot, fun _ => h.mem_descendants_iff hroot⟩

/-- A container with two children in its content, the first of which lists another one by name, and
one child that it lists by name only itself. -/
def parlourCalls : List TreeCall :=
  [.add (.leaf .glue) none, .add (.container { name := some "attic" }) none,
    .add (.container { name := some "hall" }) none, .add (.container { name := some "cellar" }) none,
    .add (.container {}) none, .addNamed 4 1, .addContent 4 2, .addNamed 2 3, .addContent 4 0]

theorem stack_walk_is_preorder_parlour :
    (TreeCall.runAll .empty parlourCalls).Reachable ∧
      4 < (TreeCall.runAll .empty parlourCalls).size ∧
      (TreeCall.runAll .empty parlourCalls).descendants 4 = [4, 2, 3, 0, 1] ∧
      Walk.Ends (TreeCall.runAll .empty parlourCalls) ⟨[], [4]⟩ [4, 2, 3, 0, 1] ∧
      Preorder (TreeCall.runAll .empty parlourCalls) [4] [4, 2, 3, 0, 1] ∧
      ∀ id, id ∈ [4, 2, 3, 0, 1] ↔ (TreeCall.runAll .empty parlourCalls).Within 4 id := by
  have hreach : (TreeCall.runAll .empty parlourCalls).Reachable := ⟨parlourCalls, by decide, rfl⟩
  have hroot : 4 < (TreeCall.runAll .empty parlourCalls).size := by decide
  have hlisted : (TreeCall.runAll .empty parlourCalls).descendants 4 = [4, 2, 3, 0, 1] := by decide
  have hall := stack_walk_is_preorder hreach hroot
  rw [hlisted] at hall
  exact ⟨hreach, hroot, hlisted, hall.1, hall.2.1, hall.2.2.2⟩

end Tree

end Narrative
