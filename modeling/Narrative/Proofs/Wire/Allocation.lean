import Narrative.Proofs.Tree.Planted
import Narrative.Proofs.Wire.Reading

/-!
# Where reading puts its nodes

A reading that succeeds adds nodes at the end of a tree and touches no other. The
subtrees that it returns have no parent, and their nodes lie in the order in which
a walk lists them: each node before its children, and one subtree after the other.
So no node is added that the returned ones do not lead to. A reading that fails
adds nothing.
-/

namespace Narrative

namespace Tree

open Outline

variable {tree : Tree}

/-! ## Listing a subtree that is laid out in order -/

theorem children_of_leaf {n : Nat} {parent : Option NodeId} {l : Leaf}
    (h : tree.Carries n ((Outline.leaf l).layout parent n)) : tree.children n = [] := by
  simp [children, container?, payload?, h.1, payloadAt, Payload.container?]

theorem children_of_container {n : Nat} {parent : Option NodeId} {name : Option String}
    {flags : CountFlags} {content : List Outline} {named : List (String × Outline)}
    (h : tree.Carries n ((Outline.container name flags content named).layout parent n)) :
    tree.children n = places (n + 1) content
      ++ (namedEntries (n + 1 + sizeItems content) named).map NamedEntry.id := by
  simp only [children, container?_of_get? h.1, Container.children, Container.namedOnly,
    namedOnly_entries]

mutual

/-- The walk takes a subtree off its worklist node by node, in the order of their places. -/
theorem descendantsWithin_of_carries : ∀ {outline : Outline} {parent : Option NodeId} {n : Nat},
    tree.Carries n (outline.layout parent n) → ∀ (fuel : Nat) (rest : List NodeId),
    tree.descendantsWithin (outline.size + fuel) (n :: rest) =
      List.range' n outline.size ++ tree.descendantsWithin fuel rest
  | .leaf l, parent, n, h, fuel, rest => by
    rw [Outline.size, Nat.add_comm, descendantsWithin, children_of_leaf h]
    rfl
  | .container name flags content named, parent, n, h, fuel, rest => by
    have hchildren := children_of_container h
    obtain ⟨-, hbelow⟩ := h
    obtain ⟨hitems, hnamed⟩ := carries_append.mp hbelow
    rw [length_layoutItems] at hnamed
    have hsize : (Outline.container name flags content named).size + fuel =
        sizeItems content + (sizeNamed named + fuel) + 1 := by
      simp only [Outline.size]
      omega
    rw [hsize, descendantsWithin, hchildren]
    simp only [List.append_assoc]
    rw [descendantsWithin_places hitems, descendantsWithin_namedEntries hnamed, Outline.size,
      ← List.append_assoc, List.range'_append_1, Nat.add_assoc, Nat.add_comm 1, List.range'_succ,
      List.cons_append]

theorem descendantsWithin_places : ∀ {content : List Outline} {parent : Option NodeId} {n : Nat},
    tree.Carries n (layoutItems parent n content) → ∀ (fuel : Nat) (rest : List NodeId),
    tree.descendantsWithin (sizeItems content + fuel) (places n content ++ rest) =
      List.range' n (sizeItems content) ++ tree.descendantsWithin fuel rest
  | [], _, _, _, fuel, rest => by simp [places, sizeItems]
  | item :: others, parent, n, h, fuel, rest => by
    obtain ⟨hitem, hothers⟩ := carries_append.mp h
    rw [List.length_cons, length_lower] at hothers
    rw [places, sizeItems, List.cons_append, Nat.add_assoc, descendantsWithin_of_carries hitem,
      descendantsWithin_places hothers, ← List.append_assoc, List.range'_append_1]

theorem descendantsWithin_namedEntries : ∀ {named : List (String × Outline)}
    {parent : Option NodeId} {n : Nat}, tree.Carries n (layoutNamed parent n named) →
    ∀ (fuel : Nat) (rest : List NodeId),
    tree.descendantsWithin (sizeNamed named + fuel)
        ((namedEntries n named).map NamedEntry.id ++ rest) =
      List.range' n (sizeNamed named) ++ tree.descendantsWithin fuel rest
  | [], _, _, _, fuel, rest => by simp [namedEntries, sizeNamed]
  | (_, item) :: others, parent, n, h, fuel, rest => by
    obtain ⟨hitem, hothers⟩ := carries_append.mp h
    rw [List.length_cons, length_lower] at hothers
    rw [namedEntries, sizeNamed, List.map_cons, List.cons_append, Nat.add_assoc,
      descendantsWithin_of_carries hitem, descendantsWithin_namedEntries hothers,
      ← List.append_assoc, List.range'_append_1]

end

theorem descendants_of_carries {outline : Outline} {parent : Option NodeId} {n : Nat}
    (h : tree.Carries n (outline.layout parent n)) (hsize : outline.size ≤ tree.size) :
    tree.descendants n = List.range' n outline.size := by
  obtain ⟨fuel, hfuel⟩ : ∃ fuel, tree.size + 1 = outline.size + fuel :=
    ⟨tree.size + 1 - outline.size, by omega⟩
  rw [descendants, hfuel, descendantsWithin_of_carries h, descendantsWithin_nil, List.append_nil]

theorem flatMap_descendants_places {content : List Outline} {parent : Option NodeId} {n : Nat}
    (h : tree.Carries n (layoutItems parent n content)) (hsize : sizeItems content ≤ tree.size) :
    (places n content).flatMap tree.descendants = List.range' n (sizeItems content) := by
  induction content generalizing n with
  | nil => rfl
  | cons item others ih =>
    obtain ⟨hitem, hothers⟩ := carries_append.mp h
    rw [List.length_cons, length_lower] at hothers
    rw [sizeItems] at hsize
    rw [places, List.flatMap_cons, descendants_of_carries hitem (by omega),
      ih hothers (by omega), sizeItems, List.range'_append_1]

/-! ## What a reading leaves -/

/-- Nodes have been added at the end of a tree, in the order in which a walk from `tops` lists them. -/
structure GrownBy (before after : Tree) (tops : List NodeId) : Prop where
  size_le : before.size ≤ after.size
  kept : ∀ id < before.size, after.get? id = before.get? id
  fresh : ∀ id ∈ tops, before.size ≤ id ∧ id < after.size
  parentless : ∀ id ∈ tops, after.parent? id = none
  in_order : tops.flatMap after.descendants =
    List.range' before.size (after.size - before.size)

theorem of_mem_places {content : List Outline} {n id : Nat} (hid : id ∈ places n content)
    (h : tree.Carries n (layoutItems none n content)) :
    n ≤ id ∧ id < n + sizeItems content ∧ tree.parent? id = none := by
  induction content generalizing n with
  | nil => cases hid
  | cons item others ih =>
    obtain ⟨hitem, hothers⟩ := carries_append.mp h
    rw [List.length_cons, length_lower] at hothers
    have hpos := item.size_pos
    rw [sizeItems]
    rcases List.mem_cons.mp hid with rfl | hid
    · have htop : tree.parent? id = none := by rw [parent?, hitem.1]; rfl
      exact ⟨Nat.le_refl _, by omega, htop⟩
    · obtain ⟨hge, hlt, hparent⟩ := ih hid hothers
      exact ⟨by omega, by omega, hparent⟩

theorem grownBy_extend_layoutItems (tree : Tree) (content : List Outline) :
    GrownBy tree (tree.extend (layoutItems none tree.size content)) (places tree.size content) := by
  have hcarries : (tree.extend (layoutItems none tree.size content)).Carries tree.size
      (layoutItems none tree.size content) := carries_extend [] _
  have hsize : (tree.extend (layoutItems none tree.size content)).size =
      tree.size + sizeItems content := by
    rw [size_extend, length_layoutItems]
  constructor
  · omega
  · intro id hid
    exact tree.get?_extend_old hid
  · intro id hid
    obtain ⟨hge, hlt, -⟩ := of_mem_places hid hcarries
    exact ⟨hge, by rw [hsize]; exact hlt⟩
  · intro id hid
    exact (of_mem_places hid hcarries).2.2
  · rw [flatMap_descendants_places hcarries (by omega), hsize, Nat.add_sub_cancel_left]

end Tree

namespace Decoding

open Narrative.Tree Outline

/-- What a reading leaves: all its nodes, or the tree as it was. -/
def AllOrNothing {α : Type} (before : Tree) (tops : α → List NodeId) :
    EStateM.Result DecodeError Tree α → Prop
  | .ok a after => GrownBy before after (tops a)
  | .error _ after => after = before

theorem allOrNothing_readObject (item : Json) (tree : Tree) :
    AllOrNothing tree (fun id => [id]) (readObject item tree) := by
  rcases readObject_spec item tree with ⟨outline, -, hstep⟩ | ⟨-, error, hstep⟩
  · rw [hstep]
    have hgrown := grownBy_extend_layoutItems tree [outline]
    rw [layoutItems, layoutItems, List.append_nil] at hgrown
    exact hgrown
  · rw [hstep]
    rfl

theorem allOrNothing_readList (items : List Json) (tree : Tree) :
    AllOrNothing tree (fun ids => ids) (readList items tree) := by
  rcases readList_spec items tree with ⟨outlines, -, hstep⟩ | ⟨-, error, hstep⟩
  · rw [hstep]
    exact grownBy_extend_layoutItems tree outlines
  · rw [hstep]
    rfl

theorem length_places (n : Nat) (content : List Outline) :
    (places n content).length = content.length := by
  induction content generalizing n with
  | nil => rfl
  | cons item others ih => simp [places, ih]

theorem allOrNothing_readDict (fields : Dict Json) (tree : Tree) :
    AllOrNothing tree (List.map Prod.snd) (readDict fields tree) := by
  rcases readDict_spec fields tree with ⟨outlines, hread, hstep⟩ | ⟨-, error, hstep⟩
  · have hlength : (fields.map Prod.fst).length = (places tree.size outlines).length := by
      have hall := (mapM_eq_some_iff.mp hread).length_eq
      simpa [length_places] using hall
    rw [hstep, AllOrNothing, List.map_snd_zip (Nat.le_of_eq hlength.symm)]
    exact grownBy_extend_layoutItems tree outlines
  · rw [hstep]
    rfl

/-- Reading a token, a list of tokens or named tokens into a tree adds all nodes in order or none, and
a token in a tree of its own has no nodes but those that its top leads to. -/
theorem reading_all_or_nothing :
    (∀ tree item, AllOrNothing tree (fun id => [id]) (readObject item tree)) ∧
    (∀ tree items, AllOrNothing tree (fun ids => ids) (readList items tree)) ∧
    (∀ tree fields, AllOrNothing tree (List.map Prod.snd) (readDict fields tree)) ∧
    ∀ item subtree, Subtree.ofToken item = .ok subtree →
      subtree.tree.descendants subtree.id = List.range subtree.tree.size := by
  refine ⟨fun tree item => allOrNothing_readObject item tree,
    fun tree items => allOrNothing_readList items tree,
    fun tree fields => allOrNothing_readDict fields tree, ?_⟩
  intro item subtree hread
  obtain ⟨outline, -, rfl⟩ := Subtree.ofToken_eq_ok_iff.mp hread
  have hcarries : (Tree.empty.extend (outline.layout none 0)).Carries 0 (outline.layout none 0) :=
    carries_extend [] _
  have hsize : (Tree.empty.extend (outline.layout none 0)).size = outline.size := by
    rw [size_extend, length_layout]
    exact Nat.zero_add _
  rw [descendants_of_carries hcarries (Nat.le_of_eq hsize.symm), hsize, List.range_eq_range']

end Decoding

/-- A container, its two children and their content, with one of the children listed by name only. -/
example : (Subtree.ofToken (.arr [.arr [.int 1, .null],
      .obj [("knot", .arr [.str "<>", .null])]])).toOption.map
        (fun subtree => subtree.tree.descendants subtree.id) = some [0, 1, 2, 3, 4] := by
  decide

end Narrative
