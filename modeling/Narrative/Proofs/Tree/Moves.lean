import Narrative.Proofs.Tree.Reachable

/-!
# Where a node goes

Three edits move a node into a container: to the end of the content, into the
place of another child, or into the table only. Wherever the node was before,
they have one effect. It is gone from its old place and stands in the new one;
the old parent has lost it and nothing else; the child that had to make room has
no parent; and all other nodes, and the order of all other children, are as they
were.
-/

namespace Narrative

namespace Container

/-! ## What becomes of the container -/

/-- The entry of a child in a table, if the child has a name. -/
def entryOf (name : Option String) (child : NodeId) (positional : Bool) : List NamedEntry :=
  (name.map fun text => ⟨text, child, positional⟩).toList

/-- The container with a child at the end of its content, and nowhere else. -/
def withLast (c : Container) (name : Option String) (child : NodeId) : Container :=
  { c with
    content := c.content.filter (fun id => id != child) ++ [child]
    table := c.table.filter (fun e => e.id != child) ++ entryOf name child true }

/-- The container with a child in its table only. -/
def withNamed (c : Container) (name : String) (child : NodeId) : Container :=
  { c with
    content := c.content.filter fun id => id != child
    table := c.table.filter (fun e => e.id != child) ++ [⟨name, child, false⟩] }

/-- The container with a child where another one stood, and nowhere else. -/
def withInstead (c : Container) (name : Option String) (child previous : NodeId) : Container :=
  { c with
    content := (c.content.filter fun id => id != child).map fun id =>
      if id = previous then child else id
    table := (c.table.filter fun e => e.id != child && e.id != previous) ++ entryOf name child true }

variable (c : Container)

theorem enter_eq (name : Option String) (child : NodeId) (positional : Bool) :
    c.enter name child positional = { c with table := c.table ++ entryOf name child positional } := by
  cases name <;> simp [enter, entryOf]

theorem append_removeChild (name : Option String) (child : NodeId) :
    ((c.removeChild child).append child).enter name child true = c.withLast name child := by
  rw [enter_eq]
  rfl

theorem enter_removeChild (name : String) (child : NodeId) :
    (c.removeChild child).enter (some name) child false = c.withNamed name child := rfl

variable {c}

/-- Where nothing is repeated, substitution changes the one place of the previous child. -/
theorem substitute_eq (hnodup : c.content.Nodup) {previous : NodeId} (hmem : previous ∈ c.content)
    (child : NodeId) :
    c.substitute previous child =
      { c with content := c.content.map fun id => if id = previous then child else id } := by
  obtain ⟨before, after, hsplit⟩ := List.append_of_mem hmem
  rw [hsplit] at hnodup
  obtain ⟨-, hafter, hcross⟩ := List.nodup_append.mp hnodup
  have hb : ∀ id ∈ before, id ≠ previous := fun id hid => hcross id hid previous (by simp)
  have ha : ∀ id ∈ after, id ≠ previous := fun id hid heq =>
    (List.nodup_cons.mp hafter).1 (heq ▸ hid)
  have hcontent : (c.substitute previous child).content = before ++ child :: after :=
    c.substitute_content hsplit fun hin => hb previous hin rfl
  have hmap : ∀ list : List NodeId, (∀ id ∈ list, id ≠ previous) →
      (list.map fun id => if id = previous then child else id) = list := by
    intro list hlist
    refine (List.map_congr_left fun id hid => ?_).trans list.map_id
    simp [hlist id hid]
  have hrest : c.substitute previous child =
      { c with content := (c.substitute previous child).content } := by
    rw [substitute]
    split <;> rfl
  rw [hrest, hcontent, hsplit]
  simp [hmap before hb, hmap after ha]

theorem substitute_removeChild (hnodup : c.content.Nodup) {child previous : NodeId}
    (hmem : previous ∈ c.content) (hne : previous ≠ child) (name : Option String) :
    (((c.removeChild child).substitute previous child).dropEntries previous).enter name child true =
      c.withInstead name child previous := by
  have hkept : previous ∈ (c.removeChild child).content :=
    List.mem_filter.mpr ⟨hmem, by simpa using hne⟩
  rw [substitute_eq (hnodup.filter _) hkept, enter_eq]
  simp [withInstead, removeChild, dropEntries, Bool.and_comm]

/-- Taking out a node that is no child changes nothing. -/
theorem Tidy.removeChild_eq_self {nameOf : NodeId → Option String} (h : c.Tidy nameOf)
    {child : NodeId} (hout : child ∉ c.children) : c.removeChild child = c := by
  have hcontent : (c.content.filter fun id => id != child) = c.content := by
    rw [List.filter_eq_self]
    intro id hid
    simpa using fun heq : id = child => hout (heq ▸ c.mem_children.mpr (Or.inl hid))
  have htable : (c.table.filter fun e => e.id != child) = c.table := by
    rw [List.filter_eq_self]
    intro e he
    simpa using fun heq : e.id = child => hout (heq ▸ h.mem_children_of_entry he)
  rw [Container.removeChild, dropEntries, hcontent, htable]

/-! ## The other children -/

/-- Apart from some nodes, two containers have the same children in the same order, in the content
and in the table. -/
structure AgreeApart (apart : List NodeId) (c d : Container) : Prop where
  content : (d.content.filter fun id => id ∉ apart) = c.content.filter fun id => id ∉ apart
  table : (d.table.filter fun e => e.id ∉ apart) = c.table.filter fun e => e.id ∉ apart

namespace AgreeApart

variable {apart : List NodeId} {child : NodeId}

theorem trans {d e : Container} (h : AgreeApart apart c d) (h' : AgreeApart apart d e) :
    AgreeApart apart c e :=
  ⟨h'.content.trans h.content, h'.table.trans h.table⟩

theorem dropEntries (hchild : child ∈ apart) (c : Container) :
    AgreeApart apart c (c.dropEntries child) where
  content := rfl
  table := by
    rw [Container.dropEntries, List.filter_filter]
    refine List.filter_congr fun e _ => ?_
    by_cases hid : e.id = child <;> simp [hid, hchild]

theorem removeChild (hchild : child ∈ apart) (c : Container) :
    AgreeApart apart c (c.removeChild child) where
  content := by
    rw [Container.removeChild, List.filter_filter]
    refine List.filter_congr fun id _ => ?_
    by_cases hid : id = child <;> simp [hid, hchild]
  table := (dropEntries hchild c).table

theorem append (hchild : child ∈ apart) (c : Container) :
    AgreeApart apart c (c.append child) where
  content := by simp [Container.append, hchild]
  table := rfl

theorem enter (hchild : child ∈ apart) (name : Option String) (positional : Bool) (c : Container) :
    AgreeApart apart c (c.enter name child positional) where
  content := by rw [enter_content]
  table := by
    rw [enter_eq]
    cases name <;> simp [entryOf, hchild]

theorem substitute (hnodup : c.content.Nodup) {previous : NodeId} (hmem : previous ∈ c.content)
    (hprevious : previous ∈ apart) (hchild : child ∈ apart) :
    AgreeApart apart c (c.substitute previous child) where
  content := by
    rw [substitute_eq hnodup hmem]
    induction c.content with
    | nil => rfl
    | cons id rest ih =>
      by_cases hid : id = previous
      · simpa [hid, hprevious, hchild] using ih
      · simp only [List.map_cons, if_neg hid, List.filter_cons, ih]
  table := by rw [substitute_table]

end AgreeApart

end Container

namespace Tree

variable {tree : Tree}

/-! ## What becomes of the other nodes -/

/-- A node has moved into a container, and another one has made room for it. The container is as
`receive` says, and only the links that have to change have changed. -/
structure Moved (before after : Tree) (container child : NodeId) (evicted : Option NodeId)
    (receive : Container → Container) : Prop where
  container_apart : container ∉ child :: evicted.toList
  received : ∃ c, before.container? container = some c ∧
    after.container? container = some (receive c)
  joined : after.parent? child = some container
  released : ∀ id ∈ evicted, after.parent? id = none
  /-- The former parent has lost the node, and nothing else. -/
  departed : ∀ p, before.parent? child = some p → p ≠ container →
    ∃ c, before.container? p = some c ∧ after.container? p = some (c.removeChild child)
  links : ∀ id, id ≠ child → id ∉ evicted → after.parent? id = before.parent? id
  payloads : ∀ id, id ≠ container → before.parent? child ≠ some id →
    after.payload? id = before.payload? id
  ranges : ∀ id, (after.get? id).map Node.range = (before.get? id).map Node.range
  /-- Every other node is the same. -/
  unchanged : ∀ id, id ≠ container → id ≠ child → id ∉ evicted → before.parent? child ≠ some id →
    after.get? id = before.get? id
  /-- Every other child is where it was among its siblings. -/
  siblings : ∀ id c, before.container? id = some c →
    ∃ d, after.container? id = some d ∧ Container.AgreeApart (child :: evicted.toList) c d

theorem get?_eq_of_parts {a b : Tree} {id : NodeId} (hparent : a.parent? id = b.parent? id)
    (hpayload : a.payload? id = b.payload? id)
    (hrange : (a.get? id).map Node.range = (b.get? id).map Node.range) : a.get? id = b.get? id := by
  simp only [parent?, payload?] at hparent hpayload
  cases ha : a.get? id with
  | none =>
    rw [ha] at hpayload
    exact (Option.map_eq_none_iff.mp hpayload.symm).symm
  | some node =>
    cases hb : b.get? id with
    | none => simp [ha, hb] at hpayload
    | some other =>
      obtain ⟨parent, range, payload⟩ := node
      obtain ⟨parent', range', payload'⟩ := other
      simp_all

/-- A change of a node that keeps a part of it keeps that part everywhere. -/
theorem map_get?_modify {α : Type} {part : Node → α} {f : Node → Node}
    (hf : ∀ node, part (f node) = part node) (id i : NodeId) :
    ((tree.modify id f).get? i).map part = (tree.get? i).map part := by
  rw [get?_modify]
  split
  · cases tree.get? i <;> simp [hf]
  · rfl

@[simp] theorem payload?_setParent (id i : NodeId) (parent : Option NodeId) :
    (tree.setParent id parent).payload? i = tree.payload? i := by
  apply map_get?_modify
  intro node
  rfl

@[simp] theorem range_setParent (id i : NodeId) (parent : Option NodeId) :
    ((tree.setParent id parent).get? i).map Node.range = (tree.get? i).map Node.range := by
  apply map_get?_modify
  intro node
  rfl

theorem payload?_modifyContainer {id i : NodeId} (hne : i ≠ id) (f : Container → Container) :
    (tree.modifyContainer id f).payload? i = tree.payload? i := by
  rw [payload?, payload?, modifyContainer, get?_modify, if_neg (Ne.symm hne)]

@[simp] theorem range_modifyContainer (id i : NodeId) (f : Container → Container) :
    ((tree.modifyContainer id f).get? i).map Node.range = (tree.get? i).map Node.range := by
  apply map_get?_modify
  intro node
  cases node.payload <;> rfl

theorem payload?_detached {child i : NodeId} (hne : tree.parent? child ≠ some i) :
    (tree.detached child).payload? i = tree.payload? i := by
  rw [detached]
  cases hp : tree.parent? child with
  | none => rfl
  | some p =>
    have hi : i ≠ p := fun heq => hne (heq ▸ hp)
    simp [payload?_modifyContainer hi]

@[simp] theorem range_detached (child i : NodeId) :
    ((tree.detached child).get? i).map Node.range = (tree.get? i).map Node.range := by
  rw [detached]
  cases tree.parent? child <;> simp

/-- Taking a node out removes it from every container; all but its parent do not have it anyway. -/
theorem WellFormed.container?_detached (h : tree.WellFormed) (child i : NodeId) :
    (tree.detached child).container? i = (tree.container? i).map (·.removeChild child) := by
  rw [Tree.container?_detached]
  split
  · rfl
  · next hp =>
    cases hc : tree.container? i with
    | none => rfl
    | some c =>
      have hout : child ∉ c.children := fun hin => hp (h.parent_of_mem hc hin)
      rw [Option.map_some, (h.tidy i c hc).removeChild_eq_self hout]

/-- The tree with a container changed, a node linked to it and another one, if any, linked to nothing.
This is how all edits that move a node end. -/
def reseated (tree : Tree) (container child : NodeId) (f : Container → Container) :
    (evicted : Option NodeId) → Tree
  | none => (tree.modifyContainer container f).setParent child (some container)
  | some previous =>
    ((tree.modifyContainer container f).setParent previous none).setParent child (some container)

theorem appended_eq_reseated (container child : NodeId) (name : Option String) :
    tree.appended container child name =
      tree.reseated container child (fun c => (c.append child).enter name child true) none := rfl

theorem enteredByName_eq_reseated (container child : NodeId) (name : String) :
    tree.enteredByName container child name =
      tree.reseated container child (·.enter (some name) child false) none := rfl

theorem substituted_eq_reseated (container previous child : NodeId) (name : Option String) :
    tree.substituted container previous child name =
      tree.reseated container child
        (fun c => ((c.substitute previous child).dropEntries previous).enter name child true)
        (some previous) := rfl

theorem parent?_reseated {container child : NodeId} {evicted : Option NodeId}
    {f : Container → Container} (hchild : child < tree.size)
    (hevicted : ∀ id ∈ evicted, id < tree.size) (i : NodeId) :
    (tree.reseated container child f evicted).parent? i =
      if i = child then some container else if i ∈ evicted then none else tree.parent? i := by
  cases evicted with
  | none =>
    simp only [reseated, parent?_setParent, parent?_modifyContainer, size_modifyContainer]
    grind
  | some previous =>
    have hlt := hevicted previous rfl
    simp only [reseated, parent?_setParent, parent?_modifyContainer, size_modifyContainer,
      size_setParent, Option.mem_some_iff]
    grind

theorem container?_reseated (container child : NodeId) (evicted : Option NodeId)
    (f : Container → Container) (i : NodeId) :
    (tree.reseated container child f evicted).container? i =
      if container = i then (tree.container? i).map f else tree.container? i := by
  cases evicted <;> simp [reseated, container?_modifyContainer]

theorem payload?_reseated {container i : NodeId} (hne : i ≠ container) (child : NodeId)
    (evicted : Option NodeId) (f : Container → Container) :
    (tree.reseated container child f evicted).payload? i = tree.payload? i := by
  cases evicted <;> simp [reseated, payload?_modifyContainer hne]

theorem range_reseated (container child : NodeId) (evicted : Option NodeId)
    (f : Container → Container) (i : NodeId) :
    ((tree.reseated container child f evicted).get? i).map Node.range =
      (tree.get? i).map Node.range := by
  cases evicted <;> simp [reseated]

theorem WellFormed.exists_of_attachFault?_none (h : tree.WellFormed) {container child : NodeId}
    (hattach : tree.attachFault? container child = none) :
    ∃ c, tree.container? container = some c ∧ container ≠ child := by
  obtain ⟨⟨c, hc⟩, hup⟩ := attachFault?_eq_none_iff.mp hattach
  refine ⟨c, hc, ?_⟩
  rintro rfl
  exact hup (h.mem_lineage_iff.mpr .refl)

theorem WellFormed.moved (h : tree.WellFormed) {container child : NodeId} {c : Container}
    (hc : tree.container? container = some c) (hapart : container ≠ child)
    (hchild : child < tree.size) {evicted : Option NodeId}
    (hevicted : ∀ id ∈ evicted, tree.parent? id = some container ∧ id ≠ child)
    {f receive : Container → Container} (hf : f (c.removeChild child) = receive c)
    (hagree : Container.AgreeApart (child :: evicted.toList) (c.removeChild child) (receive c)) :
    Moved tree ((tree.detached child).reseated container child f evicted) container child evicted
      receive := by
  have hparent : ∀ i, ((tree.detached child).reseated container child f evicted).parent? i =
      if i = child then some container else if i ∈ evicted then none else tree.parent? i := by
    intro i
    rw [parent?_reseated (by simpa using hchild), parent?_detached]
    · split <;> rfl
    · intro id hid
      simpa using tree.lt_size_of_parent? (hevicted id hid).1
  have hcontainer : ∀ i, ((tree.detached child).reseated container child f evicted).container? i =
      if container = i then some (receive c) else (tree.container? i).map (·.removeChild child) := by
    intro i
    rw [container?_reseated, h.container?_detached]
    split
    · next hi => rw [← hi, hc, Option.map_some, Option.map_some, hf]
    · rfl
  have hlinks : ∀ i, i ≠ child → i ∉ evicted →
      ((tree.detached child).reseated container child f evicted).parent? i = tree.parent? i :=
    fun i hi he => by rw [hparent, if_neg hi, if_neg he]
  have hpayloads : ∀ i, i ≠ container → tree.parent? child ≠ some i →
      ((tree.detached child).reseated container child f evicted).payload? i = tree.payload? i :=
    fun i hi hp => by rw [payload?_reseated hi, payload?_detached hp]
  have hranges : ∀ i, (((tree.detached child).reseated container child f evicted).get? i).map
      Node.range = (tree.get? i).map Node.range :=
    fun i => by rw [range_reseated, range_detached]
  refine ⟨?_, ⟨c, hc, ?_⟩, ?_, ?_, ?_, hlinks, hpayloads, hranges, ?_, ?_⟩
  · rw [List.mem_cons, Option.mem_toList, not_or]
    exact ⟨hapart, fun hid => h.parent_ne (hevicted container hid).1 rfl⟩
  · rw [hcontainer, if_pos rfl]
  · rw [hparent, if_pos rfl]
  · intro id hid
    rw [hparent, if_neg (hevicted id hid).2, if_pos hid]
  · intro p hp hne
    obtain ⟨d, hd, -⟩ := (h.parent_iff child p).mp hp
    exact ⟨d, hd, by rw [hcontainer, if_neg (Ne.symm hne), hd]; rfl⟩
  · intro id hid hne he hp
    exact get?_eq_of_parts (hlinks id hne he) (hpayloads id hid hp) (hranges id)
  · intro id d hd
    have hremoved : Container.AgreeApart (child :: evicted.toList) d (d.removeChild child) :=
      .removeChild List.mem_cons_self d
    by_cases hid : container = id
    · subst hid
      cases hc.symm.trans hd
      exact ⟨receive c, by rw [hcontainer, if_pos rfl], hremoved.trans hagree⟩
    · exact ⟨d.removeChild child, by rw [hcontainer, if_neg hid, hd]; rfl, hremoved⟩

end Tree

/-! ## The edits -/

namespace Edit

open Narrative.Tree

variable {tree after : Tree} {container child previous : NodeId}

theorem exists_of_setChild_ok (h : tree.WellFormed) {index : Nat}
    (hstep : setChild container index child tree = .ok previous after) (hne : previous ≠ child) :
    ∃ c, tree.container? container = some c ∧ container ≠ child ∧
      (tree.content container)[index]? = some previous ∧
      after = (tree.detached child).substituted container previous child
        (tree.validName? child) := by
  rw [setChild_eq _ _ _ _ fun _ => h.content_lt_size] at hstep
  cases hattach : tree.attachFault? container child with
  | some error => simp [hattach] at hstep
  | none =>
    obtain ⟨c, hc, hapart⟩ := h.exists_of_attachFault?_none hattach
    cases hindex : (tree.content container)[index]? with
    | none => simp [hattach, hindex] at hstep
    | some occupant =>
      simp only [hattach, hindex] at hstep
      split at hstep
      · next hsame =>
        cases hstep
        exact absurd hsame hne
      · split at hstep
        · cases hstep
        · split at hstep
          · cases hstep
            exact ⟨c, hc, hapart, rfl, rfl⟩
          · cases hstep

theorem exists_of_addContent_ok (h : tree.WellFormed)
    (hstep : addContent container child tree = .ok () after) :
    ∃ c, tree.container? container = some c ∧ container ≠ child ∧
      after = (tree.detached child).appended container child (tree.validName? child) := by
  rw [addContent_eq] at hstep
  cases hattach : tree.attachFault? container child with
  | some error => simp [hattach] at hstep
  | none =>
    obtain ⟨c, hc, hapart⟩ := h.exists_of_attachFault?_none hattach
    simp only [hattach] at hstep
    split at hstep
    · cases hstep
    · split at hstep
      · cases hstep
        exact ⟨c, hc, hapart, rfl⟩
      · cases hstep

theorem exists_of_addNamed_ok (h : tree.WellFormed)
    (hstep : addNamed container child tree = .ok () after) :
    ∃ c name, tree.container? container = some c ∧ container ≠ child ∧
      tree.validName? child = some name ∧
      after = (tree.detached child).enteredByName container child name := by
  rw [addNamed_eq] at hstep
  cases hattach : tree.attachFault? container child with
  | some error => simp [hattach] at hstep
  | none =>
    obtain ⟨c, hc, hapart⟩ := h.exists_of_attachFault?_none hattach
    simp only [hattach] at hstep
    cases hname : tree.validName? child with
    | none => simp [hname] at hstep
    | some name =>
      simp only [hname] at hstep
      split at hstep
      · cases hstep
      · cases hstep
        exact ⟨c, name, hc, hapart, rfl, rfl⟩

theorem moved_setChild (h : tree.WellFormed) (hchild : child < tree.size) {index : Nat}
    (hstep : setChild container index child tree = .ok previous after) (hne : previous ≠ child) :
    (tree.content container)[index]? = some previous ∧
      Moved tree after container child (some previous)
        (·.withInstead (tree.validName? child) child previous) := by
  obtain ⟨c, hc, hapart, hindex, rfl⟩ := exists_of_setChild_ok h hstep hne
  have hnodup := (h.tidy container c hc).content_nodup
  have hmem : previous ∈ c.content := by
    simpa [Tree.content, hc] using List.mem_of_getElem? hindex
  have hkept : previous ∈ (c.removeChild child).content :=
    List.mem_filter.mpr ⟨hmem, by simpa using hne⟩
  have hf := Container.substitute_removeChild hnodup hmem hne (tree.validName? child)
  rw [substituted_eq_reseated]
  refine ⟨hindex, h.moved hc hapart hchild ?_ hf ?_⟩
  · rintro id ⟨rfl⟩
    exact ⟨h.parent_of_mem hc (c.mem_children.mpr (Or.inl hmem)), hne⟩
  · rw [← hf]
    have hsubstitute : Container.AgreeApart [child, previous] (c.removeChild child)
        ((c.removeChild child).substitute previous child) :=
      .substitute (hnodup.filter _) hkept (by simp) (by simp)
    exact (hsubstitute.trans (.dropEntries (by simp) _)).trans (.enter (by simp) _ _ _)

theorem moved_addContent (h : tree.WellFormed) (hchild : child < tree.size)
    (hstep : addContent container child tree = .ok () after) :
    Moved tree after container child none (·.withLast (tree.validName? child) child) := by
  obtain ⟨c, hc, hapart, rfl⟩ := exists_of_addContent_ok h hstep
  have hf := c.append_removeChild (tree.validName? child) child
  rw [appended_eq_reseated]
  refine h.moved hc hapart hchild ?_ hf ?_
  · rintro id ⟨⟩
  · rw [← hf]
    exact (Container.AgreeApart.append List.mem_cons_self _).trans
      (.enter List.mem_cons_self _ _ _)

theorem moved_addNamed (h : tree.WellFormed) (hchild : child < tree.size)
    (hstep : addNamed container child tree = .ok () after) :
    ∃ name, tree.validName? child = some name ∧
      Moved tree after container child none (·.withNamed name child) := by
  obtain ⟨c, name, hc, hapart, hname, rfl⟩ := exists_of_addNamed_ok h hstep
  have hf := c.enter_removeChild name child
  rw [enteredByName_eq_reseated]
  refine ⟨name, hname, h.moved hc hapart hchild ?_ hf ?_⟩
  · rintro id ⟨⟩
  · rw [← hf]
    exact .enter List.mem_cons_self _ _ _

/-- On a tree that calls lead to, moving a node has one effect, whether the node comes from outside,
from another place of the same container, from its table or from below the child that makes room. -/
theorem move_has_one_effect (hreach : tree.Reachable) (container child : NodeId)
    (hchild : child < tree.size) :
    (∀ index previous after, setChild container index child tree = .ok previous after →
      previous ≠ child →
      (tree.content container)[index]? = some previous ∧
        Moved tree after container child (some previous)
          (·.withInstead (tree.validName? child) child previous)) ∧
    (∀ after, addContent container child tree = .ok () after →
      Moved tree after container child none (·.withLast (tree.validName? child) child)) ∧
    (∀ after, addNamed container child tree = .ok () after →
      ∃ name, tree.validName? child = some name ∧
        Moved tree after container child none (·.withNamed name child)) := by
  have h := hreach.wellFormed
  exact ⟨fun _ _ _ hstep hne => moved_setChild h hchild hstep hne,
    fun _ hstep => moved_addContent h hchild hstep, fun _ hstep => moved_addNamed h hchild hstep⟩

/-- A container with a leaf, a knot that holds a container of its own name, and a cellar. -/
def heirRun : List TreeCall :=
  [.add (.container {}) none, .add (.leaf .glue) none,
    .add (.container { name := some "knot" }) none, .add (.container { name := some "knot" }) none,
    .add (.container { name := some "cellar" }) none, .addContent 0 1, .addContent 0 2,
    .addNamed 2 3, .addContent 0 4]

/-- The inner knot takes the place of the outer one, the leaf goes to the end, and the cellar leaves
the content for the table. -/
theorem move_has_one_effect_heir :
    (∃ after, setChild 0 1 3 (TreeCall.runAll .empty heirRun) = .ok 2 after ∧
      Moved (TreeCall.runAll .empty heirRun) after 0 3 (some 2) (·.withInstead (some "knot") 3 2)) ∧
    (∃ after, addContent 0 1 (TreeCall.runAll .empty heirRun) = .ok () after ∧
      Moved (TreeCall.runAll .empty heirRun) after 0 1 none (·.withLast none 1)) ∧
    (∃ after, addNamed 0 4 (TreeCall.runAll .empty heirRun) = .ok () after ∧
      Moved (TreeCall.runAll .empty heirRun) after 0 4 none (·.withNamed "cellar" 4)) := by
  have hreach : (TreeCall.runAll .empty heirRun).Reachable := ⟨heirRun, by decide, rfl⟩
  refine ⟨⟨_, rfl, ?_⟩, ⟨_, rfl, ?_⟩, ⟨_, rfl, ?_⟩⟩
  · exact ((move_has_one_effect hreach 0 3 (by decide)).1 1 2 _ rfl (by decide)).2
  · exact (move_has_one_effect hreach 0 1 (by decide)).2.1 _ rfl
  · obtain ⟨name, hname, hmoved⟩ := (move_has_one_effect hreach 0 4 (by decide)).2.2 _ rfl
    cases hname
    exact hmoved

end Edit

end Narrative
