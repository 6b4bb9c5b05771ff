import Narrative.Tree.Edit

/-!
# Looking up nodes after a change

What each elementary change of a tree does to the four look-ups that the rest of
the theory is stated in: the node, its parent, its container and the name it can
be listed under. No later module opens `Tree.modify` or the array behind it.
-/

namespace Narrative.Tree

variable (tree : Tree)

/-! ## Places -/

theorem get?_eq_none_iff (id : NodeId) : tree.get? id = none ↔ tree.size ≤ id := by
  simp [get?, size]

theorem lt_size_of_get? {id : NodeId} {node : Node} (h : tree.get? id = some node) :
    id < tree.size := by
  by_cases hlt : id < tree.size
  · exact hlt
  · rw [(tree.get?_eq_none_iff id).mpr (Nat.not_lt.mp hlt)] at h
    cases h

theorem exists_get? {id : NodeId} (h : id < tree.size) : ∃ node, tree.get? id = some node := by
  cases hn : tree.get? id with
  | some node => exact ⟨node, rfl⟩
  | none => exact absurd h (Nat.not_lt.mpr ((tree.get?_eq_none_iff id).mp hn))

theorem lt_size_of_parent? {id parent : NodeId} (h : tree.parent? id = some parent) :
    id < tree.size := by
  obtain ⟨node, hn, _⟩ := Option.bind_eq_some_iff.mp h
  exact tree.lt_size_of_get? hn

theorem container?_eq_some_iff {id : NodeId} {c : Container} :
    tree.container? id = some c ↔ ∃ node, tree.get? id = some node ∧ node.payload = .container c := by
  cases hn : tree.get? id with
  | none => simp [container?, payload?, hn]
  | some node =>
    cases hp : node.payload with
    | leaf l => simp [container?, payload?, hn, hp, Payload.container?]
    | container d => simp [container?, payload?, hn, hp, Payload.container?]

theorem lt_size_of_container? {id : NodeId} {c : Container} (h : tree.container? id = some c) :
    id < tree.size := by
  obtain ⟨node, hn, _⟩ := tree.container?_eq_some_iff.mp h
  exact tree.lt_size_of_get? hn

/-- Two trees with the same nodes at the same places are the same. -/
theorem ext_get? {a b : Tree} (h : ∀ id, a.get? id = b.get? id) : a = b := by
  obtain ⟨xs⟩ := a
  obtain ⟨ys⟩ := b
  congr 1
  exact Array.ext_getElem? h

/-! ## Changing one node -/

theorem get?_modify (id i : NodeId) (f : Node → Node) :
    (tree.modify id f).get? i = if id = i then (tree.get? i).map f else tree.get? i := by
  simp [modify, get?, Array.getElem?_modify]

@[simp] theorem size_modify (id : NodeId) (f : Node → Node) :
    (tree.modify id f).size = tree.size := by
  simp [modify, size]

@[simp] theorem size_setParent (id : NodeId) (parent : Option NodeId) :
    (tree.setParent id parent).size = tree.size := by
  simp [setParent]

@[simp] theorem size_setPayload (id : NodeId) (payload : Payload) :
    (tree.setPayload id payload).size = tree.size := by
  simp [setPayload]

@[simp] theorem size_setRange (id : NodeId) (range : Option SourceRange) :
    (tree.setRange id range).size = tree.size := by
  simp [setRange]

@[simp] theorem size_modifyContainer (id : NodeId) (f : Container → Container) :
    (tree.modifyContainer id f).size = tree.size := by
  simp [modifyContainer]

theorem parent?_setParent (id i : NodeId) (parent : Option NodeId) :
    (tree.setParent id parent).parent? i =
      if id = i ∧ i < tree.size then parent else tree.parent? i := by
  simp only [parent?, setParent]
  rw [get?_modify]
  by_cases h : id = i
  · subst h
    by_cases hlt : id < tree.size
    · obtain ⟨node, hn⟩ := tree.exists_get? hlt
      simp [hn, hlt]
    · simp [(tree.get?_eq_none_iff id).mpr (Nat.not_lt.mp hlt), hlt]
  · simp [h]

/-- A node that is not there has no parent to be set. -/
theorem setParent_of_size_le {id : NodeId} (h : tree.size ≤ id) (parent : Option NodeId) :
    tree.setParent id parent = tree := by
  apply ext_get?
  intro i
  rw [setParent, get?_modify]
  split
  · next hi => rw [← hi, (tree.get?_eq_none_iff id).mpr h, Option.map_none]
  · rfl

@[simp] theorem container?_setParent (id i : NodeId) (parent : Option NodeId) :
    (tree.setParent id parent).container? i = tree.container? i := by
  simp only [container?, payload?, setParent]
  rw [get?_modify]
  by_cases h : id = i
  · cases tree.get? i <;> simp [h]
  · simp [h]

@[simp] theorem validName?_setParent (id i : NodeId) (parent : Option NodeId) :
    (tree.setParent id parent).validName? i = tree.validName? i := by
  simp [validName?]

@[simp] theorem parent?_setRange (id i : NodeId) (range : Option SourceRange) :
    (tree.setRange id range).parent? i = tree.parent? i := by
  simp only [parent?, setRange]
  rw [get?_modify]
  by_cases h : id = i
  · cases tree.get? i <;> simp [h]
  · simp [h]

@[simp] theorem container?_setRange (id i : NodeId) (range : Option SourceRange) :
    (tree.setRange id range).container? i = tree.container? i := by
  simp only [container?, payload?, setRange]
  rw [get?_modify]
  by_cases h : id = i
  · cases tree.get? i <;> simp [h]
  · simp [h]

@[simp] theorem parent?_setPayload (id i : NodeId) (payload : Payload) :
    (tree.setPayload id payload).parent? i = tree.parent? i := by
  simp only [parent?, setPayload]
  rw [get?_modify]
  by_cases h : id = i
  · cases tree.get? i <;> simp [h]
  · simp [h]

/-- Exchanging one leaf for another is no change to the containers. -/
theorem container?_setPayload {id : NodeId} {payload : Payload}
    (hold : tree.container? id = none) (hnew : payload.container? = none) (i : NodeId) :
    (tree.setPayload id payload).container? i = tree.container? i := by
  simp only [container?, payload?, setPayload] at *
  rw [get?_modify]
  by_cases h : id = i
  · subst h
    cases hn : tree.get? id with
    | none => simp
    | some node =>
      rw [hn] at hold
      simpa [hnew] using hold.symm
  · simp [h]

@[simp] theorem parent?_modifyContainer (id i : NodeId) (f : Container → Container) :
    (tree.modifyContainer id f).parent? i = tree.parent? i := by
  simp only [parent?, modifyContainer]
  rw [get?_modify]
  by_cases h : id = i
  · cases hn : tree.get? i with
    | none => simp [h]
    | some node => cases hp : node.payload <;> simp [h, hp]
  · simp [h]

theorem container?_modifyContainer (id i : NodeId) (f : Container → Container) :
    (tree.modifyContainer id f).container? i =
      if id = i then (tree.container? i).map f else tree.container? i := by
  simp only [container?, payload?, modifyContainer]
  rw [get?_modify]
  by_cases h : id = i
  · cases hn : tree.get? i with
    | none => simp [h]
    | some node => cases hp : node.payload <;> simp [h, hp, Payload.container?]
  · simp [h]

/-- A change that keeps a container's own name keeps the names of all nodes. -/
theorem validName?_modifyContainer {id : NodeId} {f : Container → Container}
    (hf : ∀ c, tree.container? id = some c → (f c).name = c.name) (i : NodeId) :
    (tree.modifyContainer id f).validName? i = tree.validName? i := by
  simp only [validName?]
  rw [container?_modifyContainer]
  by_cases h : id = i
  · subst h
    cases hc : tree.container? id with
    | none => simp
    | some c => simp [Container.validName?, hf c hc]
  · simp [h]

theorem detached_of_root {id : NodeId} (h : tree.parent? id = none) : tree.detached id = tree := by
  simp [detached, h]

/-! ## Adding a node -/

@[simp] theorem size_push (payload : Payload) (range : Option SourceRange) :
    (tree.push payload range).size = tree.size + 1 := by
  simp [push, size]

theorem get?_push (payload : Payload) (range : Option SourceRange) (i : NodeId) :
    (tree.push payload range).get? i =
      if i = tree.size then some { range, payload := payload.emptied } else tree.get? i := by
  rw [push, get?, size]
  exact Array.getElem?_push

theorem get?_truncate (n : Nat) (i : NodeId) :
    (tree.truncate n).get? i = if i < n then tree.get? i else none := by
  simp only [truncate, get?, Array.take_eq_extract, Array.getElem?_extract]
  grind

@[simp] theorem parent?_push (payload : Payload) (range : Option SourceRange) (i : NodeId) :
    (tree.push payload range).parent? i = tree.parent? i := by
  simp only [parent?]
  rw [get?_push]
  by_cases h : i = tree.size
  · simp [h, (tree.get?_eq_none_iff tree.size).mpr (Nat.le_refl _)]
  · simp [h]

theorem container?_push (payload : Payload) (range : Option SourceRange) (i : NodeId) :
    (tree.push payload range).container? i =
      if i = tree.size then payload.emptied.container? else tree.container? i := by
  simp only [container?, payload?]
  rw [get?_push]
  by_cases h : i = tree.size <;> simp [h]

end Narrative.Tree

namespace Narrative.Container

/-! ## Children of a changed container -/

variable (c : Container)

theorem mem_children {id : NodeId} :
    id ∈ c.children ↔ id ∈ c.content ∨ ∃ e ∈ c.table, e.positional = false ∧ e.id = id := by
  simp only [children, namedOnly, List.mem_append, List.mem_map, List.mem_filter]
  constructor
  · rintro (h | ⟨e, ⟨he, hp⟩, rfl⟩)
    · exact Or.inl h
    · exact Or.inr ⟨e, he, by simpa using hp, rfl⟩
  · rintro (h | ⟨e, he, hp, rfl⟩)
    · exact Or.inl h
    · exact Or.inr ⟨e, ⟨he, by simp [hp]⟩, rfl⟩

theorem mem_children_removeChild {id child : NodeId} :
    id ∈ (c.removeChild child).children ↔ id ∈ c.children ∧ id ≠ child := by
  simp only [mem_children, removeChild, dropEntries, List.mem_filter, bne_iff_ne]
  constructor
  · rintro (⟨h, hne⟩ | ⟨e, ⟨he, hne⟩, hp, rfl⟩)
    · exact ⟨Or.inl h, hne⟩
    · exact ⟨Or.inr ⟨e, he, hp, rfl⟩, hne⟩
  · rintro ⟨h | ⟨e, he, hp, rfl⟩, hne⟩
    · exact Or.inl ⟨h, hne⟩
    · exact Or.inr ⟨e, ⟨he, hne⟩, hp, rfl⟩

@[simp] theorem enter_name (name : Option String) (child : NodeId) (positional : Bool) :
    (c.enter name child positional).name = c.name := by
  cases name <;> rfl

@[simp] theorem enter_content (name : Option String) (child : NodeId) (positional : Bool) :
    (c.enter name child positional).content = c.content := by
  cases name <;> rfl

theorem mem_enter_table {name : Option String} {child : NodeId} {positional : Bool}
    {e : NamedEntry} :
    e ∈ (c.enter name child positional).table ↔
      e ∈ c.table ∨ ∃ text, name = some text ∧ e = ⟨text, child, positional⟩ := by
  cases name <;> simp [enter]

@[simp] theorem substitute_table (previous child : NodeId) :
    (c.substitute previous child).table = c.table := by
  rw [substitute]
  split <;> rfl

@[simp] theorem substitute_name (previous child : NodeId) :
    (c.substitute previous child).name = c.name := by
  rw [substitute]
  split <;> rfl

/-- A child that stands once in the content is replaced where it stands. -/
theorem substitute_content {previous child : NodeId} {before after : List NodeId}
    (hc : c.content = before ++ previous :: after) (hb : previous ∉ before) :
    (c.substitute previous child).content = before ++ child :: after := by
  have hslot : c.positionOf? previous = some before.length := by
    rw [positionOf?, hc, List.findIdx?_append]
    have hnone : before.findIdx? (fun id => id == previous) = none := by
      rw [List.findIdx?_eq_none_iff]
      intro id hid
      simpa using fun heq : id = previous => hb (heq ▸ hid)
    simp [hnone, List.findIdx?_cons]
  simp [substitute, hslot, hc]

theorem positionOf?_isSome_iff (child : NodeId) :
    (c.positionOf? child).isSome = true ↔ child ∈ c.content := by
  simp [positionOf?, List.findIdx?_isSome]

end Narrative.Container
