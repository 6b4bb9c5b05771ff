import Narrative.Proofs.Tree.WellFormed

/-!
# Trees of the same shape

Two trees have the same shape when the same nodes belong to the same places in both.
Leaves may say something else, and something else may be counted about containers.
Addresses are the same in both trees and lead to the same nodes, and one tree is
well-formed when the other is.

To exchange a leaf and to note what is counted about a container keeps the shape.
-/

namespace Narrative

namespace Payload

def leaf? : Payload → Option Leaf
  | leaf l => some l
  | container _ => none

end Payload

namespace Tree

/-- The leaf at a place; a container is none. -/
def leaf? (tree : Tree) (id : NodeId) : Option Leaf := (tree.payload? id).bind Payload.leaf?

/-- Two trees differ in their leaves, in the flags of containers and in source ranges at most. -/
structure SameShape (before after : Tree) : Prop where
  size : after.size = before.size
  parent? : ∀ i, after.parent? i = before.parent? i
  container? : ∀ i, (after.container? i).map (·.setFlags {}) =
    (before.container? i).map (·.setFlags {})

namespace SameShape

theorem refl (tree : Tree) : SameShape tree tree := ⟨rfl, fun _ => rfl, fun _ => rfl⟩

theorem trans {first second third : Tree} (h₁ : SameShape first second)
    (h₂ : SameShape second third) : SameShape first third where
  size := h₂.size.trans h₁.size
  parent? := fun i => (h₂.parent? i).trans (h₁.parent? i)
  container? := fun i => (h₂.container? i).trans (h₁.container? i)

variable {before after : Tree} (h : SameShape before after)
include h

theorem symm : SameShape after before where
  size := h.size.symm
  parent? := fun i => (h.parent? i).symm
  container? := fun i => (h.container? i).symm

/-- What does not depend on flags is the same of both containers. -/
theorem bind_container? {α : Type} (f : Container → Option α)
    (hf : ∀ c, f (c.setFlags {}) = f c) (i : NodeId) :
    (after.container? i).bind f = (before.container? i).bind f := by
  have hmapped : ∀ o : Option Container, (o.map (·.setFlags {})).bind f = o.bind f := by
    intro o
    cases o with
    | none => rfl
    | some c => exact hf c
  rw [← hmapped, ← hmapped (before.container? i), h.container? i]

theorem isSome_container? (i : NodeId) :
    (after.container? i).isSome = (before.container? i).isSome := by
  have hsame := congrArg Option.isSome (h.container? i)
  simpa using hsame

theorem content (i : NodeId) : after.content i = before.content i := by
  have hcontent : ∀ tree : Tree, tree.content i =
      ((tree.container? i).map (·.setFlags {})).elim [] Container.content := by
    intro tree
    rw [Tree.content]
    cases tree.container? i <;> rfl
  rw [hcontent, hcontent before, h.container? i]

theorem namedChild? (i : NodeId) (name : String) :
    after.namedChild? i name = before.namedChild? i name :=
  h.bind_container? (Container.namedChild? · name) (fun _ => rfl) i

theorem validName? (i : NodeId) : after.validName? i = before.validName? i :=
  h.bind_container? Container.validName? (fun _ => rfl) i

theorem lineage (i : NodeId) : after.lineage i = before.lineage i := by
  have hwithin : ∀ fuel i, after.lineageWithin fuel i = before.lineageWithin fuel i := by
    intro fuel
    induction fuel with
    | zero => exact fun _ => rfl
    | succ fuel ih =>
      intro i
      rw [Tree.lineageWithin, Tree.lineageWithin, h.parent? i]
      cases before.parent? i with
      | none => rfl
      | some parent => simp only [ih]
  rw [Tree.lineage, Tree.lineage, h.size, hwithin]

theorem component? (parent child : NodeId) :
    after.component? parent child = before.component? parent child := by
  rw [Tree.component?, Tree.component?, h.validName?,
    h.bind_container? (Container.positionOf? · child) (fun _ => rfl)]

theorem path (i : NodeId) : after.path i = before.path i := by
  have hup : ∀ nodes, after.componentsUp nodes = before.componentsUp nodes := by
    intro nodes
    induction nodes with
    | nil => rfl
    | cons child rest ih =>
      cases rest with
      | nil => rfl
      | cons parent rest => rw [Tree.componentsUp, Tree.componentsUp, h.component?, ih]
  rw [Tree.path, Tree.path, h.lineage, hup]

theorem contentAt? (start : NodeId) (path : Path) :
    after.contentAt? start path = before.contentAt? start path := by
  have hstep : ∀ i component, after.step? i component = before.step? i component := by
    intro i component
    cases component with
    | parent => exact h.parent? i
    | index position => rw [Tree.step?, Tree.step?, h.content]
    | name name => exact h.namedChild? i name
  have hfollow : ∀ components i, after.follow? i components = before.follow? i components := by
    intro components
    induction components with
    | nil => exact fun _ => rfl
    | cons component rest ih =>
      intro i
      rw [Tree.follow?, Tree.follow?, hstep]
      cases before.step? i component with
      | none => rfl
      | some next => exact ih next
  exact hfollow path.components start

theorem exists_container {i : NodeId} {c : Container} (hc : after.container? i = some c) :
    ∃ d, before.container? i = some d ∧ d.content = c.content ∧ d.table = c.table ∧
      d.name = c.name := by
  have hboth := h.container? i
  rw [hc, Option.map_some] at hboth
  obtain ⟨d, hd, heq⟩ := Option.map_eq_some_iff.mp hboth.symm
  cases c
  cases d
  cases heq
  exact ⟨_, hd, rfl, rfl, rfl⟩

/-- Links are not affected by what leaves say or by what is counted. -/
theorem wellFormed (hwf : before.WellFormed) : after.WellFormed := by
  have hvalid : after.validName? = before.validName? := funext h.validName?
  refine .of_links ?_ ?_ ?_
  · intro id p
    rw [h.parent?, hwf.parent_iff]
    constructor
    · rintro ⟨c, hc, hid⟩
      obtain ⟨d, hd, hcontent, htable, -⟩ := h.symm.exists_container hc
      refine ⟨d, hd, ?_⟩
      rwa [Container.children, Container.namedOnly, hcontent, htable]
    · rintro ⟨c, hc, hid⟩
      obtain ⟨d, hd, hcontent, htable, -⟩ := h.exists_container hc
      refine ⟨d, hd, ?_⟩
      rwa [Container.children, Container.namedOnly, hcontent, htable]
  · intro p c hc
    obtain ⟨d, hd, hcontent, htable, -⟩ := h.exists_container hc
    rw [hvalid]
    exact (hwf.tidy p d hd).congr_container hcontent.symm htable.symm
  · have hup : after.Up = before.Up := by
      funext child parent
      rw [Up, Up, h.parent?]
    rw [hup]
    exact hwf.acyclic

end SameShape

/-! ## Changes that keep the shape -/

variable (tree : Tree)

theorem container?_of_leaf? {id : NodeId} {leaf : Leaf} (h : tree.leaf? id = some leaf) :
    tree.container? id = none := by
  obtain ⟨payload, hpayload, hleaf⟩ := Option.bind_eq_some_iff.mp h
  rw [container?, hpayload]
  cases payload with
  | leaf l => rfl
  | container c => cases hleaf

/-- Where one tree has a leaf, so has the other. -/
theorem SameShape.exists_leaf {before after : Tree} (h : SameShape before after) {id : NodeId}
    {leaf : Leaf} (hleaf : after.leaf? id = some leaf) :
    ∃ node old, before.get? id = some node ∧ node.payload = .leaf old := by
  have hnone := after.container?_of_leaf? hleaf
  obtain ⟨payload, hpayload, -⟩ := Option.bind_eq_some_iff.mp hleaf
  obtain ⟨node, hnode, -⟩ := Option.map_eq_some_iff.mp hpayload
  have hlt : id < before.size := h.size ▸ after.lt_size_of_get? hnode
  obtain ⟨node, hnode⟩ := before.exists_get? hlt
  cases hold : node.payload with
  | leaf old => exact ⟨node, old, hnode, hold⟩
  | container container =>
    have hsome := h.isSome_container? id
    rw [hnone, before.container?_eq_some_iff.mpr ⟨node, hnode, hold⟩] at hsome
    cases hsome

theorem leaf?_modifyContainer (id i : NodeId) (f : Container → Container) :
    (tree.modifyContainer id f).leaf? i = tree.leaf? i := by
  simp only [leaf?, payload?, modifyContainer]
  rw [get?_modify]
  by_cases h : id = i
  · cases hn : tree.get? i with
    | none => simp [h]
    | some node => cases hp : node.payload <;> simp [h, hp, Payload.leaf?]
  · simp [h]

theorem leaf?_setPayload_self {id : NodeId} {old : Leaf} (h : tree.leaf? id = some old)
    (leaf : Leaf) : (tree.setPayload id (.leaf leaf)).leaf? id = some leaf := by
  obtain ⟨payload, hpayload, -⟩ := Option.bind_eq_some_iff.mp h
  obtain ⟨node, hnode, -⟩ := Option.map_eq_some_iff.mp hpayload
  simp only [leaf?, payload?, setPayload]
  rw [get?_modify, if_pos rfl, hnode]
  rfl

theorem leaf?_setPayload_other {id i : NodeId} (h : i ≠ id) (leaf : Leaf) :
    (tree.setPayload id (.leaf leaf)).leaf? i = tree.leaf? i := by
  simp only [leaf?, payload?, setPayload]
  rw [get?_modify, if_neg (Ne.symm h)]

theorem sameShape_setPayload {id : NodeId} {old : Leaf} (h : tree.leaf? id = some old)
    (leaf : Leaf) : SameShape tree (tree.setPayload id (.leaf leaf)) where
  size := tree.size_setPayload id _
  parent? := fun i => tree.parent?_setPayload id i _
  container? := fun i => by rw [tree.container?_setPayload (tree.container?_of_leaf? h) rfl i]

theorem sameShape_insertFlags (id : NodeId) (flags : CountFlags) :
    SameShape tree (tree.modifyContainer id (·.insertFlags flags)) where
  size := tree.size_modifyContainer id _
  parent? := fun i => tree.parent?_modifyContainer id i _
  container? := fun i => by
    rw [container?_modifyContainer]
    split
    · cases tree.container? i <;> rfl
    · rfl

/-- One leaf has been exchanged and nothing else about leaves and links has changed. -/
structure Exchanged (before after : Tree) (id : NodeId) (leaf : Leaf) : Prop where
  shape : SameShape before after
  new : after.leaf? id = some leaf
  others : ∀ i, i ≠ id → after.leaf? i = before.leaf? i

theorem exchanged_self {id : NodeId} {leaf : Leaf} (h : tree.leaf? id = some leaf) :
    Exchanged tree tree id leaf := ⟨.refl tree, h, fun _ _ => rfl⟩

theorem exchanged_setPayload {id : NodeId} {old : Leaf} (h : tree.leaf? id = some old)
    (leaf : Leaf) : Exchanged tree (tree.setPayload id (.leaf leaf)) id leaf where
  shape := tree.sameShape_setPayload h leaf
  new := tree.leaf?_setPayload_self h leaf
  others := fun _ hi => tree.leaf?_setPayload_other hi leaf

theorem Exchanged.insertFlags {before after : Tree} {id : NodeId} {leaf : Leaf}
    (h : Exchanged before after id leaf) (target : NodeId) (flags : CountFlags) :
    Exchanged before (after.modifyContainer target (·.insertFlags flags)) id leaf where
  shape := h.shape.trans (after.sameShape_insertFlags target flags)
  new := by rw [leaf?_modifyContainer, h.new]
  others := fun i hi => by rw [leaf?_modifyContainer, h.others i hi]

end Tree

end Narrative
