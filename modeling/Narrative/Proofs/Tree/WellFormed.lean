import Mathlib.Data.List.Nodup
import Mathlib.Data.List.Perm.Subperm
import Mathlib.Logic.Relation
import Narrative.Proofs.Tree.Lookup

/-!
# Well-formed trees

A tree tells three times over which node belongs to which container: by the
parent links, by the content of the containers and by their tables of names. In a
well-formed tree the three agree, and the parent links lead out of every subtree.

Nothing is assumed about payloads other than containers, or about source ranges.
-/

namespace Narrative

namespace Container

/-- Content and table of a container agree with each other and with the names of the children. -/
structure Tidy (nameOf : NodeId → Option String) (c : Container) : Prop where
  content_nodup : c.content.Nodup
  /-- No child has two entries. -/
  ids_nodup : (c.table.map NamedEntry.id).Nodup
  /-- No name has two entries. -/
  names_nodup : (c.table.map NamedEntry.name).Nodup
  /-- An entry carries the name that its child has now. -/
  named : ∀ e ∈ c.table, nameOf e.id = some e.name
  positional_iff : ∀ e ∈ c.table, e.positional = true ↔ e.id ∈ c.content
  /-- A child in the content that has a name is in the table as well. -/
  entered : ∀ id ∈ c.content, ∀ name, nameOf id = some name → ∃ e ∈ c.table, e.id = id

namespace Tidy

variable {nameOf : NodeId → Option String} {c : Container}

theorem eq_of_name_eq (h : c.Tidy nameOf) {e f : NamedEntry} (he : e ∈ c.table)
    (hf : f ∈ c.table) (hname : e.name = f.name) : e = f :=
  List.inj_on_of_nodup_map h.names_nodup he hf hname

/-- Every entry belongs to a child. -/
theorem mem_children_of_entry (h : c.Tidy nameOf) {e : NamedEntry} (he : e ∈ c.table) :
    e.id ∈ c.children := by
  rw [mem_children]
  cases hp : e.positional with
  | true => exact Or.inl ((h.positional_iff e he).mp hp)
  | false => exact Or.inr ⟨e, he, hp, rfl⟩

/-- Only the names of the children matter. -/
theorem congr_names (h : c.Tidy nameOf) {nameOf' : NodeId → Option String}
    (hn : ∀ id ∈ c.children, nameOf' id = nameOf id) : c.Tidy nameOf' where
  content_nodup := h.content_nodup
  ids_nodup := h.ids_nodup
  names_nodup := h.names_nodup
  named := fun e he => (hn e.id (h.mem_children_of_entry he)).trans (h.named e he)
  positional_iff := h.positional_iff
  entered := fun id hid name hname =>
    h.entered id hid name ((hn id (c.mem_children.mpr (Or.inl hid))).symm.trans hname)

/-- Only content and table matter. -/
theorem congr_container (h : c.Tidy nameOf) {d : Container} (hc : d.content = c.content)
    (ht : d.table = c.table) : d.Tidy nameOf where
  content_nodup := hc ▸ h.content_nodup
  ids_nodup := ht ▸ h.ids_nodup
  names_nodup := ht ▸ h.names_nodup
  named := ht ▸ h.named
  positional_iff := by rw [hc, ht]; exact h.positional_iff
  entered := by rw [hc, ht]; exact h.entered

theorem emptied (nameOf : NodeId → Option String) (c : Container) :
    c.emptied.Tidy nameOf := by
  constructor <;> simp [Container.emptied]

theorem dropEntries_ids (h : c.Tidy nameOf) (child : NodeId) :
    ((c.dropEntries child).table.map NamedEntry.id).Nodup :=
  h.ids_nodup.sublist (List.filter_sublist.map _)

theorem dropEntries_names (h : c.Tidy nameOf) (child : NodeId) :
    ((c.dropEntries child).table.map NamedEntry.name).Nodup :=
  h.names_nodup.sublist (List.filter_sublist.map _)

theorem removeChild (h : c.Tidy nameOf) (child : NodeId) : (c.removeChild child).Tidy nameOf where
  content_nodup := h.content_nodup.filter _
  ids_nodup := h.dropEntries_ids child
  names_nodup := h.dropEntries_names child
  named := fun e he => h.named e (List.mem_filter.mp he).1
  positional_iff := by
    intro e he
    obtain ⟨he, hne⟩ := List.mem_filter.mp he
    rw [h.positional_iff e he]
    exact ⟨fun hm => List.mem_filter.mpr ⟨hm, hne⟩, fun hm => (List.mem_filter.mp hm).1⟩
  entered := by
    intro id hid name hname
    obtain ⟨hid, hne⟩ := List.mem_filter.mp hid
    obtain ⟨e, he, rfl⟩ := h.entered id hid name hname
    exact ⟨e, List.mem_filter.mpr ⟨he, hne⟩, rfl⟩

end Tidy

end Container

namespace Tree

/-- One step up a tree. -/
def Up (tree : Tree) (child parent : NodeId) : Prop := tree.parent? child = some parent

/-- The three records of who belongs where agree. -/
structure WellFormed (tree : Tree) : Prop where
  /-- A node has a parent exactly when the parent lists it. -/
  parent_iff : ∀ id p, tree.parent? id = some p ↔
    ∃ c, tree.container? p = some c ∧ id ∈ c.children
  tidy : ∀ p c, tree.container? p = some c → c.Tidy tree.validName?
  listed_exists : ∀ p c, tree.container? p = some c → ∀ id ∈ c.children, id < tree.size
  listed_once : ∀ p q c d id, tree.container? p = some c → tree.container? q = some d →
    id ∈ c.children → id ∈ d.children → p = q
  /-- Following parent links never comes back. -/
  acyclic : ∀ id, ¬ Relation.TransGen tree.Up id id

variable {tree : Tree}

/-- That every listed node exists and is listed once follows from its having one parent link. -/
theorem WellFormed.of_links
    (parent_iff : ∀ id p, tree.parent? id = some p ↔
      ∃ c, tree.container? p = some c ∧ id ∈ c.children)
    (tidy : ∀ p c, tree.container? p = some c → c.Tidy tree.validName?)
    (acyclic : ∀ id, ¬ Relation.TransGen tree.Up id id) : tree.WellFormed where
  parent_iff := parent_iff
  tidy := tidy
  listed_exists := fun p c hc id hid =>
    tree.lt_size_of_parent? ((parent_iff id p).mpr ⟨c, hc, hid⟩)
  listed_once := by
    intro p q c d id hc hd hp hq
    have h1 := (parent_iff id p).mpr ⟨c, hc, hp⟩
    have h2 := (parent_iff id q).mpr ⟨d, hd, hq⟩
    exact Option.some.inj (h1.symm.trans h2)
  acyclic := acyclic

theorem wellFormed_empty : Tree.empty.WellFormed := by
  have hparent : ∀ id, Tree.empty.parent? id = none := fun id => by simp [empty, parent?, get?]
  have hcontainer : ∀ id, Tree.empty.container? id = none := fun id => by
    simp [empty, container?, payload?, get?]
  apply WellFormed.of_links
  · intro id p
    simp [hparent, hcontainer]
  · intro p c hc
    rw [hcontainer] at hc
    cases hc
  · intro id hcycle
    obtain ⟨p, hp, _⟩ := Relation.TransGen.head'_iff.mp hcycle
    rw [Up, hparent] at hp
    cases hp

namespace WellFormed

theorem mem_children (h : tree.WellFormed) {id p : NodeId} {c : Container}
    (hp : tree.parent? id = some p) (hc : tree.container? p = some c) : id ∈ c.children := by
  obtain ⟨d, hd, hid⟩ := (h.parent_iff id p).mp hp
  exact Option.some.inj (hc.symm.trans hd) ▸ hid

theorem parent_of_mem (h : tree.WellFormed) {id p : NodeId} {c : Container}
    (hc : tree.container? p = some c) (hid : id ∈ c.children) : tree.parent? id = some p :=
  (h.parent_iff id p).mpr ⟨c, hc, hid⟩

theorem parent_ne (h : tree.WellFormed) {id p : NodeId} (hp : tree.parent? id = some p) :
    p ≠ id := by
  rintro rfl
  exact h.acyclic p (.single hp)

theorem parent_lt_size (h : tree.WellFormed) {id p : NodeId} (hp : tree.parent? id = some p) :
    p < tree.size := by
  obtain ⟨c, hc, _⟩ := (h.parent_iff id p).mp hp
  exact tree.lt_size_of_container? hc

theorem parent_isSome (h : tree.WellFormed) {id p : NodeId} (hp : tree.parent? id = some p) :
    (tree.container? p).isSome := by
  obtain ⟨c, hc, _⟩ := (h.parent_iff id p).mp hp
  rw [hc]
  rfl

theorem content_lt_size (h : tree.WellFormed) {id p : NodeId} (hid : id ∈ tree.content p) :
    id < tree.size := by
  rw [content] at hid
  cases hc : tree.container? p with
  | none => simp [hc] at hid
  | some c =>
    refine h.listed_exists p c hc id (c.mem_children.mpr (Or.inl ?_))
    simpa [hc] using hid

end WellFormed

/-! ## Ancestors -/

theorem mem_lineageWithin {fuel : Nat} {id a : NodeId} (h : a ∈ tree.lineageWithin fuel id) :
    Relation.ReflTransGen tree.Up id a := by
  induction fuel generalizing id with
  | zero =>
    obtain rfl : a = id := by simpa [lineageWithin] using h
    exact .refl
  | succ fuel ih =>
    cases hp : tree.parent? id with
    | none =>
      obtain rfl : a = id := by simpa [lineageWithin, hp] using h
      exact .refl
    | some p =>
      have h' : a = id ∨ a ∈ tree.lineageWithin fuel p := by simpa [lineageWithin, hp] using h
      rcases h' with rfl | hmem
      · exact .refl
      · exact .head hp (ih hmem)

theorem lineageWithin_succ {fuel : Nat} {id : NodeId}
    (h : (tree.lineageWithin fuel id).length ≤ fuel) :
    tree.lineageWithin (fuel + 1) id = tree.lineageWithin fuel id := by
  induction fuel generalizing id with
  | zero => simp [lineageWithin] at h
  | succ fuel ih =>
    cases hp : tree.parent? id with
    | none => simp [lineageWithin, hp]
    | some p =>
      have hlen : (tree.lineageWithin fuel p).length ≤ fuel := by
        simpa [lineageWithin, hp] using h
      rw [lineageWithin, hp]
      simp only [ih hlen]
      simp [lineageWithin, hp]

namespace WellFormed

theorem lineageWithin_nodup (h : tree.WellFormed) (fuel : Nat) (id : NodeId) :
    (tree.lineageWithin fuel id).Nodup := by
  induction fuel generalizing id with
  | zero => simp [lineageWithin]
  | succ fuel ih =>
    cases hp : tree.parent? id with
    | none => simp [lineageWithin, hp]
    | some p =>
      have hfresh : id ∉ tree.lineageWithin fuel p := fun hmem =>
        h.acyclic id (Relation.TransGen.head' hp (mem_lineageWithin hmem))
      simpa [lineageWithin, hp, hfresh] using ih p

theorem lt_size_of_mem_lineageWithin (h : tree.WellFormed) {fuel : Nat} {id a : NodeId}
    (hid : id < tree.size) (ha : a ∈ tree.lineageWithin fuel id) : a < tree.size := by
  have hup := mem_lineageWithin ha
  induction hup with
  | refl => exact hid
  | tail _ hstep _ => exact h.parent_lt_size hstep

/-- A lineage has no repetition, so it is never longer than the tree is large. -/
theorem length_lineageWithin_le (h : tree.WellFormed) {id : NodeId} (hid : id < tree.size)
    (fuel : Nat) : (tree.lineageWithin fuel id).length ≤ tree.size := by
  have hsub : tree.lineageWithin fuel id ⊆ List.range tree.size := fun a ha =>
    List.mem_range.mpr (h.lt_size_of_mem_lineageWithin hid ha)
  simpa using ((h.lineageWithin_nodup fuel id).subperm hsub).length_le

theorem length_lineage_le (h : tree.WellFormed) {id : NodeId} (hid : id < tree.size) :
    (tree.lineage id).length ≤ tree.size :=
  h.length_lineageWithin_le hid tree.size

theorem lineage_of_parent (h : tree.WellFormed) {id p : NodeId} (hp : tree.parent? id = some p) :
    tree.lineage id = id :: tree.lineage p := by
  have hlen := h.length_lineage_le (tree.lt_size_of_parent? hp)
  simp only [lineage] at *
  cases hs : tree.size with
  | zero => exact absurd (tree.lt_size_of_parent? hp) (by simp [hs])
  | succ fuel =>
    rw [hs, lineageWithin, hp, List.length_cons] at hlen
    rw [lineageWithin, hp, lineageWithin_succ (Nat.le_of_succ_le_succ hlen)]

end WellFormed

theorem lineage_of_root {id : NodeId} (hp : tree.parent? id = none) : tree.lineage id = [id] := by
  rw [lineage]
  cases tree.size with
  | zero => rfl
  | succ fuel => simp [lineageWithin, hp]

namespace WellFormed

theorem mem_lineage_iff (h : tree.WellFormed) {id a : NodeId} :
    a ∈ tree.lineage id ↔ Relation.ReflTransGen tree.Up id a := by
  constructor
  · exact mem_lineageWithin
  · intro hup
    induction hup using Relation.ReflTransGen.head_induction_on with
    | refl =>
      cases hp : tree.parent? a with
      | none => simp [lineage_of_root hp]
      | some p => simp [h.lineage_of_parent hp]
    | head hstep _ ih =>
      rw [h.lineage_of_parent hstep]
      exact List.mem_cons_of_mem _ ih

end WellFormed

end Tree

end Narrative
