import Narrative.Proofs.Tree.Comparison
import Narrative.Proofs.Tree.SameShape

/-!
# Trees that are alike

Two trees are alike under a correspondence of their places when corresponding nodes have
the same content, up to the correspondence. The order in which a container lists children
by name does not count, so the places of one tree may be those of the other in another
order.

Addresses lead to corresponding places of trees that are alike, corresponding nodes have
the same address, and corresponding subtrees compare as equal.
-/

namespace Narrative

/-- Two containers agree in everything but the places of their children, which correspond. -/
structure Container.Alike (R : NodeId → NodeId → Prop) (c d : Container) : Prop where
  name : c.name = d.name
  flags : c.flags = d.flags
  content : List.Forall₂ R c.content d.content
  named : ∀ name, Option.Rel R (c.namedChild? name) (d.namedChild? name)
  count : c.namedOnly.length = d.namedOnly.length

namespace Tree

/-- Two trees agree at corresponding places. -/
structure Alike (R : NodeId → NodeId → Prop) (a b : Tree) : Prop where
  size : a.size = b.size
  /-- A place corresponds to one place only, from either side. -/
  unique : ∀ {x x' y y'}, R x y → R x' y' → (x = x' ↔ y = y')
  parent? : ∀ {x y}, R x y → Option.Rel R (a.parent? x) (b.parent? y)
  container? : ∀ {x y}, R x y →
    Option.Rel (Container.Alike R) (a.container? x) (b.container? y)
  leaf? : ∀ {x y}, R x y → a.leaf? x = b.leaf? y

end Tree

namespace Tree

namespace Alike

variable {R : NodeId → NodeId → Prop} {a b : Tree} (h : Alike R a b) {x y : NodeId}
include h

/-! ## Addresses -/

theorem content (hxy : R x y) : List.Forall₂ R (a.content x) (b.content y) := by
  rw [Tree.content, Tree.content]
  rcases rel_cases (h.container? hxy) with ⟨hc, hd⟩ | ⟨c, d, hc, hd, halike⟩
  · rw [hc, hd]
    exact .nil
  · rw [hc, hd]
    exact halike.content

theorem validName? (hxy : R x y) : a.validName? x = b.validName? y := by
  rw [Tree.validName?, Tree.validName?]
  rcases rel_cases (h.container? hxy) with ⟨hc, hd⟩ | ⟨c, d, hc, hd, halike⟩
  · rw [hc, hd]
  · rw [hc, hd, Option.bind_some, Option.bind_some, Container.validName?, Container.validName?,
      halike.name]

theorem namedChild? (hxy : R x y) (name : String) :
    Option.Rel R (a.namedChild? x name) (b.namedChild? y name) :=
  rel_bind (h.container? hxy) fun _ _ halike => halike.named name

theorem step? (hxy : R x y) (component : Component) :
    Option.Rel R (a.step? x component) (b.step? y component) := by
  cases component with
  | parent => exact h.parent? hxy
  | index position => exact rel_getElem? (h.content hxy) position
  | name name => exact h.namedChild? hxy name

/-- Addresses lead to corresponding places. -/
theorem follow? (hxy : R x y) (components : List Component) :
    Option.Rel R (a.follow? x components) (b.follow? y components) := by
  induction components generalizing x y with
  | nil => exact .some hxy
  | cons component rest ih =>
    rw [Tree.follow?, Tree.follow?]
    rcases rel_cases (h.step? hxy component) with ⟨hp, hq⟩ | ⟨p, q, hp, hq, hpq⟩
    · rw [hp, hq]
      exact .none
    · rw [hp, hq]
      exact ih hpq

theorem lineage (hxy : R x y) : List.Forall₂ R (a.lineage x) (b.lineage y) := by
  rw [Tree.lineage, Tree.lineage, h.size]
  induction b.size generalizing x y with
  | zero => exact .cons hxy .nil
  | succ fuel ih =>
    rw [lineageWithin, lineageWithin]
    rcases rel_cases (h.parent? hxy) with ⟨hp, hq⟩ | ⟨p, q, hp, hq, hpq⟩
    · rw [hp, hq]
      exact .cons hxy .nil
    · rw [hp, hq]
      exact .cons hxy (ih hpq)

/-- Corresponding children stand at the same position. -/
theorem findIdx?_eq {xs ys : List NodeId} (hxs : List.Forall₂ R xs ys) (hxy : R x y) :
    (xs.findIdx? fun id => id == x) = ys.findIdx? fun id => id == y := by
  induction hxs with
  | nil => rfl
  | @cons p q _ _ hpq _ ih =>
    have hsame : (p == x) = (q == y) := by
      rw [Bool.eq_iff_iff, beq_iff_eq, beq_iff_eq]
      exact h.unique hpq hxy
    rw [List.findIdx?_cons, List.findIdx?_cons, hsame, ih]

theorem component? {p q : NodeId} (hpq : R p q) (hxy : R x y) :
    a.component? p x = b.component? q y := by
  rw [Tree.component?, Tree.component?, h.validName? hxy]
  cases b.validName? y with
  | some name => rfl
  | none =>
    rcases rel_cases (h.container? hpq) with ⟨hc, hd⟩ | ⟨c, d, hc, hd, halike⟩
    · rw [hc, hd]
      rfl
    · rw [hc, hd, Option.bind_some, Option.bind_some, Container.positionOf?,
        Container.positionOf?, h.findIdx?_eq halike.content hxy]

theorem componentsUp {xs ys : List NodeId} (hxs : List.Forall₂ R xs ys) :
    a.componentsUp xs = b.componentsUp ys := by
  induction hxs with
  | nil => rfl
  | cons hxy hrest ih =>
    cases hrest with
    | nil => rfl
    | cons hpq _ => rw [Tree.componentsUp, Tree.componentsUp, h.component? hpq hxy, ih]

/-- Corresponding nodes have the same address. -/
theorem path (hxy : R x y) : a.path x = b.path y := by
  rw [Tree.path, Tree.path, h.componentsUp (h.lineage hxy)]

/-! ## Comparison -/

/-- Corresponding subtrees compare as equal, unless there is a NaN in them. -/
theorem sameWithin (ha : a.WellFormed)
    (hnumbers : ∀ id leaf, a.leaf? id = some leaf → leaf.NotNaN) {fuel : Nat} (hxy : R x y)
    (hx : x < a.size) (hfuel : a.size < fuel + (a.lineage x).length) :
    a.sameWithin b fuel x y = true := by
  induction fuel generalizing x y with
  | zero =>
    have hle := ha.length_lineage_le hx
    omega
  | succ fuel ih =>
    rcases rel_cases (h.container? hxy) with ⟨hc, -⟩ | ⟨c, d, hc, hd, halike⟩
    · obtain ⟨node, hnode⟩ := a.exists_get? hx
      cases hpayload : node.payload with
      | container c => cases (a.container?_eq_some_iff.mpr ⟨node, hnode, hpayload⟩).symm.trans hc
      | leaf l =>
        have hp : a.payload? x = some (.leaf l) := by
          rw [Tree.payload?, hnode, Option.map_some, hpayload]
        have hl : a.leaf? x = some l := by
          rw [Tree.leaf?, hp]
          rfl
        obtain ⟨payload, hq, hleaf⟩ := Option.bind_eq_some_iff.mp ((h.leaf? hxy).symm.trans hl)
        cases payload with
        | container d => cases hleaf
        | leaf m =>
          cases hleaf
          exact (sameWithin_leaf hp).mpr ⟨l, hq, Leaf.equal_self_iff.mpr (hnumbers x l hl)⟩
    · have hchild : ∀ p ∈ c.children, ∀ q, R p q → a.sameWithin b fuel p q = true := by
        intro p hp q hpq
        refine ih hpq (ha.listed_exists x c hc p hp) ?_
        rw [ha.lineage_of_parent (ha.parent_of_mem hc hp), List.length_cons]
        omega
      refine (sameWithin_container hc hd).mpr ⟨halike.name, halike.flags, ?_, halike.count, ?_⟩
      · refine List.forall₂_iff_zip.mpr ⟨halike.content.length_eq, fun {p q} hmem => ?_⟩
        have hpq := (List.forall₂_iff_zip.mp halike.content).2 hmem
        exact hchild p (List.mem_append_left _ (List.of_mem_zip hmem).1) q hpq
      · intro e he
        have hfound := (ha.tidy x c hc).namedChild?_of_mem (List.mem_filter.mp he).1
        have hnamed := halike.named e.name
        rw [hfound] at hnamed
        rcases rel_cases hnamed with ⟨hnone, -⟩ | ⟨p, q, hp, hq, hpq⟩
        · cases hnone
        · cases hp
          exact ⟨q, hq, hchild e.id (List.mem_append_right _ (List.mem_map_of_mem he)) q hpq⟩

/-- Trees of the same shape as trees that are alike are alike, if leaves and flags agree. -/
theorem of_sameShape {a' b' : Tree} (ha : a.SameShape a') (hb : b.SameShape b')
    (hleaf : ∀ {x y}, R x y → a'.leaf? x = b'.leaf? y)
    (hflags : ∀ {x y}, R x y →
      (a'.container? x).map Container.flags = (b'.container? y).map Container.flags) :
    Alike R a' b' where
  size := ha.size.trans (h.size.trans hb.size.symm)
  unique := h.unique
  parent? := fun {x y} hxy => by
    rw [ha.parent?, hb.parent?]
    exact h.parent? hxy
  container? := fun {x y} hxy => by
    have hsame := hflags hxy
    rcases rel_cases (h.container? hxy) with ⟨hc, hd⟩ | ⟨c, d, hc, hd, halike⟩
    · have hc' := ha.container? x
      have hd' := hb.container? y
      rw [hc, Option.map_none, Option.map_eq_none_iff] at hc'
      rw [hd, Option.map_none, Option.map_eq_none_iff] at hd'
      rw [hc', hd']
      exact .none
    · have hc' := ha.container? x
      have hd' := hb.container? y
      rw [hc, Option.map_some, Option.map_eq_some_iff] at hc'
      rw [hd, Option.map_some, Option.map_eq_some_iff] at hd'
      obtain ⟨c', hc', hceq⟩ := hc'
      obtain ⟨d', hd', hdeq⟩ := hd'
      rw [hc', hd'] at hsame ⊢
      obtain ⟨content, table, flags, name⟩ := c
      obtain ⟨content', table', flags', name'⟩ := c'
      obtain ⟨items, names, marks, title⟩ := d
      obtain ⟨items', names', marks', title'⟩ := d'
      cases hceq
      cases hdeq
      exact .some ⟨halike.name, Option.some.inj hsame, halike.content, halike.named, halike.count⟩
  leaf? := hleaf

theorem sameStructure (ha : a.WellFormed)
    (hnumbers : ∀ id leaf, a.leaf? id = some leaf → leaf.NotNaN) (hxy : R x y)
    (hx : x < a.size) : a.sameStructure x b y = true := by
  refine h.sameWithin ha hnumbers hxy hx ?_
  cases hp : a.parent? x with
  | none => simp [lineage_of_root hp]
  | some p => simp [ha.lineage_of_parent hp]

end Alike

end Tree

end Narrative
