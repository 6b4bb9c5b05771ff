import Narrative.Proofs.Tree.Subtree

/-!
# The outline of a planted subtree

Reading the outline off a tree undoes laying it out: where a tree carries the
nodes of an outline, the outline is found again.
-/

namespace Narrative.Tree

open Outline

/-- The tree has the given nodes from a place on. -/
def Carries (tree : Tree) : Nat → List Node → Prop
  | _, [] => True
  | n, node :: rest => tree.get? n = some node ∧ Carries tree (n + 1) rest

variable {tree : Tree}

theorem carries_append {n : Nat} {first second : List Node} :
    tree.Carries n (first ++ second) ↔
      tree.Carries n first ∧ tree.Carries (n + first.length) second := by
  induction first generalizing n with
  | nil => simp [Carries]
  | cons node rest ih =>
    simp only [List.cons_append, Carries, ih, List.length_cons, and_assoc]
    rw [Nat.add_assoc, Nat.add_comm 1]

theorem carries_extend (before nodes : List Node) :
    (tree.extend (before ++ nodes)).Carries (tree.size + before.length) nodes := by
  induction nodes generalizing before with
  | nil => trivial
  | cons node rest ih =>
    constructor
    · rw [get?_extend_new]
      simp
    · have hrest := ih (before ++ [node])
      rwa [List.append_assoc, List.singleton_append, List.length_append, List.length_singleton,
        ← Nat.add_assoc] at hrest

/-- The children that are listed by name only are those laid out as such. -/
theorem namedOnly_entries (n m : Nat) (content : List Outline) (named : List (String × Outline)) :
    (entries n content ++ namedEntries m named).filter (fun entry => !entry.positional) =
      namedEntries m named := by
  have hcontent : ∀ (n : Nat) (content : List Outline),
      (entries n content).filter (fun entry => !entry.positional) = [] := by
    intro n content
    induction content generalizing n with
    | nil => rfl
    | cons item rest ih => cases hv : item.validName? <;> simp [entries, hv, ih]
  have hnamed : ∀ (m : Nat) (named : List (String × Outline)),
      (namedEntries m named).filter (fun entry => !entry.positional) = namedEntries m named := by
    intro m named
    induction named generalizing m with
    | nil => rfl
    | cons pair rest ih => simp [namedEntries, ih]
  rw [List.filter_append, hcontent, hnamed, List.nil_append]

/-- The container at the top of an outline. -/
theorem container?_of_get? {n : Nat} {parent : Option NodeId} {name : Option String}
    {flags : CountFlags} {content : List Outline} {named : List (String × Outline)}
    (h : tree.get? n =
      some { parent, payload := payloadAt n (container name flags content named) }) :
    tree.container? n = some
      { content := places (n + 1) content
        table := entries (n + 1) content ++ namedEntries (n + 1 + sizeItems content) named
        flags, name } := by
  simp [container?, payload?, h, payloadAt, Payload.container?]

mutual

theorem outlineWithin?_of_carries : ∀ {outline : Outline} {parent : Option NodeId} {n fuel : Nat},
    tree.Carries n (outline.layout parent n) → outline.size ≤ fuel →
    tree.outlineWithin? fuel n = some outline
  | leaf l, parent, n, fuel, h, hfuel => by
    obtain ⟨fuel, rfl⟩ : ∃ f, fuel = f + 1 := ⟨fuel - 1, by simp only [Outline.size] at hfuel; omega⟩
    have hp : tree.payload? n = some (.leaf l) := by simp [payload?, h.1, payloadAt]
    exact outlineWithin?_leaf hp fuel
  | container name flags content named, parent, n, fuel, h, hfuel => by
    simp only [Outline.size] at hfuel
    obtain ⟨fuel, rfl⟩ : ∃ f, fuel = f + 1 := ⟨fuel - 1, by omega⟩
    obtain ⟨htop, hbelow⟩ := h
    obtain ⟨hitems, hnamed⟩ := carries_append.mp hbelow
    rw [length_layoutItems] at hnamed
    have hc := container?_of_get? htop
    refine (outlineWithin?_container hc fuel _).mpr ⟨content, named, ⟨?_, ?_⟩, rfl⟩
    · exact forall₂_places_of_carries hitems (by omega)
    · rw [Container.namedOnly, namedOnly_entries]
      exact forall₂_namedEntries_of_carries hnamed (by omega)

theorem forall₂_places_of_carries : ∀ {content : List Outline} {parent : Option NodeId}
    {n fuel : Nat}, tree.Carries n (layoutItems parent n content) → sizeItems content ≤ fuel →
    List.Forall₂ (fun child outline => tree.outlineWithin? fuel child = some outline)
      (places n content) content
  | [], _, _, _, _, _ => .nil
  | item :: rest, parent, n, fuel, h, hfuel => by
    obtain ⟨hitem, hrest⟩ := carries_append.mp h
    simp only [sizeItems] at hfuel
    rw [List.length_cons, length_lower] at hrest
    exact .cons (outlineWithin?_of_carries hitem (by omega))
      (forall₂_places_of_carries hrest (by omega))

theorem forall₂_namedEntries_of_carries : ∀ {named : List (String × Outline)}
    {parent : Option NodeId} {n fuel : Nat}, tree.Carries n (layoutNamed parent n named) →
    sizeNamed named ≤ fuel →
    List.Forall₂ (fun entry pair => entry.name = pair.1 ∧
      tree.outlineWithin? fuel entry.id = some pair.2) (namedEntries n named) named
  | [], _, _, _, _, _ => .nil
  | (name, item) :: rest, parent, n, fuel, h, hfuel => by
    obtain ⟨hitem, hrest⟩ := carries_append.mp h
    simp only [sizeNamed] at hfuel
    rw [List.length_cons, length_lower] at hrest
    have hfirst : tree.outlineWithin? fuel n = some item :=
      outlineWithin?_of_carries hitem (by omega)
    exact .cons ⟨rfl, hfirst⟩ (forall₂_namedEntries_of_carries hrest (by omega))

end

/-- The outline of the last subtree that was planted. -/
theorem outline?_extend_layout (parent : Option NodeId) (outline : Outline) :
    (tree.extend (outline.layout parent tree.size)).outline? tree.size = some outline := by
  have hcarries : (tree.extend (outline.layout parent tree.size)).Carries tree.size
      (outline.layout parent tree.size) := carries_extend [] _
  refine outlineWithin?_of_carries hcarries ?_
  rw [size_extend, length_layout]
  exact Nat.le_add_left _ _

end Narrative.Tree
