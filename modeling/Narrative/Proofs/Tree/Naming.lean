import Narrative.Proofs.Tree.Planting

/-!
# Outlines whose names are in order

`Outline.WellNamed` says that the named children of a container have different
names, and that a child listed by name only is listed under the name it has.
Planting such an outline keeps a tree well-formed.
-/

namespace Narrative

namespace Outline

mutual

/-- A condition holds of an outline and of every outline below it. -/
def Everywhere (P : Outline → Prop) : Outline → Prop
  | leaf l => P (leaf l)
  | container name flags content named =>
    P (container name flags content named) ∧ EverywhereItems P content ∧ EverywhereNamed P named

def EverywhereItems (P : Outline → Prop) : List Outline → Prop
  | [] => True
  | item :: rest => Everywhere P item ∧ EverywhereItems P rest

def EverywhereNamed (P : Outline → Prop) : List (String × Outline) → Prop
  | [] => True
  | (_, item) :: rest => Everywhere P item ∧ EverywhereNamed P rest

end

theorem everywhereItems_iff {P : Outline → Prop} {items : List Outline} :
    EverywhereItems P items ↔ ∀ item ∈ items, item.Everywhere P := by
  induction items with
  | nil => simp [EverywhereItems]
  | cons item rest ih => simp [EverywhereItems, ih]

theorem everywhereNamed_iff {P : Outline → Prop} {named : List (String × Outline)} :
    EverywhereNamed P named ↔ ∀ entry ∈ named, entry.2.Everywhere P := by
  induction named with
  | nil => simp [EverywhereNamed]
  | cons entry rest ih => simp [EverywhereNamed, ih]

/-- The named children of a container have different names, and those that are listed by name only
are listed under their own. -/
def NamesInOrder : Outline → Prop
  | leaf _ => True
  | container _ _ content named =>
    (childNames content named).Nodup ∧ ∀ entry ∈ named, entry.2.validName? = some entry.1

def WellNamed (outline : Outline) : Prop := outline.Everywhere NamesInOrder

end Outline

namespace Tree

open Outline Container

mutual

/-- Planting an outline whose names are in order keeps a tree well-formed. -/
theorem WellFormed.extend_layout : ∀ {outline : Outline}, outline.WellNamed → ∀ {tree : Tree},
    tree.WellFormed → (tree.extend (outline.layout none tree.size)).WellFormed
  | leaf l, _, tree, h => by
    simpa [push_eq_extend, layout, lower, payloadAt, Payload.emptied] using h.push (.leaf l) none
  | container name flags content named, hnamed, tree, h => by
    obtain ⟨⟨hnames, hkeys⟩, hcontent, hentries⟩ := hnamed
    have hopen : Open (tree.push (.container { flags, name }) none) tree.size { flags, name } :=
      Open.push tree rfl rfl
    have hdistinct : NamesDistinct { flags, name } content named := by
      simpa [NamesDistinct] using hnames
    have hgrown := WellFormed.grown hcontent (WellFormed.grown_named hentries hkeys) hopen
      hdistinct (h.push _ none)
    rwa [push_grown rfl rfl] at hgrown

-- The children listed by name come last, so what they keep is handed on along the content.
theorem WellFormed.grown : ∀ {content : List Outline} {named : List (String × Outline)},
    EverywhereItems NamesInOrder content →
    (∀ {tree : Tree} {id : NodeId} {c : Container}, Open tree id c → NamesDistinct c [] named →
      tree.WellFormed → (tree.grown id [] named).WellFormed) →
    ∀ {tree : Tree} {id : NodeId} {c : Container}, Open tree id c →
    NamesDistinct c content named → tree.WellFormed → (tree.grown id content named).WellFormed
  | [], _, _, hentries, _, _, _, hopen, hdistinct, h => hentries hopen hdistinct h
  | first :: content, named, hcontent, hentries, tree, id, c, hopen, hdistinct, h => by
    obtain ⟨hfirst, hrest⟩ := hcontent
    have hfree : ∀ name, first.validName? = some name → name ∉ c.table.map NamedEntry.name :=
      fun name hname hin => not_namesDistinct_cons hname hin content named hdistinct
    have hstep := Edit.wellFormed_addContent (p := id) (WellFormed.extend_layout hfirst h)
      (tree.size_lt_extend_layout none first)
    rw [Edit.addContent_planted hopen.root hopen.container hopen.ids first hfree] at hstep
    have hgrown := WellFormed.grown hrest hentries (hopen.grown_content first hfree)
      ((namesDistinct_cons c tree.size first content named).mpr hdistinct) hstep
    rwa [grown_cons hopen.lt_size] at hgrown

theorem WellFormed.grown_named : ∀ {named : List (String × Outline)},
    EverywhereNamed NamesInOrder named → (∀ entry ∈ named, entry.2.validName? = some entry.1) →
    ∀ {tree : Tree} {id : NodeId} {c : Container}, Open tree id c → NamesDistinct c [] named →
    tree.WellFormed → (tree.grown id [] named).WellFormed
  | [], _, _, tree, id, c, _, _, h => by rwa [grown_nil]
  | (name, first) :: named, hentries, hkeys, tree, id, c, hopen, hdistinct, h => by
    obtain ⟨hfirst, hrest⟩ := hentries
    obtain ⟨hname, hkeys⟩ := List.forall_mem_cons.mp hkeys
    have hfree : name ∉ c.table.map NamedEntry.name := fun hin =>
      not_namesDistinct_named_cons hin named hdistinct
    have hstep := Edit.wellFormed_addNamed (p := id) (WellFormed.extend_layout hfirst h)
      (tree.size_lt_extend_layout none first)
    rw [Edit.addNamed_planted hopen.root hopen.container hopen.ids hname hfree] at hstep
    have hgrown := WellFormed.grown_named hrest hkeys (hopen.grown_named first hfree)
      ((namesDistinct_named_cons c tree.size (name, first) named).mpr hdistinct) hstep
    rwa [grown_named_cons hopen.lt_size] at hgrown

end

/-- Planting several outlines beside each other keeps a tree well-formed. -/
theorem WellFormed.extend_layoutItems {items : List Outline} (hitems : ∀ item ∈ items, item.WellNamed)
    {tree : Tree} (h : tree.WellFormed) :
    (tree.extend (layoutItems none tree.size items)).WellFormed := by
  induction items generalizing tree with
  | nil => rwa [layoutItems, extend_nil]
  | cons item rest ih =>
    obtain ⟨hitem, hrest⟩ := List.forall_mem_cons.mp hitems
    have hafter := ih hrest (h.extend_layout hitem)
    rw [size_extend, length_layout, extend_extend] at hafter
    exact hafter

end Tree

end Narrative
