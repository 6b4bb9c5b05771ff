import Narrative.Proofs.Correspondence
import Narrative.Proofs.Tree.Naming
import Narrative.Proofs.Tree.WellFormed

/-!
# The nodes and the outline of a subtree

In a well-formed tree the bound on walks downward is never reached, so every node
has an outline, which is put together from those of its children. A condition
that holds everywhere in the outline holds of every node within the subtree, and
the other way round.
-/

namespace Narrative

namespace Tree

variable {tree : Tree}

/-- A node is another one or stands below it. -/
def Within (tree : Tree) (top id : NodeId) : Prop := Relation.ReflTransGen tree.Up id top

theorem within_iff {top id : NodeId} :
    tree.Within top id ↔
      id = top ∨ ∃ child, tree.parent? child = some top ∧ tree.Within child id := by
  constructor
  · intro h
    rcases Relation.ReflTransGen.cases_tail h with heq | ⟨child, hchild, hup⟩
    · exact Or.inl heq.symm
    · exact Or.inr ⟨child, hup, hchild⟩
  · rintro (rfl | ⟨child, hup, hchild⟩)
    · exact .refl
    · exact hchild.tail hup

/-- A walk downward with nothing left to visit lists nothing. -/
theorem descendantsWithin_nil (fuel : Nat) : tree.descendantsWithin fuel [] = [] := by
  cases fuel <;> rfl

/-! ## Outlines -/

theorem payload?_of_container? {id : NodeId} {c : Container} (h : tree.container? id = some c) :
    tree.payload? id = some (.container c) := by
  obtain ⟨payload, hpayload, hc⟩ := Option.bind_eq_some_iff.mp h
  cases payload with
  | leaf l => cases hc
  | container d =>
    cases hc
    exact hpayload

/-- The children of a container have the given outlines, as far as `look` finds them. -/
structure Shows (look : NodeId → Option Outline) (c : Container) (content : List Outline)
    (named : List (String × Outline)) : Prop where
  content : List.Forall₂ (fun child outline => look child = some outline) c.content content
  named : List.Forall₂ (fun entry pair => entry.name = pair.1 ∧ look entry.id = some pair.2)
    c.namedOnly named

theorem Shows.mono {look more : NodeId → Option Outline} {c : Container} {content : List Outline}
    {named : List (String × Outline)} (h : Shows look c content named)
    (hmore : ∀ child outline, look child = some outline → more child = some outline) :
    Shows more c content named where
  content := h.content.imp fun child outline => hmore child outline
  named := h.named.imp fun entry pair hpair => ⟨hpair.1, hmore entry.id pair.2 hpair.2⟩

theorem Shows.of_mem_children {look : NodeId → Option Outline} {c : Container}
    {content : List Outline} {named : List (String × Outline)} (h : Shows look c content named)
    {child : NodeId} (hchild : child ∈ c.children) :
    ∃ outline, look child = some outline ∧
      (outline ∈ content ∨ ∃ name, (name, outline) ∈ named) := by
  rcases List.mem_append.mp hchild with hcontent | hnamed
  · obtain ⟨outline, hmem, hlook⟩ := exists_of_forall₂_left h.content hcontent
    exact ⟨outline, hlook, Or.inl hmem⟩
  · obtain ⟨entry, hentry, rfl⟩ := List.mem_map.mp hnamed
    obtain ⟨pair, hmem, -, hlook⟩ := exists_of_forall₂_left h.named hentry
    exact ⟨pair.2, hlook, Or.inr ⟨pair.1, hmem⟩⟩

theorem Shows.of_mem_content {look : NodeId → Option Outline} {c : Container}
    {content : List Outline} {named : List (String × Outline)} (h : Shows look c content named)
    {outline : Outline} (hmem : outline ∈ content) :
    ∃ child ∈ c.children, look child = some outline := by
  obtain ⟨child, hchild, hlook⟩ := exists_of_forall₂_right h.content hmem
  exact ⟨child, List.mem_append_left _ hchild, hlook⟩

theorem Shows.of_mem_named {look : NodeId → Option Outline} {c : Container}
    {content : List Outline} {named : List (String × Outline)} (h : Shows look c content named)
    {pair : String × Outline} (hmem : pair ∈ named) :
    ∃ entry ∈ c.namedOnly, entry.name = pair.1 ∧ look entry.id = some pair.2 :=
  exists_of_forall₂_right h.named hmem

theorem outlineWithin?_leaf {id : NodeId} {l : Leaf} (h : tree.payload? id = some (.leaf l))
    (fuel : Nat) : tree.outlineWithin? (fuel + 1) id = some (.leaf l) := by
  rw [outlineWithin?, h]

theorem outlineWithin?_container {id : NodeId} {c : Container} (hc : tree.container? id = some c)
    (fuel : Nat) (outline : Outline) :
    tree.outlineWithin? (fuel + 1) id = some outline ↔
      ∃ content named, Shows (tree.outlineWithin? fuel) c content named ∧
        outline = .container c.name c.flags content named := by
  have hnamed : ∀ named, c.namedOnly.mapM (fun entry => (tree.outlineWithin? fuel entry.id).map
      fun outline => (entry.name, outline)) = some named ↔
        List.Forall₂ (fun entry pair => entry.name = pair.1 ∧
          tree.outlineWithin? fuel entry.id = some pair.2) c.namedOnly named := by
    intro named
    rw [mapM_eq_some_iff]
    have hiff : ∀ (entry : NamedEntry) (pair : String × Outline),
        (tree.outlineWithin? fuel entry.id).map (fun outline => (entry.name, outline)) = some pair ↔
          entry.name = pair.1 ∧ tree.outlineWithin? fuel entry.id = some pair.2 := by
      intro entry pair
      obtain ⟨name, outline⟩ := pair
      simp [and_comm]
    simp only [hiff]
  rw [outlineWithin?, payload?_of_container? hc]
  constructor
  · intro h
    obtain ⟨content, hcontent, h⟩ := Option.bind_eq_some_iff.mp h
    obtain ⟨named, hread, h⟩ := Option.bind_eq_some_iff.mp h
    exact ⟨content, named, ⟨mapM_eq_some_iff.mp hcontent, (hnamed named).mp hread⟩,
      (Option.some.inj h).symm⟩
  · rintro ⟨content, named, hshows, rfl⟩
    simp only [mapM_eq_some_iff.mpr hshows.content, (hnamed named).mpr hshows.named]
    rfl

/-- A deeper walk finds the same outline. -/
theorem outlineWithin?_mono {fuel : Nat} {id : NodeId} {outline : Outline}
    (h : tree.outlineWithin? fuel id = some outline) {more : Nat} (hle : fuel ≤ more) :
    tree.outlineWithin? more id = some outline := by
  induction fuel generalizing id outline more with
  | zero => cases h
  | succ fuel ih =>
    obtain ⟨more, rfl⟩ : ∃ n, more = n + 1 := ⟨more - 1, by omega⟩
    cases hp : tree.payload? id with
    | none => simp [outlineWithin?, hp] at h
    | some payload =>
      cases payload with
      | leaf l =>
        rw [outlineWithin?_leaf hp] at h ⊢
        exact h
      | container c =>
        have hc : tree.container? id = some c := by simp [container?, hp, Payload.container?]
        obtain ⟨content, named, hshows, rfl⟩ := (outlineWithin?_container hc fuel outline).mp h
        refine (outlineWithin?_container hc more _).mpr ⟨content, named, hshows.mono ?_, rfl⟩
        exact fun child outline hchild => ih hchild (Nat.le_of_succ_le_succ hle)

namespace WellFormed

/-- A walk that goes deep enough for the place of a node finds its outline. -/
theorem exists_outlineWithin? (h : tree.WellFormed) :
    ∀ {fuel : Nat} {id : NodeId}, id < tree.size → tree.size < fuel + (tree.lineage id).length →
      ∃ outline, tree.outlineWithin? fuel id = some outline := by
  intro fuel
  induction fuel with
  | zero =>
    intro id hid hfuel
    have hle := h.length_lineage_le hid
    omega
  | succ fuel ih =>
    intro id hid hfuel
    obtain ⟨node, hnode⟩ := tree.exists_get? hid
    have hp : tree.payload? id = some node.payload := by simp [payload?, hnode]
    cases hpayload : node.payload with
    | leaf l => exact ⟨.leaf l, outlineWithin?_leaf (hpayload ▸ hp) fuel⟩
    | container c =>
      have hc : tree.container? id = some c := by
        simp [container?, hp, hpayload, Payload.container?]
      have hchild : ∀ child ∈ c.children, ∃ outline,
          tree.outlineWithin? fuel child = some outline := by
        intro child hmem
        refine ih (h.listed_exists id c hc child hmem) ?_
        rw [h.lineage_of_parent (h.parent_of_mem hc hmem), List.length_cons]
        omega
      obtain ⟨content, hcontent⟩ := exists_forall₂ fun child hmem =>
        hchild child (c.mem_children.mpr (Or.inl hmem))
      have hentry : ∀ entry ∈ c.namedOnly, ∃ pair : String × Outline, entry.name = pair.1 ∧
          tree.outlineWithin? fuel entry.id = some pair.2 := by
        intro entry hmem
        obtain ⟨outline, houtline⟩ := hchild entry.id
          (List.mem_append_right _ (List.mem_map.mpr ⟨entry, hmem, rfl⟩))
        exact ⟨(entry.name, outline), rfl, houtline⟩
      obtain ⟨named, hnamed⟩ := exists_forall₂ hentry
      exact ⟨_, (outlineWithin?_container hc fuel _).mpr ⟨content, named, ⟨hcontent, hnamed⟩, rfl⟩⟩

/-- Every node has an outline. -/
theorem exists_outline? (h : tree.WellFormed) {id : NodeId} (hid : id < tree.size) :
    ∃ outline, tree.outline? id = some outline := by
  refine h.exists_outlineWithin? hid ?_
  cases hp : tree.parent? id with
  | none => simp [lineage_of_root hp]
  | some p => simp [h.lineage_of_parent hp]

end WellFormed

theorem exists_size_eq {id : NodeId} (h : id < tree.size) : ∃ fuel, tree.size = fuel + 1 :=
  Nat.exists_eq_add_one.mpr (Nat.zero_lt_of_lt h)

theorem outline?_container {id : NodeId} {c : Container} (hc : tree.container? id = some c)
    {outline : Outline} (hout : tree.outline? id = some outline) :
    ∃ content named, Shows tree.outline? c content named ∧
      outline = .container c.name c.flags content named := by
  obtain ⟨fuel, hfuel⟩ := exists_size_eq (tree.lt_size_of_container? hc)
  rw [outline?] at hout
  rw [hfuel] at hout
  obtain ⟨content, named, hshows, rfl⟩ := (outlineWithin?_container hc fuel outline).mp hout
  refine ⟨content, named, hshows.mono fun child outline hchild => ?_, rfl⟩
  exact outlineWithin?_mono hchild (hfuel ▸ Nat.le_succ fuel)

theorem outline?_leaf {id : NodeId} {l : Leaf} (hp : tree.payload? id = some (.leaf l)) :
    tree.outline? id = some (.leaf l) := by
  obtain ⟨node, hnode, -⟩ := Option.map_eq_some_iff.mp hp
  obtain ⟨fuel, hfuel⟩ := exists_size_eq (tree.lt_size_of_get? hnode)
  rw [outline?]
  rw [hfuel]
  exact outlineWithin?_leaf hp fuel

/-- A node that has an outline is a leaf or a container. -/
theorem payload_cases_of_outline? {id : NodeId} {outline : Outline}
    (h : tree.outline? id = some outline) :
    (∃ l, tree.payload? id = some (.leaf l) ∧ outline = .leaf l) ∨
      ∃ c content named, tree.container? id = some c ∧ Shows tree.outline? c content named ∧
        outline = .container c.name c.flags content named := by
  cases hp : tree.payload? id with
  | none =>
    rw [outline?] at h
    cases hsize : tree.size with
    | zero => simp [hsize, outlineWithin?] at h
    | succ fuel => simp [hsize, outlineWithin?, hp] at h
  | some payload =>
    cases payload with
    | leaf l => exact Or.inl ⟨l, rfl, Option.some.inj (h.symm.trans (outline?_leaf hp))⟩
    | container c =>
      have hc : tree.container? id = some c := by simp [container?, hp, Payload.container?]
      obtain ⟨content, named, hshows, rfl⟩ := outline?_container hc h
      exact Or.inr ⟨c, content, named, hc, hshows, rfl⟩

/-! ## Conditions on every node of a subtree -/

namespace WellFormed

/-- Going up ends, so that a fact may be proved of children before their parents. -/
theorem wellFounded_up (h : tree.WellFormed) : WellFounded tree.Up := by
  refine Subrelation.wf ?_ (measure fun id => tree.size - (tree.lineage id).length).wf
  intro child parent hup
  have hle := h.length_lineage_le (tree.lt_size_of_parent? hup)
  rw [h.lineage_of_parent hup, List.length_cons] at hle
  change tree.size - (tree.lineage child).length < tree.size - (tree.lineage parent).length
  rw [h.lineage_of_parent hup, List.length_cons]
  omega

/-- A condition holds everywhere in an outline when it holds of the outline of every node within the
subtree. -/
theorem everywhere_iff (h : tree.WellFormed) {P : Outline → Prop} {id : NodeId} {outline : Outline}
    (hout : tree.outline? id = some outline) :
    outline.Everywhere P ↔
      ∀ d, tree.Within id d → ∀ inner, tree.outline? d = some inner → P inner := by
  induction id using h.wellFounded_up.induction generalizing outline with
  | _ id ih =>
    rcases payload_cases_of_outline? hout with
      ⟨l, hp, rfl⟩ | ⟨c, content, named, hc, hshows, rfl⟩
    · constructor
      · intro hP d hd inner hinner
        rcases within_iff.mp hd with rfl | ⟨child, hup, -⟩
        · exact Option.some.inj (hout.symm.trans hinner) ▸ hP
        · obtain ⟨c, hc, -⟩ := (h.parent_iff child id).mp hup
          rw [payload?_of_container? hc] at hp
          cases hp
      · exact fun hall => hall id .refl _ hout
    · have hup : ∀ child ∈ c.children, tree.Up child id := fun child hchild =>
        h.parent_of_mem hc hchild
      constructor
      · rintro ⟨htop, hitems, hnamed⟩ d hd inner hinner
        rcases within_iff.mp hd with rfl | ⟨child, hparent, hbelow⟩
        · exact Option.some.inj (hout.symm.trans hinner) ▸ htop
        · obtain ⟨outline, hlook, hmem⟩ := hshows.of_mem_children (h.mem_children hparent hc)
          refine (ih child hparent hlook).mp ?_ d hbelow inner hinner
          rcases hmem with hmem | ⟨name, hmem⟩
          · exact Outline.everywhereItems_iff.mp hitems outline hmem
          · exact Outline.everywhereNamed_iff.mp hnamed _ hmem
      · intro hall
        have hbelow : ∀ child outline, child ∈ c.children → tree.outline? child = some outline →
            outline.Everywhere P := fun child outline hchild hlook =>
          (ih child (hup child hchild) hlook).mpr fun d hd =>
            hall d (within_iff.mpr (Or.inr ⟨child, hup child hchild, hd⟩))
        refine ⟨hall id .refl _ hout, Outline.everywhereItems_iff.mpr ?_,
          Outline.everywhereNamed_iff.mpr ?_⟩
        · intro outline hmem
          obtain ⟨child, hchild, hlook⟩ := hshows.of_mem_content hmem
          exact hbelow child outline hchild hlook
        · intro pair hmem
          obtain ⟨entry, hentry, -, hlook⟩ := hshows.of_mem_named hmem
          exact hbelow entry.id pair.2
            (List.mem_append_right _ (List.mem_map.mpr ⟨entry, hentry, rfl⟩)) hlook

end WellFormed

/-! ## Names -/

theorem validName?_of_outline? {id : NodeId} {outline : Outline}
    (h : tree.outline? id = some outline) : outline.validName? = tree.validName? id := by
  rcases payload_cases_of_outline? h with ⟨l, hp, rfl⟩ | ⟨c, content, named, hc, -, rfl⟩
  · simp [validName?, container?, hp, Payload.container?, Outline.validName?]
  · simp [validName?, hc, Outline.validName?, Container.validName?]

theorem Shows.filterMap_validName? {c : Container} {content : List Outline}
    {named : List (String × Outline)} (h : Shows tree.outline? c content named) :
    content.filterMap Outline.validName? = c.content.filterMap tree.validName? :=
  (filterMap_eq_filterMap_of_forall₂ h.content fun _ _ hchild =>
    (validName?_of_outline? hchild).symm).symm

theorem Shows.map_fst {look : NodeId → Option Outline} {c : Container} {content : List Outline}
    {named : List (String × Outline)} (h : Shows look c content named) :
    named.map Prod.fst = c.namedOnly.map NamedEntry.name :=
  (map_eq_map_of_forall₂ h.named fun _ _ hentry => hentry.1).symm

end Tree

/-- The names in a tidy container are different, in the content and outside it. -/
theorem Container.Tidy.childNames_nodup {nameOf : NodeId → Option String} {c : Container}
    (h : c.Tidy nameOf) :
    (c.content.filterMap nameOf ++ c.namedOnly.map NamedEntry.name).Nodup := by
  have hentry : ∀ id ∈ c.content, ∀ name, nameOf id = some name →
      ∃ e ∈ c.table, e.id = id ∧ e.name = name := by
    intro id hid name hname
    obtain ⟨e, he, rfl⟩ := h.entered id hid name hname
    exact ⟨e, he, rfl, Option.some.inj ((h.named e he).symm.trans hname)⟩
  have hcontent : (c.content.filterMap nameOf).Nodup := by
    refine List.pairwise_filterMap.mpr (h.content_nodup.imp_of_mem ?_)
    intro a b ha hb hne name hname other hother heq
    obtain ⟨e, he, rfl, rfl⟩ := hentry a ha name hname
    obtain ⟨f, hf, rfl, rfl⟩ := hentry b hb other hother
    exact hne (congrArg NamedEntry.id (h.eq_of_name_eq he hf heq))
  have hnamed : (c.namedOnly.map NamedEntry.name).Nodup :=
    h.names_nodup.sublist (List.filter_sublist.map _)
  refine hcontent.append hnamed ?_
  intro name hin hout
  obtain ⟨id, hid, hname⟩ := List.mem_filterMap.mp hin
  obtain ⟨e, he, rfl, rfl⟩ := hentry id hid name hname
  obtain ⟨f, hf, heq⟩ := List.mem_map.mp hout
  obtain ⟨hf, hpos⟩ := List.mem_filter.mp hf
  obtain rfl := h.eq_of_name_eq hf he heq
  rw [(h.positional_iff f hf).mpr hid] at hpos
  cases hpos

namespace Tree

variable {tree : Tree}

/-- In the outline of a node of a well-formed tree the names are in order. -/
theorem WellFormed.wellNamed_of_outline? (h : tree.WellFormed) {id : NodeId} {outline : Outline}
    (hout : tree.outline? id = some outline) : outline.WellNamed := by
  refine (h.everywhere_iff hout).mpr fun d _ inner hinner => ?_
  rcases payload_cases_of_outline? hinner with ⟨l, -, rfl⟩ | ⟨c, content, named, hc, hshows, rfl⟩
  · trivial
  · have htidy := h.tidy d c hc
    constructor
    · rw [Outline.childNames, hshows.filterMap_validName?, hshows.map_fst]
      exact htidy.childNames_nodup
    · intro pair hmem
      obtain ⟨entry, hentry, hname, hlook⟩ := hshows.of_mem_named hmem
      rw [validName?_of_outline? hlook, htidy.named entry (List.mem_filter.mp hentry).1, hname]

end Tree

end Narrative
