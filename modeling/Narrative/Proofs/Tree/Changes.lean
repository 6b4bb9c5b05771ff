import Narrative.Proofs.Tree.WellFormed

/-!
# Changes that keep a tree well-formed

Every edit is put together from a few changes: adding a node, taking a node out
of its parent, renaming a node that has no parent, and putting a node that has no
parent into a container. Each of them keeps a tree well-formed, the last one
under two conditions: the container does not lie below the node, and no other
child of the container has the node's name.
-/

namespace Narrative

namespace Container.Tidy

variable {nameOf : NodeId → Option String} {c d : Container} {child : NodeId} {positional : Bool}

/-- A container with one more child is tidy, wherever in the content the child stands. -/
theorem insert (h : c.Tidy nameOf) (hnew : child ∉ c.children) (hnodup : d.content.Nodup)
    (hcontent : ∀ id, id ∈ d.content ↔ id ∈ c.content ∨ (id = child ∧ positional = true))
    (htable : d.table = (c.enter (nameOf child) child positional).table)
    (hfresh : ∀ name, nameOf child = some name → ∀ e ∈ c.table, e.name ≠ name) :
    d.Tidy nameOf := by
  have hids : ∀ e ∈ c.table, e.id ≠ child := fun e he heq =>
    hnew (heq ▸ h.mem_children_of_entry he)
  have hmem : ∀ e, e ∈ d.table ↔
      e ∈ c.table ∨ ∃ text, nameOf child = some text ∧ e = ⟨text, child, positional⟩ := by
    intro e
    rw [htable, mem_enter_table]
  refine ⟨hnodup, ?_, ?_, ?_, ?_, ?_⟩
  · rw [htable]
    cases hn : nameOf child with
    | none => exact h.ids_nodup
    | some name =>
      simp only [enter, List.map_append, List.map_cons, List.map_nil]
      refine List.Nodup.append h.ids_nodup (by simp) ?_
      simpa [List.disjoint_singleton] using hids
  · rw [htable]
    cases hn : nameOf child with
    | none => exact h.names_nodup
    | some name =>
      simp only [enter, List.map_append, List.map_cons, List.map_nil]
      refine List.Nodup.append h.names_nodup (by simp) ?_
      simpa [List.disjoint_singleton] using hfresh name hn
  · intro e he
    rcases (hmem e).mp he with he | ⟨text, hn, rfl⟩
    · exact h.named e he
    · exact hn
  · intro e he
    rcases (hmem e).mp he with he | ⟨text, hn, rfl⟩
    · rw [h.positional_iff e he, hcontent]
      exact ⟨Or.inl, fun hor => hor.resolve_right fun heq => hids e he heq.1⟩
    · have hout : child ∉ c.content := fun hin => hnew (c.mem_children.mpr (Or.inl hin))
      simp [hcontent, hout]
  · intro id hid name hname
    rcases (hcontent id).mp hid with hid | ⟨rfl, _⟩
    · obtain ⟨e, he, rfl⟩ := h.entered id hid name hname
      exact ⟨e, (hmem e).mpr (Or.inl he), rfl⟩
    · exact ⟨_, (hmem _).mpr (Or.inr ⟨name, hname, rfl⟩), rfl⟩

theorem mem_substitute (h : c.Tidy nameOf) {previous : NodeId} (hprev : previous ∈ c.content)
    (child id : NodeId) : id ∈ (c.substitute previous child).content ↔
      id ∈ (c.removeChild previous).content ∨ (id = child ∧ true = true) := by
  obtain ⟨before, after, hsplit⟩ := List.append_of_mem hprev
  have hnodup : (before ++ previous :: after).Nodup := hsplit ▸ h.content_nodup
  obtain ⟨_, hafter, hcross⟩ := List.nodup_append.mp hnodup
  have hb : previous ∉ before := fun hin => hcross previous hin previous (by simp) rfl
  have ha : previous ∉ after := (List.nodup_cons.mp hafter).1
  rw [c.substitute_content hsplit hb]
  simp only [Container.removeChild, hsplit, List.mem_filter, List.mem_append, List.mem_cons,
    bne_iff_ne]
  grind

theorem substitute_nodup (h : c.Tidy nameOf) {previous : NodeId} (hprev : previous ∈ c.content)
    (hout : child ∉ c.content) : (c.substitute previous child).content.Nodup := by
  obtain ⟨before, after, hsplit⟩ := List.append_of_mem hprev
  have hnodup : (before ++ previous :: after).Nodup := hsplit ▸ h.content_nodup
  have hb : previous ∉ before := fun hin =>
    (List.nodup_append.mp hnodup).2.2 previous hin previous (by simp) rfl
  rw [c.substitute_content hsplit hb]
  rw [hsplit] at hout
  grind [List.nodup_append]

/-- Such a container has exactly one more child, unless the child is put neither in the content nor
in the table. -/
theorem mem_children_insert
    (hcontent : ∀ id, id ∈ d.content ↔ id ∈ c.content ∨ (id = child ∧ positional = true))
    (htable : d.table = (c.enter (nameOf child) child positional).table)
    (hlisted : positional = true ∨ (nameOf child).isSome = true) (id : NodeId) :
    id ∈ d.children ↔ id ∈ c.children ∨ id = child := by
  rw [mem_children, mem_children, htable]
  simp only [mem_enter_table, hcontent]
  constructor
  · rintro ((hid | ⟨rfl, _⟩) | ⟨e, he | ⟨text, _, rfl⟩, hp, rfl⟩)
    · exact Or.inl (Or.inl hid)
    · exact Or.inr rfl
    · exact Or.inl (Or.inr ⟨e, he, hp, rfl⟩)
    · exact Or.inr rfl
  · rintro ((hid | ⟨e, he, hp, rfl⟩) | rfl)
    · exact Or.inl (Or.inl hid)
    · exact Or.inr ⟨e, Or.inl he, hp, rfl⟩
    · cases hpos : positional with
      | true => exact Or.inl (Or.inr ⟨rfl, rfl⟩)
      | false =>
        have hsome : (nameOf id).isSome = true := by simpa [hpos] using hlisted
        obtain ⟨text, hn⟩ := Option.isSome_iff_exists.mp hsome
        exact Or.inr ⟨_, Or.inr ⟨text, hn, rfl⟩, rfl, rfl⟩

end Container.Tidy

namespace Tree

variable {tree : Tree}

namespace WellFormed

/-- Being well-formed is a matter of parents and containers only. -/
theorem congr (h : tree.WellFormed) {after : Tree}
    (hp : ∀ id, after.parent? id = tree.parent? id)
    (hc : ∀ id, after.container? id = tree.container? id) : after.WellFormed := by
  have hname : after.validName? = tree.validName? := by
    funext id
    simp [validName?, hc]
  have hup : after.Up = tree.Up := by
    funext a b
    simp [Up, hp]
  apply of_links
  · intro id p
    rw [hp, hc]
    exact h.parent_iff id p
  · intro p c hpc
    rw [hname]
    exact h.tidy p c (hc p ▸ hpc)
  · rw [hup]
    exact h.acyclic

/-- Losing parent links makes no new ancestors. -/
theorem not_mem_lineage_of_up (h : tree.WellFormed) {after : Tree} (hafter : after.WellFormed)
    (hup : ∀ a b, after.Up a b → tree.Up a b) {a id : NodeId} (ha : a ∉ tree.lineage id) :
    a ∉ after.lineage id := by
  rw [h.mem_lineage_iff] at ha
  rw [hafter.mem_lineage_iff]
  exact fun hanc => ha (hanc.lift (fun a => a) hup)

/-- Losing parent links makes no cycle. -/
theorem acyclic_of_up (h : tree.WellFormed) {after : Tree}
    (hup : ∀ a b, after.Up a b → tree.Up a b) (id : NodeId) :
    ¬ Relation.TransGen after.Up id id := fun hcycle =>
  h.acyclic id (hcycle.lift (fun a => a) hup)

theorem push (h : tree.WellFormed) (payload : Payload) (range : Option SourceRange) :
    (tree.push payload range).WellFormed := by
  have hold : ∀ i, i ≠ tree.size →
      (tree.push payload range).container? i = tree.container? i := fun i hi => by
    simp [container?_push, hi]
  have hnew : ∀ c, (tree.push payload range).container? tree.size = some c →
      ∃ d : Container, c = d.emptied := by
    intro c hc
    rw [container?_push, if_pos rfl] at hc
    cases payload with
    | leaf l => cases hc
    | container d => exact ⟨d, (Option.some.inj hc).symm⟩
  have hsize : ∀ c, tree.container? tree.size ≠ some c := fun c hc =>
    Nat.lt_irrefl _ (tree.lt_size_of_container? hc)
  apply of_links
  · intro id p
    rw [parent?_push, h.parent_iff]
    by_cases hp : p = tree.size
    · subst hp
      constructor
      · rintro ⟨c, hc, _⟩
        exact absurd hc (hsize c)
      · rintro ⟨c, hc, hid⟩
        obtain ⟨d, rfl⟩ := hnew c hc
        simp [Container.emptied, Container.children, Container.namedOnly] at hid
    · rw [hold p hp]
  · intro p c hc
    by_cases hp : p = tree.size
    · subst hp
      obtain ⟨d, rfl⟩ := hnew c hc
      exact .emptied _ d
    · rw [hold p hp] at hc
      refine (h.tidy p c hc).congr_names fun id hid => ?_
      have hlt : id ≠ tree.size := Nat.ne_of_lt (h.listed_exists p c hc id hid)
      simp [validName?, hold id hlt]
  · exact h.acyclic_of_up fun a b hab => by simpa [Up] using hab

/-- A change of a container that keeps its children and its name. -/
theorem modifyContainer (h : tree.WellFormed) (id : NodeId) {f : Container → Container}
    (hcontent : ∀ c, (f c).content = c.content) (htable : ∀ c, (f c).table = c.table)
    (hname : ∀ c, (f c).name = c.name) : (tree.modifyContainer id f).WellFormed := by
  have hnames : (tree.modifyContainer id f).validName? = tree.validName? := by
    funext i
    exact tree.validName?_modifyContainer (fun c _ => hname c) i
  have hchildren : ∀ c, (f c).children = c.children := fun c => by
    simp [Container.children, Container.namedOnly, hcontent, htable]
  apply of_links
  · intro i p
    rw [parent?_modifyContainer, h.parent_iff, container?_modifyContainer]
    by_cases hp : id = p
    · cases hc : tree.container? p with
      | none => simp [hp]
      | some c => simp [hp, hchildren]
    · simp [hp]
  · intro p c hc
    rw [hnames]
    rw [container?_modifyContainer] at hc
    by_cases hp : id = p
    · rw [if_pos hp] at hc
      obtain ⟨d, hd, rfl⟩ := Option.map_eq_some_iff.mp hc
      exact (h.tidy p d hd).congr_container (hcontent d) (htable d)
    · rw [if_neg hp] at hc
      exact h.tidy p c hc
  · exact h.acyclic_of_up fun a b hab => by simpa [Up] using hab

/-- Renaming a container that nobody lists. -/
theorem rename_root (h : tree.WellFormed) {id : NodeId} (hroot : tree.parent? id = none)
    (name : Option String) : (tree.modifyContainer id (·.rename name)).WellFormed := by
  have hunlisted : ∀ p c, tree.container? p = some c → id ∉ c.children := by
    intro p c hc hid
    have hp := h.parent_of_mem hc hid
    rw [hroot] at hp
    cases hp
  apply of_links
  · intro i p
    rw [parent?_modifyContainer, h.parent_iff, container?_modifyContainer]
    by_cases hp : id = p
    · cases hc : tree.container? p with
      | none => simp [hp]
      | some c => simp [hp, Container.children, Container.namedOnly, Container.rename]
    · simp [hp]
  · intro p c hc
    have hkeep : ∀ i, i ≠ id → (tree.modifyContainer id (·.rename name)).validName? i =
        tree.validName? i := fun i hi => by
      simp [validName?, container?_modifyContainer, Ne.symm hi]
    rw [container?_modifyContainer] at hc
    by_cases hp : id = p
    · rw [if_pos hp] at hc
      obtain ⟨d, hd, rfl⟩ := Option.map_eq_some_iff.mp hc
      refine ((h.tidy p d hd).congr_names fun i hi => ?_).congr_container rfl rfl
      exact hkeep i fun heq => hunlisted p d hd (heq ▸ hi)
    · rw [if_neg hp] at hc
      refine (h.tidy p c hc).congr_names fun i hi => ?_
      exact hkeep i fun heq => hunlisted p c hc (heq ▸ hi)
  · exact h.acyclic_of_up fun a b hab => by simpa [Up] using hab

end WellFormed

/-! ## Taking a node out -/

@[simp] theorem size_detached (child : NodeId) : (tree.detached child).size = tree.size := by
  rw [detached]
  split <;> simp

theorem parent?_detached (child i : NodeId) :
    (tree.detached child).parent? i = if i = child then none else tree.parent? i := by
  rw [detached]
  cases hp : tree.parent? child with
  | none =>
    by_cases hi : i = child
    · simp [hi, hp]
    · simp [hi]
  | some p =>
    have hlt := tree.lt_size_of_parent? hp
    simp only [parent?_setParent, size_modifyContainer, parent?_modifyContainer]
    by_cases hi : i = child
    · subst hi
      simp [hlt]
    · simp [hi, Ne.symm hi]

theorem container?_detached (child i : NodeId) :
    (tree.detached child).container? i =
      if tree.parent? child = some i then (tree.container? i).map (·.removeChild child)
      else tree.container? i := by
  rw [detached]
  cases hp : tree.parent? child with
  | none => simp
  | some p => simp [container?_modifyContainer]

theorem validName?_detached (child i : NodeId) :
    (tree.detached child).validName? i = tree.validName? i := by
  rw [detached]
  cases hp : tree.parent? child with
  | none => rfl
  | some p =>
    rw [validName?_setParent]
    apply tree.validName?_modifyContainer
    intro c _
    rfl

theorem up_of_up_detached {child a b : NodeId} (h : (tree.detached child).Up a b) :
    tree.Up a b := by
  rw [Up, parent?_detached] at h
  by_cases ha : a = child
  · simp [ha] at h
  · simpa [ha, Up] using h

theorem table_of_detached {child p : NodeId} {c : Container} {e : NamedEntry}
    (hc : (tree.detached child).container? p = some c) (he : e ∈ c.table) :
    ∃ d, tree.container? p = some d ∧ e ∈ d.table := by
  rw [container?_detached] at hc
  by_cases hp : tree.parent? child = some p
  · rw [if_pos hp] at hc
    obtain ⟨d, hd, rfl⟩ := Option.map_eq_some_iff.mp hc
    exact ⟨d, hd, (List.mem_filter.mp he).1⟩
  · rw [if_neg hp] at hc
    exact ⟨c, hc, he⟩

namespace WellFormed

theorem detached (h : tree.WellFormed) (child : NodeId) : (tree.detached child).WellFormed := by
  have hnames : (tree.detached child).validName? = tree.validName? := by
    funext i
    exact validName?_detached child i
  apply of_links
  · intro id p
    rw [parent?_detached, container?_detached]
    by_cases hp : tree.parent? child = some p
    · rw [if_pos hp]
      obtain ⟨c, hc, hchild⟩ := (h.parent_iff child p).mp hp
      have hiff := h.parent_iff id p
      by_cases hi : id = child
      · simp [hi, hc, Container.mem_children_removeChild]
      · simp [hi, hc, Container.mem_children_removeChild, hiff]
    · rw [if_neg hp]
      by_cases hi : id = child
      · subst hi
        simpa [hp] using (not_congr (h.parent_iff id p)).mp hp
      · simpa [hi] using h.parent_iff id p
  · intro p c hc
    rw [hnames]
    rw [container?_detached] at hc
    by_cases hp : tree.parent? child = some p
    · rw [if_pos hp] at hc
      obtain ⟨d, hd, rfl⟩ := Option.map_eq_some_iff.mp hc
      exact (h.tidy p d hd).removeChild child
    · rw [if_neg hp] at hc
      exact h.tidy p c hc
  · exact h.acyclic_of_up fun a b => up_of_up_detached

end WellFormed

/-! ## Putting a node in -/

/-- A new link from a node without parent to a node that does not lie below it makes no cycle. -/
theorem acyclic_of_new_link {R S : NodeId → NodeId → Prop} {child p : NodeId}
    (hR : ∀ id, ¬ Relation.TransGen R id id) (hup : ¬ Relation.ReflTransGen R p child)
    (hS : ∀ a b, S a b → R a b ∨ (a = child ∧ b = p)) (id : NodeId) :
    ¬ Relation.TransGen S id id := by
  -- From `p` upwards the new link is never met, so what lies above `p` is as before.
  have habove : ∀ b, Relation.ReflTransGen S p b → Relation.ReflTransGen R p b := by
    intro b hb
    induction hb with
    | refl => exact .refl
    | tail _ hstep ih =>
      rcases hS _ _ hstep with hold | ⟨rfl, _⟩
      · exact ih.tail hold
      · exact absurd ih hup
  -- So a path either avoids the new link or ends above `p`, having passed through `child`.
  have hpath : ∀ a b, Relation.TransGen S a b →
      Relation.TransGen R a b ∨ (Relation.ReflTransGen S p b ∧ Relation.ReflTransGen S a child) := by
    intro a b hab
    induction hab with
    | single hstep =>
      rcases hS _ _ hstep with hold | ⟨rfl, rfl⟩
      · exact Or.inl (.single hold)
      · exact Or.inr ⟨.refl, .refl⟩
    | tail hpre hstep ih =>
      rcases hS _ _ hstep with hold | ⟨rfl, rfl⟩
      · rcases ih with hfree | ⟨hp, hc⟩
        · exact Or.inl (hfree.tail hold)
        · exact Or.inr ⟨hp.tail hstep, hc⟩
      · exact Or.inr ⟨.refl, hpre.to_reflTransGen⟩
  intro hcycle
  rcases hpath id id hcycle with hold | ⟨hp, hc⟩
  · exact hR id hold
  · exact hup (habove child (hp.trans hc))

theorem WellFormed.attach (h : tree.WellFormed) {p child : NodeId} {c : Container}
    {f : Container → Container} (hc : tree.container? p = some c)
    (hroot : tree.parent? child = none) (hchild : child < tree.size)
    (hup : child ∉ tree.lineage p) (hname : (f c).name = c.name)
    (hchildren : ∀ id, id ∈ (f c).children ↔ id ∈ c.children ∨ id = child)
    (htidy : (f c).Tidy tree.validName?) :
    ((tree.modifyContainer p f).setParent child (some p)).WellFormed := by
  have hnames : ((tree.modifyContainer p f).setParent child (some p)).validName? =
      tree.validName? := by
    funext i
    rw [validName?_setParent]
    refine tree.validName?_modifyContainer (fun d hd => ?_) i
    rw [← Option.some.inj (hc.symm.trans hd)]
    exact hname
  have hparent : ∀ i, ((tree.modifyContainer p f).setParent child (some p)).parent? i =
      if i = child then some p else tree.parent? i := by
    intro i
    rw [parent?_setParent, size_modifyContainer, parent?_modifyContainer]
    by_cases hi : i = child
    · subst hi
      simp [hchild]
    · simp [hi, Ne.symm hi]
  apply of_links
  · intro id q
    rw [hparent, container?_setParent, container?_modifyContainer]
    by_cases hq : p = q
    · subst hq
      by_cases hi : id = child
      · simp [hi, hc, hchildren]
      · simp [hi, hc, hchildren, h.parent_iff id p]
    · by_cases hi : id = child
      · subst hi
        have hnone := (not_congr (h.parent_iff id q)).mp (by simp [hroot])
        simpa [hq] using hnone
      · simp [hi, hq, h.parent_iff id q]
  · intro q d hd
    rw [hnames]
    rw [container?_setParent, container?_modifyContainer] at hd
    by_cases hq : p = q
    · subst hq
      rw [if_pos rfl, hc] at hd
      exact Option.some.inj hd ▸ htidy
    · rw [if_neg hq] at hd
      exact h.tidy q d hd
  · rw [h.mem_lineage_iff] at hup
    refine acyclic_of_new_link h.acyclic hup fun a b hab => ?_
    rw [Up, hparent] at hab
    by_cases ha : a = child
    · exact Or.inr ⟨ha, by simpa [ha] using hab.symm⟩
    · exact Or.inl (by simpa [ha, Up] using hab)

end Tree

end Narrative
