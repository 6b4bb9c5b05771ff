import Narrative.Proofs.Tree.Steps

/-!
# Edits keep a tree well-formed

A well-formed tree stays well-formed under every edit, whether the edit is
carried out or refused. The nodes that an edit names have to exist; that the
checks of the edits are enough is proved here.
-/

namespace Narrative

namespace Tree

variable {tree : Tree}

/-! ## What the checks say -/

/-- When a name is not refused, every child that has it is one of the allowed ones. -/
theorem WellFormed.mem_allowed (h : tree.WellFormed) {p : NodeId} {name : String}
    {allowed : List NodeId} (hfault : tree.nameFault? p (some name) allowed = none)
    {c : Container} (hc : tree.container? p = some c) {e : NamedEntry} (he : e ∈ c.table)
    (hname : e.name = name) : e.id ∈ allowed := by
  have hsome : (c.table.find? fun e => e.name == name).isSome = true :=
    List.find?_isSome.mpr ⟨e, he, by simpa using hname⟩
  obtain ⟨f, hf⟩ := Option.isSome_iff_exists.mp hsome
  have hfname : f.name = name := by simpa using List.find?_some hf
  obtain rfl : f = e :=
    (h.tidy p c hc).eq_of_name_eq (List.mem_of_find?_eq_some hf) he (hfname.trans hname.symm)
  have hchild : tree.namedChild? p name = some f.id := by
    simp [namedChild?, hc, Container.namedChild?, hf]
  simpa [nameFault?, hchild] using hfault

/-! ## What the changes say -/

/-- What renaming does to the parent links: a child that only its name held loses its own. -/
theorem parent?_renamed {id p : NodeId} {c : Container} {name : Option String}
    (hpp : tree.parent? id = some p) (hc : tree.container? p = some c) (i : NodeId) :
    (tree.renamed id name).parent? i =
      if i = id ∧ Container.validName? { name } = none ∧ id ∉ c.content then none
      else tree.parent? i := by
  have hlt := tree.lt_size_of_parent? hpp
  have hpos := c.positionOf?_isSome_iff id
  have hnone := Option.isNone_iff_eq_none (o := Container.validName? { name })
  simp only [renamed, hpp, hc, Option.bind_some]
  split
  · simp only [parent?_setParent, parent?_modifyContainer, size_modifyContainer]
    grind
  · simp only [parent?_modifyContainer]
    grind

/-- What renaming does to the containers: one is renamed, and its parent lists it anew. -/
theorem container?_renamed {id p : NodeId} {c : Container} {name : Option String}
    (hpp : tree.parent? id = some p) (hc : tree.container? p = some c) (hne : p ≠ id)
    (i : NodeId) :
    (tree.renamed id name).container? i =
      if i = p then
        some ((c.dropEntries id).enter (Container.validName? { name }) id (c.positionOf? id).isSome)
      else if i = id then (tree.container? i).map (·.rename name)
      else tree.container? i := by
  simp only [renamed, hpp, hc, Option.bind_some]
  split <;>
    · simp only [container?_setParent, container?_modifyContainer]
      by_cases hi : i = p
      · subst hi
        simp [Ne.symm hne, hc]
      · simp [hi, Ne.symm hi, eq_comm]

/-- A container taken out of its parent and renamed. -/
def loosened (tree : Tree) (id : NodeId) (name : Option String) : Tree :=
  (tree.detached id).modifyContainer id (·.rename name)

theorem size_loosened (id : NodeId) (name : Option String) :
    (tree.loosened id name).size = tree.size := by
  rw [loosened, size_modifyContainer, size_detached]

theorem parent?_loosened (id : NodeId) (name : Option String) (i : NodeId) :
    (tree.loosened id name).parent? i = if i = id then none else tree.parent? i := by
  rw [loosened, parent?_modifyContainer, parent?_detached]

theorem container?_loosened_parent {id p : NodeId} {c : Container} (hpp : tree.parent? id = some p)
    (hc : tree.container? p = some c) (hne : p ≠ id) (name : Option String) :
    (tree.loosened id name).container? p = some (c.removeChild id) := by
  simp [loosened, container?_modifyContainer, Ne.symm hne, container?_detached, hpp, hc]

theorem up_of_up_loosened {id : NodeId} {name : Option String} (a b : NodeId)
    (h : (tree.loosened id name).Up a b) : tree.Up a b := by
  rw [Up, loosened, parent?_modifyContainer] at h
  exact up_of_up_detached h

/-- Apart from the parent, renaming leaves the containers as taking out and renaming does. -/
theorem container?_renamed_other {id p : NodeId} {c : Container} {name : Option String}
    (hpp : tree.parent? id = some p) (hc : tree.container? p = some c) (hne : p ≠ id) {i : NodeId}
    (hi : i ≠ p) : (tree.renamed id name).container? i = (tree.loosened id name).container? i := by
  simp [container?_renamed hpp hc hne, hi, loosened, container?_modifyContainer,
    container?_detached, hpp, Ne.symm hi, eq_comm]

namespace WellFormed

variable {p child : NodeId}

theorem not_mem_children_of_root (h : tree.WellFormed) {c : Container}
    (hroot : tree.parent? child = none) (hc : tree.container? p = some c) :
    child ∉ c.children := by
  intro hmem
  have hparent := h.parent_of_mem hc hmem
  rw [hroot] at hparent
  cases hparent

theorem appended (h : tree.WellFormed) {c : Container} (hc : tree.container? p = some c)
    (hroot : tree.parent? child = none) (hchild : child < tree.size)
    (hup : child ∉ tree.lineage p)
    (hfree : ∀ name, tree.validName? child = some name → ∀ e ∈ c.table, e.name ≠ name) :
    (tree.appended p child (tree.validName? child)).WellFormed := by
  have hnew := h.not_mem_children_of_root hroot hc
  have hout : child ∉ c.content := fun hin => hnew (c.mem_children.mpr (Or.inl hin))
  have htidy := h.tidy p c hc
  have hcontent : ∀ id, id ∈ ((c.append child).enter (tree.validName? child) child true).content ↔
      id ∈ c.content ∨ (id = child ∧ true = true) := by
    simp [Container.append]
  have htable : ((c.append child).enter (tree.validName? child) child true).table =
      (c.enter (tree.validName? child) child true).table := by
    cases tree.validName? child <;> rfl
  refine h.attach hc hroot hchild hup (by simp [Container.append]) ?_ ?_
  · exact Container.Tidy.mem_children_insert hcontent htable (Or.inl rfl)
  · refine htidy.insert hnew ?_ hcontent htable hfree
    simp only [Container.enter_content, Container.append]
    exact htidy.content_nodup.append (by simp) (by simpa using hout)

theorem enteredByName (h : tree.WellFormed) {c : Container} {name : String}
    (hc : tree.container? p = some c) (hroot : tree.parent? child = none)
    (hchild : child < tree.size) (hup : child ∉ tree.lineage p)
    (hname : tree.validName? child = some name) (hfree : ∀ e ∈ c.table, e.name ≠ name) :
    (tree.enteredByName p child name).WellFormed := by
  have hnew := h.not_mem_children_of_root hroot hc
  have hcontent : ∀ id, id ∈ (c.enter (some name) child false).content ↔
      id ∈ c.content ∨ (id = child ∧ false = true) := by
    simp
  have htable : (c.enter (some name) child false).table =
      (c.enter (tree.validName? child) child false).table := by
    rw [hname]
  refine h.attach hc hroot hchild hup (by simp) ?_ ?_
  · exact Container.Tidy.mem_children_insert hcontent htable (Or.inr (by simp [hname]))
  · refine (h.tidy p c hc).insert hnew ?_ hcontent htable ?_
    · simpa using (h.tidy p c hc).content_nodup
    · intro other hother
      obtain rfl : name = other := Option.some.inj (hname.symm.trans hother)
      exact hfree

/-- Substitution is taking the previous child out and putting the new one in its place. -/
theorem substituted (h : tree.WellFormed) {c : Container} {previous : NodeId}
    (hc : tree.container? p = some c) (hprev : previous ∈ c.content)
    (hroot : tree.parent? child = none) (hchild : child < tree.size)
    (hup : child ∉ tree.lineage p)
    (hfree : ∀ name, tree.validName? child = some name →
      ∀ e ∈ c.table, e.id ≠ previous → e.name ≠ name) :
    (tree.substituted p previous child (tree.validName? child)).WellFormed := by
  have hpp : tree.parent? previous = some p :=
    h.parent_of_mem hc (c.mem_children.mpr (Or.inl hprev))
  have hout : child ∉ c.content := fun hin =>
    h.not_mem_children_of_root hroot hc (c.mem_children.mpr (Or.inl hin))
  have h1 := h.detached previous
  have hc1 : (tree.detached previous).container? p = some (c.removeChild previous) := by
    simp [container?_detached, hpp, hc]
  have hroot1 : (tree.detached previous).parent? child = none := by
    simp [parent?_detached, hroot]
  have hnames : (tree.detached previous).validName? = tree.validName? := by
    funext i
    exact validName?_detached previous i
  have htidy1 : (c.removeChild previous).Tidy tree.validName? := (h.tidy p c hc).removeChild previous
  -- The container after the change is the one without `previous`, with `child` inserted.
  let d := ((c.substitute previous child).dropEntries previous).enter (tree.validName? child) child
    true
  have hcontent : ∀ id, id ∈ d.content ↔
      id ∈ (c.removeChild previous).content ∨ (id = child ∧ true = true) := by
    intro id
    simpa [d, Container.dropEntries] using
      (h.tidy p c hc).mem_substitute hprev child id
  have htable : d.table =
      ((c.removeChild previous).enter (tree.validName? child) child true).table := by
    simp only [d]
    cases tree.validName? child <;>
      simp [Container.enter, Container.dropEntries, Container.removeChild]
  have hnodup : d.content.Nodup := by
    simpa [d, Container.dropEntries] using (h.tidy p c hc).substitute_nodup hprev hout
  have htidy : d.Tidy tree.validName? := by
    refine htidy1.insert (h1.not_mem_children_of_root hroot1 hc1) hnodup hcontent htable ?_
    intro name hname e he
    obtain ⟨he, hid⟩ := List.mem_filter.mp he
    exact hfree name hname e he (by simpa using hid)
  have h2 := h1.attach (f := fun _ => d) hc1 hroot1 (by simpa using hchild)
    (h.not_mem_lineage_of_up h1 (fun _ _ => up_of_up_detached) hup)
    (by simp [d, Container.dropEntries, Container.removeChild])
    (Container.Tidy.mem_children_insert hcontent htable (Or.inl rfl)) (hnames ▸ htidy)
  refine h2.congr ?_ ?_
  · intro i
    have hlt := tree.lt_size_of_parent? hpp
    simp only [Tree.substituted, parent?_setParent, parent?_modifyContainer, size_setParent,
      size_modifyContainer, parent?_detached, size_detached]
    grind
  · intro i
    simp only [Tree.substituted, container?_setParent, container?_modifyContainer]
    by_cases hi : p = i
    · subst hi
      simp [hc, hc1, d]
    · simp [hi, container?_detached, hpp]

theorem loosened (h : tree.WellFormed) (id : NodeId) (name : Option String) :
    (tree.loosened id name).WellFormed :=
  (h.detached id).rename_root (by simp [parent?_detached]) name

theorem validName?_loosened (h : tree.WellFormed) {id : NodeId} {own : Container}
    (hown : tree.container? id = some own) (name : Option String) :
    (tree.loosened id name).validName? id = Container.validName? { name } := by
  have hself : ¬ tree.parent? id = some id := fun hcyc => h.parent_ne hcyc rfl
  simp [Tree.loosened, validName?, container?_modifyContainer, container?_detached, hself, hown,
    Container.rename, Container.validName?]

/-- A child that only its name held is out of its parent when it loses the name. -/
theorem renamed_dropped (h : tree.WellFormed) {id : NodeId} {c : Container}
    (hpp : tree.parent? id = some p) (hc : tree.container? p = some c) {name : Option String}
    (hnone : Container.validName? { name } = none) (hout : id ∉ c.content) :
    (tree.renamed id name).WellFormed := by
  have hne : p ≠ id := h.parent_ne hpp
  have hfilter : c.content.filter (fun i => i != id) = c.content := by
    rw [List.filter_eq_self]
    intro i hi
    simpa using fun heq : i = id => hout (heq ▸ hi)
  refine (h.loosened id name).congr (fun i => ?_) (fun i => ?_)
  · rw [parent?_renamed hpp hc, parent?_loosened]
    grind
  · by_cases hi : i = p
    · subst hi
      rw [container?_loosened_parent hpp hc hne]
      simp [container?_renamed hpp hc hne, hnone, Container.enter, Container.removeChild, hfilter]
      rfl
    · exact container?_renamed_other hpp hc hne hi

/-- A child that keeps a place in its parent is put back there under its new name. -/
theorem renamed_kept (h : tree.WellFormed) {id : NodeId} {c own : Container}
    (hown : tree.container? id = some own) (hpp : tree.parent? id = some p)
    (hc : tree.container? p = some c) {name : Option String}
    (hfree : ∀ text, Container.validName? { name } = some text →
      ∀ e ∈ c.table, e.id ≠ id → e.name ≠ text)
    (hkept : id ∈ c.content ∨ (Container.validName? { name }).isSome) :
    (tree.renamed id name).WellFormed := by
  have hlt := tree.lt_size_of_parent? hpp
  have hne : p ≠ id := h.parent_ne hpp
  have hup : id ∉ tree.lineage p := by
    rw [h.mem_lineage_iff]
    exact fun hanc => h.acyclic id (Relation.TransGen.head' hpp hanc)
  have hloose := h.loosened id name
  have hroot : (tree.loosened id name).parent? id = none := by simp [parent?_loosened]
  have hc2 := container?_loosened_parent hpp hc hne name
  have hname2 := h.validName?_loosened hown name
  let positional := (c.positionOf? id).isSome
  let d := (c.dropEntries id).enter (Container.validName? { name }) id positional
  have hcontent : ∀ i, i ∈ d.content ↔
      i ∈ (c.removeChild id).content ∨ (i = id ∧ positional = true) := by
    intro i
    simp only [d, positional, Container.enter_content, Container.dropEntries,
      Container.removeChild, List.mem_filter, bne_iff_ne, c.positionOf?_isSome_iff]
    grind
  have htable : d.table =
      ((c.removeChild id).enter ((tree.loosened id name).validName? id) id positional).table := by
    rw [hname2]
    simp only [d]
    cases Container.validName? { name } <;>
      simp [Container.enter, Container.dropEntries, Container.removeChild]
  have hnodup : d.content.Nodup := by
    simpa [d, Container.dropEntries] using (h.tidy p c hc).content_nodup
  have hlisted : positional = true ∨ ((tree.loosened id name).validName? id).isSome = true := by
    rwa [hname2, c.positionOf?_isSome_iff]
  have htidy : d.Tidy (tree.loosened id name).validName? := by
    refine (hloose.tidy p _ hc2).insert (hloose.not_mem_children_of_root hroot hc2) hnodup hcontent
      htable ?_
    intro text htext e he
    obtain ⟨he, hid⟩ := List.mem_filter.mp he
    exact hfree text (hname2 ▸ htext) e he (by simpa using hid)
  have hattach := hloose.attach (f := fun _ => d) hc2 hroot (by rwa [size_loosened])
    (h.not_mem_lineage_of_up hloose up_of_up_loosened hup)
    (by simp [d, Container.dropEntries, Container.removeChild])
    (Container.Tidy.mem_children_insert hcontent htable hlisted) htidy
  refine hattach.congr (fun i => ?_) (fun i => ?_)
  · rw [parent?_renamed hpp hc, parent?_setParent, parent?_modifyContainer, parent?_loosened,
      size_modifyContainer, size_loosened]
    grind
  · rw [container?_setParent, container?_modifyContainer]
    by_cases hi : i = p
    · subst hi
      simp [container?_renamed hpp hc hne, hc2, d, positional]
    · simp [Ne.symm hi, container?_renamed_other hpp hc hne hi]

/-- Renaming a listed container is taking it out, renaming it and putting it back in its place. -/
theorem renamed_listed (h : tree.WellFormed) {id : NodeId} {c own : Container}
    (hown : tree.container? id = some own) (hpp : tree.parent? id = some p)
    (hc : tree.container? p = some c) (name : Option String)
    (hfree : ∀ text, Container.validName? { name } = some text →
      ∀ e ∈ c.table, e.id ≠ id → e.name ≠ text) :
    (tree.renamed id name).WellFormed := by
  by_cases hin : id ∈ c.content
  · exact h.renamed_kept hown hpp hc hfree (Or.inl hin)
  · cases hname : Container.validName? { name } with
    | none => exact h.renamed_dropped hpp hc hname hin
    | some text => exact h.renamed_kept hown hpp hc hfree (Or.inr (by rw [hname]; rfl))

end WellFormed

end Tree

/-! ## The edits -/

namespace Edit

open Narrative.Tree

variable {tree : Tree} {p child id : NodeId}

/-- The container that an allowed edit puts a child into, once the child is out of its old parent. -/
theorem exists_free_container (h : tree.WellFormed)
    (hattach : tree.attachFault? p child = none)
    (hname : tree.nameFault? p (tree.validName? child) [child] = none) :
    ∃ c, (tree.detached child).container? p = some c ∧
      child ∉ (tree.detached child).lineage p ∧
      ∀ name, (tree.detached child).validName? child = some name → ∀ e ∈ c.table, e.name ≠ name := by
  obtain ⟨⟨d, hd⟩, hup⟩ := attachFault?_eq_none_iff.mp hattach
  have h1 := h.detached child
  obtain ⟨c, hc⟩ := exists_container?_detached child hd
  refine ⟨c, hc, h.not_mem_lineage_of_up h1 (fun _ _ => up_of_up_detached) hup, ?_⟩
  intro name hvalid e he heq
  rw [validName?_detached] at hvalid
  obtain ⟨d', hd', hed⟩ := table_of_detached hc he
  have hallowed := h.mem_allowed (hvalid ▸ hname) hd' hed heq
  have hchild : e.id = child := by simpa using hallowed
  have hroot : (tree.detached child).parent? child = none := by simp [parent?_detached]
  exact h1.not_mem_children_of_root hroot hc
    (hchild ▸ (h1.tidy p c hc).mem_children_of_entry he)

theorem wellFormed_addContent (h : tree.WellFormed) (hchild : child < tree.size) :
    (stateAfter (addContent p child tree)).WellFormed := by
  rw [addContent_eq]
  cases hattach : tree.attachFault? p child with
  | some error => exact h
  | none =>
    cases hname : tree.nameFault? p (tree.validName? child) [child] with
    | some error => exact h
    | none =>
      obtain ⟨c, hc, hup, hfree⟩ := exists_free_container h hattach hname
      have hafter := (h.detached child).appended hc (by simp [parent?_detached])
        (by simpa using hchild) hup hfree
      rw [validName?_detached] at hafter
      simp only
      split <;> exact hafter

theorem wellFormed_addNamed (h : tree.WellFormed) (hchild : child < tree.size) :
    (stateAfter (addNamed p child tree)).WellFormed := by
  rw [addNamed_eq]
  cases hattach : tree.attachFault? p child with
  | some error => exact h
  | none =>
    cases hvalid : tree.validName? child with
    | none => exact h
    | some name =>
      simp only
      cases hname : tree.nameFault? p (some name) [child] with
      | some error => exact h
      | none =>
        obtain ⟨c, hc, hup, hfree⟩ := exists_free_container h hattach (hvalid ▸ hname)
        have hvalid1 : (tree.detached child).validName? child = some name := by
          rw [validName?_detached, hvalid]
        exact (h.detached child).enteredByName hc (by simp [parent?_detached])
          (by simpa using hchild) hup hvalid1 (hfree name hvalid1)

theorem wellFormed_setChild (h : tree.WellFormed) {index : Nat} (hchild : child < tree.size) :
    (stateAfter (setChild p index child tree)).WellFormed := by
  rw [setChild_eq _ _ _ _ fun _ => h.content_lt_size]
  cases hattach : tree.attachFault? p child with
  | some error => exact h
  | none =>
    cases hindex : (tree.content p)[index]? with
    | none => exact h
    | some previous =>
      by_cases hsame : previous = child
      · simpa [hsame] using h
      · simp only [if_neg hsame]
        cases hname : tree.nameFault? p (tree.validName? child) [child, previous] with
        | some error => exact h
        | none =>
          obtain ⟨⟨d, hd⟩, hup⟩ := attachFault?_eq_none_iff.mp hattach
          have h1 := h.detached child
          have hprev : previous ∈ d.content := by
            have := List.mem_of_getElem? hindex
            simpa [Tree.content, hd] using this
          obtain ⟨c, hc, hprev1⟩ : ∃ c, (tree.detached child).container? p = some c ∧
              previous ∈ c.content := by
            rw [container?_detached, hd]
            split
            · exact ⟨_, rfl, List.mem_filter.mpr ⟨hprev, by simpa using hsame⟩⟩
            · exact ⟨d, rfl, hprev⟩
          have hroot : (tree.detached child).parent? child = none := by simp [parent?_detached]
          have hafter := h1.substituted hc hprev1 hroot (by simpa using hchild)
            (h.not_mem_lineage_of_up h1 (fun _ _ => up_of_up_detached) hup) (by
              intro name hvalid e he hne heq
              rw [validName?_detached] at hvalid
              obtain ⟨d', hd', hed⟩ := table_of_detached hc he
              have hallowed := h.mem_allowed (hvalid ▸ hname) hd' hed heq
              have hchild' : e.id = child := by simpa [hne] using hallowed
              exact h1.not_mem_children_of_root hroot hc
                (hchild' ▸ (h1.tidy p c hc).mem_children_of_entry he))
          rw [validName?_detached] at hafter
          simp only
          split <;> exact hafter

theorem wellFormed_setName (h : tree.WellFormed) (name : Option String) :
    (stateAfter (setName id name tree)).WellFormed := by
  rw [setName_eq _ _ _ fun _ => h.parent_isSome]
  split
  case isFalse => exact h
  case isTrue hsome =>
    obtain ⟨own, hown⟩ := Option.isSome_iff_exists.mp hsome
    cases hp : tree.parent? id with
    | none =>
      simpa [tree.renamed_of_root hp] using h.rename_root hp name
    | some p =>
      cases hfault : tree.nameFault? p (Container.validName? { name }) [id] with
      | some error => simpa [hfault] using h
      | none =>
        obtain ⟨c, hc, _⟩ := (h.parent_iff id p).mp hp
        have hfree : ∀ text, Container.validName? { name } = some text →
            ∀ e ∈ c.table, e.id ≠ id → e.name ≠ text := by
          intro text htext e he hne heq
          have hallowed := h.mem_allowed (htext ▸ hfault) hc he heq
          exact hne (by simpa using hallowed)
        simpa [hfault] using h.renamed_listed hown hp hc name hfree

theorem wellFormed_replace (h : tree.WellFormed) (payload : Payload) :
    (stateAfter (replace id payload tree)).WellFormed := by
  rw [replace_eq]
  cases hp : tree.payload? id with
  | none => exact h
  | some old =>
    simp only
    split
    case isTrue => exact h
    case isFalse hleaf =>
      have hold : tree.container? id = none := by
        cases old with
        | leaf l => simp [container?, hp, Payload.container?]
        | container c => simp [Payload.isContainer] at hleaf
      have hnew : payload.container? = none := by
        cases payload with
        | leaf l => rfl
        | container c => simp [Payload.isContainer] at hleaf
      exact h.congr (fun i => by simp)
        (fun i => by simpa using tree.container?_setPayload hold hnew i)

theorem wellFormed_setFlags (h : tree.WellFormed) (flags : CountFlags) :
    (stateAfter (setFlags id flags tree)).WellFormed := by
  rw [setFlags_eq]
  split
  · exact h.modifyContainer id (fun _ => rfl) (fun _ => rfl) (fun _ => rfl)
  · exact h

theorem wellFormed_insertFlags (h : tree.WellFormed) (flags : CountFlags) :
    (stateAfter (insertFlags id flags tree)).WellFormed := by
  rw [insertFlags_eq]
  split
  · exact h.modifyContainer id (fun _ => rfl) (fun _ => rfl) (fun _ => rfl)
  · exact h

theorem wellFormed_setRange (h : tree.WellFormed) (range : Option SourceRange) :
    (stateAfter (setRange id range tree)).WellFormed := by
  rw [setRange_eq]
  split
  · exact h.congr (fun i => by simp) (fun i => by simp)
  · exact h

end Edit

end Narrative
