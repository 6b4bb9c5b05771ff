import Narrative.Proofs.Tree.Subtree
import Narrative.Tree.Comparison

/-!
# Subtrees of the same structure

When two subtrees compare as equal, every node within the first has a counterpart
within the second. Conversely, subtrees with the same outline compare as equal,
unless there is a NaN in it, which no comparison takes to be equal to itself.
-/

namespace Narrative

/-! ## Leaves -/

namespace Leaf

/-- The leaf is not a NaN. -/
def NotNaN : Leaf → Prop
  | value (.float x) => x.isNaN = false
  | _ => True

theorem equal_self_iff {l : Leaf} : l.equal l = true ↔ l.NotNaN := by
  cases l with
  | value v => cases v <;> simp [equal, Value.equal, Single.equal, NotNaN]
  | _ => simp [equal, NotNaN]

/-- Equal leaves are the same, or both are floats. -/
theorem eq_or_float_of_equal {l m : Leaf} (h : l.equal m = true) :
    l = m ∨ ∃ x y, l = value (.float x) ∧ m = value (.float y) ∧ x.equal y = true := by
  simp only [equal] at h
  split at h
  · next a b =>
    simp only [Value.equal] at h
    split at h
    · next x y => exact Or.inr ⟨x, y, rfl, rfl, h⟩
    · exact Or.inl (congrArg value (of_decide_eq_true h))
  · exact Or.inl (of_decide_eq_true h)

theorem notNaN_of_equal {l m : Leaf} (h : l.equal m = true) : l.NotNaN := by
  rcases eq_or_float_of_equal h with rfl | ⟨x, y, rfl, rfl, hxy⟩
  · exact equal_self_iff.mp h
  · simp only [Single.equal, Bool.and_eq_true, Bool.not_eq_true'] at hxy
    exact hxy.1.1

end Leaf

namespace Container

/-- In a tidy container an entry is found under its name. -/
theorem Tidy.namedChild?_of_mem {nameOf : NodeId → Option String} {c : Container}
    (h : c.Tidy nameOf) {e : NamedEntry} (he : e ∈ c.table) : c.namedChild? e.name = some e.id := by
  rw [namedChild?]
  cases hf : c.table.find? fun entry => entry.name == e.name with
  | none =>
    have hne := List.find?_eq_none.mp hf e he
    simp at hne
  | some f =>
    have hname : f.name = e.name := by simpa using List.find?_some hf
    rw [h.eq_of_name_eq (List.mem_of_find?_eq_some hf) he hname]
    rfl

theorem exists_of_namedChild? {c : Container} {name : String} {id : NodeId}
    (h : c.namedChild? name = some id) : ∃ e ∈ c.table, e.name = name ∧ e.id = id := by
  obtain ⟨e, hf, rfl⟩ := Option.map_eq_some_iff.mp h
  exact ⟨e, List.mem_of_find?_eq_some hf, by simpa using List.find?_some hf, rfl⟩

end Container

/-- The outline is not that of a NaN. -/
def Outline.NotNaNTop : Outline → Prop
  | leaf l => l.NotNaN
  | container _ _ _ _ => True

namespace Tree

variable {a b : Tree} {x y : NodeId} {fuel : Nat}

/-! ## One step of the comparison -/

theorem sameWithin_leaf {l : Leaf} (hx : a.payload? x = some (.leaf l)) :
    a.sameWithin b (fuel + 1) x y = true ↔
      ∃ m, b.payload? y = some (.leaf m) ∧ l.equal m = true := by
  rw [sameWithin, hx]
  cases hy : b.payload? y with
  | none => simp
  | some q => cases q <;> simp [Payload.equal]

theorem exists_container_of_sameWithin {c : Container} (hc : a.container? x = some c)
    (h : a.sameWithin b (fuel + 1) x y = true) : ∃ d, b.container? y = some d := by
  rw [sameWithin, payload?_of_container? hc] at h
  cases hy : b.payload? y with
  | none => simp [hy] at h
  | some q =>
    cases q with
    | leaf m => simp [hy, Payload.equal] at h
    | container d => exact ⟨d, by simp [container?, hy, Payload.container?]⟩

/-- Two containers are compared child by child, those in the content in order and the others by
name. -/
theorem sameWithin_container {c d : Container} (hc : a.container? x = some c)
    (hd : b.container? y = some d) :
    a.sameWithin b (fuel + 1) x y = true ↔
      c.name = d.name ∧ c.flags = d.flags ∧
        List.Forall₂ (fun p q => a.sameWithin b fuel p q = true) c.content d.content ∧
        c.namedOnly.length = d.namedOnly.length ∧
        ∀ e ∈ c.namedOnly, ∃ other, d.namedChild? e.name = some other ∧
          a.sameWithin b fuel e.id other = true := by
  rw [sameWithin, payload?_of_container? hc, payload?_of_container? hd]
  simp only [Bool.and_eq_true, decide_eq_true_eq, List.all_eq_true,
    List.forall₂_iff_zip]
  constructor
  · rintro ⟨⟨⟨⟨⟨hname, hflags⟩, hlength⟩, hcontent⟩, hcount⟩, hnamed⟩
    refine ⟨hname, hflags, ⟨hlength, fun hmem => hcontent _ hmem⟩, hcount, fun e he => ?_⟩
    have hentry := hnamed e he
    cases hother : d.namedChild? e.name with
    | none => simp [hother] at hentry
    | some other => exact ⟨other, rfl, by simpa [hother] using hentry⟩
  · rintro ⟨hname, hflags, ⟨hlength, hcontent⟩, hcount, hnamed⟩
    refine ⟨⟨⟨⟨⟨hname, hflags⟩, hlength⟩, fun pair hmem => hcontent hmem⟩, hcount⟩, fun e he => ?_⟩
    obtain ⟨other, hother, hsame⟩ := hnamed e he
    rw [hother]
    exact hsame

theorem pos_of_sameWithin (h : a.sameWithin b fuel x y = true) : ∃ n, fuel = n + 1 := by
  cases fuel with
  | zero => cases h
  | succ n => exact ⟨n, rfl⟩

theorem lt_size_of_sameWithin (h : a.sameWithin b fuel x y = true) : y < b.size := by
  obtain ⟨fuel, rfl⟩ := pos_of_sameWithin h
  cases hq : b.payload? y with
  | none => cases hp : a.payload? x <;> simp [sameWithin, hp, hq] at h
  | some q =>
    obtain ⟨node, hnode, -⟩ := Option.map_eq_some_iff.mp hq
    exact b.lt_size_of_get? hnode

/-- A counterpart has the same name. -/
theorem validName?_of_sameWithin (h : a.sameWithin b fuel x y = true) :
    a.validName? x = b.validName? y := by
  obtain ⟨fuel, rfl⟩ := pos_of_sameWithin h
  cases hp : a.payload? x with
  | none => simp [sameWithin, hp] at h
  | some p =>
    cases p with
    | leaf l =>
      obtain ⟨m, hm, -⟩ := (sameWithin_leaf hp).mp h
      simp [validName?, container?, hp, hm, Payload.container?]
    | container c =>
      have hc : a.container? x = some c := by simp [container?, hp, Payload.container?]
      obtain ⟨d, hd⟩ := exists_container_of_sameWithin hc h
      have hname := ((sameWithin_container hc hd).mp h).1
      simp [validName?, hc, hd, Container.validName?, hname]

/-! ## Counterparts -/

/-- Every node within a subtree has a counterpart within one that compares as equal. -/
theorem exists_counterpart (ha : a.WellFormed) (hb : b.WellFormed)
    (h : a.sameWithin b fuel x y = true) {id : NodeId} (hid : a.Within x id) :
    ∃ n other, b.Within y other ∧ a.sameWithin b n id other = true := by
  induction fuel generalizing x y with
  | zero => cases h
  | succ fuel ih =>
    rcases within_iff.mp hid with rfl | ⟨child, hup, hbelow⟩
    · exact ⟨fuel + 1, y, .refl, h⟩
    · obtain ⟨c, hc, hchild⟩ := (ha.parent_iff child x).mp hup
      obtain ⟨d, hd⟩ := exists_container_of_sameWithin hc h
      obtain ⟨-, -, hcontent, -, hnamed⟩ := (sameWithin_container hc hd).mp h
      obtain ⟨other, hother, hsame⟩ : ∃ other ∈ d.children,
          a.sameWithin b fuel child other = true := by
        rcases List.mem_append.mp hchild with hmem | hmem
        · obtain ⟨other, hother, hsame⟩ := exists_of_forall₂_left hcontent hmem
          exact ⟨other, List.mem_append_left _ hother, hsame⟩
        · obtain ⟨e, he, rfl⟩ := List.mem_map.mp hmem
          obtain ⟨other, hfound, hsame⟩ := hnamed e he
          obtain ⟨f, hf, -, rfl⟩ := Container.exists_of_namedChild? hfound
          exact ⟨f.id, (hb.tidy y d hd).mem_children_of_entry hf, hsame⟩
      obtain ⟨n, image, himage, hlast⟩ := ih hsame hbelow
      exact ⟨n, image, within_iff.mpr (Or.inr ⟨other, hb.parent_of_mem hd hother, himage⟩), hlast⟩

/-- A name that is listed by name only is listed so by the counterpart too. -/
theorem exists_namedOnly_of_sameWithin (ha : a.WellFormed) (hb : b.WellFormed) {c d : Container}
    (hc : a.container? x = some c) (hd : b.container? y = some d)
    (h : a.sameWithin b (fuel + 1) x y = true) {e : NamedEntry} (he : e ∈ c.namedOnly) :
    ∃ f ∈ d.namedOnly, f.name = e.name := by
  obtain ⟨-, -, hcontent, -, hnamed⟩ := (sameWithin_container hc hd).mp h
  obtain ⟨other, hfound, -⟩ := hnamed e he
  obtain ⟨f, hf, hname, rfl⟩ := Container.exists_of_namedChild? hfound
  obtain ⟨he, hpos⟩ := List.mem_filter.mp he
  refine ⟨f, List.mem_filter.mpr ⟨hf, ?_⟩, hname⟩
  -- Were it in the content there, its counterpart here would be in the content under the same name.
  cases hfpos : f.positional with
  | false => rfl
  | true =>
    have htidy := ha.tidy x c hc
    have hfcontent := ((hb.tidy y d hd).positional_iff f hf).mp hfpos
    obtain ⟨p, hp, hsame⟩ := exists_of_forall₂_right hcontent hfcontent
    have hvalid : a.validName? p = some e.name := by
      rw [validName?_of_sameWithin hsame, (hb.tidy y d hd).named f hf, hname]
    obtain ⟨g, hg, rfl⟩ := htidy.entered p hp e.name hvalid
    have hgname : g.name = e.name := Option.some.inj ((htidy.named g hg).symm.trans hvalid)
    obtain rfl := htidy.eq_of_name_eq hg he hgname
    rw [(htidy.positional_iff g hg).mpr hp] at hpos
    cases hpos

/-! ## Subtrees with the same outline -/

theorem lt_size_of_outline? {outline : Outline} (h : a.outline? x = some outline) : x < a.size := by
  rcases payload_cases_of_outline? h with ⟨l, hp, -⟩ | ⟨c, _, _, hc, -, -⟩
  · obtain ⟨node, hnode, -⟩ := Option.map_eq_some_iff.mp hp
    exact a.lt_size_of_get? hnode
  · exact a.lt_size_of_container? hc

theorem sameWithin_of_outline? (ha : a.WellFormed) (hb : b.WellFormed) {outline : Outline}
    (hx : a.outline? x = some outline) (hy : b.outline? y = some outline)
    (hnumbers : outline.Everywhere Outline.NotNaNTop)
    (hfuel : a.size < fuel + (a.lineage x).length) : a.sameWithin b fuel x y = true := by
  induction fuel generalizing x y outline with
  | zero =>
    have hle := ha.length_lineage_le (lt_size_of_outline? hx)
    omega
  | succ fuel ih =>
    rcases payload_cases_of_outline? hx with ⟨l, hp, rfl⟩ | ⟨c, content, named, hc, hshows, rfl⟩
    · rcases payload_cases_of_outline? hy with ⟨m, hq, heq⟩ | ⟨_, _, _, _, -, heq⟩
      · cases heq
        exact (sameWithin_leaf hp).mpr ⟨l, hq, Leaf.equal_self_iff.mpr hnumbers⟩
      · cases heq
    · rcases payload_cases_of_outline? hy with ⟨m, _, heq⟩ | ⟨d, content', named', hd, hshows', heq⟩
      · cases heq
      · injection heq with hname hflags hcontent hnamed
        subst hcontent hnamed
        obtain ⟨-, hitems, hentries⟩ := hnumbers
        have hchild : ∀ p ∈ c.children, ∀ q o, a.outline? p = some o → b.outline? q = some o →
            o.Everywhere Outline.NotNaNTop → a.sameWithin b fuel p q = true := by
          intro p hp q o hpo hqo ho
          refine ih hpo hqo ho ?_
          rw [ha.lineage_of_parent (ha.parent_of_mem hc hp), List.length_cons]
          omega
        refine (sameWithin_container hc hd).mpr ⟨hname, hflags, ?_, ?_, ?_⟩
        · refine forall₂_of_common hshows.content hshows'.content ?_
          intro p hp q o ho hpo hqo
          exact hchild p (List.mem_append_left _ hp) q o hpo hqo
            (Outline.everywhereItems_iff.mp hitems o ho)
        · rw [hshows.named.length_eq, hshows'.named.length_eq]
        · intro e he
          obtain ⟨pair, hpair, hename, heout⟩ := exists_of_forall₂_left hshows.named he
          obtain ⟨f, hf, hfname, hfout⟩ := hshows'.of_mem_named hpair
          refine ⟨f.id, ?_, ?_⟩
          · rw [hename, ← hfname]
            exact (hb.tidy y d hd).namedChild?_of_mem (List.mem_filter.mp hf).1
          · exact hchild e.id (List.mem_append_right _ (List.mem_map.mpr ⟨e, he, rfl⟩)) f.id pair.2
              heout hfout (Outline.everywhereNamed_iff.mp hentries pair hpair)

/-- Subtrees with the same outline have the same structure when there is no NaN in it. -/
theorem sameStructure_of_outline? (ha : a.WellFormed) (hb : b.WellFormed) {outline : Outline}
    (hx : a.outline? x = some outline) (hy : b.outline? y = some outline)
    (hnumbers : outline.Everywhere Outline.NotNaNTop) : a.sameStructure x b y = true := by
  refine sameWithin_of_outline? ha hb hx hy hnumbers ?_
  cases hp : a.parent? x with
  | none => simp [lineage_of_root hp]
  | some p => simp [ha.lineage_of_parent hp]

end Tree

end Narrative
