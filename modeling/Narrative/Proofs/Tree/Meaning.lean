import Narrative.Proofs.Tree.Alike
import Narrative.Proofs.Tree.Reachable

/-!
# What a comparison of subtrees means

A container means its name, its flags, what its content means in order, and what
stands under each name that it lists outside its content. A leaf means what it
holds, floats being compared as numbers. Comparing subtrees runs through the names
of one side only and looks them up among all names of the other side. As no name
stands twice in a table, it still finds out exactly whether both mean the same. So
the comparison is symmetric and transitive, and a subtree compares as equal to
itself exactly when there is no NaN in it.
-/

namespace Narrative

/-! ## Leaves -/

namespace Single

theorem equal_comm (x y : Single) : x.equal y = y.equal x := by
  rw [equal, equal, Bool.and_comm (!x.isNaN), Bool.beq_comm, Bool.and_comm x.isZero]

theorem equal_iff {x y : Single} : x.equal y = true ↔
    x.isNaN = false ∧ y.isNaN = false ∧ (x = y ∨ x.isZero = true ∧ y.isZero = true) := by
  obtain ⟨x⟩ := x
  obtain ⟨y⟩ := y
  simp [equal, and_assoc]

theorem equal_trans {x y z : Single} (h₁ : x.equal y = true) (h₂ : y.equal z = true) :
    x.equal z = true := by
  obtain ⟨hx, hy, hxy⟩ := equal_iff.mp h₁
  obtain ⟨-, hz, hyz⟩ := equal_iff.mp h₂
  refine equal_iff.mpr ⟨hx, hz, ?_⟩
  rcases hxy with rfl | ⟨hx, hy⟩
  · exact hyz
  · rcases hyz with rfl | ⟨-, hz⟩
    · exact Or.inr ⟨hx, hy⟩
    · exact Or.inr ⟨hx, hz⟩

end Single

namespace Leaf

theorem equal_symm {l m : Leaf} (h : l.equal m = true) : m.equal l = true := by
  rcases eq_or_float_of_equal h with rfl | ⟨x, y, rfl, rfl, hxy⟩
  · exact h
  · exact (y.equal_comm x).trans hxy

theorem equal_trans {l m n : Leaf} (h₁ : l.equal m = true) (h₂ : m.equal n = true) :
    l.equal n = true := by
  rcases eq_or_float_of_equal h₁ with rfl | ⟨x, y, rfl, rfl, hxy⟩
  · exact h₂
  · rcases eq_or_float_of_equal h₂ with rfl | ⟨_, z, heq, rfl, hyz⟩
    · exact h₁
    · cases heq
      exact Single.equal_trans hxy hyz

end Leaf

/-! ## Children -/

namespace Container

/-- The child under a name that the container lists by name only. -/
def namedOnly? (c : Container) (name : String) : Option NodeId :=
  (c.namedOnly.find? fun entry => entry.name == name).map NamedEntry.id

theorem mem_children_of_namedOnly? {c : Container} {name : String} {id : NodeId}
    (h : c.namedOnly? name = some id) : id ∈ c.children := by
  obtain ⟨entry, hentry, rfl⟩ := Option.map_eq_some_iff.mp h
  exact List.mem_append_right _ (List.mem_map_of_mem (List.mem_of_find?_eq_some hentry))

theorem isSome_namedOnly? {c : Container} {name : String} :
    (c.namedOnly? name).isSome = true ↔ name ∈ c.namedOnly.map NamedEntry.name := by
  simp [namedOnly?]

namespace Tidy

variable {nameOf nameOf' : NodeId → Option String} {c d : Container}

theorem namedOnly_nodup (h : c.Tidy nameOf) : (c.namedOnly.map NamedEntry.name).Nodup :=
  h.names_nodup.sublist (List.filter_sublist.map _)

theorem namedOnly?_of_mem (h : c.Tidy nameOf) {e : NamedEntry} (he : e ∈ c.namedOnly) :
    c.namedOnly? e.name = some e.id := by
  obtain ⟨id, hid⟩ := Option.isSome_iff_exists.mp
    (isSome_namedOnly?.mpr (List.mem_map_of_mem he))
  obtain ⟨f, hf, rfl⟩ := Option.map_eq_some_iff.mp hid
  have hname : f.name = e.name := by simpa using List.find?_some hf
  have hmem := List.mem_of_find?_eq_some hf
  rw [hid, List.inj_on_of_nodup_map h.namedOnly_nodup hmem he hname]

/-- Two containers list corresponding children by name only exactly when there are as many of them
and each one of the first container has its counterpart. -/
theorem rel_namedOnly?_iff (hc : c.Tidy nameOf) (hd : d.Tidy nameOf')
    {R : NodeId → NodeId → Prop} :
    (∀ name, Option.Rel R (c.namedOnly? name) (d.namedOnly? name)) ↔
      c.namedOnly.length = d.namedOnly.length ∧
        ∀ e ∈ c.namedOnly, ∃ f ∈ d.namedOnly, f.name = e.name ∧ R e.id f.id := by
  constructor
  · intro hrel
    have hnames : ∀ name, name ∈ c.namedOnly.map NamedEntry.name ↔
        name ∈ d.namedOnly.map NamedEntry.name := fun name => by
      rw [← isSome_namedOnly?, ← isSome_namedOnly?, isSome_eq_of_rel (hrel name)]
    constructor
    · have hperm := (List.perm_ext_iff_of_nodup hc.namedOnly_nodup hd.namedOnly_nodup).mpr hnames
      simpa using hperm.length_eq
    · intro e he
      have hfound := hrel e.name
      obtain ⟨f, hf, hname⟩ := List.mem_map.mp ((hnames e.name).mp (List.mem_map_of_mem he))
      rw [hc.namedOnly?_of_mem he, ← hname, hd.namedOnly?_of_mem hf] at hfound
      cases hfound with
      | some hR => exact ⟨f, hf, hname, hR⟩
  · rintro ⟨hcount, hfound⟩ name
    -- The names of the first container are among those of the second, and there are as many.
    have hsub : c.namedOnly.map NamedEntry.name ⊆ d.namedOnly.map NamedEntry.name := by
      intro other hother
      obtain ⟨e, he, rfl⟩ := List.mem_map.mp hother
      obtain ⟨f, hf, hname, -⟩ := hfound e he
      exact hname ▸ List.mem_map_of_mem hf
    have hperm : (c.namedOnly.map NamedEntry.name).Perm (d.namedOnly.map NamedEntry.name) :=
      (hc.namedOnly_nodup.subperm hsub).perm_of_length_le (by simp [hcount])
    by_cases hname : name ∈ c.namedOnly.map NamedEntry.name
    · obtain ⟨e, he, rfl⟩ := List.mem_map.mp hname
      obtain ⟨f, hf, hsame, hR⟩ := hfound e he
      rw [hc.namedOnly?_of_mem he, ← hsame, hd.namedOnly?_of_mem hf]
      exact .some hR
    · have hname' : name ∉ d.namedOnly.map NamedEntry.name :=
        fun hmem => hname (hperm.mem_iff.mpr hmem)
      rw [← isSome_namedOnly?, Option.not_isSome_iff_eq_none] at hname hname'
      rw [hname, hname']
      exact .none

end Tidy

end Container

namespace Tree

/-- Two subtrees mean the same. -/
inductive SameMeaning (a b : Tree) : NodeId → NodeId → Prop where
  | leaf {x y : NodeId} {l m : Leaf} : a.payload? x = some (.leaf l) →
      b.payload? y = some (.leaf m) → l.equal m = true → SameMeaning a b x y
  | container {x y : NodeId} {c d : Container} : a.container? x = some c →
      b.container? y = some d → c.name = d.name → c.flags = d.flags →
      List.Forall₂ (SameMeaning a b) c.content d.content →
      (∀ name, Option.Rel (SameMeaning a b) (c.namedOnly? name) (d.namedOnly? name)) →
      SameMeaning a b x y

variable {a b c : Tree} {x y z : NodeId} {fuel : Nat}

/-! ## Comparing finds out whether the meaning is the same -/

theorem sameMeaning_of_sameWithin (ha : a.WellFormed) (hb : b.WellFormed)
    (h : a.sameWithin b fuel x y = true) : SameMeaning a b x y := by
  induction fuel generalizing x y with
  | zero => cases h
  | succ fuel ih =>
    cases hp : a.payload? x with
    | none => simp [sameWithin, hp] at h
    | some payload =>
      cases payload with
      | leaf l =>
        obtain ⟨m, hm, hequal⟩ := (sameWithin_leaf hp).mp h
        exact .leaf hp hm hequal
      | container p =>
        have hx : a.container? x = some p := by simp [container?, hp, Payload.container?]
        obtain ⟨q, hy⟩ := exists_container_of_sameWithin hx h
        have htidy := hb.tidy y q hy
        obtain ⟨hname, hflags, hcontent, hcount, hnamed⟩ := (sameWithin_container hx hy).mp h
        refine .container hx hy hname hflags (hcontent.imp fun _ _ hsame => ih hsame) ?_
        refine ((ha.tidy x p hx).rel_namedOnly?_iff htidy).mpr ⟨hcount, fun e he => ?_⟩
        obtain ⟨f, hf, hsame⟩ := exists_namedOnly_of_sameWithin ha hb hx hy h he
        obtain ⟨other, hfound, hother⟩ := hnamed e he
        rw [← hsame, htidy.namedChild?_of_mem (List.mem_filter.mp hf).1] at hfound
        cases hfound
        exact ⟨f, hf, hsame, ih hother⟩

theorem SameMeaning.lt_size (h : SameMeaning a b x y) : x < a.size := by
  cases h with
  | leaf hp _ _ =>
    obtain ⟨node, hnode, -⟩ := Option.map_eq_some_iff.mp hp
    exact a.lt_size_of_get? hnode
  | container hx _ _ _ _ _ => exact a.lt_size_of_container? hx

theorem SameMeaning.sameWithin (ha : a.WellFormed) (hb : b.WellFormed) (h : SameMeaning a b x y)
    (hfuel : a.size < fuel + (a.lineage x).length) : a.sameWithin b fuel x y = true := by
  induction fuel generalizing x y with
  | zero =>
    have hle := ha.length_lineage_le h.lt_size
    omega
  | succ fuel ih =>
    cases h with
    | leaf hp hq hequal => exact (sameWithin_leaf hp).mpr ⟨_, hq, hequal⟩
    | @container _ _ p q hx hy hname hflags hcontent hnamed =>
      have htidy := hb.tidy y q hy
      have hchild : ∀ child ∈ p.children, ∀ other, SameMeaning a b child other →
          a.sameWithin b fuel child other = true := by
        intro child hmem other hsame
        refine ih hsame ?_
        rw [ha.lineage_of_parent (ha.parent_of_mem hx hmem), List.length_cons]
        omega
      obtain ⟨hcount, hfound⟩ := ((ha.tidy x p hx).rel_namedOnly?_iff htidy).mp hnamed
      refine (sameWithin_container hx hy).mpr ⟨hname, hflags, ?_, hcount, fun e he => ?_⟩
      · exact forall₂_imp_of_mem hcontent fun child hmem =>
          hchild child (List.mem_append_left _ hmem)
      · obtain ⟨f, hf, hsame, hmeaning⟩ := hfound e he
        refine ⟨f.id, ?_, hchild e.id (List.mem_append_right _ (List.mem_map_of_mem he)) _ hmeaning⟩
        rw [← hsame]
        exact htidy.namedChild?_of_mem (List.mem_filter.mp hf).1

theorem sameStructure_iff_sameMeaning (ha : a.WellFormed) (hb : b.WellFormed) :
    a.sameStructure x b y = true ↔ SameMeaning a b x y := by
  refine ⟨sameMeaning_of_sameWithin ha hb, fun h => h.sameWithin ha hb ?_⟩
  cases hp : a.parent? x with
  | none => simp [lineage_of_root hp]
  | some p => simp [ha.lineage_of_parent hp]

/-! ## Meaning the same is symmetric and transitive -/

namespace SameMeaning

theorem symm (ha : a.WellFormed) (h : SameMeaning a b x y) : SameMeaning b a y x := by
  induction x using ha.wellFounded_up.induction generalizing y with
  | _ x ih =>
    cases h with
    | leaf hp hq hequal => exact .leaf hq hp (Leaf.equal_symm hequal)
    | @container _ _ p q hx hy hname hflags hcontent hnamed =>
      have hchild : ∀ child ∈ p.children, ∀ other, SameMeaning a b child other →
          SameMeaning b a other child := fun child hmem other =>
        ih child (ha.parent_of_mem hx hmem)
      refine .container hy hx hname.symm hflags.symm ?_ fun name => ?_
      · exact (forall₂_imp_of_mem hcontent fun child hmem =>
          hchild child (List.mem_append_left _ hmem)).flip
      · rcases rel_cases (hnamed name) with ⟨hp, hq⟩ | ⟨child, other, hp, hq, hsame⟩
        · rw [hp, hq]
          exact .none
        · rw [hp, hq]
          exact .some (hchild child (Container.mem_children_of_namedOnly? hp) other hsame)

theorem trans (ha : a.WellFormed) (h₁ : SameMeaning a b x y) (h₂ : SameMeaning b c y z) :
    SameMeaning a c x z := by
  induction x using ha.wellFounded_up.induction generalizing y z with
  | _ x ih =>
    cases h₁ with
    | leaf hp hq hequal =>
      cases h₂ with
      | leaf hq' hr hequal' =>
        cases hq.symm.trans hq'
        exact .leaf hp hr (Leaf.equal_trans hequal hequal')
      | container hy =>
        rw [payload?_of_container? hy] at hq
        cases hq
    | @container _ _ p q hx hy hname hflags hcontent hnamed =>
      cases h₂ with
      | leaf hq =>
        rw [payload?_of_container? hy] at hq
        cases hq
      | @container _ _ q' r hy' hz hname' hflags' hcontent' hnamed' =>
        cases hy.symm.trans hy'
        have hchild : ∀ child ∈ p.children, ∀ middle other, SameMeaning a b child middle →
            SameMeaning b c middle other → SameMeaning a c child other :=
          fun child hmem middle other => ih child (ha.parent_of_mem hx hmem)
        refine .container hx hz (hname.trans hname') (hflags.trans hflags') ?_ fun name => ?_
        · exact forall₂_of_common hcontent hcontent'.flip fun child hmem other middle _ =>
            hchild child (List.mem_append_left _ hmem) middle other
        · rcases rel_cases (hnamed name) with ⟨hp, hq⟩ | ⟨child, middle, hp, hq, hsame⟩
          · rcases rel_cases (hnamed' name) with ⟨-, hr⟩ | ⟨middle, _, hmiddle, -, -⟩
            · rw [hp, hr]
              exact .none
            · cases hq.symm.trans hmiddle
          · rcases rel_cases (hnamed' name) with ⟨hnone, -⟩ | ⟨_, other, hmiddle, hr, hsame'⟩
            · cases hq.symm.trans hnone
            · cases hq.symm.trans hmiddle
              rw [hp, hr]
              exact .some (hchild child (Container.mem_children_of_namedOnly? hp) middle other
                hsame hsame')

end SameMeaning

/-! ## What compares as equal to itself -/

theorem sameStructure_self_iff (ha : a.WellFormed) (hx : x < a.size) :
    a.sameStructure x a x = true ↔
      ∀ d, a.Within x d → ∀ leaf, a.payload? d = some (.leaf leaf) → leaf.NotNaN := by
  constructor
  · intro h d hd leaf hleaf
    obtain ⟨n, other, -, hsame⟩ := exists_counterpart ha ha h hd
    obtain ⟨n, rfl⟩ := pos_of_sameWithin hsame
    obtain ⟨m, -, hequal⟩ := (sameWithin_leaf hleaf).mp hsame
    exact Leaf.notNaN_of_equal hequal
  · intro h
    obtain ⟨outline, hout⟩ := ha.exists_outline? hx
    refine sameStructure_of_outline? ha ha hout hout ((ha.everywhere_iff hout).mpr ?_)
    intro d hd inner hinner
    rcases payload_cases_of_outline? hinner with ⟨leaf, hleaf, rfl⟩ | ⟨_, _, _, -, -, rfl⟩
    · exact h d hd leaf hleaf
    · trivial

/-- Subtrees compare as equal exactly when they mean the same. So the comparison is symmetric and
transitive, and a subtree compares as equal to itself exactly when there is no NaN in it. -/
theorem comparison_is_of_meaning (ha : a.WellFormed) (hb : b.WellFormed) (hc : c.WellFormed)
    (hx : x < a.size) :
    (a.sameStructure x b y = true ↔ SameMeaning a b x y) ∧
      a.sameStructure x b y = b.sameStructure y a x ∧
      (a.sameStructure x b y = true → b.sameStructure y c z = true →
        a.sameStructure x c z = true) ∧
      (a.sameStructure x a x = true ↔
        ∀ d, a.Within x d → ∀ leaf, a.payload? d = some (.leaf leaf) → leaf.NotNaN) := by
  refine ⟨sameStructure_iff_sameMeaning ha hb, ?_, fun h₁ h₂ => ?_, ?_⟩
  · rw [Bool.eq_iff_iff, sameStructure_iff_sameMeaning ha hb, sameStructure_iff_sameMeaning hb ha]
    exact ⟨.symm ha, .symm hb⟩
  · rw [sameStructure_iff_sameMeaning ha hb] at h₁
    rw [sameStructure_iff_sameMeaning hb hc] at h₂
    exact (sameStructure_iff_sameMeaning ha hc).mpr (h₁.trans ha h₂)
  · exact sameStructure_self_iff ha hx

/-- A container that lists two others by name only, in either order; one of them holds a number. -/
def wingCalls (first second : NodeId) (number : Single) : List TreeCall :=
  [.add (.container { flags := .visits }) none, .add (.container { name := some "east" }) none,
    .add (.container { name := some "west" }) none, .add (.leaf (.value (.float number))) none,
    .addContent 2 3, .addNamed 0 first, .addNamed 0 second]

/-- The tree of the two others, in the one order or the other. -/
def wings (first second : NodeId) (number : Single) : Tree :=
  TreeCall.runAll .empty (wingCalls first second number)

/-- The order of names does not matter, the zeros are equal, and a NaN is not equal to itself. -/
theorem comparison_is_of_meaning_wings :
    SameMeaning (wings 1 2 ⟨0⟩) (wings 2 1 ⟨0x80000000⟩) 0 0 ∧
      (wings 2 1 ⟨0x80000000⟩).sameStructure 0 (wings 1 2 ⟨0⟩) 0 = true ∧
      ¬ ∀ d, (wings 1 2 ⟨0x7fc00000⟩).Within 0 d → ∀ leaf,
        (wings 1 2 ⟨0x7fc00000⟩).payload? d = some (.leaf leaf) → leaf.NotNaN := by
  have hwf : ∀ {calls : List TreeCall}, TreeCall.NamesNodes .empty calls →
      (TreeCall.runAll .empty calls).WellFormed :=
    fun hnames => TreeCall.wellFormed_runAll wellFormed_empty hnames
  have hone : (wings 1 2 ⟨0⟩).WellFormed := hwf (by decide)
  have htwo : (wings 2 1 ⟨0x80000000⟩).WellFormed := hwf (by decide)
  have hnan : (wings 1 2 ⟨0x7fc00000⟩).WellFormed := hwf (by decide)
  have hlt : 0 < (wings 1 2 ⟨0⟩).size := by decide
  have hlt' : 0 < (wings 1 2 ⟨0x7fc00000⟩).size := by decide
  have hsame : (wings 1 2 ⟨0⟩).sameStructure 0 (wings 2 1 ⟨0x80000000⟩) 0 = true := by decide
  have hdiffers : (wings 1 2 ⟨0x7fc00000⟩).sameStructure 0 (wings 1 2 ⟨0x7fc00000⟩) 0 = false := by
    decide
  obtain ⟨hmeaning, hsymm, -, -⟩ := comparison_is_of_meaning hone htwo hone hlt (y := 0) (z := 0)
  obtain ⟨-, -, -, hself⟩ := comparison_is_of_meaning hnan hnan hnan hlt' (y := 0) (z := 0)
  refine ⟨hmeaning.mp hsame, hsymm ▸ hsame, fun hall => ?_⟩
  rw [hself.mpr hall] at hdiffers
  cases hdiffers

end Tree

end Narrative
