import Narrative.Proofs.Compiler.Reordering

/-!
# The order of flows

Names are looked up by addresses, so nothing that is looked up depends on the order in
which the flows of a story are written: the verdicts in alike trees are alike. What is
counted about a container is collected from all verdicts, in whatever order they come.
So a story without errors has none after its flows have changed places, and the two
documents have the same structure.
-/

namespace Narrative

theorem Single.isNaN_negate (x : Single) : x.negate.isNaN = x.isNaN := by
  have hmagnitude : x.negate.magnitude = x.magnitude := by
    have hsign : signBit.toNat &&& (0x7fffffff : UInt32).toNat = 0 := by decide
    refine UInt32.toNat.inj ?_
    rw [magnitude, magnitude, negate, UInt32.toNat_and, UInt32.toNat_xor,
      Nat.and_xor_distrib_right, hsign, Nat.xor_zero, UInt32.toNat_and]
  rw [isNaN, isNaN, hmagnitude]

namespace Compiler

/-! ## Verdicts in alike trees -/

structure World.Alike (R : NodeId → NodeId → Prop) (v w : World) : Prop where
  root : R v.root w.root
  globals : v.globals = w.globals
  parametersOf? : ∀ {x y}, R x y → v.parametersOf? x = w.parametersOf? y

structure Verdict.Alike (R : NodeId → NodeId → Prop) (v w : Verdict) : Prop where
  leaf : v.leaf = w.leaf
  mark : Option.Rel (fun m n => R m.1 n.1 ∧ m.2 = n.2) v.mark w.mark
  complaint : v.complaint = w.complaint

section Verdicts

variable {R : NodeId → NodeId → Prop} {a b : Tree} {v w : World} {s t : Scope}
  (htree : a.Alike R b) (hworld : World.Alike R v w) (hscope : Scope.Alike R s t)

include hworld hscope in
theorem isVariable_alike (name : String) : v.isVariable s name = w.isVariable t name := by
  rw [World.isVariable, World.isVariable, hscope.locals, hworld.globals]

include htree hworld hscope in
/-- A name leads to corresponding containers. -/
theorem rel_findFlow? (name : String) :
    Option.Rel R (v.findFlow? a s name) (w.findFlow? b t name) := by
  have hknot : List.Forall₂ R (s.knot.toList ++ [v.root]) (t.knot.toList ++ [w.root]) := by
    rcases rel_cases hscope.knot with ⟨hs, ht⟩ | ⟨p, q, hs, ht, hpq⟩
    · rw [hs, ht]
      exact .cons hworld.root .nil
    · rw [hs, ht]
      exact .cons hpq (.cons hworld.root .nil)
  have hfound : ∀ x y, R x y → Option.Rel R (World.containerAt? a (.parse name) x)
      (World.containerAt? b (.parse name) y) := by
    intro x y hxy
    rw [World.containerAt?, World.containerAt?, Tree.contentAt?, Tree.contentAt?]
    rcases rel_cases (htree.follow? hxy (Path.parse name).components) with
      ⟨hp, hq⟩ | ⟨p, q, hp, hq, hpq⟩
    · rw [hp, hq]
      exact .none
    · rw [hp, hq, Option.filter_some, Option.filter_some,
        isSome_eq_of_rel (htree.container? hpq)]
      split
      · exact .some hpq
      · exact .none
  rw [World.findFlow?, World.findFlow?]
  split
  · exact .none
  · exact rel_findSome? (.cons hscope.container hknot) hfound

include htree hworld hscope in
theorem alike_verdict (subject : Subject) :
    Verdict.Alike R (subject.verdict v a s) (subject.verdict w b t) := by
  cases subject with
  | reading name countedBy =>
    simp only [Subject.verdict, isVariable_alike hworld hscope name]
    split
    · exact ⟨rfl, .none, rfl⟩
    · rcases rel_cases (rel_findFlow? htree hworld hscope name) with
        ⟨hp, hq⟩ | ⟨p, q, hp, hq, hpq⟩
      · rw [hp, hq]
        exact ⟨rfl, .none, rfl⟩
      · simp only [hp, hq, htree.path hpq]
        exact ⟨rfl, .some ⟨hpq, rfl⟩, rfl⟩
  | target name countedBy =>
    simp only [Subject.verdict, isVariable_alike hworld hscope name]
    split
    · exact ⟨rfl, .none, rfl⟩
    · rcases rel_cases (rel_findFlow? htree hworld hscope name) with
        ⟨hp, hq⟩ | ⟨p, q, hp, hq, hpq⟩
      · rw [hp, hq]
        exact ⟨rfl, .none, rfl⟩
      · simp only [hp, hq, htree.path hpq]
        refine ⟨rfl, ?_, rfl⟩
        cases countedBy with
        | none => exact .none
        | some query => exact .some ⟨hpq, rfl⟩
  | jump name mode arguments =>
    simp only [Subject.verdict, isVariable_alike hworld hscope name]
    split
    · exact ⟨rfl, .none, rfl⟩
    · rcases rel_cases (rel_findFlow? htree hworld hscope name) with
        ⟨hp, hq⟩ | ⟨p, q, hp, hq, hpq⟩
      · rw [hp, hq]
        exact ⟨rfl, .none, rfl⟩
      · simp only [hp, hq, htree.path hpq, hworld.parametersOf? hpq]
        exact ⟨rfl, .none, rfl⟩

end Verdicts

namespace Reordered

variable {P Q : Plan} (h : Reordered P Q)
include h

theorem parametersOf?_eq {x y : Nat} (hxy : Moved P Q x y) :
    P.world.parametersOf? x = Q.world.parametersOf? y := by
  refine Option.ext fun n => ?_
  rw [World.parametersOf?, World.parametersOf?]
  change P.arities.lookup x = some n ↔ Q.arities.lookup y = some n
  rw [Plan.lookup_arities, Plan.lookup_arities]
  constructor
  · intro hmem
    obtain ⟨⟨y', n'⟩, hother, hmoved, rfl⟩ := h.exists_arity hmem
    rwa [h.moved_unique hxy hmoved]
  · intro hmem
    obtain ⟨⟨x', n'⟩, hother, hmoved, rfl⟩ := h.symm.exists_arity hmem
    rwa [h.symm.moved_unique (h.moved_symm hxy) hmoved]

theorem alike_world : World.Alike (Moved P Q) P.world Q.world where
  root := moved_root
  globals := h.globalNames
  parametersOf? := h.parametersOf?_eq

section Entries

variable {flags : CountFlags} (hP : (P.tree flags).WellFormed) (hQ : (Q.tree flags).WellFormed)
include hP hQ

theorem leaf_eq {entry other : Entry} (halike : entry.Alike (Moved P Q) other) :
    entry.leaf P.world (P.tree flags) = other.leaf Q.world (Q.tree flags) := by
  rw [Entry.leaf, Entry.leaf, halike.step]
  cases other.step.lookup with
  | none => rfl
  | some lookup =>
    exact (alike_verdict (h.alike_tree hP hQ) h.alike_world halike.scope lookup.subject).leaf

/-- Every reference has a counterpart with the same verdict. -/
theorem exists_reference {reference : Reference} (hreference : reference ∈ P.references) :
    ∃ other ∈ Q.references, Verdict.Alike (Moved P Q) (reference.verdict P.world (P.tree flags))
      (other.verdict Q.world (Q.tree flags)) := by
  obtain ⟨entry, hentry, lookup, hlookup, rfl⟩ := mem_references.mp hreference
  obtain ⟨other, hother, halike⟩ := h.exists_entry hentry
  refine ⟨⟨other.node, other.scope, lookup⟩, ?_, ?_⟩
  · exact mem_references.mpr ⟨other, hother, lookup, halike.step ▸ hlookup, rfl⟩
  · exact alike_verdict (h.alike_tree hP hQ) h.alike_world halike.scope lookup.subject

theorem has_of_foldl {x y : Nat} (hxy : Moved P Q x y) {start : CountFlags} {i : Nat}
    (hhas : (P.references.foldl
      (fun flags' reference => (reference.verdict P.world (P.tree flags)).raise x flags')
        start).Has i) :
    (Q.references.foldl
      (fun flags' reference => (reference.verdict Q.world (Q.tree flags)).raise y flags')
        start).Has i := by
  rcases has_foldl_raise.mp hhas with hstart | ⟨reference, hreference, more, hmark, hmore⟩
  · exact has_foldl_raise.mpr (Or.inl hstart)
  · obtain ⟨other, hother, halike⟩ := h.exists_reference hP hQ hreference
    have hmarks := halike.mark
    rw [hmark] at hmarks
    rcases rel_cases hmarks with ⟨hnone, -⟩ | ⟨m, ⟨target, more'⟩, hm, hn, hmoved, hsame⟩
    · cases hnone
    · cases hm
      obtain rfl : more = more' := hsame
      obtain rfl : y = target := h.moved_unique hxy hmoved
      exact has_foldl_raise.mpr (Or.inr ⟨other, hother, more, hn, hmore⟩)

/-- What is counted about corresponding containers is the same, in whatever order it is noted. -/
theorem foldl_raise_eq {x y : Nat} (hxy : Moved P Q x y) (start : CountFlags) :
    P.references.foldl
        (fun flags' reference => (reference.verdict P.world (P.tree flags)).raise x flags') start =
      Q.references.foldl
        (fun flags' reference => (reference.verdict Q.world (Q.tree flags)).raise y flags') start :=
  CountFlags.ext_has fun _ =>
    ⟨h.has_of_foldl hP hQ hxy, h.symm.has_of_foldl hQ hP (h.moved_symm hxy)⟩

end Entries

end Reordered

end Compiler

namespace Story

open Compiler

variable {options : CompilerOptions} {story other : Story} {document document' : Document}

/-- A leaf that no entry accounts for is the one of the plan. -/
theorem Yields.leaf?_of_not_entry (h : story.Yields options document) {i : NodeId}
    (hi : ¬ ∃ entry ∈ (story.plan options).entries, entry.node = i) :
    document.tree.leaf? i = ((story.plan options).tree options.flowFlags).leaf? i := by
  refine h.decided.others i fun hmem => ?_
  obtain ⟨reference, hreference, hnode⟩ := List.mem_map.mp hmem
  obtain ⟨entry, hentry, _, _, rfl⟩ := mem_references.mp hreference
  exact hi ⟨entry, hentry, hnode⟩

/-- The documents of stories whose plans differ in the order of flows are alike. -/
theorem Yields.alike (hP : story.Yields options document) (hQ : other.Yields options document')
    (h : Reordered (story.plan options) (other.plan options)) :
    document.tree.Alike (Moved (story.plan options) (other.plan options)) document'.tree := by
  have hwfP := hP.decided.shape.symm.wellFormed hP.wellFormed
  have hwfQ := hQ.decided.shape.symm.wellFormed hQ.wellFormed
  have halike := h.alike_tree hwfP hwfQ
  refine halike.of_sameShape hP.decided.shape hQ.decided.shape ?_ ?_
  · intro x y hxy
    by_cases hentry : ∃ entry ∈ (story.plan options).entries, entry.node = x
    · obtain ⟨entry, hentry, rfl⟩ := hentry
      obtain ⟨counterpart, hcounterpart, hboth⟩ := h.exists_entry hentry
      rw [h.moved_unique hxy hboth.node, hP.leaf?_of_entry hentry,
        hQ.leaf?_of_entry hcounterpart, h.leaf_eq hwfP hwfQ hboth]
    · have hother : ¬ ∃ entry ∈ (other.plan options).entries, entry.node = y := by
        rintro ⟨entry, hmem, rfl⟩
        obtain ⟨counterpart, hcounterpart, hboth⟩ := h.symm.exists_entry hmem
        exact hentry ⟨counterpart, hcounterpart,
          (h.symm.moved_unique (h.moved_symm hxy) hboth.node).symm⟩
      rw [hP.leaf?_of_not_entry hentry, hQ.leaf?_of_not_entry hother, halike.leaf? hxy]
  · intro x y hxy
    have hbefore : ((story.plan options).tree options.flowFlags).flags? x =
        ((other.plan options).tree options.flowFlags).flags? y := by
      rw [Tree.flags?, Tree.flags?]
      rcases rel_cases (halike.container? hxy) with ⟨hc, hd⟩ | ⟨c, d, hc, hd, hboth⟩
      · rw [hc, hd]
      · rw [hc, hd, Option.map_some, Option.map_some, hboth.flags]
    have hflagsP := hP.decided.flags? x
    have hflagsQ := hQ.decided.flags? y
    rw [Tree.flags?] at hflagsP hflagsQ
    rw [hflagsP, hflagsQ, hbefore]
    exact congrArg (fun f => Option.map f _) (funext (h.foldl_raise_eq hwfP hwfQ hxy))

/-! ## Stories with their flows in another order -/

/-- Neighbouring flows are complained about when one has no name, when two have the same one, or when
one of them is complained about. -/
theorem clean_planFlows {context : Context} {seen : List String} {flows : List Flow} :
    Clean (planFlows context seen flows).2 ↔
      (∀ flow ∈ flows, flow.name.isEmpty = false ∧ flow.name ∉ seen ∧
        Clean (planFlow context flow).2) ∧ (flows.map Flow.name).Nodup := by
  induction flows generalizing seen with
  | nil => simp [planFlows, Clean]
  | cons flow rest ih =>
    rw [planFlows, flowComplaint?]
    by_cases hname : flow.name.isEmpty = true
    · rw [if_pos hname]
      refine iff_of_false (Complaint.not_clean _ _ _) fun hall => ?_
      have hfirst := (hall.1 flow List.mem_cons_self).1
      rw [hname] at hfirst
      cases hfirst
    · by_cases hseen : seen.contains flow.name = true
      · rw [if_neg hname, if_pos hseen]
        refine iff_of_false (Complaint.not_clean _ _ _) fun hall => ?_
        exact (hall.1 flow List.mem_cons_self).2.1 (by simpa using hseen)
      · rw [if_neg hname, if_neg hseen]
        simp only [clean_append, ih, List.map_cons, List.nodup_cons, List.forall_mem_cons]
        have hnot : flow.name ∉ seen := by simpa using hseen
        have hfalse : flow.name.isEmpty = false := Bool.not_eq_true _ ▸ hname
        constructor
        · rintro ⟨hfirst, hrest, hdistinct⟩
          refine ⟨⟨⟨hfalse, hnot, hfirst⟩, fun other hother => ?_⟩, ?_, hdistinct⟩
          · obtain ⟨hother, hnew, hclean⟩ := hrest other hother
            exact ⟨hother, fun hmem => hnew (List.mem_cons_of_mem _ hmem), hclean⟩
          · intro hmem
            obtain ⟨other, hother, hsame⟩ := List.mem_map.mp hmem
            exact (hrest other hother).2.1 (hsame ▸ List.mem_cons_self)
        · rintro ⟨⟨⟨-, -, hfirst⟩, hrest⟩, hnew, hdistinct⟩
          refine ⟨hfirst, fun other hother => ?_, hdistinct⟩
          obtain ⟨hname', hnew', hclean⟩ := hrest other hother
          refine ⟨hname', fun hmem => ?_, hclean⟩
          rcases List.mem_cons.mp hmem with hsame | hmem
          · exact hnew (hsame ▸ List.mem_map_of_mem hother)
          · exact hnew' hmem

theorem clean_planFlows_of_perm {context : Context} {seen : List String} {flows others : List Flow}
    (hperm : flows.Perm others) (h : Clean (planFlows context seen flows).2) :
    Clean (planFlows context seen others).2 := by
  obtain ⟨hall, hdistinct⟩ := clean_planFlows.mp h
  refine clean_planFlows.mpr ⟨fun flow hflow => hall flow (hperm.mem_iff.mpr hflow), ?_⟩
  exact (hperm.map Flow.name).nodup_iff.mp hdistinct

/-- What is reported about a story is about its flows or about the rest of it. -/
theorem clean_reports : Clean (story.plan options).reports ↔
    Clean (({ story with flows := [] } : Story).plan options).reports ∧
      Clean (planFlows (Context.ofStory options.file story) [] story.flows).2 := by
  have hcontext : Context.ofStory options.file { story with flows := [] } =
      Context.ofStory options.file story := rfl
  have hnone : Clean (planFlows (Context.ofStory options.file story) [] []).2 := clean_nil
  simp only [Plan.reports, plan, Plan.ofStory, hcontext, clean_append]
  tauto

section Permuted

variable {flows : List Flow} (hperm : story.flows.Perm flows)
include hperm

/-- The plan of a story without errors has its flows in the order in which they are written. -/
theorem Flawless.reordered (h : story.Flawless options) :
    Reordered (story.plan options) (({ story with flows } : Story).plan options) := by
  have hclean := (clean_reports.mp h.reports).2
  have hplans := (planFlows_of_clean hclean).1
  have hothers := (planFlows_of_clean (clean_planFlows_of_perm hperm hclean)).1
  refine ⟨rfl, rfl, ?_, rfl, rfl, (Plan.sound_ofStory options.file story).distinct⟩
  change (planFlows (Context.ofStory options.file story) [] story.flows).1.Perm
    (planFlows (Context.ofStory options.file story) [] flows).1
  rw [hplans, hothers]
  exact hperm.map _

theorem Flawless.free_permuted (h : story.Flawless options) (hfree : (story.plan options).Free) :
    (({ story with flows } : Story).plan options).Free := by
  have hreordered := h.reordered hperm
  intro hglobals hname
  rw [← hreordered.globals] at hglobals
  exact hfree hglobals ((hreordered.flows.map FlowPlan.name).mem_iff.mpr hname)

/-- A story without errors has none after its flows have changed places. -/
theorem Flawless.permuted (h : story.Flawless options) (hfree : (story.plan options).Free) :
    ({ story with flows } : Story).Flawless options := by
  have hreordered := h.reordered hperm
  have hwf := (Plan.place_eq_ok (Plan.sound_ofStory options.file story) hfree options.flowFlags).2
  have hwf' := (Plan.place_eq_ok (Plan.sound_ofStory options.file { story with flows })
    (h.free_permuted hperm hfree) options.flowFlags).2
  obtain ⟨hrest, hclean⟩ := clean_reports.mp h.reports
  refine ⟨clean_reports.mpr ⟨hrest, clean_planFlows_of_perm hperm hclean⟩, ?_⟩
  intro reference hreference
  obtain ⟨other, hother, halike⟩ := hreordered.symm.exists_reference hwf' hwf hreference
  rw [halike.complaint]
  exact h.verdicts other hother

end Permuted

/-! ## Numbers -/

/-- No NaN is written. -/
def withoutNaN : Wording where
  float x := x.isNaN = false

theorem Yields.notNaN (h : story.Yields options document) (hkeeps : story.Keeps withoutNaN)
    {i : NodeId} {leaf : Leaf} (hleaf : document.tree.leaf? i = some leaf) : leaf.NotNaN := by
  have hadmits : Admits withoutNaN (Context.ofStory options.file story).externals Leaf.NotNaN
      (fun _ => True) := by
    refine ⟨?_, fun _ => trivial, fun _ _ => trivial⟩
    intro leaf hword
    cases hword with
    | float hx => exact hx
    | @negated x hx => exact x.isNaN_negate.trans hx
    | _ => trivial
  have hkind : ∀ {l m : Leaf}, l.SameKind m → m.NotNaN := by
    intro l m hsame
    cases hsame <;> trivial
  exact h.admitted hadmits hkeeps
    (fun entry _ lookup _ _ => hkind (lookup.subject.sameKind_verdict _ _ entry.scope)) hleaf

/-! ## The order of flows does not matter -/

/-- When the flows of a story without errors and without NaN change places, there are still no
errors, and the document has the same structure. -/
theorem flows_in_any_order {flows : List Flow} (hnumbers : story.Keeps withoutNaN)
    (hperm : story.flows.Perm flows) (h : (story.compile options).result = .ok document) :
    ∃ other, (Story.compile options { story with flows }).result = .ok other ∧
      document.tree.sameStructure document.root other.tree other.root = true := by
  have hyields := yields_of_compile h
  have hflawless := flawless_of_compile h
  obtain ⟨other, hother⟩ := exists_compile (hflawless.free_permuted hperm hyields.free)
    (hflawless.permuted hperm hyields.free)
  have hyields' := yields_of_compile hother
  have halike := hyields.alike hyields' (hflawless.reordered hperm)
  refine ⟨other, hother, ?_⟩
  rw [hyields.root, hyields'.root]
  refine halike.sameStructure hyields.wellFormed (fun id leaf hleaf => hyields.notNaN hnumbers hleaf)
    Reordered.moved_root ?_
  rw [hyields.decided.shape.size, Plan.size_tree]
  exact Nat.lt_add_right _ (by decide)

/-- Two knots that refer to each other, one of them through a stitch. -/
def ferryStory : Story where
  root := [⟨.divert "shore", none⟩]
  flows := [
    .mk "shore" .knot []
      [⟨.output (.binary .add (.name "island.cave") (.name "fare")), none⟩,
        ⟨.divert "island.cave", none⟩] [] none,
    .mk "island" .knot [] []
      [.mk "cave" .stitch []
        [⟨.output (.call "TURNS_SINCE" [.target "shore"] none), none⟩, ⟨.divert "shore", none⟩] []
          none] none]
  globals := [⟨"fare", .float ⟨0x3fc00000⟩, none⟩]

theorem flows_in_any_order_ferry :
    ferryStory.Keeps withoutNaN ∧ ferryStory.flows.Perm ferryStory.flows.reverse ∧
      ∃ document other, (ferryStory.compile {}).result = .ok document ∧
        (Story.compile {} { ferryStory with flows := ferryStory.flows.reverse }).result =
          .ok other ∧
        document.tree.sameStructure document.root other.tree other.root = true := by
  have hnumbers : ferryStory.Keeps withoutNaN := by
    constructor
    · simp [ferryStory, Action.Keeps, withoutNaN]
    · simp [ferryStory, Flow.KeepsEach, Flow.Keeps, Action.Keeps, Expression.Keeps,
        Expression.KeepsEach, withoutNaN]
    · intro declaration hdeclaration
      obtain rfl := List.mem_singleton.mp hdeclaration
      have hfare : Single.isNaN ⟨0x3fc00000⟩ = false := by decide
      exact ⟨trivial, hfare⟩
    · intro external hexternal
      cases hexternal
  have hperm : ferryStory.flows.Perm ferryStory.flows.reverse := (List.reverse_perm _).symm
  have hcompiled : (ferryStory.compile {}).result.toOption.isSome = true := by decide +kernel
  cases hresult : (ferryStory.compile {}).result with
  | error error =>
    rw [hresult] at hcompiled
    cases hcompiled
  | ok document =>
    obtain ⟨other, hother, hsame⟩ := flows_in_any_order hnumbers hperm hresult
    exact ⟨hnumbers, hperm, document, other, rfl, hother, hsame⟩

end Story

end Narrative
