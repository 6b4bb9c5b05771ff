import Narrative.Proofs.Compiler.Sites

/-!
# Where code is placed

Flows become containers that are listed by name, stitches in those of their flows, and a
story becomes a tree with a single root. The code of each part of a story stands in the
container that its names lead to.
-/

namespace Narrative.Compiler.Plan

variable {plan : Plan} {flags : CountFlags}

/-- The root is the only node without a parent. -/
theorem parent?_eq_none_iff {i : Nat} (hi : i < (plan.tree flags).size) :
    (plan.tree flags).parent? i = none ↔ i = 0 := by
  obtain ⟨⟨hroot, hmain, hdone, -⟩, -, -, -⟩ := plan.carries_tree flags
  constructor
  · intro hnone
    by_contra hne
    rcases Nat.lt_or_ge i 3 with hlt | hge
    · obtain rfl | rfl : i = 1 ∨ i = 2 := by omega
      · rw [Tree.parent?, hmain] at hnone
        cases hnone
      · rw [Tree.parent?, hdone] at hnone
        cases hnone
    · rw [plan.size_tree] at hi
      exact (plan.standing flags).attached i hge hi hnone
  · rintro rfl
    rw [Tree.parent?, hroot]
    rfl

/-! ## The main content and the declarations of variables -/

theorem head?_content_root (plan : Plan) (flags : CountFlags) :
    ((plan.tree flags).content 0).head? = some 1 := by
  rw [Tree.content, container?_root]
  rfl

theorem filled_main (plan : Plan) (flags : CountFlags) :
    Filled (plan.tree flags) plan.entries 1 { container := 1, locals := plan.mainLocals }
      plan.main := by
  obtain ⟨⟨-, hmain, -⟩, -, -, -⟩ := plan.carries_tree flags
  have hcontainer := (Tree.container?_eq_some_iff _).mpr ⟨_, hmain, rfl⟩
  refine (filled_entriesFrom _ hcontainer rfl).mono fun entry hentry => ?_
  exact List.mem_append_left _ (List.mem_append_left _ hentry)

/-- The root lists the declarations of variables under the name that is kept for them. -/
theorem namedChild?_globalsName (hfree : plan.Free) {fragment : Fragment}
    (h : plan.globals = some fragment) :
    (plan.tree flags).namedChild? 0 globalsName = some plan.globalsPlace := by
  have hnone := (@find?_tableFrom_eq_none plan.firstFlow _ _).mpr
    (hfree (Option.isSome_of_eq_some h))
  rw [Tree.namedChild?, container?_root, Option.bind_some, Container.namedChild?, table, h,
    List.find?_append, hnone]
  rfl

theorem filled_globals {fragment : Fragment} (h : plan.globals = some fragment) :
    Filled (plan.tree flags) plan.entries plan.globalsPlace { container := 0 } fragment.steps := by
  obtain ⟨-, -, -, hglobals⟩ := plan.carries_tree flags
  rw [globalNodes, h] at hglobals
  refine (filled_housing hglobals.1 { container := 0 }).mono fun entry hentry => ?_
  refine List.mem_append_right _ ?_
  rw [globalEntries, h]
  exact hentry

/-! ## Flows -/

/-- A flow has its nodes from a container on, and its code and parameters are those of the plan;
`above` is the knot of a stitch. -/
structure Lays (plan : Plan) (flags : CountFlags) (above : Option NodeId) (flow : FlowPlan)
    (c : NodeId) : Prop where
  carries : ∃ parent, (plan.tree flags).Carries c (flow.nodes flags parent c)
  entries : flow.entries above c ⊆ plan.entries
  arities : flow.arities c ⊆ plan.arities
  sound : flow.Sound

theorem lays_of_locatedIn (hsound : plan.Sound) {flow : FlowPlan} {c : NodeId}
    (h : FlowPlan.LocatedIn plan.firstFlow plan.flows flow c) :
    (plan.tree flags).namedChild? 0 flow.name = some c ∧ plan.Lays flags none flow c := by
  obtain ⟨-, -, hflows, -⟩ := plan.carries_tree flags
  have hchild : (plan.tree flags).namedChild? 0 flow.name = some c := by
    rw [Tree.namedChild?, container?_root]
    exact h.namedChild? hsound.distinct rfl
  refine ⟨hchild, ⟨0, h.carries hflows⟩, ?_, ?_, hsound.flows flow h.mem⟩
  · intro entry hentry
    refine List.mem_append_left _ (List.mem_append_right _ ?_)
    exact FlowPlan.mem_entriesEach.mpr ⟨flow, c, h, hentry⟩
  · intro pair hpair
    exact FlowPlan.mem_aritiesEach.mpr ⟨flow, c, h, hpair⟩

namespace Lays

variable {above : Option NodeId} {flow : FlowPlan} {c : NodeId} (h : plan.Lays flags above flow c)
include h

theorem stitch_of_locatedIn {stitch : FlowPlan} {spot : NodeId}
    (hlocated : FlowPlan.LocatedIn (c + 1 + flow.steps.length) flow.stitches stitch spot) :
    (plan.tree flags).namedChild? c stitch.name = some spot ∧
      plan.Lays flags (some c) stitch spot := by
  obtain ⟨⟨parent, hcarries⟩, hentries, harities, hsound⟩ := h
  cases hsound with
  | @mk name range parameters locals steps stitches hname hdistinct hstitches =>
    rw [FlowPlan.nodes] at hcarries
    obtain ⟨-, hbelow⟩ := Tree.carries_append.mp hcarries.2
    rw [List.length_map] at hbelow
    have hchild : (plan.tree flags).namedChild? c stitch.name = some spot := by
      rw [Tree.namedChild?, container?_housing hcarries.1]
      exact hlocated.namedChild? hdistinct (List.append_nil _).symm
    refine ⟨hchild, ⟨c, hlocated.carries hbelow⟩, ?_, ?_, hstitches stitch hlocated.mem⟩
    · intro entry hentry
      refine hentries (List.mem_append_right _ ?_)
      exact FlowPlan.mem_entriesEach.mpr ⟨stitch, spot, hlocated, hentry⟩
    · intro pair hpair
      refine harities (List.mem_cons_of_mem _ ?_)
      exact FlowPlan.mem_aritiesEach.mpr ⟨stitch, spot, hlocated, hpair⟩

/-- The container of a flow lists its stitches, and what is counted is what all flows count. -/
theorem container? : ∃ container place, (plan.tree flags).container? c = some container ∧
    container.flags = flags ∧ container.table = FlowPlan.tableFrom place flow.stitches := by
  obtain ⟨⟨parent, hcarries⟩, -, -, -⟩ := h
  cases flow with
  | mk => exact ⟨_, _, container?_housing hcarries.1, rfl, rfl⟩

theorem filled :
    Filled (plan.tree flags) plan.entries c ⟨c, above <|> some c, flow.locals⟩ flow.steps := by
  obtain ⟨⟨parent, hcarries⟩, hentries, -, -⟩ := h
  cases flow with
  | mk =>
    refine (filled_housing hcarries.1 _).mono fun entry hentry => ?_
    exact hentries (List.mem_append_left _ hentry)

/-- The parameters of a flow are found under its container. -/
theorem lookup : plan.arities.lookup c = some flow.parameters := by
  refine lookup_arities.mpr (h.arities ?_)
  cases flow with
  | mk => exact List.mem_cons_self

end Lays

/-- The root lists the knots of a story where they stand. -/
theorem lays_knot (hsound : plan.Sound) {flow : FlowPlan} {c : NodeId} (hflow : flow ∈ plan.flows)
    (hchild : (plan.tree flags).namedChild? 0 flow.name = some c) :
    plan.Lays flags none flow c := by
  obtain ⟨spot, hlocated⟩ := FlowPlan.exists_locatedIn hflow plan.firstFlow
  obtain ⟨hlisted, hlays⟩ := lays_of_locatedIn hsound hlocated
  cases hlisted.symm.trans hchild
  exact hlays

/-- The container of a flow lists its stitches where they stand. -/
theorem Lays.stitch {above : Option NodeId} {outer flow : FlowPlan} {knot c : NodeId}
    (h : plan.Lays flags above outer knot) (hflow : flow ∈ outer.stitches)
    (hchild : (plan.tree flags).namedChild? knot flow.name = some c) :
    plan.Lays flags (some knot) flow c := by
  obtain ⟨spot, hlocated⟩ :=
    FlowPlan.exists_locatedIn hflow (knot + 1 + outer.steps.length)
  obtain ⟨hlisted, hlays⟩ := h.stitch_of_locatedIn hlocated
  cases hlisted.symm.trans hchild
  exact hlays

end Narrative.Compiler.Plan
