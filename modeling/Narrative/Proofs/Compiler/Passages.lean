import Narrative.Proofs.Compiler.Placed
import Narrative.Proofs.Compiler.Written
import Narrative.Proofs.Tree.SameShape

/-!
# Passages of a story

The code of a compiled story stands in passages: the main content, one passage for
each flow, and the first values of variables. A passage is found in a tree by the
names that the story gives to its flows, so that it says which part of the story
stands there without regard to how the tree was made.

In the tree of a story without errors a passage holds the code of what it mentions,
and all code stands in some passage.
-/

namespace Narrative

open Compiler

/-- A container with code, where its addresses are tried from, which variables are its own and
what it mentions. -/
structure Passage where
  container : NodeId
  starts : List NodeId
  locals : List String
  mentions : List Mention

namespace Story

variable (story : Story) (tree : Tree) (root : NodeId)

/-- The container of a flow, and that of its knot. A flow of the story is its own knot; the knot of
a stitch is the flow that the stitch is in. -/
inductive FlowAt : Flow → (container knot : NodeId) → Prop where
  | knot {flow : Flow} {c : NodeId} : flow ∈ story.flows →
      tree.namedChild? root flow.name = some c → FlowAt flow c c
  | stitch {outer flow : Flow} {knot above c : NodeId} : FlowAt outer knot above →
      flow ∈ outer.stitches → tree.namedChild? knot flow.name = some c → FlowAt flow c knot

/-- The passages of a story. First values of variables are looked up from the root only. -/
inductive PassageAt : Passage → Prop where
  | main {c : NodeId} : (tree.content root).head? = some c →
      PassageAt ⟨c, [c, root], declared story.root,
        Statement.mentionsEach story.callsOwn story.root⟩
  | flow {flow : Flow} {c knot : NodeId} : FlowAt story tree root flow c knot →
      PassageAt ⟨c, [c, knot, root], declared flow.body ++ flow.parameters,
        flow.mentions story.callsOwn⟩
  | globals {c : NodeId} : story.globals ≠ [] → tree.namedChild? root globalsName = some c →
      PassageAt ⟨c, [root], [], GlobalDeclaration.mentionsEach story.callsOwn story.globals⟩

variable {story} {root} {before after : Tree} (hshape : before.SameShape after)
include hshape

theorem FlowAt.of_sameShape {flow : Flow} {c knot : NodeId}
    (h : story.FlowAt after root flow c knot) : story.FlowAt before root flow c knot := by
  induction h with
  | knot hflow hchild => exact .knot hflow (hshape.namedChild? _ _ ▸ hchild)
  | stitch _ hflow hchild ih => exact .stitch ih hflow (hshape.namedChild? _ _ ▸ hchild)

theorem PassageAt.of_sameShape {passage : Passage} (h : story.PassageAt after root passage) :
    story.PassageAt before root passage := by
  cases h with
  | main hhead => exact .main (hshape.content _ ▸ hhead)
  | flow hflow => exact .flow (hflow.of_sameShape hshape)
  | globals hsome hchild => exact .globals hsome (hshape.namedChild? _ _ ▸ hchild)

end Story

namespace Compiler

/-! ## The code of passages -/

/-- The code of what a passage mentions stands in its container, and is looked up as the passage
says. -/
structure Coded (tree : Tree) (root : NodeId) (entries : List Entry) (passage : Passage)
    (scope : Scope) (steps : List Step) : Prop where
  filled : Filled tree entries passage.container scope steps
  written : Written steps passage.mentions
  locals : scope.locals = passage.locals
  starts : ∀ (world : World), world.root = root → ∀ (f : NodeId → Option NodeId),
    (world.starts scope).findSome? f = passage.starts.findSome? f

section Placed

variable {file : Option String} {story : Story} {flags : CountFlags}
  (hfaultless : Faultless file story)
include hfaultless

/-- The plan of a flow stands where the flow does, and its names are looked up from its knot. -/
theorem lays_of_flowAt {flow : Flow} {c knot : NodeId}
    (h : story.FlowAt ((Plan.ofStory file story).tree flags) 0 flow c knot) :
    Clean (planFlow (Context.ofStory file story) flow).2 ∧
      ∃ above, (above <|> some c) = some knot ∧ (Plan.ofStory file story).Lays flags above
        (planFlow (Context.ofStory file story) flow).1 c := by
  induction h with
  | @knot flow c hflow hchild =>
    obtain ⟨hplans, hclean⟩ := planFlows_of_clean hfaultless.flows
    have hmem : (planFlow (Context.ofStory file story) flow).1 ∈
        (Plan.ofStory file story).flows := by
      rw [Plan.ofStory, hplans]
      exact List.mem_map_of_mem hflow
    rw [← name_planFlow] at hchild
    exact ⟨hclean flow hflow, none, rfl,
      Plan.lays_knot (Plan.sound_ofStory file story) hmem hchild⟩
  | @stitch outer flow knot above c _ hflow hchild ih =>
    obtain ⟨hclean, _, -, hlays⟩ := ih
    obtain ⟨hplans, hclean⟩ := stitches_planFlow hclean
    have hmem : (planFlow (Context.ofStory file story) flow).1 ∈
        (planFlow (Context.ofStory file story) outer).1.stitches := by
      rw [hplans]
      exact List.mem_map_of_mem hflow
    rw [← name_planFlow] at hchild
    exact ⟨hclean flow hflow, some knot, rfl, hlays.stitch hmem hchild⟩

theorem filled_of_flowAt {flow : Flow} {c knot : NodeId}
    (h : story.FlowAt ((Plan.ofStory file story).tree flags) 0 flow c knot) :
    Filled ((Plan.ofStory file story).tree flags) (Plan.ofStory file story).entries c
      ⟨c, some knot, declared flow.body ++ flow.parameters⟩
      (planFlow (Context.ofStory file story) flow).1.steps := by
  obtain ⟨-, above, habove, hlays⟩ := lays_of_flowAt hfaultless h
  have hfilled := hlays.filled
  rwa [habove, locals_planFlow] at hfilled

/-- Every passage has its code. -/
theorem exists_coded (hfree : (Plan.ofStory file story).Free) {passage : Passage}
    (h : story.PassageAt ((Plan.ofStory file story).tree flags) 0 passage) :
    ∃ scope steps, Coded ((Plan.ofStory file story).tree flags) 0
      (Plan.ofStory file story).entries passage scope steps := by
  cases h with
  | main hhead =>
    cases (Plan.head?_content_root _ _).symm.trans hhead
    exact ⟨_, _, Plan.filled_main _ flags, hfaultless.written_main, rfl,
      fun world hroot f => hroot ▸ rfl⟩
  | flow hflow =>
    have hwritten := written_planFlow (callsOwn_eq story file) (lays_of_flowAt hfaultless hflow).1
    exact ⟨_, _, filled_of_flowAt hfaultless hflow, hwritten, rfl, fun world hroot f => hroot ▸ rfl⟩
  | globals hsome hchild =>
    have hplan : (Plan.ofStory file story).globals =
        some (lowerGlobals (Context.ofStory file story) story.globals) := by
      rw [Plan.ofStory]
      simp [hsome]
    cases (Plan.namedChild?_globalsName hfree hplan).symm.trans hchild
    refine ⟨_, _, Plan.filled_globals hplan, hfaultless.written_globals hsome, rfl, ?_⟩
    -- The root is tried twice, which finds what trying it once finds.
    intro world hroot f
    cases hf : f 0 <;> simp [World.starts, hroot, hf]

/-- The code of a flow and of the stitches in it stands in the containers of flows. -/
theorem exists_flowAt_of_mem {part : FlowPlan} (hsound : part.Sound) {flow : Flow}
    {above : Option NodeId} {c knot : NodeId}
    (hpart : part = (planFlow (Context.ofStory file story) flow).1)
    (h : story.FlowAt ((Plan.ofStory file story).tree flags) 0 flow c knot)
    (hlays : (Plan.ofStory file story).Lays flags above part c) {entry : Entry}
    (hentry : entry ∈ part.entries above c) :
    ∃ other above, story.FlowAt ((Plan.ofStory file story).tree flags) 0 other entry.holder
      above := by
  induction hsound generalizing flow above c knot with
  | mk _ _ _ ih =>
    rw [FlowPlan.entries] at hentry
    rcases List.mem_append.mp hentry with hown | hbelow
    · obtain ⟨hholder, -, -⟩ := exists_step_of_mem hown
      rw [hholder]
      exact ⟨flow, knot, h⟩
    · obtain ⟨stitch, spot, hlocated, hentry⟩ := FlowPlan.mem_entriesEach.mp hbelow
      obtain ⟨hchild, hstitch⟩ := hlays.stitch_of_locatedIn hlocated
      obtain ⟨hplans, -⟩ := stitches_planFlow (lays_of_flowAt hfaultless h).1
      have hmem := hlocated.mem
      rw [← hpart, FlowPlan.stitches] at hplans
      rw [hplans] at hmem
      obtain ⟨inner, hinner, rfl⟩ := List.mem_map.mp hmem
      rw [name_planFlow] at hchild
      exact ih _ hlocated.mem rfl (.stitch h hinner hchild) hstitch hentry

/-- All code stands in some passage. -/
theorem exists_passageAt (hfree : (Plan.ofStory file story).Free) {entry : Entry}
    (hentry : entry ∈ (Plan.ofStory file story).entries) :
    ∃ passage, story.PassageAt ((Plan.ofStory file story).tree flags) 0 passage ∧
      entry.node ∈ ((Plan.ofStory file story).tree flags).content passage.container := by
  obtain ⟨hnode, -⟩ := ((Plan.ofStory file story).standing flags).coded entry hentry
  rcases List.mem_append.mp hentry with hentry | hglobal
  · rcases List.mem_append.mp hentry with hmain | hflow
    · obtain ⟨hholder, -, -⟩ := exists_step_of_mem hmain
      exact ⟨_, .main (Plan.head?_content_root _ _), hholder ▸ hnode⟩
    · obtain ⟨part, c, hlocated, hentry⟩ := FlowPlan.mem_entriesEach.mp hflow
      obtain ⟨hchild, hlays⟩ :=
        @Plan.lays_of_locatedIn _ flags (Plan.sound_ofStory file story) _ _ hlocated
      have hmem := hlocated.mem
      rw [Plan.ofStory, (planFlows_of_clean hfaultless.flows).1] at hmem
      obtain ⟨flow, hflow, rfl⟩ := List.mem_map.mp hmem
      rw [name_planFlow] at hchild
      obtain ⟨other, knot, hat⟩ := exists_flowAt_of_mem hfaultless hlays.sound rfl
        (.knot hflow hchild) hlays hentry
      exact ⟨_, .flow hat, hnode⟩
  · rw [Plan.globalEntries] at hglobal
    split at hglobal
    · cases hglobal
    · next fragment hfragment =>
      obtain ⟨hholder, -, -⟩ := exists_step_of_mem hglobal
      have hglobals : story.globals ≠ [] := by
        intro hnil
        simp [Plan.ofStory, hnil] at hfragment
      exact ⟨_, .globals hglobals (Plan.namedChild?_globalsName hfree hfragment), hholder ▸ hnode⟩

/-- An entry is one of the steps of its passage. -/
theorem exists_coded_of_mem (hfree : (Plan.ofStory file story).Free) {entry : Entry}
    (hentry : entry ∈ (Plan.ofStory file story).entries) :
    ∃ passage scope steps, Coded ((Plan.ofStory file story).tree flags) 0
      (Plan.ofStory file story).entries passage scope steps ∧ entry.step ∈ steps := by
  obtain ⟨passage, hpassage, hnode⟩ := @exists_passageAt _ _ flags hfaultless hfree _ hentry
  obtain ⟨scope, steps, hcoded⟩ := exists_coded hfaultless hfree hpassage
  refine ⟨passage, scope, steps, hcoded, ?_⟩
  obtain ⟨container, hcontainer, hsteps⟩ := hcoded.filled
  rw [Tree.content, hcontainer] at hnode
  obtain ⟨step, hstep, hother⟩ := exists_of_forall₂_right hsteps hnode
  -- The container has one entry for each node, and no two entries have the same node.
  have hsame := List.inj_on_of_nodup_map (Plan.nodup_entries _) hentry hother rfl
  rw [hsame]
  exact hstep

end Placed

end Compiler

end Narrative
