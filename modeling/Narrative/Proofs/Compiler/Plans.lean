import Narrative.Proofs.Compiler.Composition

/-!
# The plans of stories

A plan has the code of a story in passages: the main content, one passage for each flow
that is not left out, and the declarations of variables. The flows of a plan have names,
no two neighbours the same one. When nothing is reported, no flow is left out.

What lowering keeps holds of every passage.
-/

namespace Narrative.Compiler

namespace FlowPlan

def name : FlowPlan → String
  | mk name .. => name

def parameters : FlowPlan → Nat
  | mk _ _ parameters .. => parameters

def locals : FlowPlan → List String
  | mk _ _ _ locals .. => locals

def steps : FlowPlan → List Step
  | mk _ _ _ _ steps _ => steps

def stitches : FlowPlan → List FlowPlan
  | mk _ _ _ _ _ stitches => stitches

mutual

/-- A flow and the stitches in it, at any depth. -/
def parts : FlowPlan → List FlowPlan
  | .mk name range parameters locals steps stitches =>
    .mk name range parameters locals steps stitches :: partsEach stitches

def partsEach : List FlowPlan → List FlowPlan
  | [] => []
  | flow :: rest => flow.parts ++ partsEach rest

end

/-- A flow has a name, and no two of its stitches have the same one, at any depth. -/
inductive Sound : FlowPlan → Prop where
  | mk {name : String} {range : Option SourceRange} {parameters : Nat} {locals : List String}
      {steps : List Step} {stitches : List FlowPlan} : name.isEmpty = false →
      (stitches.map FlowPlan.name).Nodup → (∀ stitch ∈ stitches, Sound stitch) →
      Sound (.mk name range parameters locals steps stitches)

end FlowPlan

namespace Plan

variable (plan : Plan)

/-- The code of one passage of a story, and the name of its container. -/
inductive Code : Option String → List Step → Prop where
  | main : Code none plan.main
  | flow {part : FlowPlan} : part ∈ FlowPlan.partsEach plan.flows →
      Code (some part.name) part.steps
  | globals {fragment : Fragment} : plan.globals = some fragment →
      Code (some globalsName) fragment.steps

/-- The flows of a plan have names, no two neighbours the same one. -/
structure Sound : Prop where
  flows : ∀ flow ∈ plan.flows, flow.Sound
  distinct : (plan.flows.map FlowPlan.name).Nodup

/-- No flow has the name that is kept for the declarations of variables. -/
def Free : Prop := plan.globals.isSome = true → globalsName ∉ plan.flows.map FlowPlan.name

end Plan

/-! ## The plans of flows -/

section Planning

variable {context : Context}

@[simp] theorem name_planFlow (flow : Flow) : (planFlow context flow).1.name = flow.name := by
  cases flow with
  | mk => rw [planFlow]; rfl

@[simp] theorem parameters_planFlow (flow : Flow) :
    (planFlow context flow).1.parameters = flow.parameters.length := by
  cases flow with
  | mk => rw [planFlow]; rfl

@[simp] theorem locals_planFlow (flow : Flow) :
    (planFlow context flow).1.locals = declared flow.body ++ flow.parameters := by
  cases flow with
  | mk => rw [planFlow]; rfl

mutual

theorem sound_planFlow : ∀ flow : Flow, flow.name.isEmpty = false →
    (planFlow context flow).1.Sound
  | .mk name kind parameters body stitches range, hname => by
    obtain ⟨hstitches, hdistinct⟩ := sound_planFlows stitches []
    rw [planFlow]
    exact .mk hname hdistinct fun stitch hstitch => (hstitches stitch hstitch).1

/-- A flow without a name or with that of a neighbour is left out. -/
theorem sound_planFlows : ∀ (flows : List Flow) (seen : List String),
    (∀ plan ∈ (planFlows context seen flows).1, plan.Sound ∧ plan.name ∉ seen) ∧
      ((planFlows context seen flows).1.map FlowPlan.name).Nodup
  | [], _ => ⟨fun _ hplan => (nomatch hplan), List.nodup_nil⟩
  | flow :: rest, seen => by
    have hfirst := sound_planFlow flow
    have hrest := sound_planFlows rest
    rw [planFlows]
    cases hcomplaint : flowComplaint? seen flow.name with
    | some complaint => exact hrest seen
    | none =>
      have hname : flow.name.isEmpty = false ∧ flow.name ∉ seen := by
        simp only [flowComplaint?] at hcomplaint
        split_ifs at hcomplaint with hempty hseen
        exact ⟨Bool.not_eq_true _ ▸ hempty, by simpa using hseen⟩
      obtain ⟨hothers, hdistinct⟩ := hrest (flow.name :: seen)
      constructor
      · intro plan hplan
        rcases List.mem_cons.mp hplan with rfl | hplan
        · rw [name_planFlow]
          exact ⟨hfirst hname.1, hname.2⟩
        · obtain ⟨hsound, hnew⟩ := hothers plan hplan
          exact ⟨hsound, fun hmem => hnew (List.mem_cons_of_mem _ hmem)⟩
      · refine List.nodup_cons.mpr ⟨fun hmem => ?_, hdistinct⟩
        obtain ⟨plan, hplan, hsame⟩ := List.mem_map.mp hmem
        rw [name_planFlow] at hsame
        exact (hothers plan hplan).2 (hsame ▸ List.mem_cons_self)

end

theorem planFlows_of_clean {seen : List String} {flows : List Flow}
    (h : Clean (planFlows context seen flows).2) :
    (planFlows context seen flows).1 = flows.map (fun flow => (planFlow context flow).1) ∧
      ∀ flow ∈ flows, Clean (planFlow context flow).2 := by
  induction flows generalizing seen with
  | nil => exact ⟨rfl, fun _ h => nomatch h⟩
  | cons flow rest ih =>
    rw [planFlows] at h ⊢
    cases hcomplaint : flowComplaint? seen flow.name with
    | some complaint =>
      rw [hcomplaint] at h
      exact absurd h (complaint.not_clean _ _)
    | none =>
      rw [hcomplaint] at h
      obtain ⟨hfirst, hrest⟩ := clean_append.mp h
      obtain ⟨hplans, hclean⟩ := ih hrest
      refine ⟨?_, ?_⟩
      · rw [List.map_cons, ← hplans]
      · intro other hother
        rcases List.mem_cons.mp hother with rfl | hother
        · exact hfirst
        · exact hclean other hother

theorem stitches_planFlow {flow : Flow} (h : Clean (planFlow context flow).2) :
    (planFlow context flow).1.stitches = flow.stitches.map (fun f => (planFlow context f).1) ∧
      ∀ stitch ∈ flow.stitches, Clean (planFlow context stitch).2 := by
  obtain ⟨name, kind, parameters, body, stitches, range⟩ := flow
  rw [planFlow] at h ⊢
  exact planFlows_of_clean (clean_append.mp h).2

/-- A part of a plan is the plan of a flow that keeps to a wording. -/
structure Lowered (w : Wording) (context : Context) (part : FlowPlan) (flow : Flow) : Prop where
  keeps : flow.Keeps w
  name : part.name = flow.name
  steps : ∃ inner : Context, inner.externals = context.externals ∧
    part.steps = (lowerBody inner flow.parameters flow.body flow.stitches).steps

mutual

theorem exists_lowered_planFlow {w : Wording} : ∀ flow : Flow, flow.Keeps w →
    ∀ part ∈ (planFlow context flow).1.parts, ∃ source, Lowered w context part source
  | .mk name kind parameters body stitches range, hkeeps => by
    have hstitches := exists_lowered_planFlows stitches hkeeps.2.2.2.2 []
    intro part hpart
    rw [planFlow, FlowPlan.parts] at hpart
    rcases List.mem_cons.mp hpart with rfl | hpart
    · exact ⟨_, hkeeps, rfl, context.inFlow kind parameters body, rfl, rfl⟩
    · exact hstitches part hpart

theorem exists_lowered_planFlows {w : Wording} : ∀ flows : List Flow, Flow.KeepsEach w flows →
    ∀ seen, ∀ part ∈ FlowPlan.partsEach (planFlows context seen flows).1,
      ∃ source, Lowered w context part source
  | [], _ => fun _ _ hpart => nomatch hpart
  | flow :: rest, hkeeps => by
    have hfirst := exists_lowered_planFlow flow hkeeps.1
    have hrest := exists_lowered_planFlows rest hkeeps.2
    intro seen part hpart
    rw [planFlows] at hpart
    -- A flow that is complained about is left out.
    cases hcomplaint : flowComplaint? seen flow.name with
    | some complaint =>
      rw [hcomplaint] at hpart
      exact hrest seen part hpart
    | none =>
      rw [hcomplaint] at hpart
      rcases List.mem_append.mp hpart with hpart | hpart
      · exact hfirst part hpart
      · exact hrest _ part hpart

end

end Planning

/-! ## The plans of stories -/

theorem Plan.sound_ofStory (file : Option String) (story : Story) :
    (Plan.ofStory file story).Sound := by
  obtain ⟨hflows, hdistinct⟩ :=
    @sound_planFlows (Context.ofStory file story) story.flows []
  exact ⟨fun flow hflow => (hflows flow hflow).1, hdistinct⟩

section Stories

variable {w : Wording} {file : Option String} {story : Story} (hkeeps : story.Keeps w)
include hkeeps

/-- What lowering keeps holds of the code of every passage. -/
theorem Composes.exists_of_code {inner outer : Fragment → List Mention → Prop}
    (h : Composes w (Context.ofStory file story).externals inner outer) {name : Option String}
    {steps : List Step} (hcode : (Plan.ofStory file story).Code name steps) :
    ∃ diagnostics mentions, outer ⟨steps, diagnostics⟩ mentions := by
  -- Which calls are calls of the story's own functions is decided as lowering decides it.
  have hown : Knows (fun name =>
      (CallRule.ofName (Context.ofStory file story).externals name).isFunction)
      (Context.ofStory file story).externals := fun _ => rfl
  cases hcode with
  | main =>
    have hmain : Composes w { Context.ofStory file story with
        locals := declared story.root }.externals inner outer := h
    exact ⟨_, _, hmain.lowerStatements hown hkeeps.root⟩
  | flow hpart =>
    obtain ⟨flow, hflow, -, inner, hexternals, hsteps⟩ :=
      exists_lowered_planFlows _ hkeeps.flows _ _ hpart
    rw [← hexternals] at h hown
    rw [hsteps]
    exact ⟨_, _, h.lowerBody hown flow hflow⟩
  | globals hsome =>
    simp only [Plan.ofStory] at hsome
    split at hsome
    · cases hsome
    · cases hsome
      exact ⟨_, _, h.lowerGlobals hown hkeeps.globals⟩

/-- The containers of a story have the names of its flows, and one name that is kept for it. -/
theorem title_of_code {name : String} {code : List Step}
    (hcode : (Plan.ofStory file story).Code (some name) code) :
    w.text name ∧ w.title name ∨ name = globalsName := by
  cases hcode with
  | flow hpart =>
    obtain ⟨⟨_, _, _, _, _, _⟩, hflow, hname, -⟩ :=
      exists_lowered_planFlows _ hkeeps.flows _ _ hpart
    rw [hname]
    exact Or.inl ⟨hflow.1, hflow.2.1⟩
  | globals _ => exact Or.inr rfl

end Stories

end Narrative.Compiler
