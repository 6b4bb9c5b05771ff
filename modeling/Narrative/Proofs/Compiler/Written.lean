import Narrative.Proofs.Compiler.Plans

/-!
# Mentions and pending steps

Lowering that complains about nothing leaves one pending step for each mention, in
that order, and no other step refers to anything.
-/

namespace Narrative

/-- Whether a leaf leads somewhere in the story or to a variable. -/
def Leaf.refers : Leaf → Bool
  | divert d => !d.isExternal
  | value (.divertTarget _) => true
  | reference _ => true
  | _ => false

theorem Word.refers {w : Wording} {externals : Dict Nat} {leaf : Leaf}
    (h : Word w externals leaf) : leaf.refers = false := by
  cases h <;> rfl

namespace Compiler

/-- The steps have one pending step for each mention, in order, and the others refer to nothing. -/
inductive Written : List Step → List Mention → Prop where
  | nil : Written [] []
  | plain {step : Step} {rest : List Step} {mentions : List Mention} : step.lookup = none →
      step.leaf.refers = false → Written rest mentions → Written (step :: rest) mentions
  | pending {step : Step} {lookup : Lookup} {rest : List Step} {mentions : List Mention} :
      step.lookup = some lookup → step.leaf = lookup.subject.placeholder → Written rest mentions →
      Written (step :: rest) (lookup.subject.mention :: mentions)

theorem Written.append {first second : List Step} {before after : List Mention}
    (hfirst : Written first before) (hsecond : Written second after) :
    Written (first ++ second) (before ++ after) := by
  induction hfirst with
  | nil => exact hsecond
  | plain hlookup hleaf _ ih => exact .plain hlookup hleaf ih
  | pending hlookup hleaf _ ih => exact .pending hlookup hleaf ih

theorem written_step (subject : Subject) (location range : Option SourceRange) :
    Written [subject.step location range] [subject.mention] :=
  @Written.pending _ ⟨subject, location⟩ _ _ rfl rfl .nil

theorem Written.not_refers_of_mem {steps : List Step} {mentions : List Mention}
    (h : Written steps mentions) {step : Step} (hstep : step ∈ steps) (hnone : step.lookup = none) :
    step.leaf.refers = false := by
  induction h with
  | nil => cases hstep
  | plain _ hleaf _ ih =>
    rcases List.mem_cons.mp hstep with rfl | hstep
    · exact hleaf
    · exact ih hstep
  | pending hlookup _ _ ih =>
    rcases List.mem_cons.mp hstep with rfl | hstep
    · cases hlookup.symm.trans hnone
    · exact ih hstep

namespace Fragment

/-- Unless it has an error, a fragment has the pending steps of the mentions. -/
def Lowers (fragment : Fragment) (mentions : List Mention) : Prop :=
  Clean fragment.diagnostics → Written fragment.steps mentions

/-- A range on the first step changes nothing about names. -/
theorem Lowers.located {fragment : Fragment} {mentions : List Mention} (h : fragment.Lowers mentions)
    (range : Option SourceRange) : (fragment.located range).Lowers mentions := by
  obtain ⟨steps, diagnostics⟩ := fragment
  cases steps with
  | nil => exact h
  | cons first rest =>
    intro hclean
    cases h hclean with
    | plain hlookup hleaf hrest => exact .plain hlookup hleaf hrest
    | pending hlookup hleaf hrest => exact .pending hlookup hleaf hrest

end Fragment

theorem closed_lowers (w : Wording) (externals : Dict Nat) :
    Closed w externals Fragment.Lowers where
  silent := fun _ _ => .nil
  complaint := fun complaint _ _ hclean => absurd hclean (complaint.not_clean _ [])
  append := by
    intro first second before after hfirst hsecond hclean
    obtain ⟨hleft, hright⟩ := clean_append.mp hclean
    exact (hfirst hleft).append (hsecond hright)
  word := fun hword _ _ => .plain rfl hword.refers .nil
  name := fun subject _ _ location range _ => written_step subject location range
  question := fun subject _ _ _ location _ _ =>
    (written_step subject location none).append (.plain rfl rfl .nil)

/-- Code without errors has a pending step for each mention of what it was lowered from. -/
theorem composes_lowers (w : Wording) (externals : Dict Nat) :
    Composes w externals Fragment.Lowers Fragment.Lowers :=
  (closed_lowers w externals).composes (fun _ => .plain rfl rfl .nil)
    (fun _ => .plain rfl rfl .nil) Fragment.Lowers.located

theorem written_planFlow {context : Context} {own : String → Bool}
    (hown : Knows own context.externals) {flow : Flow} (h : Clean (planFlow context flow).2) :
    Written (planFlow context flow).1.steps (flow.mentions own) := by
  obtain ⟨name, kind, parameters, body, stitches, range⟩ := flow
  rw [planFlow] at h ⊢
  have hinner : Composes {} (context.inFlow kind parameters body).externals Fragment.Lowers
      Fragment.Lowers := composes_lowers _ _
  exact hinner.lowerBody hown (.mk name kind parameters body stitches range) (Flow.keeps_anything _)
    (clean_append.mp h).1

/-- Lowering a story reports no error. -/
structure Faultless (file : Option String) (story : Story) : Prop where
  main : Clean (lowerStatements
    { Context.ofStory file story with locals := declared story.root } story.root).diagnostics
  flows : Clean (planFlows (Context.ofStory file story) [] story.flows).2
  globals : story.globals ≠ [] →
    Clean (lowerGlobals (Context.ofStory file story) story.globals).diagnostics

theorem faultless_of_clean {file : Option String} {story : Story}
    (hplan : Clean (Plan.ofStory file story).diagnostics)
    (hglobals : ∀ fragment, (Plan.ofStory file story).globals = some fragment →
      Clean fragment.diagnostics) : Faultless file story := by
  obtain ⟨hbefore, hflows⟩ := clean_append.mp hplan
  refine ⟨(clean_append.mp hbefore).2, hflows, fun hsome => hglobals _ ?_⟩
  simp [Plan.ofStory, hsome]

namespace Faultless

variable {file : Option String} {story : Story} (h : Faultless file story)
include h

theorem written_main : Written (Plan.ofStory file story).main
    (Statement.mentionsEach story.callsOwn story.root) := by
  have hmain : Composes {} { Context.ofStory file story with
      locals := declared story.root }.externals Fragment.Lowers Fragment.Lowers :=
    composes_lowers _ _
  exact hmain.lowerStatements (callsOwn_eq story file) (fun _ _ => Action.keeps_anything _) h.main

theorem written_globals (hsome : story.globals ≠ []) :
    Written (lowerGlobals (Context.ofStory file story) story.globals).steps
      (GlobalDeclaration.mentionsEach story.callsOwn story.globals) :=
  (composes_lowers {} _).lowerGlobals (callsOwn_eq story file)
    (fun declaration _ => ⟨trivial, declaration.value.keeps_anything⟩) (h.globals hsome)

end Faultless

end Compiler

end Narrative
