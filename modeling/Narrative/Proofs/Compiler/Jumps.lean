import Narrative.Proofs.Compiler.Written

/-!
# The jumps of a story

A story jumps where it diverts, where it enters a tunnel, and where it calls one of its
own functions. The jumps of a piece of a story are those of its mentions, with their
numbers of arguments, in the order in which they are made.

Lowering that complains about nothing makes exactly these jumps. The code of a flow
begins by taking the flow's parameters off the stack, and takes nothing else there.
-/

namespace Narrative

open Compiler

/-- A jump as it is written: where to, how, and with how many arguments. -/
structure Jump where
  name : String
  mode : JumpMode
  arguments : Nat
deriving DecidableEq

def Compiler.Mention.jump? : Mention → Option Jump
  | .jump name mode arguments => some ⟨name, mode, arguments⟩
  | _ => none

/-- The jumps of statements; `own` tells which calls are calls of the story's own functions. -/
def Statement.jumpsEach (own : String → Bool) (statements : List Statement) : List Jump :=
  (Statement.mentionsEach own statements).filterMap Mention.jump?

/-- The jumps of a flow, its stitches apart. -/
def Flow.jumps (own : String → Bool) (flow : Flow) : List Jump :=
  (flow.mentions own).filterMap Mention.jump?

def GlobalDeclaration.jumpsEach (own : String → Bool) (globals : List GlobalDeclaration) :
    List Jump :=
  (GlobalDeclaration.mentionsEach own globals).filterMap Mention.jump?

/-! ## Plain jumps pass nothing -/

/-- A jump that is made without a call has no arguments. -/
def Jump.Bare (jump : Jump) : Prop := jump.mode = .plain → jump.arguments = 0

/-- A plain jump that is mentioned has no arguments. -/
def Compiler.Mention.Bare : Mention → Prop
  | .jump _ .plain arguments => arguments = 0
  | _ => True

theorem Jump.bare_of_mentions {mentions : List Mention} (h : ∀ mention ∈ mentions, mention.Bare)
    {jump : Jump} (hjump : jump ∈ mentions.filterMap Mention.jump?) : jump.Bare := by
  obtain ⟨mention, hmention, hsome⟩ := List.mem_filterMap.mp hjump
  have hbare := h mention hmention
  cases mention with
  | reading | target => cases hsome
  | jump name mode arguments =>
    cases hsome
    rintro rfl
    exact hbare

section Bare

variable (own : String → Bool)

mutual

theorem Expression.bare_mentions : ∀ expression : Expression,
    ∀ mention ∈ expression.mentions own, mention.Bare
  | .int _ | .float _ | .bool _ | .string _ => List.forall_mem_nil _
  | .name _ | .target _ => List.forall_mem_singleton.mpr trivial
  | .binary _ left right => List.forall_mem_append.mpr ⟨left.bare_mentions, right.bare_mentions⟩
  | .unary _ operand => operand.bare_mentions
  | .call text arguments _ => by
    refine List.forall_mem_append.mpr ⟨Expression.bare_mentionsEach arguments, ?_⟩
    split
    · exact List.forall_mem_singleton.mpr trivial
    · exact List.forall_mem_nil _

theorem Expression.bare_mentionsEach : ∀ expressions : List Expression,
    ∀ mention ∈ Expression.mentionsEach own expressions, mention.Bare
  | [] => List.forall_mem_nil _
  | expression :: rest =>
    List.forall_mem_append.mpr ⟨expression.bare_mentions, Expression.bare_mentionsEach rest⟩

end

theorem Action.bare_mentions (action : Action) : ∀ mention ∈ action.mentions own, mention.Bare := by
  cases action with
  | output expression => exact expression.bare_mentions own
  | call c => exact c.toExpression.bare_mentions own
  | divert target =>
    rw [Action.mentions]
    split
    · exact List.forall_mem_nil _
    · exact List.forall_mem_singleton.mpr rfl
  | tunnel target arguments =>
    exact List.forall_mem_append.mpr ⟨Expression.bare_mentionsEach own arguments,
      List.forall_mem_singleton.mpr trivial⟩
  | giveBack value =>
    cases value with
    | none => exact List.forall_mem_nil _
    | some expression => exact expression.bare_mentions own
  | assign name value isNew => exact value.bare_mentions own
  | _ => exact List.forall_mem_nil _

theorem Statement.bare_mentionsEach (statements : List Statement) :
    ∀ mention ∈ Statement.mentionsEach own statements, mention.Bare := by
  intro mention hmention
  obtain ⟨statement, -, hmention⟩ := List.mem_flatMap.mp hmention
  exact statement.action.bare_mentions own mention hmention

theorem Flow.bare_mentions (flow : Flow) : ∀ mention ∈ flow.mentions own, mention.Bare := by
  rw [Flow.mentions]
  split
  · exact List.forall_mem_singleton.mpr rfl
  · exact Statement.bare_mentionsEach own _

theorem GlobalDeclaration.bare_mentionsEach (globals : List GlobalDeclaration) :
    ∀ mention ∈ GlobalDeclaration.mentionsEach own globals, mention.Bare := by
  intro mention hmention
  obtain ⟨declaration, -, hmention⟩ := List.mem_flatMap.mp hmention
  exact declaration.value.bare_mentions own mention hmention

end Bare

namespace Compiler

/-! ## The jumps of code -/

/-- The jump that a step makes once its name is looked up. -/
def Step.jump? (step : Step) : Option Jump :=
  match step.lookup.map Lookup.subject with
  | some (.jump name mode arguments) => some ⟨name, mode, arguments⟩
  | _ => none

theorem Step.jump?_eq {step : Step} {lookup : Lookup} (h : step.lookup = some lookup) :
    step.jump? = lookup.subject.mention.jump? := by
  rw [Step.jump?, h, Option.map_some]
  cases lookup.subject <;> rfl

theorem Step.exists_of_jump? {step : Step} {name : String} {mode : JumpMode} {arguments : Nat}
    (h : step.jump? = some ⟨name, mode, arguments⟩) :
    ∃ lookup, step.lookup = some lookup ∧ lookup.subject = .jump name mode arguments := by
  rw [Step.jump?] at h
  split at h
  · next hsubject =>
    obtain ⟨lookup, hlookup, hjump⟩ := Option.map_eq_some_iff.mp hsubject
    cases h
    exact ⟨lookup, hlookup, hjump⟩
  · cases h

/-- Code makes the jumps that it mentions. -/
theorem Written.jumps {steps : List Step} {mentions : List Mention} (h : Written steps mentions) :
    steps.filterMap Step.jump? = mentions.filterMap Mention.jump? := by
  induction h with
  | nil => rfl
  | @plain step _ _ hlookup _ _ ih =>
    have hnone : step.jump? = none := by
      rw [Step.jump?, hlookup]
      rfl
    rw [List.filterMap_cons_none hnone, ih]
  | pending hlookup _ _ ih =>
    rw [List.filterMap_cons, List.filterMap_cons, Step.jump?_eq hlookup, ih]

/-! ## What a flow takes off the stack -/

/-- The code of parameters, the last one first. -/
theorem steps_lowerParameters (parameters : List String) :
    (lowerParameters parameters).steps =
      parameters.reverse.map fun name => { leaf := .assignment ⟨name, false, true⟩ } := by
  rw [lowerParameters]
  induction parameters.reverse with
  | nil => rfl
  | cons first rest ih =>
    rw [List.map_cons, List.map_cons, ← ih]
    rfl

end Compiler

/-- The temporary variable that a leaf takes its first value for off the stack. -/
def Leaf.taken? : Leaf → Option String
  | .assignment ⟨name, false, true⟩ => some name
  | _ => none

/-- The names before the first place without one. -/
def leadingNames : List (Option String) → List String
  | some name :: rest => name :: leadingNames rest
  | _ => []

theorem leadingNames_map_append (names : List String) {rest : List (Option String)}
    (hrest : rest.head?.join = none) : leadingNames (names.map some ++ rest) = names := by
  induction names with
  | nil =>
    cases rest with
    | nil => rfl
    | cons first others =>
      cases first with
      | none => rfl
      | some name => cases hrest
  | cons name others ih =>
    rw [List.map_cons, List.cons_append, leadingNames, ih]

namespace Compiler

/-- A fragment does not begin by taking a value for a temporary variable. -/
def Fragment.Keeping (fragment : Fragment) : Prop :=
  (fragment.steps.map fun step => step.leaf.taken?).head?.join = none

namespace Fragment

theorem keeping_nil (diagnostics : List Diagnostic) : Keeping ⟨[], diagnostics⟩ := rfl

theorem Keeping.append {first second : Fragment} (hfirst : first.Keeping)
    (hsecond : second.Keeping) : (first ++ second).Keeping := by
  obtain ⟨steps, diagnostics⟩ := first
  cases steps with
  | nil => exact hsecond
  | cons step rest => exact hfirst

theorem Keeping.located {fragment : Fragment} (h : fragment.Keeping)
    (range : Option SourceRange) : (fragment.located range).Keeping := by
  obtain ⟨steps, diagnostics⟩ := fragment
  cases steps with
  | nil => exact h
  | cons first rest => exact h

theorem keeping_concat {fragments : List Fragment} (h : ∀ fragment ∈ fragments, fragment.Keeping) :
    (concat fragments).Keeping := by
  induction fragments with
  | nil => exact keeping_nil []
  | cons first rest ih =>
    exact (h first List.mem_cons_self).append
      (ih fun fragment hfragment => h fragment (List.mem_cons_of_mem _ hfragment))

end Fragment

variable (context : Context)

theorem keeping_lowerReturn (value : Option Expression) : (lowerReturn context value).Keeping := by
  cases value <;> rfl

theorem keeping_lowerAction (action : Action) : (lowerAction context action).Keeping := by
  cases action with
  | divert target =>
    rw [lowerAction, lowerDivert]
    split
    · rfl
    · split <;> rfl
  | tunnel target arguments =>
    cases arguments with
    | nil => rfl
    | cons first rest => rfl
  | giveBack value =>
    rw [lowerAction]
    split
    · exact keeping_lowerReturn context value
    · rfl
  | assign name value isNew =>
    rw [lowerAction]
    split <;> rfl
  | _ => rfl

/-- The code of a flow takes its parameters off the stack, the last one first, before anything
else. -/
theorem leadingNames_lowerBody (parameters : List String) (body : List Statement)
    (stitches : List Flow) :
    leadingNames ((lowerBody context parameters body stitches).steps.map
      fun step => step.leaf.taken?) = parameters.reverse := by
  have hentry : (lowerEntry context body stitches).Keeping := by
    unfold lowerEntry
    split <;> rfl
  have hbody : (lowerStatements context body).Keeping := by
    refine Fragment.keeping_concat fun fragment hfragment => ?_
    obtain ⟨statement, -, rfl⟩ := List.mem_map.mp hfragment
    exact (keeping_lowerAction _ statement.action).located _
  have hreturn : (if context.isFunction && !endsWithReturn body then lowerReturn context none
      else .empty : Fragment).Keeping := by
    split
    · exact keeping_lowerReturn context none
    · rfl
  have htaken : (lowerParameters parameters).steps.map (fun step => step.leaf.taken?) =
      parameters.reverse.map some := by
    rw [steps_lowerParameters, List.map_map]
    rfl
  have hsteps : (lowerBody context parameters body stitches).steps =
      (lowerParameters parameters).steps ++ (lowerEntry context body stitches
        ++ (lowerStatements context body
          ++ (if context.isFunction && !endsWithReturn body then lowerReturn context none
            else .empty))).steps := by
    rw [lowerBody, Fragment.append_assoc, Fragment.append_assoc]
    rfl
  rw [hsteps, List.map_append, htaken]
  exact leadingNames_map_append _ (hentry.append (hbody.append hreturn))

end Compiler

end Narrative
