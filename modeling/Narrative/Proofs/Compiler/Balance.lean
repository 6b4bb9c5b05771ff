import Mathlib.Algebra.Group.Nat.Defs
import Narrative.Proofs.Compiler.Composition

/-!
# The evaluation stack

What each step does to the evaluation stack, as a machine that only counts values. A
step that has to take more values than there are stops the machine, so code that runs
from an empty stack never takes what was there before it.

The code of an expression that is not complained about leaves one value, and the code of
a call whose value nobody uses leaves none.
-/

namespace Narrative

open Compiler

/-- How many values are taken off the stack, and how many are put there. -/
structure StackEffect where
  pops : Nat
  pushes : Nat

/-- The effect of a command outside of strings; `none` where it has no fixed one. -/
def Command.effect? : Command → Option StackEffect
  | choiceCount | turns => some ⟨0, 1⟩
  | turnsSince | readCount | seedRandom => some ⟨1, 1⟩
  | random => some ⟨2, 1⟩
  | popEvaluatedValue => some ⟨1, 0⟩
  | _ => none

theorem BinaryOperator.arity_operator (op : BinaryOperator) : op.operator.arity = 2 := by
  cases op <;> rfl

theorem UnaryOperator.arity_operator (op : UnaryOperator) : op.operator.arity = 1 := by
  cases op <;> rfl

namespace Compiler

/-- The effect of a step outside of strings. The arguments of a call of the story are those that its
lookup counts. -/
def Step.effect? (step : Step) : Option StackEffect :=
  match step.leaf with
  | .value _ => some ⟨0, 1⟩
  | .reference _ => some ⟨0, 1⟩
  | .operator o => some ⟨o.arity, 1⟩
  | .command c => c.effect?
  | .divert d =>
    if d.isExternal then some ⟨d.externalArguments.toNat, 1⟩
    else match step.lookup.map Lookup.subject with
      | some (.jump _ .function arguments) => some ⟨arguments, 1⟩
      | _ => none
  | _ => none

/-- Where the machine stands in a string. -/
inductive Quoting where
  | outside
  | opened
  | filled
deriving DecidableEq

/-- The number of values on the stack, and where the machine stands in a string. -/
structure StackState where
  height : Nat
  quoting : Quoting := .outside
deriving DecidableEq

namespace StackState

/-- Performs an effect, unless there are too few values. -/
def after? (state : StackState) (effect : StackEffect) : Option StackState :=
  if effect.pops ≤ state.height then
    some { state with height := state.height - effect.pops + effect.pushes }
  else none

/-- Performs a step. A string stands between two commands, the second of which puts it on the
stack. -/
def perform? (state : StackState) (step : Step) : Option StackState :=
  match state.quoting with
  | .outside =>
    if step.leaf = .command .beginString then some { state with quoting := .opened }
    else step.effect?.bind state.after?
  | .opened =>
    match step.leaf with
    | .value (.string _) => some { state with quoting := .filled }
    | _ => none
  | .filled =>
    if step.leaf = .command .endString then some { height := state.height + 1 } else none

def performAll? : StackState → List Step → Option StackState
  | state, [] => some state
  | state, step :: rest => (state.perform? step).bind fun next => performAll? next rest

theorem performAll?_append (state : StackState) (first second : List Step) :
    state.performAll? (first ++ second) =
      (state.performAll? first).bind fun next => next.performAll? second := by
  induction first generalizing state with
  | nil => rfl
  | cons step rest ih =>
    rw [List.cons_append, performAll?, performAll?, Option.bind_assoc]
    simp only [ih]

end StackState

namespace Fragment

/-- Unless it has an error, a fragment puts so many values on the stack, whatever is there. -/
def Pushes (fragment : Fragment) (values : Nat) : Prop :=
  Clean fragment.diagnostics → ∀ height,
    StackState.performAll? ⟨height, .outside⟩ fragment.steps = some ⟨height + values, .outside⟩

theorem pushes_empty : empty.Pushes 0 := fun _ _ => rfl

theorem Pushes.append {first second : Fragment} {m n : Nat} (hfirst : first.Pushes m)
    (hsecond : second.Pushes n) : (first ++ second).Pushes (m + n) := by
  intro hclean height
  obtain ⟨hleft, hright⟩ := clean_append.mp hclean
  have hboth := StackState.performAll?_append ⟨height, .outside⟩ first.steps second.steps
  rw [hfirst hleft, Option.bind_some, hsecond hright, Nat.add_assoc] at hboth
  exact hboth

/-- A step takes the values that the code before it has put on the stack. -/
theorem Pushes.step {before : Fragment} {pops pushes : Nat} (h : before.Pushes pops) {step : Step}
    (hstep : step.effect? = some ⟨pops, pushes⟩) : (before ++ ofStep step).Pushes pushes := by
  intro hclean height
  have hbegin : step.leaf ≠ .command .beginString := by
    intro hleaf
    rw [Step.effect?, hleaf] at hstep
    cases hstep
  have happly : StackState.after? ⟨height + pops, .outside⟩ ⟨pops, pushes⟩ =
      some ⟨height + pushes, .outside⟩ := by
    rw [StackState.after?, if_pos (Nat.le_add_left _ _), Nat.add_sub_cancel]
  have hperform : StackState.perform? ⟨height + pops, .outside⟩ step =
      some ⟨height + pushes, .outside⟩ := by
    simp only [StackState.perform?, if_neg hbegin, hstep, Option.bind_some, happly]
  have hboth := StackState.performAll?_append ⟨height, .outside⟩ before.steps [step]
  rw [h (clean_append.mp hclean).1, Option.bind_some, StackState.performAll?, hperform] at hboth
  exact hboth

theorem pushes_step {step : Step} {values : Nat} (hstep : step.effect? = some ⟨0, values⟩) :
    (ofStep step).Pushes values :=
  pushes_empty.step hstep

end Fragment

/-! ## Expressions -/

/-- Functions of the host are passed no more arguments than a divert can count. -/
def Context.wording (context : Context) : Wording where
  call := fun name arguments =>
    (Dict.get? context.externals name).isSome = true → arguments < 2 ^ 32

section Expressions

variable {context : Context}

theorem effect?_operator (o : Operator) {arity : Nat} (h : o.arity = arity) :
    Step.effect? { leaf := .operator o } = some ⟨arity, 1⟩ :=
  h ▸ rfl

/-- The step that makes a call takes the arguments and leaves one value. A function of the host must
be passed no more arguments than its divert can count. -/
theorem CallStep.effect? {call : Call} {rule : CallRule} {step : Step} {arguments : Nat}
    (h : CallStep context call rule step arguments)
    (hcall : context.wording.call call.name call.arguments.length) (range : Option SourceRange) :
    Step.effect? { step with range } = some ⟨arguments, 1⟩ := by
  cases h with
  | constant hcommand => rcases hcommand with rfl | rfl <;> rfl
  | random | seed | operator | function => rfl
  | external hexternal =>
    have hcount : (UInt32.ofNat call.arguments.length).toNat = call.arguments.length := by
      rw [UInt32.toNat_ofNat', Nat.mod_eq_of_lt (hcall (Option.isSome_of_eq_some hexternal))]
    simp only [Step.effect?, Divert.external, hcount, if_true]

/-- Code without errors leaves one value for each expression. -/
theorem evaluates_pushes : Evaluates context fun code expressions =>
    Expression.KeepsEach context.wording expressions → code.Pushes expressions.length where
  empty := fun _ => Fragment.pushes_empty
  append := by
    intro first second before after hfirst hsecond hkeeps
    obtain ⟨hbefore, hafter⟩ := Expression.keepsEach_append.mp hkeeps
    rw [List.length_append]
    exact (hfirst hbefore).append (hsecond hafter)
  complain := fun complaint _ _ _ hclean => absurd hclean (complaint.not_clean _ [])
  literal := fun _ _ => Fragment.pushes_step rfl
  string := fun _ _ _ _ => rfl
  name := by
    rintro expression subject (name | name) -
    · exact Fragment.pushes_step rfl
    · exact Fragment.pushes_step rfl
  binary := by
    rintro code op left right hcode ⟨⟨hleft, hright⟩, -⟩
    exact (hcode ⟨hleft, hright, trivial⟩).step (effect?_operator _ op.arity_operator)
  unary := by
    rintro code op operand hcode ⟨hkeeps, -⟩
    exact (hcode ⟨hkeeps, trivial⟩).step (effect?_operator _ op.arity_operator)
  question := by
    rintro call query expression subject range - - hnames -
    have hname : (Fragment.ofStep (subject.step context.location none)).Pushes 1 := by
      cases hnames with
      | reading => exact Fragment.pushes_step rfl
      | target => exact Fragment.pushes_step rfl
    refine hname.step ?_
    cases query <;> rfl
  call := by
    rintro call before step arguments range hstep hbefore hfits ⟨⟨-, hcall, harguments⟩, -⟩ hclean
    have heffect := hstep.effect? hcall range
    rw [hfits (clean_append.mp hclean).1] at heffect
    exact (hbefore harguments).step heffect hclean

/-- The code of an expression leaves one value. -/
theorem pushes_lower {expression : Expression} (hkeeps : expression.Keeps context.wording) :
    (lower context expression).Pushes 1 :=
  evaluates_pushes.lower expression ⟨hkeeps, trivial⟩

/-- The code of a call whose value nobody uses leaves none. -/
theorem pushes_lowerCall {call : Call} (hkeeps : call.toExpression.Keeps context.wording) :
    (lowerCall context call (lowerEach context call.arguments) true).Pushes 0 := by
  rcases lowerCall_true context call (lowerEach context call.arguments) with
    ⟨complaint, range, hcode⟩ | hcode
  · rw [hcode]
    exact fun hclean => absurd hclean (complaint.not_clean _ [])
  · rw [hcode]
    exact (pushes_lower hkeeps).step rfl

/-- A call whose value nobody uses drops it last. -/
theorem getLast?_lowerCall {call : Call} {lowered : List Fragment}
    (hclean : Clean (lowerCall context call lowered true).diagnostics) :
    (lowerCall context call lowered true).steps.getLast? =
      some { leaf := .command .popEvaluatedValue } := by
  rcases lowerCall_true context call lowered with ⟨complaint, range, hcode⟩ | hcode
  · rw [hcode] at hclean
    exact absurd hclean (complaint.not_clean _ [])
  · rw [hcode]
    exact List.getLast?_concat

end Expressions

end Compiler

end Narrative
