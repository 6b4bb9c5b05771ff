import Mathlib.Tactic.SplitIfs
import Narrative.Compiler
import Narrative.Proofs.Dict

/-!
# The names that a story mentions

A story mentions a name where it reads a variable, uses an address as a value,
jumps or calls one of its own functions. `mentions` lists what a piece of a story
mentions, in the order in which it is carried out, without regard to how the piece
is lowered. A divert has no arguments, and neither has the jump from a flow without
a body into its first stitch.
-/

namespace Narrative

namespace Compiler

/-- A name in a story that stands for a variable or a flow; a jump has a number of arguments. -/
inductive Mention where
  | reading (name : String)
  | target (name : String)
  | jump (name : String) (mode : JumpMode) (arguments : Nat)
deriving DecidableEq

end Compiler

open Compiler

/-! ## What a story mentions

`own` tells which calls are calls of the story's own functions. -/

mutual

/-- The mentions of an expression. -/
def Expression.mentions (own : String → Bool) : Expression → List Mention
  | .name text => [.reading text]
  | .target text => [.target text]
  | .binary _ left right => left.mentions own ++ right.mentions own
  | .unary _ operand => operand.mentions own
  | .call text arguments _ =>
    Expression.mentionsEach own arguments
      ++ (if own text then [.jump text .function arguments.length] else [])
  | _ => []

def Expression.mentionsEach (own : String → Bool) : List Expression → List Mention
  | [] => []
  | expression :: rest => expression.mentions own ++ Expression.mentionsEach own rest

end

/-- The mentions of a statement; two targets of diverts are commands. -/
def Action.mentions (own : String → Bool) : Action → List Mention
  | .output expression => expression.mentions own
  | .call c => c.toExpression.mentions own
  | .divert target => if target = "DONE" ∨ target = "END" then [] else [.jump target .plain 0]
  | .tunnel target arguments =>
    Expression.mentionsEach own arguments ++ [.jump target .tunnel arguments.length]
  | .giveBack (some value) => value.mentions own
  | .assign _ value _ => value.mentions own
  | _ => []

def Statement.mentionsEach (own : String → Bool) (statements : List Statement) : List Mention :=
  statements.flatMap fun statement => statement.action.mentions own

/-- The mentions of a flow, its stitches apart. A flow without a body leads into its first stitch. -/
def Flow.mentions (own : String → Bool) (flow : Flow) : List Mention :=
  match flow.body, flow.stitches with
  | [], first :: _ => [.jump first.name .plain 0]
  | body, _ => Statement.mentionsEach own body

/-- The mentions of the first values of variables. -/
def GlobalDeclaration.mentionsEach (own : String → Bool) (globals : List GlobalDeclaration) :
    List Mention :=
  globals.flatMap fun declaration => declaration.value.mentions own

/-- Whether a call of this name calls a function of the story: no built-in one and none of its
host. -/
def Story.callsOwn (story : Story) (name : String) : Bool :=
  !isBuiltIn name && !story.externals.any fun external => external.name == name

@[simp] theorem Expression.mentionsEach_singleton (own : String → Bool) (expression : Expression) :
    Expression.mentionsEach own [expression] = expression.mentions own :=
  List.append_nil _

theorem Expression.mentionsEach_append (own : String → Bool) (first second : List Expression) :
    Expression.mentionsEach own (first ++ second) =
      Expression.mentionsEach own first ++ Expression.mentionsEach own second := by
  induction first with
  | nil => rfl
  | cons expression rest ih =>
    rw [List.cons_append, mentionsEach, mentionsEach, ih, List.append_assoc]

namespace Compiler

/-! ## Names to look up -/

namespace Subject

def name : Subject → String
  | reading name _ => name
  | target name _ => name
  | jump name _ _ => name

def mention : Subject → Mention
  | reading name _ => .reading name
  | target name _ => .target name
  | jump name mode arguments => .jump name mode arguments

/-- The question that a name is looked up for. -/
def countedBy? : Subject → Option CountQuery
  | reading _ countedBy => countedBy
  | target _ countedBy => countedBy
  | jump _ _ _ => none

/-- The leaf that stands in for a name until it is looked up. -/
def placeholder : Subject → Leaf
  | reading name _ => .reference (.named name)
  | target name _ => .value (.divertTarget (.parse name))
  | jump name mode _ => .divert (mode.divert (.parse name))

/-- The step that stands in for a name until it is looked up. -/
def step (subject : Subject) (location range : Option SourceRange) : Step :=
  ⟨subject.placeholder, range, some ⟨subject, location⟩⟩

end Subject

/-! ## Calls of functions of the story -/

namespace CallRule

/-- The rule for functions of the story. -/
def isFunction : CallRule → Bool
  | function => true
  | _ => false

theorem isFunction_of_ofName? {name : String} {rule : CallRule}
    (h : ofName? name = some rule) : rule.isFunction = false := by
  simp only [ofName?] at h
  split_ifs at h <;> cases h <;> rfl

end CallRule

theorem callsOwn_eq (story : Story) (file : Option String) (name : String) :
    story.callsOwn name =
      (CallRule.ofName (Context.ofStory file story).externals name).isFunction := by
  rw [Story.callsOwn, isBuiltIn, CallRule.ofName]
  cases hrule : CallRule.ofName? name with
  | some rule => simp [CallRule.isFunction_of_ofName? hrule]
  | none =>
    cases hsymbol : Operator.ofSymbol? name with
    | some o => simp [CallRule.isFunction]
    | none =>
      have hexternal : Dict.get? (Context.ofStory file story).externals name = none ↔
          ∀ external ∈ story.externals, external.name ≠ name := by
        rw [Dict.get?_eq_none_iff, Context.ofStory, Dict.mem_keys_ofList]
        simp [Dict.keys]
      cases hget : Dict.get? (Context.ofStory file story).externals name with
      | none =>
        have hnone := hexternal.mp hget
        simpa [CallRule.isFunction] using hnone
      | some parameters =>
        have hsome : ¬ ∀ external ∈ story.externals, external.name ≠ name :=
          fun hall => Option.some_ne_none _ (hget.symm.trans (hexternal.mpr hall))
        simpa [CallRule.isFunction] using hsome

/-- `own` tells the calls of the story's functions as lowering does. -/
def Knows (own : String → Bool) (externals : Dict Nat) : Prop :=
  ∀ name, own name = (CallRule.ofName externals name).isFunction

end Compiler

end Narrative
