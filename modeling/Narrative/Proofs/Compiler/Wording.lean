import Narrative.Compiler

/-!
# What is written in a story

A wording says what may be written in a story: which strings and names, which numbers
with a fraction, which calls. The words of a story are the leaves that its code may have
besides the stand-ins for names, the questions about visits and the commands that start
and end evaluation.
-/

namespace Narrative

open Compiler

/-- What may be written in a story. -/
structure Wording where
  /-- Strings and names. -/
  text : String → Prop := fun _ => True
  /-- Numbers with a fraction, a sign apart. -/
  float : Single → Prop := fun _ => True
  /-- Calls, by their names and their numbers of arguments. -/
  call : String → Nat → Prop := fun _ _ => True
  /-- Names of flows and of functions of the host. -/
  title : String → Prop := fun _ => True

mutual

/-- An expression has nothing in it but what the wording allows. -/
def Expression.Keeps (w : Wording) : Expression → Prop
  | .float x => w.float x
  | .string text => w.text text
  | .name text => w.text text
  | .target text => w.text text
  | .binary _ left right => left.Keeps w ∧ right.Keeps w
  | .unary _ operand => operand.Keeps w
  | .call text arguments _ =>
    w.text text ∧ w.call text arguments.length ∧ Expression.KeepsEach w arguments
  | _ => True

def Expression.KeepsEach (w : Wording) : List Expression → Prop
  | [] => True
  | expression :: rest => expression.Keeps w ∧ Expression.KeepsEach w rest

end

def Action.Keeps (w : Wording) : Action → Prop
  | .text words => w.text words
  | .tag words => w.text words
  | .output expression => expression.Keeps w
  | .call c => c.toExpression.Keeps w
  | .divert target => w.text target
  | .tunnel target arguments => w.text target ∧ Expression.KeepsEach w arguments
  | .giveBack (some value) => value.Keeps w
  | .assign name value _ => w.text name ∧ value.Keeps w
  | .note words => w.text words
  | _ => True

mutual

def Flow.Keeps (w : Wording) : Flow → Prop
  | .mk name _ parameters body stitches _ =>
    w.text name ∧ w.title name ∧ (∀ parameter ∈ parameters, w.text parameter) ∧
      (∀ statement ∈ body, statement.action.Keeps w) ∧ Flow.KeepsEach w stitches

def Flow.KeepsEach (w : Wording) : List Flow → Prop
  | [] => True
  | flow :: rest => flow.Keeps w ∧ Flow.KeepsEach w rest

end

/-- A story has nothing in it but what the wording allows. -/
structure Story.Keeps (w : Wording) (story : Story) : Prop where
  root : ∀ statement ∈ story.root, statement.action.Keeps w
  flows : Flow.KeepsEach w story.flows
  globals : ∀ declaration ∈ story.globals, w.text declaration.name ∧ declaration.value.Keeps w
  externals : ∀ external ∈ story.externals, w.text external.name ∧ w.title external.name ∧
    ∀ parameter ∈ external.parameters, w.text parameter

theorem Expression.keepsEach_append {w : Wording} {first second : List Expression} :
    Expression.KeepsEach w (first ++ second) ↔
      Expression.KeepsEach w first ∧ Expression.KeepsEach w second := by
  induction first with
  | nil => simp [KeepsEach]
  | cons expression rest ih => simp only [List.cons_append, KeepsEach, ih, and_assoc]

/-! ## Everything may be written -/

mutual

theorem Expression.keeps_anything : ∀ expression : Expression, expression.Keeps {}
  | .int _ | .float _ | .bool _ | .string _ | .name _ | .target _ => trivial
  | .binary _ left right => ⟨left.keeps_anything, right.keeps_anything⟩
  | .unary _ operand => operand.keeps_anything
  | .call _ arguments _ => ⟨trivial, trivial, Expression.keepsEach_anything arguments⟩

theorem Expression.keepsEach_anything :
    ∀ expressions : List Expression, Expression.KeepsEach {} expressions
  | [] => trivial
  | expression :: rest => ⟨expression.keeps_anything, Expression.keepsEach_anything rest⟩

end

theorem Action.keeps_anything (action : Action) : action.Keeps {} := by
  cases action with
  | output expression => exact expression.keeps_anything
  | call c => exact c.toExpression.keeps_anything
  | tunnel target arguments => exact ⟨trivial, Expression.keepsEach_anything arguments⟩
  | giveBack value =>
    cases value with
    | none => trivial
    | some expression => exact expression.keeps_anything
  | assign name value isNew => exact ⟨trivial, value.keeps_anything⟩
  | _ => trivial

mutual

theorem Flow.keeps_anything : ∀ flow : Flow, flow.Keeps {}
  | .mk _ _ _ _ stitches _ => ⟨trivial, trivial, fun _ _ => trivial,
      fun statement _ => statement.action.keeps_anything, Flow.keepsEach_anything stitches⟩

theorem Flow.keepsEach_anything : ∀ flows : List Flow, Flow.KeepsEach {} flows
  | [] => trivial
  | flow :: rest => ⟨flow.keeps_anything, Flow.keepsEach_anything rest⟩

end

theorem Story.keeps_anything (story : Story) : story.Keeps {} where
  root := fun statement _ => statement.action.keeps_anything
  flows := Flow.keepsEach_anything story.flows
  globals := fun declaration _ => ⟨trivial, declaration.value.keeps_anything⟩
  externals := fun _ _ => ⟨trivial, trivial, fun _ _ => trivial⟩

/-! ## Words -/

/-- A command that neither starts or ends evaluation nor asks about visits. -/
def Command.isPlain : Command → Bool
  | evalStart | evalEnd | turnsSince | readCount => false
  | _ => true

/-- A leaf that the code of a story of the wording may have anywhere. -/
inductive Word (w : Wording) (externals : Dict Nat) : Leaf → Prop where
  | command {c : Command} : c.isPlain = true → Word w externals (.command c)
  | operator (o : Operator) : Word w externals (.operator o)
  | int (n : Int32) : Word w externals (.value (.int n))
  | bool (b : Bool) : Word w externals (.value (.bool b))
  | float {x : Single} : w.float x → Word w externals (.value (.float x))
  | negated {x : Single} : w.float x → Word w externals (.value (.float x.negate))
  | string {text : String} : w.text text → Word w externals (.value (.string text))
  | newline : Word w externals (.value (.string "\n"))
  | glue : Word w externals .glue
  | void : Word w externals .void
  | tag {text : String} : w.text text → Word w externals (.tag text)
  | assignment {a : Assignment} : w.text a.name → Word w externals (.assignment a)
  | external {name : String} {arguments : Nat} : (Dict.get? externals name).isSome = true →
      w.call name arguments → Word w externals (.divert (.external name (UInt32.ofNat arguments)))

end Narrative
