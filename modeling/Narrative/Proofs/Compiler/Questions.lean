import Narrative.Proofs.Compiler.Plans

/-!
# Questions about visits

A question about visits is a name that is looked up for the question, and then the
command that asks it. However deep in the arguments of other calls a question stands, the
two are neighbours in the code: no command asks without such a name right before it, and
no name is looked up for a question that does not follow.
-/

namespace Narrative

open Compiler

/-- The question that a leaf asks. -/
def Leaf.asks? : Leaf → Option CountQuery
  | .command .turnsSince => some .turnsSince
  | .command .readCount => some .readCount
  | _ => none

theorem Leaf.asks?_eq_some_iff {leaf : Leaf} {query : CountQuery} :
    leaf.asks? = some query ↔ leaf = .command query.command := by
  constructor
  · intro h
    unfold Leaf.asks? at h
    split at h <;> cases h <;> rfl
  · rintro rfl
    cases query <;> rfl

theorem Word.asks? {w : Wording} {externals : Dict Nat} {leaf : Leaf}
    (h : Word w externals leaf) : leaf.asks? = none := by
  cases h with
  | @command c hplain =>
    cases c with
    | turnsSince | readCount => cases hplain
    | _ => rfl
  | _ => rfl

namespace Compiler

def Step.countedBy? (step : Step) : Option CountQuery :=
  step.lookup.bind fun lookup => lookup.subject.countedBy?

def Step.asks? (step : Step) : Option CountQuery := step.leaf.asks?

/-- What each step asks is what the name in the step before it is looked up for. Nothing stands
before the first step, and nothing follows the last one. -/
def Matched (steps : List Step) : Prop :=
  none :: steps.map Step.countedBy? = steps.map Step.asks? ++ [none]

theorem Matched.append {first second : List Step} (hfirst : Matched first)
    (hsecond : Matched second) : Matched (first ++ second) := by
  have hboth : none :: (first ++ second).map Step.countedBy? =
      first.map Step.asks? ++ none :: second.map Step.countedBy? := by
    rw [List.map_append, ← List.cons_append, hfirst, List.append_assoc, List.singleton_append]
  rw [Matched, hboth, hsecond, ← List.append_assoc, List.map_append]

/-- A name is looked up for the question that the next step asks. -/
theorem Matched.countedBy?_eq {steps : List Step} (h : Matched steps) (k : Nat) :
    steps[k]?.bind Step.countedBy? = steps[k + 1]?.bind Step.asks? := by
  have hat := congrArg (fun questions => questions[k + 1]?.bind id) h
  simp only [List.getElem?_cons_succ, List.getElem?_map, List.getElem?_append, List.length_map,
    Option.bind_map, Function.id_comp] at hat
  rw [hat]
  split
  · rw [Option.bind_map, Function.id_comp]
  · next hend =>
    -- Past the end nothing is asked.
    rw [List.getElem?_eq_none (Nat.not_lt.mp hend)]
    cases k + 1 - steps.length <;> rfl

/-! ## Code -/

/-- Questions are matched in the code of a fragment. -/
def Fragment.Matched (fragment : Fragment) : Prop := Compiler.Matched fragment.steps

/-- A range on the first step changes nothing about questions. -/
theorem Fragment.Matched.located {fragment : Fragment} (h : fragment.Matched)
    (range : Option SourceRange) : (fragment.located range).Matched := by
  obtain ⟨steps, diagnostics⟩ := fragment
  cases steps with
  | nil => exact h
  | cons first rest => exact h

theorem Subject.asks?_placeholder (subject : Subject) : subject.placeholder.asks? = none := by
  cases subject <;> rfl

theorem closed_matched (externals : Dict Nat) :
    Closed {} externals fun fragment _ => fragment.Matched where
  silent := fun _ => rfl
  complaint := fun _ _ _ => rfl
  append := fun hfirst hsecond => Matched.append hfirst hsecond
  word := by
    intro leaf hword range
    change [none, none] = [leaf.asks?, none]
    rw [hword.asks?]
  name := by
    intro subject _ hcounted location range
    change [none, subject.countedBy?] = [subject.placeholder.asks?, none]
    rw [hcounted, subject.asks?_placeholder]
  question := by
    intro subject query _ hcounted location range
    change [none, subject.countedBy?, none] = [subject.placeholder.asks?, Leaf.asks? _, none]
    rw [hcounted, subject.asks?_placeholder, Leaf.asks?_eq_some_iff.mpr rfl]

/-- Questions are matched in all code of a story. -/
theorem matched_of_code {file : Option String} {story : Story} {name : Option String}
    {steps : List Step} (h : (Plan.ofStory file story).Code name steps) : Matched steps := by
  have hcomposes := (closed_matched (Context.ofStory file story).externals).composes rfl rfl
    Fragment.Matched.located
  obtain ⟨_, _, hmatched⟩ := hcomposes.exists_of_code story.keeps_anything h
  exact hmatched

end Compiler

end Narrative
