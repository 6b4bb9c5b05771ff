import Narrative.Proofs.Compiler.Plans

/-!
# The leaves of code

The code of a story consists of the words of its wording, of other commands, and of
stand-ins for names. So what holds of these for every story that keeps to a wording holds
of all its code, whether there was something to complain about or not.
-/

namespace Narrative.Compiler

/-- A step has an admitted leaf, or it is the stand-in for an admitted name to look up. -/
structure Step.Meets (L : Leaf → Prop) (S : Subject → Prop) (step : Step) : Prop where
  leaf : step.lookup = none → L step.leaf
  pending : ∀ lookup, step.lookup = some lookup →
    step.leaf = lookup.subject.placeholder ∧ S lookup.subject

/-- The leaves and subjects of code for stories of a wording are admitted. -/
structure Admits (w : Wording) (externals : Dict Nat) (L : Leaf → Prop) (S : Subject → Prop) :
    Prop where
  word : ∀ leaf, Word w externals leaf → L leaf
  command : ∀ command : Command, L (.command command)
  subject : ∀ subject : Subject, w.text subject.name → S subject

/-- Every step of a fragment meets a condition. -/
def Fragment.All (P : Step → Prop) (fragment : Fragment) : Prop := ∀ step ∈ fragment.steps, P step

section Meets

variable {L : Leaf → Prop} {S : Subject → Prop}

theorem all_leaf {leaf : Leaf} (h : L leaf) (range : Option SourceRange) :
    (Fragment.ofStep ⟨leaf, range, none⟩).All (Step.Meets L S) := by
  intro step hstep
  rw [List.mem_singleton.mp hstep]
  exact ⟨fun _ => h, fun _ hlookup => nomatch hlookup⟩

theorem all_step {subject : Subject} (h : S subject) (location range : Option SourceRange) :
    (Fragment.ofStep (subject.step location range)).All (Step.Meets L S) := by
  intro step hstep
  rw [List.mem_singleton.mp hstep]
  refine ⟨fun hlookup => (nomatch hlookup), ?_⟩
  rintro lookup ⟨⟩
  exact ⟨rfl, h⟩

theorem Fragment.All.append {P : Step → Prop} {first second : Fragment} (hfirst : first.All P)
    (hsecond : second.All P) : (first ++ second).All P := by
  intro step hstep
  rcases List.mem_append.mp hstep with hstep | hstep
  · exact hfirst step hstep
  · exact hsecond step hstep

/-- A range on the first step changes nothing about what it is. -/
theorem Fragment.All.located {fragment : Fragment} (h : fragment.All (Step.Meets L S))
    (range : Option SourceRange) : (fragment.located range).All (Step.Meets L S) := by
  obtain ⟨steps, diagnostics⟩ := fragment
  cases steps with
  | nil => exact h
  | cons first rest =>
    intro step hstep
    rcases List.mem_cons.mp hstep with rfl | hstep
    · obtain ⟨hleaf, hpending⟩ := h first List.mem_cons_self
      exact ⟨hleaf, hpending⟩
    · exact h step (List.mem_cons_of_mem _ hstep)

theorem Admits.closed {w : Wording} {externals : Dict Nat} (h : Admits w externals L S) :
    Closed w externals fun fragment _ => fragment.All (Step.Meets L S) where
  silent := fun _ _ hstep => nomatch hstep
  complaint := fun _ _ _ _ hstep => nomatch hstep
  append := Fragment.All.append
  word := fun hword range => all_leaf (h.word _ hword) range
  name := fun subject hname _ location range => all_step (h.subject subject hname) location range
  question := fun subject query hname _ location range =>
    (all_step (h.subject subject hname) location none).append
      (all_leaf (h.command query.command) range)

/-- All code of a story has admitted steps only. -/
theorem Admits.meets_of_code {w : Wording} {file : Option String} {story : Story}
    (h : Admits w (Context.ofStory file story).externals L S) (hkeeps : story.Keeps w)
    {name : Option String} {code : List Step} (hcode : (Plan.ofStory file story).Code name code) :
    ∀ step ∈ code, step.Meets L S := by
  have hcomposes := h.closed.composes (all_leaf (h.command .evalStart) none)
    (all_leaf (h.command .evalEnd) none) Fragment.All.located
  obtain ⟨_, _, hall⟩ := hcomposes.exists_of_code hkeeps hcode
  exact hall

end Meets

end Narrative.Compiler
