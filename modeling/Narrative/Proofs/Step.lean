/-!
# Steps that may fail

Edits, readings and writings are steps that change a state and may stop with an
error, keeping the state they have reached. These are the laws of running one
step after another.
-/

namespace Narrative

variable {ε σ α β : Type}

/-- The state that a step leaves behind, whether it succeeds or fails. -/
def stateAfter : EStateM.Result ε σ α → σ
  | .ok _ state => state
  | .error _ state => state

@[simp] theorem stateAfter_ok (a : α) (state : σ) :
    stateAfter (.ok a state : EStateM.Result ε σ α) = state := rfl

@[simp] theorem stateAfter_error (error : ε) (state : σ) :
    stateAfter (.error error state : EStateM.Result ε σ α) = state := rfl

/-- Why a step is refused, if it is. -/
def refusal? : EStateM.Result ε σ α → Option ε
  | .ok _ _ => none
  | .error error _ => some error

/-- A step that is refused leaves the state that it started from. -/
def Intact (state : σ) (result : EStateM.Result ε σ α) : Prop :=
  ∀ error, refusal? result = some error → stateAfter result = state

theorem intact_ok (state : σ) (a : α) (after : σ) :
    Intact state (.ok a after : EStateM.Result ε σ α) := by
  intro error h
  cases h

theorem intact_error (state : σ) (error : ε) :
    Intact state (.error error state : EStateM.Result ε σ α) := fun _ _ => rfl

namespace Step

variable {step : EStateM ε σ α} {next : α → EStateM ε σ β} {state after : σ}

theorem bind_eq (step : EStateM ε σ α) (next : α → EStateM ε σ β) (state : σ) :
    (step >>= next) state =
      match step state with
      | .ok a after => next a after
      | .error error after => .error error after := by
  cases h : step state <;> simp [bind, EStateM.bind, h]

theorem bind_ok {a : α} (h : step state = .ok a after) : (step >>= next) state = next a after := by
  rw [bind_eq, h]

theorem exists_of_bind_ok {b : β} (h : (step >>= next) state = .ok b after) :
    ∃ a mid, step state = .ok a mid ∧ next a mid = .ok b after := by
  rw [bind_eq] at h
  cases hstep : step state with
  | ok a mid => exact ⟨a, mid, rfl, by rw [hstep] at h; exact h⟩
  | error error mid =>
    rw [hstep] at h
    cases h

end Step

end Narrative
