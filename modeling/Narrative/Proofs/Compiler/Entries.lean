import Mathlib.Data.List.Forall2
import Narrative.Compiler.Placement

/-!
# Entries

The entries of a tree say which step stands at which node, in which container and in
which scope. Steps that are placed one after the other have nodes that follow each other.
-/

namespace Narrative.Compiler

/-- A step at its place. -/
structure Entry where
  node : NodeId
  /-- The container that the step stands in. -/
  holder : NodeId
  scope : Scope
  step : Step

/-- The entry as a reference, if its name is still to be looked up. -/
def Entry.reference? (entry : Entry) : Option Reference :=
  entry.step.lookup.map fun lookup => { node := entry.node, scope := entry.scope, lookup }

/-- The node of a step in a container. -/
def Step.toNode (step : Step) (c : NodeId) : Node := ⟨some c, step.range, .leaf step.leaf⟩

/-! ## References -/

theorem mem_references {entries : List Entry} {reference : Reference} :
    reference ∈ entries.filterMap Entry.reference? ↔ ∃ entry ∈ entries, ∃ lookup,
      entry.step.lookup = some lookup ∧ reference = ⟨entry.node, entry.scope, lookup⟩ := by
  simp only [List.mem_filterMap, Entry.reference?, Option.map_eq_some_iff,
    @eq_comm _ reference]

theorem sublist_references (entries : List Entry) :
    ((entries.filterMap Entry.reference?).map Reference.node).Sublist (entries.map Entry.node) := by
  induction entries with
  | nil => exact .slnil
  | cons entry rest ih =>
    rw [List.filterMap_cons, Entry.reference?]
    cases entry.step.lookup with
    | none => exact ih.cons _
    | some lookup => exact ih.cons_cons _

/-! ## Steps that follow each other -/

/-- The entries of steps whose nodes follow each other. -/
def entriesFrom (c : NodeId) (scope : Scope) : (place : Nat) → List Step → List Entry
  | _, [] => []
  | place, step :: rest => ⟨place, c, scope, step⟩ :: entriesFrom c scope (place + 1) rest

theorem map_node_entriesFrom (c : NodeId) (scope : Scope) (place : Nat) (steps : List Step) :
    (entriesFrom c scope place steps).map Entry.node = List.range' place steps.length := by
  induction steps generalizing place with
  | nil => rfl
  | cons step rest ih =>
    rw [entriesFrom, List.map_cons, ih, List.length_cons, List.range'_succ]

theorem exists_step_of_mem {c : NodeId} {scope : Scope} {place : Nat} {steps : List Step}
    {entry : Entry} (h : entry ∈ entriesFrom c scope place steps) :
    entry.holder = c ∧ entry.scope = scope ∧
      ∃ k, steps[k]? = some entry.step ∧ entry.node = place + k := by
  induction steps generalizing place with
  | nil => cases h
  | cons step rest ih =>
    rw [entriesFrom, List.mem_cons] at h
    rcases h with rfl | h
    · exact ⟨rfl, rfl, 0, rfl, rfl⟩
    · obtain ⟨hholder, hscope, k, hstep, hnode⟩ := ih h
      exact ⟨hholder, hscope, k + 1, hstep, hnode.trans (Nat.add_right_comm place 1 k)⟩

theorem node_mem_range' {c : NodeId} {scope : Scope} {place : Nat} {steps : List Step}
    {entry : Entry} (h : entry ∈ entriesFrom c scope place steps) :
    entry.node ∈ List.range' place steps.length := by
  rw [← map_node_entriesFrom c scope]
  exact List.mem_map_of_mem h

theorem forall₂_entriesFrom (c : NodeId) (scope : Scope) (place : Nat) (steps : List Step) :
    List.Forall₂ (fun step node => ⟨node, c, scope, step⟩ ∈ entriesFrom c scope place steps) steps
      (List.range' place steps.length) := by
  induction steps generalizing place with
  | nil => exact .nil
  | cons step rest ih =>
    rw [entriesFrom, List.length_cons, List.range'_succ]
    exact .cons List.mem_cons_self ((ih (place + 1)).imp fun _ _ h => List.mem_cons_of_mem _ h)

end Narrative.Compiler
