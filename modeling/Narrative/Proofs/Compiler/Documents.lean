import Narrative.Proofs.Compiler.Placed
import Narrative.Proofs.Compiler.Refusals
import Narrative.Proofs.Compiler.Verdicts
import Narrative.Proofs.Compiler.Vocabulary

/-!
# The documents of stories

A story has a document exactly when its flows leave the name for the declarations of
variables free. The document is the tree of the story's plan with every verdict carried
out, so each of its leaves is the leaf of a step or that of a verdict. It is free of
errors exactly when no statement and no verdict is complained about.
-/

namespace Narrative

open Compiler

/-- What is counted about every flow. -/
def CompilerOptions.flowFlags (options : CompilerOptions) : CountFlags :=
  if options.countAllVisits then .visits else .empty

/-- The plan of a story. -/
def Story.plan (options : CompilerOptions) (story : Story) : Plan :=
  Plan.ofStory options.file story

namespace Compiler

/-- What an entry's leaf is in the end: that of its step, unless a name is looked up. -/
def Entry.leaf (world : World) (tree : Tree) (entry : Entry) : Leaf :=
  match entry.step.lookup with
  | some lookup => (lookup.subject.verdict world tree entry.scope).leaf
  | none => entry.step.leaf

namespace Plan

/-- What the names of a plan are looked up against. -/
def world (plan : Plan) : World := ⟨0, plan.globalNames, plan.arities⟩

def references (plan : Plan) : List Reference := plan.entries.filterMap Entry.reference?

/-- References stand where steps have names to look up. -/
theorem node_mem_references_iff {plan : Plan} {entry : Entry} (hentry : entry ∈ plan.entries) :
    entry.node ∈ plan.references.map Reference.node ↔ entry.step.lookup.isSome = true := by
  rw [Option.isSome_iff_exists]
  constructor
  · intro hmem
    obtain ⟨reference, hreference, hnode⟩ := List.mem_map.mp hmem
    obtain ⟨other, hother, lookup, hlookup, rfl⟩ := mem_references.mp hreference
    -- No other entry has this node.
    have hsame := List.inj_on_of_nodup_map plan.nodup_entries hother hentry hnode
    exact ⟨lookup, hsame ▸ hlookup⟩
  · rintro ⟨lookup, hlookup⟩
    exact List.mem_map_of_mem (mem_references.mpr ⟨entry, hentry, lookup, hlookup, rfl⟩)

/-- What was reported before names are looked up. -/
def reports (plan : Plan) : List Diagnostic :=
  plan.diagnostics ++ (match plan.globals with
    | some fragment => fragment.diagnostics
    | none => [])

end Plan

theorem clean_of_strict {α : Type} {outcome : Outcome α} {value : α}
    (h : outcome.strict.result = .ok value) :
    outcome.result = .ok value ∧ Clean outcome.diagnostics := by
  rw [Outcome.strict] at h
  cases hresult : outcome.result with
  | error error =>
    rw [hresult] at h
    cases h
  | ok other =>
    rw [hresult] at h
    simp only at h
    split at h
    · cases h
    · next hcount =>
      refine ⟨h, fun d hd => ?_⟩
      have hnone := List.countP_eq_zero.mp (Nat.eq_zero_of_not_pos hcount) d hd
      simpa using hnone

end Compiler

namespace Story

variable {options : CompilerOptions} {story : Story} {document : Document}

/-! ## Which stories have documents -/

theorem generate_of_free (hfree : (story.plan options).Free) :
    story.generate options =
      { result := .ok ⟨(resolveAll (story.plan options).world
          ((story.plan options).tree options.flowFlags) (story.plan options).references).1, 0, 12⟩
        diagnostics := (story.plan options).reports ++ (resolveAll (story.plan options).world
          ((story.plan options).tree options.flowFlags) (story.plan options).references).2 } := by
  obtain ⟨hplace, -⟩ := Plan.place_eq_ok (Plan.sound_ofStory options.file story) hfree
    options.flowFlags
  have hrun : ((Plan.ofStory options.file story).place
      (if options.countAllVisits then CountFlags.visits else CountFlags.empty)).run .empty = _ :=
    hplace
  have hleaves : ∀ reference ∈ (story.plan options).references,
      (((story.plan options).tree options.flowFlags).leaf? reference.node).isSome := by
    intro reference hreference
    obtain ⟨entry, hentry, lookup, -, rfl⟩ := mem_references.mp hreference
    rw [Plan.leaf?_of_entry _ _ hentry]
    rfl
  have hlookUp : lookUpAll ⟨0, (Plan.ofStory options.file story).globalNames,
      (Plan.ofStory options.file story).arities⟩ ((Plan.ofStory options.file story).tree
        options.flowFlags) ((Plan.ofStory options.file story).entries.filterMap Entry.reference?) =
      _ := lookUpAll_eq hleaves
  rw [generate, hrun]
  simp only [hlookUp]
  rfl

theorem free_of_generate (h : (story.generate options).result = .ok document) :
    (story.plan options).Free := by
  rw [generate] at h
  cases hplace : ((Plan.ofStory options.file story).place
      (if options.countAllVisits then CountFlags.visits else CountFlags.empty)).run .empty with
  | error error tree =>
    simp only [hplace] at h
    cases h
  | ok placed tree => exact Plan.free_of_place (Plan.sound_ofStory options.file story) hplace

/-- The stand-ins for names are all in place when looking up begins. -/
theorem placeholder_of_reference (story : Story) (options : CompilerOptions) {reference : Reference}
    (hreference : reference ∈ (story.plan options).references) :
    ((story.plan options).tree options.flowFlags).leaf? reference.node =
      some reference.lookup.subject.placeholder := by
  have hadmits : Admits {} (Context.ofStory options.file story).externals (fun _ => True)
      (fun _ => True) := by
    constructor <;> intros <;> trivial
  obtain ⟨entry, hentry, lookup, hlookup, rfl⟩ := mem_references.mp hreference
  obtain ⟨-, name, steps, hcode, hstep, -⟩ :=
    ((story.plan options).standing options.flowFlags).coded entry hentry
  have hmeets := hadmits.meets_of_code story.keeps_anything hcode entry.step hstep
  rw [Plan.leaf?_of_entry _ _ hentry, (hmeets.pending lookup hlookup).1]

theorem decided_generate (story : Story) (options : CompilerOptions) :
    Decided (story.plan options).world ((story.plan options).tree options.flowFlags)
        (resolveAll (story.plan options).world ((story.plan options).tree options.flowFlags)
          (story.plan options).references).1 (story.plan options).references ∧
      (Clean (resolveAll (story.plan options).world ((story.plan options).tree options.flowFlags)
          (story.plan options).references).2 ↔
        ∀ reference ∈ (story.plan options).references, (reference.verdict (story.plan options).world
          ((story.plan options).tree options.flowFlags)).complaint = none) :=
  decided_resolveAll
    ((story.plan options).nodup_entries.sublist (sublist_references _))
    fun _ hreference => story.placeholder_of_reference options hreference

/-! ## What is in a document -/

/-- A document is the tree of its story's plan with all verdicts carried out. -/
structure Yields (options : CompilerOptions) (story : Story) (document : Document) : Prop where
  free : (story.plan options).Free
  root : document.root = 0
  version : document.version = 12
  decided : Decided (story.plan options).world ((story.plan options).tree options.flowFlags)
    document.tree (story.plan options).references

theorem yields_of_generate (h : (story.generate options).result = .ok document) :
    story.Yields options document := by
  have hfree := free_of_generate h
  rw [generate_of_free hfree] at h
  cases h
  exact ⟨hfree, rfl, rfl, (story.decided_generate options).1⟩

/-- Nothing is wrong with a story, neither with its statements nor with its names. -/
structure Flawless (options : CompilerOptions) (story : Story) : Prop where
  reports : Clean (story.plan options).reports
  verdicts : ∀ reference ∈ (story.plan options).references, (reference.verdict
    (story.plan options).world ((story.plan options).tree options.flowFlags)).complaint = none

theorem flawless_of_compile (h : (story.compile options).result = .ok document) :
    story.Flawless options := by
  obtain ⟨hresult, hclean⟩ := clean_of_strict h
  rw [generate_of_free (free_of_generate hresult)] at hclean
  obtain ⟨hreports, hnames⟩ := clean_append.mp hclean
  exact ⟨hreports, (story.decided_generate options).2.mp hnames⟩

theorem yields_of_compile (h : (story.compile options).result = .ok document) :
    story.Yields options document :=
  yields_of_generate (clean_of_strict h).1

theorem exists_compile (hfree : (story.plan options).Free) (h : story.Flawless options) :
    ∃ document, (story.compile options).result = .ok document := by
  have hclean := clean_append.mpr ⟨h.reports, (story.decided_generate options).2.mpr h.verdicts⟩
  have hcount := List.countP_eq_zero.mpr fun d hd => Bool.not_eq_true _ ▸ hclean d hd
  rw [compile, generate_of_free hfree]
  simp only [Outcome.strict, Outcome.errorCount, hcount, Nat.lt_irrefl, if_false]
  exact ⟨_, rfl⟩

namespace Yields

variable (h : story.Yields options document)
include h

theorem leaf?_of_entry {entry : Entry} (hentry : entry ∈ (story.plan options).entries) :
    document.tree.leaf? entry.node = some (entry.leaf (story.plan options).world
      ((story.plan options).tree options.flowFlags)) := by
  rw [Entry.leaf]
  cases hlookup : entry.step.lookup with
  | some lookup =>
    exact h.decided.leaf? _ (mem_references.mpr ⟨entry, hentry, lookup, hlookup, rfl⟩)
  | none =>
    have hkept : entry.node ∉ (story.plan options).references.map Reference.node := by
      rw [Plan.node_mem_references_iff hentry, hlookup]
      exact Bool.false_ne_true
    rw [h.decided.others _ hkept, Plan.leaf?_of_entry _ _ hentry]

theorem wellFormed : document.tree.WellFormed :=
  h.decided.shape.wellFormed
    (Plan.place_eq_ok (Plan.sound_ofStory options.file story) h.free options.flowFlags).2

/-- Every leaf but the command of the root comes from an entry. -/
theorem exists_entry {i : NodeId} {leaf : Leaf} (hleaf : document.tree.leaf? i = some leaf) :
    leaf = .command .done ∨ ∃ entry ∈ (story.plan options).entries, entry.node = i ∧
      leaf = entry.leaf (story.plan options).world
        ((story.plan options).tree options.flowFlags) := by
  by_cases hentry : ∃ entry ∈ (story.plan options).entries, entry.node = i
  · obtain ⟨entry, hentry, rfl⟩ := hentry
    rw [h.leaf?_of_entry hentry] at hleaf
    exact Or.inr ⟨entry, hentry, rfl, (Option.some.inj hleaf).symm⟩
  · have hkept : i ∉ (story.plan options).references.map Reference.node := by
      intro hmem
      obtain ⟨reference, hreference, hnode⟩ := List.mem_map.mp hmem
      obtain ⟨entry, hmember, _, _, rfl⟩ := mem_references.mp hreference
      exact hentry ⟨entry, hmember, hnode⟩
    rw [h.decided.others i hkept] at hleaf
    exact Or.inl ((Plan.exists_entry hleaf).resolve_right hentry).2

/-- Every leaf of a document is admitted when those of the code and of the verdicts are. -/
theorem admitted {w : Wording} {L : Leaf → Prop} {S : Subject → Prop}
    (hadmits : Admits w (Context.ofStory options.file story).externals L S)
    (hkeeps : story.Keeps w)
    (hverdicts : ∀ entry ∈ (story.plan options).entries, ∀ lookup,
      entry.step.lookup = some lookup → S lookup.subject →
      L (lookup.subject.verdict (story.plan options).world
        ((story.plan options).tree options.flowFlags) entry.scope).leaf)
    {i : NodeId} {leaf : Leaf} (hleaf : document.tree.leaf? i = some leaf) : L leaf := by
  rcases h.exists_entry hleaf with rfl | ⟨entry, hentry, -, rfl⟩
  · exact hadmits.command _
  · obtain ⟨-, name, steps, hcode, hstep, -⟩ :=
      ((story.plan options).standing options.flowFlags).coded entry hentry
    have hmeets := hadmits.meets_of_code hkeeps hcode entry.step hstep
    rw [Entry.leaf]
    cases hlookup : entry.step.lookup with
    | none => exact hmeets.leaf hlookup
    | some lookup => exact hverdicts entry hentry lookup hlookup (hmeets.pending lookup hlookup).2

end Yields

end Story

end Narrative
