import Narrative.Proofs.Compiler.LookUps
import Narrative.Proofs.Compiler.Outcomes
import Narrative.Proofs.Tree.Addresses
import Narrative.Proofs.Tree.Preorder

/-!
# Documents hang from their roots

Every node of a story is placed in a container, and looking names up changes no link.
So the root of a document is its only node without a parent, and all others are found
below it. The root holds the main container and the command that ends the turn. It
lists the flows by name, as far as they have names that are new, and the declarations
of variables after them.
-/

namespace Narrative

open Compiler

/-- Below the only node without a parent every node is listed, each once. -/
theorem Tree.WellFormed.descendants_perm_range {tree : Tree} {root : NodeId} (h : tree.WellFormed)
    (honly : ∀ id < tree.size, tree.parent? id = none → id = root) (hroot : root < tree.size) :
    (tree.descendants root).Perm (List.range tree.size) := by
  rw [List.perm_ext_iff_of_nodup (h.descendants_nodup hroot) List.nodup_range]
  intro id
  rw [h.mem_descendants_iff hroot, List.mem_range]
  exact ⟨lt_size_of_within hroot, h.within_only_root honly⟩

/-! ## Names of flows -/

/-- The names that the root of a document lists: those of the story's flows, each where it comes
first, and the name of the declarations of variables. -/
def Story.listedNames (story : Story) : List String :=
  ((story.flows.map Flow.name).filter fun name => !name.isEmpty).eraseDups
    ++ if story.globals.isEmpty then [] else ["global decl"]

namespace Story

theorem names_flows (options : CompilerOptions) (story : Story) :
    (story.plan options).flows.map FlowPlan.name =
      ((story.flows.map Flow.name).filter fun name => !name.isEmpty).eraseDups := by
  have hkept : ∀ name, (flowComplaint? [] name).isNone = !name.isEmpty := by
    intro name
    rw [Bool.eq_iff_iff]
    simp [flowComplaint?_eq_none_iff]
  have hnames := names_planFlows (Context.ofStory options.file story) [] story.flows
  simp only [hkept] at hnames
  exact hnames

theorem names_table (options : CompilerOptions) (story : Story) :
    (story.plan options).table.map NamedEntry.name = story.listedNames := by
  have hglobals : (story.plan options).globals =
      if story.globals.isEmpty then none
      else some (lowerGlobals (Context.ofStory options.file story) story.globals) := rfl
  rw [Plan.table, List.map_append, FlowPlan.names_tableFrom, names_flows, hglobals, listedNames]
  split <;> rfl

end Story

/-! ## Whole documents -/

/-- A node is a step in a container; where a name was to be looked up, the leaf is still of its
kind. -/
def Compiler.Step.StandsIn (tree : Tree) (c : NodeId) (step : Step) (node : NodeId) : Prop :=
  ∃ leaf, tree.get? node = some ⟨some c, step.range, .leaf leaf⟩ ∧
    if step.lookup.isSome then step.leaf.SameKind leaf else leaf = step.leaf

/-- A container without a name holds steps, and nothing is listed in it. -/
def Tree.HoldsSteps (tree : Tree) (c : NodeId) (steps : List Step) : Prop :=
  ∃ content flags, tree.container? c = some { content, flags } ∧
    List.Forall₂ (Step.StandsIn tree c) steps content

namespace Story

variable {options : CompilerOptions} {story : Story} {document : Document}

/-- A document is the tree of its story's plan with names filled in. -/
theorem filledIn_of_generate (h : (story.generate options).result = .ok document) :
    ((story.plan options).tree options.flowFlags).FilledIn document.tree
      ((story.plan options).references.map Reference.node) := by
  have hleaves : ∀ reference ∈ (story.plan options).references,
      ((story.plan options).tree options.flowFlags).leaf? reference.node =
        some reference.lookup.subject.placeholder :=
    fun _ => story.placeholder_of_reference options
  have hframe := (sameFrame_resolveAll (story.plan options).world fun reference hreference => by
    rw [hleaves reference hreference]; rfl).1
  rw [generate_of_free (free_of_generate h)] at h
  cases h
  exact (story.decided_generate options).1.filledIn hframe hleaves

namespace Yields

variable (h : story.Yields options document)
include h

theorem parent?_eq_none_iff {id : NodeId} (hid : id < document.tree.size) :
    document.tree.parent? id = none ↔ id = document.root := by
  rw [h.decided.shape.parent?, h.root]
  exact Plan.parent?_eq_none_iff (h.decided.shape.size ▸ hid)

end Yields

/-- The container of the main content holds the code of the story's first statements. -/
theorem holdsSteps_main (h : (story.generate options).result = .ok document) :
    document.tree.HoldsSteps 1 (story.plan options).main := by
  have hfilled := filledIn_of_generate h
  obtain ⟨⟨-, hmain, -⟩, -⟩ := (story.plan options).carries_tree options.flowFlags
  obtain ⟨flags, hnode, -⟩ := hfilled.container hmain
  refine ⟨_, flags, document.tree.container?_eq_some_iff.mpr ⟨_, hnode, rfl⟩, ?_⟩
  refine (forall₂_entriesFrom 1 { container := 1, locals := (story.plan options).mainLocals } 3
    (story.plan options).main).imp fun step node hmem => ?_
  have hentry : ⟨node, 1, { container := 1, locals := (story.plan options).mainLocals }, step⟩ ∈
      (story.plan options).entries := List.mem_append_left _ (List.mem_append_left _ hmem)
  have hpending := Plan.node_mem_references_iff hentry
  obtain ⟨leaf, hleaf, hkind, hkept⟩ := hfilled.leaf
    (((story.plan options).standing options.flowFlags).found _ hentry)
  refine ⟨leaf, hleaf, ?_⟩
  split
  · next hlookup => exact hkind (hpending.mpr hlookup)
  · next hlookup => exact hkept fun hmem => hlookup (hpending.mp hmem)

/-- The command that ends the turn has no name to look up. -/
theorem payload?_done (h : (story.generate options).result = .ok document) :
    document.tree.payload? 2 = some (.leaf (.command .done)) := by
  obtain ⟨⟨-, -, hdone, -⟩, -⟩ := (story.plan options).carries_tree options.flowFlags
  obtain ⟨leaf, hleaf, -, hkept⟩ := (filledIn_of_generate h).leaf hdone
  have hplace : 2 ∉ (story.plan options).references.map Reference.node := by
    intro hmem
    obtain ⟨reference, hreference, hnode⟩ := List.mem_map.mp hmem
    obtain ⟨entry, hentry, _, _, rfl⟩ := mem_references.mp hreference
    have hlater := ((story.plan options).standing {}).nodes.subset
      (List.mem_map_of_mem (f := Entry.node) hentry)
    have htwo : entry.node = 2 := hnode
    rw [List.mem_range'_1, htwo] at hlater
    exact absurd hlater.1 (by decide)
  rw [Tree.payload?, hleaf, hkept hplace]
  rfl

end Story

namespace Compiler

/-- A document is a tree that hangs from its root, whatever is wrong with the story: the root holds
the main container and a command, and lists the flows that have new names and the declarations of
variables. -/
theorem document_hangs_from_root (compiler : Compiler) {story : Story} {document : Document}
    (h : (compiler.generate story).1 = .ok document) :
    document.tree.WellFormed ∧
      (∀ id < document.tree.size, document.tree.parent? id = none ↔ id = document.root) ∧
      (∀ id < document.tree.size, id ∈ document.tree.descendants document.root) ∧
      (document.tree.descendants document.root).length = document.tree.size ∧
      ∃ root main done,
        document.tree.container? document.root = some root ∧ root.content = [main, done] ∧
          document.tree.HoldsSteps main (story.plan compiler.options).main ∧
          document.tree.payload? done = some (.leaf (.command .done)) ∧
          root.namedOnly.map NamedEntry.name = story.listedNames := by
  have hgenerate : (story.generate compiler.options).result = .ok document := h
  have hyields := Story.yields_of_generate hgenerate
  have hwf := hyields.wellFormed
  obtain ⟨flags, hroot, -⟩ := (Story.filledIn_of_generate hgenerate).container
    ((story.plan compiler.options).carries_tree compiler.options.flowFlags).1.1
  have hperm := hwf.descendants_perm_range
    (fun id hid hnone => (hyields.parent?_eq_none_iff hid).mp hnone)
    (hyields.root ▸ document.tree.lt_size_of_get? hroot)
  refine ⟨hwf, fun id => hyields.parent?_eq_none_iff, fun id hid => ?_, ?_, ?_⟩
  · exact hperm.mem_iff.mpr (List.mem_range.mpr hid)
  · rw [hperm.length_eq, List.length_range]
  · rw [hyields.root]
    refine ⟨_, 1, 2, document.tree.container?_eq_some_iff.mpr ⟨_, hroot, rfl⟩, rfl,
      Story.holdsSteps_main hgenerate, Story.payload?_done hgenerate, ?_⟩
    rw [Container.namedOnly, Plan.namedOnly_table, Story.names_table]

/-- A story with two flows of one name and one without a name, which leads to a place that is not
there. -/
def lanternStory : Story where
  root := [⟨.divert "cellar", none⟩, ⟨.output (.name "oil"), none⟩]
  flows := [
    .mk "cellar" .knot [] [⟨.divert "well", none⟩] [.mk "shelf" .stitch [] [] [] none] none,
    .mk "" .knot [] [] [] none,
    .mk "attic" .knot [] [⟨.divert "cellar.shelf", none⟩] [] none,
    .mk "cellar" .function ["depth"] [] [] none]
  globals := [⟨"oil", .int 3, none⟩]

theorem document_hangs_from_root_lantern :
    ∃ document root, (({} : Compiler).generate lanternStory).1 = .ok document ∧
      (document.tree.descendants document.root).length = document.tree.size ∧
      document.tree.container? document.root = some root ∧
      root.namedOnly.map NamedEntry.name = ["cellar", "attic", "global decl"] ∧
      (errorsOf (({} : Compiler).generate lanternStory).2.journal.reported).length = 3 := by
  have hfree : ¬ lanternStory.Clashes := by
    rintro ⟨-, flow, hflow, hname⟩
    have hnone : "global decl" ∉ lanternStory.flows.map Flow.name := by decide
    exact hnone (hname ▸ List.mem_map_of_mem hflow)
  obtain ⟨document, hok⟩ := exists_generate {} hfree
  obtain ⟨-, -, -, hlength, root, -, -, hroot, -, -, -, hnames⟩ := document_hangs_from_root {} hok
  have hlisted : lanternStory.listedNames = ["cellar", "attic", "global decl"] := by decide +kernel
  exact ⟨document, root, hok, hlength, hroot, hnames.trans hlisted, by decide +kernel⟩

end Compiler

end Narrative
