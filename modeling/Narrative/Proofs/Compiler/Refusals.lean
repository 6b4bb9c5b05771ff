import Narrative.Proofs.Compiler.Resolving
import Narrative.Proofs.Tree.SameShape
import Narrative.Proofs.Tree.Steps

/-!
# No look-up is refused

A look-up exchanges the leaf of its reference and raises the flags of a container
that it has just found. Both edits are accepted: a reference stays at a leaf, and
what was a container before the exchange is one after it. So looking up all
references always ends with a tree, however many names lead nowhere.
-/

namespace Narrative.Compiler

open Narrative.Tree (Exchanged exchanged_self)

variable {world : World} {tree : Tree}

theorem isSome_container?_of_findFlow? {scope : Scope} {target : String} {found : NodeId}
    (h : world.findFlow? tree scope target = some found) : (tree.container? found).isSome := by
  rw [World.findFlow?] at h
  split at h
  · cases h
  · obtain ⟨start, -, hstart⟩ := List.exists_of_findSome?_eq_some h
    exact (Option.filter_eq_some_iff.mp hstart).2

namespace Reference

variable {reference : Reference} {old : Leaf}

/-- A leaf may be exchanged for another one. -/
theorem replaceLeaf_eq (h : tree.leaf? reference.node = some old) (leaf : Leaf) :
    reference.replaceLeaf leaf tree = .ok () (reference.setLeaf tree leaf) := by
  obtain ⟨payload, hpayload, hleaf⟩ := Option.bind_eq_some_iff.mp h
  cases payload with
  | container c => cases hleaf
  | leaf l =>
    have hreplace : Edit.replace reference.node (.leaf leaf) tree =
        .ok (.leaf l) (reference.setLeaf tree leaf) := by
      rw [Edit.replace_eq, hpayload]
      rfl
    exact Step.bind_ok hreplace

/-- Flags may be raised on a container that was found before the leaf was exchanged. -/
theorem insertFlags_eq (h : tree.leaf? reference.node = some old) (leaf : Leaf) {found : NodeId}
    (hfound : (tree.container? found).isSome) (flags : CountFlags) :
    Edit.insertFlags found flags (reference.setLeaf tree leaf) =
      .ok () (markCounted (reference.setLeaf tree leaf) found flags) := by
  have hstill : ((reference.setLeaf tree leaf).container? found).isSome := by
    rw [setLeaf, (tree.sameShape_setPayload h leaf).isSome_container?]
    exact hfound
  rw [Edit.insertFlags_eq, if_pos hstill]
  rfl

section

variable {name : String} {countedBy : Option CountQuery} {mode : JumpMode} {arguments : Nat}
  (h : tree.leaf? reference.node = some old)
include h

theorem lookUpReading_eq : reference.lookUpReading world name countedBy tree =
    .ok (reference.resolveReading world tree name countedBy).2
      (reference.resolveReading world tree name countedBy).1 := by
  by_cases hvariable : world.isVariable reference.scope name
  · simp only [lookUpReading, resolveReading, Step.bind_eq, Edit.get_eq, if_pos hvariable,
      Edit.pure_eq]
  · cases hfound : world.findFlow? tree reference.scope name with
    | none =>
      simp only [lookUpReading, resolveReading, Step.bind_eq, Edit.get_eq, if_neg hvariable, hfound,
        Edit.pure_eq]
    | some found =>
      have hcontainer := isSome_container?_of_findFlow? hfound
      cases countedBy <;>
        simp only [lookUpReading, resolveReading, Step.bind_eq, Edit.get_eq, if_neg hvariable,
          hfound, replaceLeaf_eq h, insertFlags_eq h _ hcontainer, Edit.pure_eq]

theorem lookUpTarget_eq : reference.lookUpTarget world name countedBy tree =
    .ok (reference.resolveTarget world tree name countedBy).2
      (reference.resolveTarget world tree name countedBy).1 := by
  by_cases hvariable : world.isVariable reference.scope name
  · cases countedBy <;>
      simp only [lookUpTarget, resolveTarget, Step.bind_eq, Edit.get_eq, if_pos hvariable,
        Edit.pure_eq]
  · cases hfound : world.findFlow? tree reference.scope name with
    | none =>
      cases countedBy <;>
        simp only [lookUpTarget, resolveTarget, Step.bind_eq, Edit.get_eq, if_neg hvariable, hfound,
          Edit.pure_eq]
    | some found =>
      have hcontainer := isSome_container?_of_findFlow? hfound
      cases countedBy <;>
        simp only [lookUpTarget, resolveTarget, Step.bind_eq, Edit.get_eq, if_neg hvariable, hfound,
          replaceLeaf_eq h, insertFlags_eq h _ hcontainer, Edit.pure_eq]

theorem lookUpJump_eq : reference.lookUpJump world name mode arguments tree =
    .ok (reference.resolveJump world tree name mode arguments).2
      (reference.resolveJump world tree name mode arguments).1 := by
  by_cases hvariable : mode = .plain ∧ world.isVariable reference.scope name
  · simp only [lookUpJump, resolveJump, Step.bind_eq, Edit.get_eq, if_pos hvariable,
      replaceLeaf_eq h, Edit.pure_eq]
  · cases hfound : world.findFlow? tree reference.scope name with
    | none =>
      simp only [lookUpJump, resolveJump, Step.bind_eq, Edit.get_eq, if_neg hvariable, hfound,
        Edit.pure_eq]
    | some found =>
      simp only [lookUpJump, resolveJump, Step.bind_eq, Edit.get_eq, if_neg hvariable, hfound,
        replaceLeaf_eq h, Edit.pure_eq]

theorem lookUp_eq : reference.lookUp world tree =
    .ok (reference.resolve world tree).2 (reference.resolve world tree).1 := by
  rw [lookUp, resolve]
  cases reference.lookup.subject with
  | reading name countedBy => exact lookUpReading_eq h
  | target name countedBy => exact lookUpTarget_eq h
  | jump name mode arguments => exact lookUpJump_eq h

/-- Whatever is complained about, a look-up exchanges one leaf at most. -/
theorem exists_exchanged :
    ∃ leaf, tree.Exchanged (reference.resolve world tree).1 reference.node leaf := by
  rw [resolve]
  cases reference.lookup.subject with
  | reading name countedBy =>
    simp only [resolveReading]
    split
    · exact ⟨old, tree.exchanged_self h⟩
    · split
      · exact ⟨old, tree.exchanged_self h⟩
      · exact ⟨_, (tree.exchanged_setPayload h _).insertFlags _ _⟩
  | target name countedBy =>
    simp only [resolveTarget]
    split
    · exact ⟨old, tree.exchanged_self h⟩
    · split
      · exact ⟨old, tree.exchanged_self h⟩
      · cases countedBy with
        | none => exact ⟨_, tree.exchanged_setPayload h _⟩
        | some query => exact ⟨_, (tree.exchanged_setPayload h _).insertFlags _ _⟩
  | jump name mode arguments =>
    simp only [resolveJump]
    split
    · exact ⟨_, tree.exchanged_setPayload h _⟩
    · split
      · exact ⟨old, tree.exchanged_self h⟩
      · exact ⟨_, tree.exchanged_setPayload h _⟩

end

end Reference

/-- References that stand at leaves are all looked up. -/
theorem lookUpAll_eq {references : List Reference}
    (h : ∀ reference ∈ references, (tree.leaf? reference.node).isSome) :
    lookUpAll world tree references =
      { result := .ok (resolveAll world tree references).1
        diagnostics := (resolveAll world tree references).2 } := by
  induction references generalizing tree with
  | nil => rfl
  | cons reference rest ih =>
    obtain ⟨hfirst, hrest⟩ := List.forall_mem_cons.mp h
    obtain ⟨old, hold⟩ := Option.isSome_iff_exists.mp hfirst
    obtain ⟨leaf, hexchanged⟩ : ∃ leaf, tree.Exchanged (reference.resolve world tree).1 reference.node
        leaf := Reference.exists_exchanged hold
    have hothers : ∀ other ∈ rest, ((reference.resolve world tree).1.leaf? other.node).isSome := by
      intro other hother
      by_cases hnode : other.node = reference.node
      · rw [hnode, hexchanged.new]
        rfl
      · rw [hexchanged.others _ hnode]
        exact hrest other hother
    have hrun : (reference.lookUp world).run tree = _ := Reference.lookUp_eq hold
    rw [lookUpAll, hrun, resolveAll]
    simp only [ih hothers]

end Narrative.Compiler
