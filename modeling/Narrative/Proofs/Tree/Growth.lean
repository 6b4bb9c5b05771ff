import Narrative.Proofs.Tree.Editing
import Narrative.Proofs.Tree.Layout

/-!
# Growing trees

A new node that is put into a container right after it has been added makes a tree
grow at its end: old nodes stay as they are, except that the container has more
content or lists another child by name.
-/

namespace Narrative

namespace Tree

variable {tree after : Tree} {c : NodeId}

/-- The tree with new nodes at the end of a container's content. -/
def withContent (tree : Tree) (c : NodeId) (nodes : List Node) : Tree :=
  (tree.modifyContainer c fun container =>
    { container with content := container.content ++ List.range' tree.size nodes.length }).extend
      nodes

/-- The tree with a new node that a container lists by name. -/
def withNamed (tree : Tree) (c : NodeId) (name : String) (node : Node) : Tree :=
  (tree.modifyContainer c (·.enter (some name) tree.size false)).extend [node]

theorem mem_lineage_self (tree : Tree) (id : NodeId) : id ∈ tree.lineage id := by
  rw [lineage]
  cases tree.size with
  | zero => exact List.mem_cons_self
  | succ fuel =>
    rw [lineageWithin]
    cases tree.parent? id <;> exact List.mem_cons_self

theorem exists_container_of_attachFault? {payload : Payload} {range : Option SourceRange}
    (h : (tree.push payload range).attachFault? c tree.size = none) :
    ∃ container, tree.container? c = some container := by
  obtain ⟨⟨container, hcontainer⟩, hup⟩ := attachFault?_eq_none_iff.mp h
  have hne : c ≠ tree.size := by
    rintro rfl
    exact hup (mem_lineage_self _ _)
  rw [container?_push, if_neg hne] at hcontainer
  exact ⟨container, hcontainer⟩

theorem detached_push (payload : Payload) (range : Option SourceRange) :
    (tree.push payload range).detached tree.size = tree.push payload range := by
  apply detached_of_root
  rw [parent?_push, parent?, (tree.get?_eq_none_iff tree.size).mpr (Nat.le_refl _)]
  rfl

/-- Linking a new node to a container. -/
theorem linked_push (hc : c < tree.size) (f : Container → Container) (payload : Payload)
    (range : Option SourceRange) :
    ((tree.push payload range).modifyContainer c f).setParent tree.size (some c) =
      (tree.modifyContainer c f).extend [⟨some c, range, payload.emptied⟩] := by
  rw [push_eq_extend, modifyContainer_extend _ hc, setParent]
  have hhead := (tree.modifyContainer c f).modify_extend_head
    (fun node => { node with parent := some c }) ⟨none, range, payload.emptied⟩ []
  rw [size_modifyContainer] at hhead
  exact hhead

/-- A new node with a name is listed under it. -/
theorem addNamed_new {payload : Payload} {range : Option SourceRange} {name : String}
    (hname : (tree.push payload range).validName? tree.size = some name)
    (h : Edit.addNamed c tree.size (tree.push payload range) = .ok () after) :
    (∃ container, tree.container? c = some container) ∧
      after = tree.withNamed c name ⟨some c, range, payload.emptied⟩ ∧
      ∀ other, tree.namedChild? c name = some other → other = tree.size := by
  rw [Edit.addNamed_eq, hname] at h
  cases hattach : (tree.push payload range).attachFault? c tree.size with
  | some error =>
    rw [hattach] at h
    cases h
  | none =>
    obtain ⟨container, hcontainer⟩ := exists_container_of_attachFault? hattach
    have hlt := tree.lt_size_of_container? hcontainer
    rw [hattach] at h
    simp only at h
    cases hfault : (tree.push payload range).nameFault? c (some name) [tree.size] with
    | some error =>
      rw [hfault] at h
      cases h
    | none =>
      refine ⟨⟨container, hcontainer⟩, ?_, ?_⟩
      · rw [hfault, detached_push, enteredByName, linked_push hlt] at h
        cases h
        rfl
      · intro other hother
        have hold : (tree.push payload range).namedChild? c name = some other := by
          rw [namedChild?, container?_push, if_neg (Nat.ne_of_lt hlt)]
          exact hother
        simp only [nameFault?, hold] at hfault
        split at hfault
        · next hmem => exact List.mem_singleton.mp hmem
        · cases hfault

theorem wellFormed_addContent_new {payload : Payload} {range : Option SourceRange}
    (hwf : tree.WellFormed)
    (h : Edit.addContent c tree.size (tree.push payload range) = .ok () after) :
    after.WellFormed := by
  have hstate : (stateAfter (Edit.addContent c tree.size (tree.push payload range))).WellFormed :=
    Edit.wellFormed_addContent (hwf.push _ _) (by simp)
  rwa [h] at hstate

theorem wellFormed_addNamed_new {payload : Payload} {range : Option SourceRange}
    (hwf : tree.WellFormed)
    (h : Edit.addNamed c tree.size (tree.push payload range) = .ok () after) :
    after.WellFormed := by
  have hstate : (stateAfter (Edit.addNamed c tree.size (tree.push payload range))).WellFormed :=
    Edit.wellFormed_addNamed (hwf.push _ _) (by simp)
  rwa [h] at hstate

/-! ## Looking up nodes in the grown tree -/

@[simp] theorem size_withContent (tree : Tree) (c : NodeId) (nodes : List Node) :
    (tree.withContent c nodes).size = tree.size + nodes.length := by
  simp [withContent]

theorem get?_withNamed_new (tree : Tree) (c : NodeId) (name : String) (node : Node) (k : Nat) :
    (tree.withNamed c name node).get? (tree.size + k) = [node][k]? := by
  have hnew :=
    (tree.modifyContainer c (·.enter (some name) tree.size false)).get?_extend_new [node] k
  rwa [size_modifyContainer] at hnew

theorem container?_withContent {container : Container} (hc : tree.container? c = some container)
    (nodes : List Node) :
    (tree.withContent c nodes).container? c =
      some { container with
        content := container.content ++ List.range' tree.size nodes.length } := by
  rw [withContent, container?_extend_old _ (by simpa using tree.lt_size_of_container? hc),
    container?_modifyContainer, if_pos rfl, hc]
  rfl

theorem validName?_push_leaf (tree : Tree) (leaf : Leaf) (range : Option SourceRange) :
    (tree.push (.leaf leaf) range).validName? tree.size = none := by
  rw [validName?, container?_push, if_pos rfl]
  rfl

/-- A change that changes nothing. -/
theorem modifyContainer_of_eq (tree : Tree) (c : NodeId) {f : Container → Container}
    (hf : ∀ container, f container = container) : tree.modifyContainer c f = tree := by
  apply ext_get?
  intro i
  rw [modifyContainer, get?_modify]
  by_cases h : c = i
  · cases hn : tree.get? i with
    | none => simp [h]
    | some node =>
      obtain ⟨parent, range, payload⟩ := node
      cases payload <;> simp [h, hf]
  · simp [h]

theorem withContent_nil (tree : Tree) (c : NodeId) : tree.withContent c [] = tree := by
  rw [withContent, extend_nil]
  exact tree.modifyContainer_of_eq c fun container => by simp

theorem withContent_cons (hc : c < tree.size) (node : Node) (nodes : List Node) :
    (tree.withContent c [node]).withContent c nodes = tree.withContent c (node :: nodes) := by
  rw [withContent, size_withContent, withContent, modifyContainer_extend _ (by simpa using hc),
    modifyContainer_modifyContainer, extend_extend, withContent]
  congr 2
  funext container
  simp [List.range'_succ]

end Tree

end Narrative
