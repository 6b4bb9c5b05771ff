import Narrative.Proofs.Step
import Narrative.Proofs.Tree.Changes

/-!
# Edits as equations

What each edit gives on a tree, with the checks in the order in which they are
made. Once the checks are passed, the changes that follow find the nodes they
look up again: taking a node out leaves every container a container and every
other child in its place. Later modules cite these equations and never open the
edits themselves.
-/

namespace Narrative

namespace Tree

/-! ## The trees that edits leave -/

/-- The tree with a detached node at the end of a container's content. -/
def appended (tree : Tree) (container child : NodeId) (name : Option String) : Tree :=
  (tree.modifyContainer container fun c => (c.append child).enter name child true).setParent child
    (some container)

/-- The tree with a detached node in a container's table only. -/
def enteredByName (tree : Tree) (container child : NodeId) (name : String) : Tree :=
  (tree.modifyContainer container (·.enter (some name) child false)).setParent child
    (some container)

/-- The tree with a detached node in the place of another child of a container. -/
def substituted (tree : Tree) (container previous child : NodeId) (name : Option String) : Tree :=
  ((tree.modifyContainer container fun c =>
      ((c.substitute previous child).dropEntries previous).enter name child true).setParent previous
    none).setParent child (some container)

/-- The tree with a container renamed. A child that was listed by name only and has no name any more
leaves its parent. -/
def renamed (tree : Tree) (id : NodeId) (name : Option String) : Tree :=
  let valid := Container.validName? { name }
  match tree.parent? id with
  | none => tree.modifyContainer id (·.rename name)
  | some parent =>
    let positional := ((tree.container? parent).bind (·.positionOf? id)).isSome
    let entered :=
      (tree.modifyContainer parent fun c =>
        (c.dropEntries id).enter valid id positional).modifyContainer id (·.rename name)
    if valid.isNone && !positional then entered.setParent id none else entered

variable {tree : Tree}

theorem renamed_of_root (tree : Tree) {id : NodeId} (h : tree.parent? id = none) (name : Option String) :
    tree.renamed id name = tree.modifyContainer id (·.rename name) := by
  simp [renamed, h]

theorem attachFault?_eq_none_iff {p child : NodeId} :
    tree.attachFault? p child = none ↔
      (∃ c, tree.container? p = some c) ∧ child ∉ tree.lineage p := by
  rw [attachFault?]
  cases hc : tree.container? p with
  | none => simp
  | some c => by_cases hm : child ∈ tree.lineage p <;> simp [hm]

/-- Taking a node out of its parent leaves every container a container. -/
theorem exists_container?_detached (child : NodeId) {p : NodeId} {c : Container}
    (hc : tree.container? p = some c) : ∃ d, (tree.detached child).container? p = some d := by
  rw [container?_detached, hc]
  split <;> exact ⟨_, rfl⟩

/-- Taking a node out of its parent leaves every other node in the content it stands in. -/
theorem mem_content_detached {child id p : NodeId} (hne : id ≠ child) (hid : id ∈ tree.content p) :
    id ∈ (tree.detached child).content p := by
  rw [content] at hid ⊢
  rw [container?_detached]
  cases hc : tree.container? p with
  | none => simp [hc] at hid
  | some c =>
    have hin : id ∈ c.content := by simpa [hc] using hid
    by_cases hp : tree.parent? child = some p
    · simpa [hp, Container.removeChild] using ⟨hin, hne⟩
    · simpa [hp] using hin

end Tree

namespace Edit

variable (tree : Tree)

@[simp] theorem pure_eq {α : Type} (a : α) : (pure a : Edit α) tree = .ok a tree := rfl

@[simp] theorem throw_eq {α : Type} (error : TreeError) :
    (throw error : Edit α) tree = .error error tree := rfl

@[simp] theorem get_eq : (get : Edit Tree) tree = .ok tree tree := rfl

@[simp] theorem set_eq (after : Tree) : (set after : Edit Unit) tree = .ok () after := rfl

@[simp] theorem modify_eq (f : Tree → Tree) :
    (modify f : Edit Unit) tree = .ok () (f tree) := rfl

@[simp] theorem refuse_some (error : TreeError) :
    refuse (some error) tree = .error error tree := rfl

@[simp] theorem refuse_none : refuse none tree = .ok () tree := rfl

theorem requireNode_eq (id : NodeId) :
    requireNode id tree =
      if id < tree.size then .ok () tree else .error (.noSuchNode id) tree := by
  rw [requireNode, Step.bind_eq]
  by_cases h : id < tree.size <;> simp [Tree.contains, h]

theorem requireContainer_eq (id : NodeId) :
    requireContainer id tree =
      if (tree.container? id).isSome then .ok () tree else .error (.notAContainer id) tree := by
  rw [requireContainer, Step.bind_eq]
  by_cases h : (tree.container? id).isSome = true <;> simp [h]

theorem changeContainer_eq (id : NodeId) (f : Container → Container) :
    changeContainer id f tree =
      if (tree.container? id).isSome then .ok () (tree.modifyContainer id f)
      else .error (.notAContainer id) tree := by
  rw [changeContainer, Step.bind_eq, requireContainer_eq]
  by_cases h : (tree.container? id).isSome = true <;> simp [h]

theorem setParent_eq (id : NodeId) (parent : Option NodeId) :
    setParent id parent tree =
      if id < tree.size then .ok () (tree.setParent id parent)
      else .error (.noSuchNode id) tree := by
  rw [setParent, Step.bind_eq, requireNode_eq]
  by_cases h : id < tree.size <;> simp [h]

theorem requireChild_of_mem {container child : NodeId} {c : Container} (error : TreeError)
    (hc : tree.container? container = some c) (hchild : child ∈ tree.content container) :
    requireChild container child error tree = .ok () tree := by
  rw [requireChild, Step.bind_eq, requireContainer_eq, hc]
  simp [Step.bind_eq, hchild]

theorem add_eq (payload : Payload) (range : Option SourceRange) :
    add payload range tree = .ok tree.size (tree.push payload range) := rfl

theorem detach_eq (child : NodeId) : detach child tree = .ok () (tree.detached child) := rfl

/-- The changes that put a node into a container: the container is there, and only the node itself
may be missing. -/
theorem attach_eq {container : NodeId} {c : Container} (hc : tree.container? container = some c)
    (f : Container → Container) (child : NodeId) :
    (do changeContainer container f; setParent child (some container) : Edit Unit) tree =
      let after := (tree.modifyContainer container f).setParent child (some container)
      if child < after.size then .ok () after else .error (.noSuchNode child) after := by
  simp only [Step.bind_eq, changeContainer_eq, hc, Option.isSome_some, if_true, setParent_eq,
    Tree.size_setParent, Tree.size_modifyContainer]
  split
  · rfl
  · next hlt =>
    rw [Tree.setParent_of_size_le _ (by simpa using Nat.not_lt.mp hlt)]

theorem addContent_eq (container child : NodeId) :
    addContent container child tree =
      match tree.attachFault? container child with
      | some error => .error error tree
      | none =>
        match tree.nameFault? container (tree.validName? child) [child] with
        | some error => .error error tree
        | none =>
          let after := (tree.detached child).appended container child (tree.validName? child)
          if child < after.size then .ok () after else .error (.noSuchNode child) after := by
  cases ha : tree.attachFault? container child with
  | some error => simp [addContent, Step.bind_eq, ha]
  | none =>
    cases hn : tree.nameFault? container (tree.validName? child) [child] with
    | some error => simp [addContent, Step.bind_eq, ha, hn]
    | none =>
      obtain ⟨⟨c, hc⟩, -⟩ := Tree.attachFault?_eq_none_iff.mp ha
      obtain ⟨d, hd⟩ := Tree.exists_container?_detached child hc
      have hattach := attach_eq (tree.detached child) hd
        (fun c => (c.append child).enter (tree.validName? child) child true) child
      simp only [addContent, Step.bind_eq, get_eq, ha, hn, refuse_none, detach_eq]
      rw [Step.bind_eq] at hattach
      exact hattach

theorem addNamed_eq (container child : NodeId) :
    addNamed container child tree =
      match tree.attachFault? container child with
      | some error => .error error tree
      | none =>
        match tree.validName? child with
        | none => .error (.unnamedContent child) tree
        | some name =>
          match tree.nameFault? container (some name) [child] with
          | some error => .error error tree
          | none => .ok () ((tree.detached child).enteredByName container child name) := by
  cases ha : tree.attachFault? container child with
  | some error => simp [addNamed, Step.bind_eq, ha]
  | none =>
    cases hv : tree.validName? child with
    | none => simp [addNamed, Step.bind_eq, ha, hv]
    | some name =>
      cases hn : tree.nameFault? container (some name) [child] with
      | some error => simp [addNamed, Step.bind_eq, ha, hv, hn]
      | none =>
        obtain ⟨⟨c, hc⟩, -⟩ := Tree.attachFault?_eq_none_iff.mp ha
        obtain ⟨d, hd⟩ := Tree.exists_container?_detached child hc
        -- A node with a name is a container of the tree, so it is not missing.
        obtain ⟨own, hown, -⟩ := Option.bind_eq_some_iff.mp hv
        have hlt : child < tree.size := tree.lt_size_of_container? hown
        have hattach := attach_eq (tree.detached child) hd (·.enter (some name) child false) child
        simp only [Tree.size_setParent, Tree.size_modifyContainer, Tree.size_detached,
          if_pos hlt] at hattach
        simp only [addNamed, Step.bind_eq, get_eq, ha, hv, hn, refuse_none, detach_eq]
        rw [Step.bind_eq] at hattach
        exact hattach

/-- The content that is listed has to be there, for the child that leaves is told so. -/
theorem setChild_eq (container : NodeId) (index : Nat) (child : NodeId)
    (hlisted : ∀ id ∈ tree.content container, id < tree.size) :
    setChild container index child tree =
      match tree.attachFault? container child with
      | some error => .error error tree
      | none =>
        match (tree.content container)[index]? with
        | none => .error (.indexOutOfRange index (tree.content container).length) tree
        | some previous =>
          if previous = child then .ok previous tree
          else
            match tree.nameFault? container (tree.validName? child) [child, previous] with
            | some error => .error error tree
            | none =>
              let after := (tree.detached child).substituted container previous child
                (tree.validName? child)
              if child < after.size then .ok previous after
              else .error (.noSuchNode child) after := by
  cases ha : tree.attachFault? container child with
  | some error => simp [setChild, Step.bind_eq, ha]
  | none =>
    cases hi : (tree.content container)[index]? with
    | none => simp [setChild, Step.bind_eq, ha, hi]
    | some previous =>
      by_cases hp : previous = child
      · simp [setChild, Step.bind_eq, ha, hi, hp]
      · cases hn : tree.nameFault? container (tree.validName? child) [child, previous] with
        | some error => simp [setChild, Step.bind_eq, ha, hi, hp, hn]
        | none =>
          have hprev : previous ∈ tree.content container := List.mem_of_getElem? hi
          obtain ⟨⟨c, hc⟩, -⟩ := Tree.attachFault?_eq_none_iff.mp ha
          obtain ⟨d, hd⟩ := Tree.exists_container?_detached child hc
          simp only [setChild, Step.bind_eq, get_eq, ha, refuse_none, hi, if_neg hp, hn, detach_eq,
            requireChild_of_mem _ _ hd (Tree.mem_content_detached hp hprev), changeContainer_eq, hd,
            Option.isSome_some, if_true, setParent_eq, Tree.size_modifyContainer,
            Tree.size_detached, Tree.size_setParent, if_pos (hlisted previous hprev), pure_eq,
            Tree.substituted]
          by_cases hlt : child < tree.size
          · simp [hlt]
          · have hmissing : ∀ t : Tree, t.size = tree.size → t.setParent child (some container) = t :=
              fun t ht => t.setParent_of_size_le (ht ▸ Nat.not_lt.mp hlt) _
            rw [if_neg hlt, if_neg hlt, hmissing _ (by simp)]

/-- The parent has to be a container, for it lists its child anew. -/
theorem setName_eq (id : NodeId) (name : Option String)
    (hparent : ∀ parent, tree.parent? id = some parent → (tree.container? parent).isSome) :
    setName id name tree =
      if (tree.container? id).isSome then
        match (tree.parent? id).bind fun parent =>
          tree.nameFault? parent (Container.validName? { name }) [id] with
        | some error => .error error tree
        | none => .ok () (tree.renamed id name)
      else .error (.notAContainer id) tree := by
  rw [setName, Step.bind_eq, requireContainer_eq]
  by_cases hc : (tree.container? id).isSome = true
  · cases hp : tree.parent? id with
    | none => simp [hc, Step.bind_eq, hp, changeContainer_eq, Tree.renamed]
    | some parent =>
      cases hn : tree.nameFault? parent (Container.validName? { name }) [id] with
      | some error => simp [hc, Step.bind_eq, hp, hn]
      | none =>
        obtain ⟨own, hown⟩ := Option.isSome_iff_exists.mp hc
        obtain ⟨c, hpc⟩ := Option.isSome_iff_exists.mp (hparent parent hp)
        have hlt : id < tree.size := tree.lt_size_of_container? hown
        -- Listing the child anew changes a container, and no node stops being one.
        have hstill : ∀ f, ((tree.modifyContainer parent f).container? id).isSome := fun f => by
          rw [Tree.container?_modifyContainer, hown]
          split <;> rfl
        simp only [hc, if_true, Step.bind_eq, get_eq, hp, hn, refuse_none, changeContainer_eq,
          hpc, Option.isSome_some, hstill, Option.bind_some, Tree.renamed]
        split
        · simp [setParent_eq, hlt]
        · rfl
  · simp [hc]

theorem replace_eq (id : NodeId) (payload : Payload) :
    replace id payload tree =
      match tree.payload? id with
      | none => .error (.noSuchNode id) tree
      | some old =>
        if old.isContainer || payload.isContainer then .error (.containerReplacement id) tree
        else .ok old (tree.setPayload id payload) := by
  cases hp : tree.payload? id with
  | none => simp [replace, Step.bind_eq, hp]
  | some old =>
    by_cases hc : (old.isContainer || payload.isContainer) = true
    · simp only [replace, Step.bind_eq, get_eq, hp, if_pos hc, throw_eq]
    · simp only [replace, Step.bind_eq, get_eq, hp, if_neg hc, set_eq, pure_eq]

theorem setFlags_eq (id : NodeId) (flags : CountFlags) :
    setFlags id flags tree =
      if (tree.container? id).isSome then .ok () (tree.modifyContainer id (·.setFlags flags))
      else .error (.notAContainer id) tree := by
  rw [setFlags, changeContainer_eq]

theorem insertFlags_eq (id : NodeId) (flags : CountFlags) :
    insertFlags id flags tree =
      if (tree.container? id).isSome then .ok () (tree.modifyContainer id (·.insertFlags flags))
      else .error (.notAContainer id) tree := by
  rw [insertFlags, changeContainer_eq]

theorem setRange_eq (id : NodeId) (range : Option SourceRange) :
    setRange id range tree =
      if id < tree.size then .ok () (tree.setRange id range) else .error (.noSuchNode id) tree := by
  rw [setRange, Step.bind_eq, requireNode_eq]
  by_cases h : id < tree.size <;> simp [h]

end Edit

end Narrative
