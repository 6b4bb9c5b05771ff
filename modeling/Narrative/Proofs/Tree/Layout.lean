import Narrative.Proofs.Tree.Lookup
import Narrative.Tree.Outline

/-!
# Subtrees at the end of a tree

How a subtree lies in a tree when its nodes are added one after the other, each
node before those below it: `Outline.layout` lists the nodes of an outline whose
top stands at a given place. `Tree.extend` adds nodes at the end of a tree.
-/

namespace Narrative

namespace Outline

/-- The name under which an outline's container can be listed. -/
def validName? : Outline → Option String
  | leaf _ => none
  | container name _ _ _ => Container.validName? { name }

def name? : Outline → Option String
  | leaf _ => none
  | container name _ _ _ => name

/-- The outline with another name, if it is a container. -/
def rename (name : Option String) : Outline → Outline
  | leaf l => leaf l
  | container _ flags content named => container name flags content named

theorem rename_name? (outline : Outline) : outline.rename outline.name? = outline := by
  cases outline <;> rfl

mutual

/-- The number of nodes. -/
def size : Outline → Nat
  | leaf _ => 1
  | container _ _ content named => 1 + sizeItems content + sizeNamed named

def sizeItems : List Outline → Nat
  | [] => 0
  | item :: rest => size item + sizeItems rest

def sizeNamed : List (String × Outline) → Nat
  | [] => 0
  | (_, item) :: rest => size item + sizeNamed rest

end

/-- The places of siblings that are laid out from a place on. -/
def places (n : Nat) : List Outline → List NodeId
  | [] => []
  | item :: rest => n :: places (n + item.size) rest

/-- The entries of the content in the table: those of the children that have a name. -/
def entries (n : Nat) : List Outline → List NamedEntry
  | [] => []
  | item :: rest =>
    (item.validName?.map fun name => ⟨name, n, true⟩).toList ++ entries (n + item.size) rest

/-- The entries of the children that are listed by name only. -/
def namedEntries (n : Nat) : List (String × Outline) → List NamedEntry
  | [] => []
  | (name, item) :: rest => ⟨name, n, false⟩ :: namedEntries (n + item.size) rest

/-- The payload of the top node. -/
def payloadAt (n : Nat) : Outline → Payload
  | leaf l => .leaf l
  | container name flags content named =>
    .container
      { content := places (n + 1) content
        table := entries (n + 1) content ++ namedEntries (n + 1 + sizeItems content) named
        flags, name }

mutual

/-- The nodes below the top node. -/
def lower (n : Nat) : Outline → List Node
  | leaf _ => []
  | container _ _ content named =>
    layoutItems (some n) (n + 1) content
      ++ layoutNamed (some n) (n + 1 + sizeItems content) named

/-- The nodes of siblings. -/
def layoutItems (parent : Option NodeId) (n : Nat) : List Outline → List Node
  | [] => []
  | item :: rest =>
    ({ parent, payload := payloadAt n item } :: lower n item)
      ++ layoutItems parent (n + size item) rest

/-- The nodes of siblings that are listed by name. -/
def layoutNamed (parent : Option NodeId) (n : Nat) : List (String × Outline) → List Node
  | [] => []
  | (_, item) :: rest =>
    ({ parent, payload := payloadAt n item } :: lower n item)
      ++ layoutNamed parent (n + size item) rest

end

/-- The nodes of an outline whose top stands at place `n`. -/
def layout (parent : Option NodeId) (n : Nat) (outline : Outline) : List Node :=
  { parent, payload := outline.payloadAt n } :: outline.lower n

/-! ## How many nodes there are -/

theorem size_pos (outline : Outline) : 0 < outline.size := by
  cases outline <;> simp only [size] <;> omega

mutual

theorem length_lower : ∀ (n : Nat) (outline : Outline), (outline.lower n).length + 1 = outline.size
  | _, leaf _ => rfl
  | n, container _ _ content named => by
    simp only [lower, size, List.length_append, length_layoutItems, length_layoutNamed]
    omega

theorem length_layoutItems : ∀ (parent : Option NodeId) (n : Nat) (items : List Outline),
    (layoutItems parent n items).length = sizeItems items
  | _, _, [] => rfl
  | parent, n, item :: rest => by
    have hitem := length_lower n item
    simp only [layoutItems, sizeItems, List.length_append, List.length_cons, length_layoutItems]
    omega

theorem length_layoutNamed : ∀ (parent : Option NodeId) (n : Nat)
    (items : List (String × Outline)), (layoutNamed parent n items).length = sizeNamed items
  | _, _, [] => rfl
  | parent, n, (_, item) :: rest => by
    have hitem := length_lower n item
    simp only [layoutNamed, sizeNamed, List.length_append, List.length_cons, length_layoutNamed]
    omega

end

theorem length_layout (parent : Option NodeId) (n : Nat) (outline : Outline) :
    (outline.layout parent n).length = outline.size := by
  simpa [layout] using outline.length_lower n

end Outline

namespace Tree

variable (tree : Tree)

/-- The tree with more nodes at its end. -/
def extend (nodes : List Node) : Tree := { nodes := tree.nodes ++ nodes.toArray }

@[simp] theorem size_extend (nodes : List Node) :
    (tree.extend nodes).size = tree.size + nodes.length := by
  simp [extend, size]

theorem get?_extend_old {nodes : List Node} {i : NodeId} (h : i < tree.size) :
    (tree.extend nodes).get? i = tree.get? i := by
  simpa [extend, get?] using Array.getElem?_append_left h

theorem get?_extend_new (nodes : List Node) (k : Nat) :
    (tree.extend nodes).get? (tree.size + k) = nodes[k]? := by
  simp only [extend, get?, size]
  simp [Array.getElem?_append_right]

theorem get?_extend (nodes : List Node) (i : NodeId) :
    (tree.extend nodes).get? i =
      if i < tree.size then tree.get? i else nodes[i - tree.size]? := by
  by_cases h : i < tree.size
  · rw [if_pos h, tree.get?_extend_old h]
  · obtain ⟨k, rfl⟩ := Nat.exists_eq_add_of_le (Nat.not_lt.mp h)
    rw [if_neg h, get?_extend_new, Nat.add_sub_cancel_left]

@[simp] theorem extend_nil : tree.extend [] = tree := by
  simp [extend]

@[simp] theorem extend_extend (first second : List Node) :
    (tree.extend first).extend second = tree.extend (first ++ second) := by
  simp [extend]

theorem push_eq_extend (payload : Payload) (range : Option SourceRange) :
    tree.push payload range = tree.extend [{ range, payload := payload.emptied }] := by
  simp [push, extend]

/-- A change at an old place does not see the new nodes. -/
theorem modify_extend {id : NodeId} (h : id < tree.size) (f : Node → Node) (nodes : List Node) :
    (tree.extend nodes).modify id f = (tree.modify id f).extend nodes := by
  apply ext_get?
  intro i
  simp only [get?_modify, get?_extend, size_modify]
  grind

/-- A change at the first new place. -/
theorem modify_extend_head (f : Node → Node) (node : Node) (nodes : List Node) :
    (tree.extend (node :: nodes)).modify tree.size f = tree.extend (f node :: nodes) := by
  apply ext_get?
  intro i
  simp only [get?_modify, get?_extend]
  by_cases h : i < tree.size
  · simp [h, Nat.ne_of_gt h]
  · obtain ⟨k, rfl⟩ := Nat.exists_eq_add_of_le (Nat.not_lt.mp h)
    cases k <;> simp

theorem modifyContainer_extend {id : NodeId} (h : id < tree.size) (f : Container → Container)
    (nodes : List Node) :
    (tree.extend nodes).modifyContainer id f = (tree.modifyContainer id f).extend nodes :=
  tree.modify_extend h _ nodes

theorem modifyContainer_modifyContainer (id : NodeId) (f g : Container → Container) :
    (tree.modifyContainer id f).modifyContainer id g =
      tree.modifyContainer id fun c => g (f c) := by
  apply ext_get?
  intro i
  simp only [modifyContainer, get?_modify]
  by_cases h : id = i
  · cases hn : tree.get? i with
    | none => simp [h]
    | some node => cases hp : node.payload <;> simp [h, hp]
  · simp [h]

theorem parent?_extend_old {nodes : List Node} {i : NodeId} (h : i < tree.size) :
    (tree.extend nodes).parent? i = tree.parent? i := by
  simp [parent?, tree.get?_extend_old h]

theorem container?_extend_old {nodes : List Node} {i : NodeId} (h : i < tree.size) :
    (tree.extend nodes).container? i = tree.container? i := by
  simp [container?, payload?, tree.get?_extend_old h]

theorem get?_extend_layout (parent : Option NodeId) (outline : Outline) :
    (tree.extend (outline.layout parent tree.size)).get? tree.size =
      some { parent, payload := outline.payloadAt tree.size } := by
  simpa [Outline.layout] using tree.get?_extend_new (outline.layout parent tree.size) 0

theorem size_lt_extend_layout (parent : Option NodeId) (outline : Outline) :
    tree.size < (tree.extend (outline.layout parent tree.size)).size := by
  have hpos := outline.size_pos
  rw [size_extend, Outline.length_layout]
  omega

theorem parent?_extend_layout (parent : Option NodeId) (outline : Outline) :
    (tree.extend (outline.layout parent tree.size)).parent? tree.size = parent := by
  simp [parent?, get?_extend_layout]

theorem validName?_extend_layout (parent : Option NodeId) (outline : Outline) :
    (tree.extend (outline.layout parent tree.size)).validName? tree.size =
      outline.validName? := by
  cases outline <;>
    simp [validName?, container?, payload?, get?_extend_layout, Outline.payloadAt,
      Payload.container?, Outline.validName?, Container.validName?]

end Tree

end Narrative
