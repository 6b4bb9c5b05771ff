import Narrative.Proofs.Tree.Reachable

/-!
# Refused calls

An edit takes a node out of its old parent before it looks up the container that
the node goes to, and changes one node after the other. It could therefore stop
halfway. In a well-formed tree it does not: a call that is refused is refused by
one of the checks that come first, and the tree is as it was.
-/

namespace Narrative

namespace Edit

open Narrative.Tree

variable {tree : Tree} {p child id : NodeId}

theorem intact_addContent (hchild : child < tree.size) :
    Intact tree (addContent p child tree) := by
  rw [addContent_eq]
  cases tree.attachFault? p child with
  | some error => exact intact_error tree error
  | none =>
    cases tree.nameFault? p (tree.validName? child) [child] with
    | some error => exact intact_error tree error
    | none =>
      have hlt : child < ((tree.detached child).appended p child (tree.validName? child)).size := by
        simpa [appended] using hchild
      simp only [if_pos hlt]
      exact intact_ok tree () _

theorem intact_addNamed : Intact tree (addNamed p child tree) := by
  rw [addNamed_eq]
  cases tree.attachFault? p child with
  | some error => exact intact_error tree error
  | none =>
    cases tree.validName? child with
    | none => exact intact_error tree _
    | some name =>
      simp only
      cases tree.nameFault? p (some name) [child] with
      | some error => exact intact_error tree error
      | none => exact intact_ok tree () _

theorem intact_setChild (h : tree.WellFormed) (hchild : child < tree.size) (index : Nat) :
    Intact tree (setChild p index child tree) := by
  rw [setChild_eq _ _ _ _ fun _ => h.content_lt_size]
  cases tree.attachFault? p child with
  | some error => exact intact_error tree error
  | none =>
    cases (tree.content p)[index]? with
    | none => exact intact_error tree _
    | some previous =>
      by_cases hsame : previous = child
      · simp only [if_pos hsame]
        exact intact_ok tree previous tree
      · simp only [if_neg hsame]
        cases tree.nameFault? p (tree.validName? child) [child, previous] with
        | some error => exact intact_error tree error
        | none =>
          have hlt : child < ((tree.detached child).substituted p previous child
              (tree.validName? child)).size := by
            simpa [substituted] using hchild
          simp only [if_pos hlt]
          exact intact_ok tree previous _

theorem intact_setName (h : tree.WellFormed) (name : Option String) :
    Intact tree (setName id name tree) := by
  rw [setName_eq _ _ _ fun _ => h.parent_isSome]
  split
  · split
    · exact intact_error tree _
    · exact intact_ok tree () _
  · exact intact_error tree _

theorem intact_replace (payload : Payload) : Intact tree (replace id payload tree) := by
  rw [replace_eq]
  cases tree.payload? id with
  | none => exact intact_error tree _
  | some old =>
    simp only
    split
    · exact intact_error tree _
    · exact intact_ok tree old _

theorem intact_changeContainer (f : Container → Container) :
    Intact tree (changeContainer id f tree) := by
  rw [changeContainer_eq]
  split
  · exact intact_ok tree () _
  · exact intact_error tree _

theorem intact_setRange (range : Option SourceRange) : Intact tree (setRange id range tree) := by
  rw [setRange_eq]
  split
  · exact intact_ok tree () _
  · exact intact_error tree _

end Edit

theorem Decoding.intact_readObject (token : Json) (tree : Tree) :
    Intact tree (readObject token tree) := by
  rcases readObject_spec token tree with ⟨outline, -, hstep⟩ | ⟨-, error, hstep⟩
  · rw [hstep]
    exact intact_ok tree _ _
  · rw [hstep]
    exact intact_error tree error

/-- Why an edit is refused, as an error of reading. -/
def Edit.fault? {α : Type} (result : EStateM.Result TreeError Tree α) : Option DecodeError :=
  (refusal? result).map .tree

theorem Intact.of_fault? {α : Type} {tree : Tree} {result : EStateM.Result TreeError Tree α}
    (h : Intact tree result) {error : DecodeError} (hfault : Edit.fault? result = some error) :
    stateAfter result = tree := by
  obtain ⟨reason, hreason, -⟩ := Option.map_eq_some_iff.mp hfault
  exact h reason hreason

namespace TreeCall

/-- Why a call is refused, if it is. -/
def fault? (tree : Tree) : TreeCall → Option DecodeError
  | add payload range => Edit.fault? (Edit.add payload range tree)
  | addContent container child => Edit.fault? (Edit.addContent container child tree)
  | addNamed container child => Edit.fault? (Edit.addNamed container child tree)
  | setChild container index child => Edit.fault? (Edit.setChild container index child tree)
  | detach child => Edit.fault? (Edit.detach child tree)
  | setName id name => Edit.fault? (Edit.setName id name tree)
  | replace id payload => Edit.fault? (Edit.replace id payload tree)
  | setFlags id flags => Edit.fault? (Edit.setFlags id flags tree)
  | insertFlags id flags => Edit.fault? (Edit.insertFlags id flags tree)
  | setRange id range => Edit.fault? (Edit.setRange id range tree)
  | read token => refusal? (Decoding.readObject token tree)

/-- On a tree that calls lead to, a call that names nodes of the tree and is refused, for whatever
reason, leaves every node as it was. -/
theorem refused_leaves_tree {tree : Tree} (hreach : tree.Reachable) {call : TreeCall}
    (hids : ∀ id ∈ call.ids, id < tree.size) {error : DecodeError}
    (hfault : call.fault? tree = some error) : call.run tree = tree := by
  have h := hreach.wellFormed
  cases call with
  | add payload range => cases hfault
  | addContent container child =>
    exact (Edit.intact_addContent (hids child (by simp [ids]))).of_fault? hfault
  | addNamed container child => exact Edit.intact_addNamed.of_fault? hfault
  | setChild container index child =>
    exact (Edit.intact_setChild h (hids child (by simp [ids])) index).of_fault? hfault
  | detach child => cases hfault
  | setName id name => exact (Edit.intact_setName h name).of_fault? hfault
  | replace id payload => exact (Edit.intact_replace payload).of_fault? hfault
  | setFlags id flags => exact (Edit.intact_changeContainer (·.setFlags flags)).of_fault? hfault
  | insertFlags id flags =>
    exact (Edit.intact_changeContainer (·.insertFlags flags)).of_fault? hfault
  | setRange id range => exact (Edit.intact_setRange range).of_fault? hfault
  | read token => exact Decoding.intact_readObject token tree error hfault

/-- A knot with two children, one of them named, and another knot with a child of the same name. -/
def twinsRun : List TreeCall :=
  [.add (.container {}) none, .add (.container { name := some "cellar" }) none,
    .add (.leaf .glue) none, .add (.container {}) none,
    .add (.container { name := some "cellar" }) none, .addContent 0 1, .addContent 0 2,
    .addNamed 3 4]

/-- The second cellar may take the place of the first one, but not that of the glue. -/
theorem refused_leaves_tree_twins :
    NamesNodes .empty twinsRun ∧
      (setChild 0 1 4).fault? (runAll .empty twinsRun) =
        some (.tree (.duplicateName "cellar")) ∧
      (setChild 0 1 4).run (runAll .empty twinsRun) = runAll .empty twinsRun := by
  have hnames : NamesNodes .empty twinsRun := by decide
  have hfault : (setChild 0 1 4).fault? (runAll .empty twinsRun) =
      some (.tree (.duplicateName "cellar")) := by decide
  exact ⟨hnames, hfault, refused_leaves_tree ⟨twinsRun, hnames, rfl⟩ (by decide) hfault⟩

end TreeCall

end Narrative
