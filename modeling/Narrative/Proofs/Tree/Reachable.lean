import Narrative.Proofs.Tree.Editing
import Narrative.Proofs.Wire.Reading

/-!
# The trees that calls lead to

A call is an edit of a tree or the reading of a token into it. Calls may be
refused; what matters here is the tree they leave. Every tree that a run of calls
leaves, starting from the empty tree, is well-formed. A run is taken to name only
nodes that are there when their call is made.
-/

namespace Narrative

/-- An operation on a tree, with its arguments. -/
inductive TreeCall where
  | add (payload : Payload) (range : Option SourceRange)
  | addContent (container child : NodeId)
  | addNamed (container child : NodeId)
  | setChild (container : NodeId) (index : Nat) (child : NodeId)
  | detach (child : NodeId)
  | setName (id : NodeId) (name : Option String)
  | replace (id : NodeId) (payload : Payload)
  | setFlags (id : NodeId) (flags : CountFlags)
  | insertFlags (id : NodeId) (flags : CountFlags)
  | setRange (id : NodeId) (range : Option SourceRange)
  | read (token : Json)

namespace TreeCall

/-- The nodes that a call names. -/
def ids : TreeCall → List NodeId
  | add _ _ => []
  | addContent container child => [container, child]
  | addNamed container child => [container, child]
  | setChild container _ child => [container, child]
  | detach child => [child]
  | setName id _ => [id]
  | replace id _ => [id]
  | setFlags id _ => [id]
  | insertFlags id _ => [id]
  | setRange id _ => [id]
  | read _ => []

/-- The tree that a call leaves, whether it is refused or not. -/
def run (tree : Tree) : TreeCall → Tree
  | add payload range => stateAfter (Edit.add payload range tree)
  | addContent container child => stateAfter (Edit.addContent container child tree)
  | addNamed container child => stateAfter (Edit.addNamed container child tree)
  | setChild container index child => stateAfter (Edit.setChild container index child tree)
  | detach child => stateAfter (Edit.detach child tree)
  | setName id name => stateAfter (Edit.setName id name tree)
  | replace id payload => stateAfter (Edit.replace id payload tree)
  | setFlags id flags => stateAfter (Edit.setFlags id flags tree)
  | insertFlags id flags => stateAfter (Edit.insertFlags id flags tree)
  | setRange id range => stateAfter (Edit.setRange id range tree)
  | read token => stateAfter (Decoding.readObject token tree)

/-- The tree that a run of calls leaves. -/
def runAll (tree : Tree) (calls : List TreeCall) : Tree := calls.foldl run tree

/-- Every call of a run names nodes that are there when it is made. -/
def NamesNodes : Tree → List TreeCall → Prop
  | _, [] => True
  | tree, call :: rest => (∀ id ∈ call.ids, id < tree.size) ∧ NamesNodes (call.run tree) rest

instance decidableNamesNodes : (tree : Tree) → (calls : List TreeCall) →
    Decidable (NamesNodes tree calls)
  | _, [] => .isTrue trivial
  | tree, call :: rest =>
    have := decidableNamesNodes (call.run tree) rest
    inferInstanceAs (Decidable
      ((∀ id ∈ call.ids, id < tree.size) ∧ NamesNodes (call.run tree) rest))

end TreeCall

/-- A tree that some run of calls leads to. -/
def Tree.Reachable (tree : Tree) : Prop :=
  ∃ calls, TreeCall.NamesNodes .empty calls ∧ TreeCall.runAll .empty calls = tree

/-- Reading a token keeps a tree well-formed, whether the token is accepted or not. -/
theorem Tree.WellFormed.readObject {tree : Tree} (h : tree.WellFormed) (token : Json) :
    (stateAfter (Decoding.readObject token tree)).WellFormed := by
  rcases Decoding.readObject_spec token tree with ⟨outline, hread, hstep⟩ | ⟨-, error, hstep⟩
  · rw [hstep]
    exact h.extend_layout (Outline.WellNamed.of_ofToken? hread)
  · rw [hstep]
    exact h

/-- What one call keeps. -/
theorem TreeCall.wellFormed_run {tree : Tree} (h : tree.WellFormed) :
    ∀ {call : TreeCall}, (∀ id ∈ call.ids, id < tree.size) → (call.run tree).WellFormed
  | .add payload range, _ => h.push payload range
  | .addContent _ _, hids => Edit.wellFormed_addContent h (hids _ (by simp [ids]))
  | .addNamed _ _, hids => Edit.wellFormed_addNamed h (hids _ (by simp [ids]))
  | .setChild _ _ _, hids => Edit.wellFormed_setChild h (hids _ (by simp [ids]))
  | .detach child, _ => h.detached child
  | .setName _ name, _ => Edit.wellFormed_setName h name
  | .replace _ payload, _ => Edit.wellFormed_replace h payload
  | .setFlags _ flags, _ => Edit.wellFormed_setFlags h flags
  | .insertFlags _ flags, _ => Edit.wellFormed_insertFlags h flags
  | .setRange _ range, _ => Edit.wellFormed_setRange h range
  | .read token, _ => h.readObject token

/-- What a run of calls keeps. -/
theorem TreeCall.wellFormed_runAll {calls : List TreeCall} :
    ∀ {tree : Tree}, tree.WellFormed → NamesNodes tree calls → (runAll tree calls).WellFormed := by
  induction calls with
  | nil => exact fun h _ => h
  | cons call rest ih =>
    intro tree h hnames
    exact ih (wellFormed_run h hnames.1) hnames.2

theorem Tree.Reachable.wellFormed {tree : Tree} (h : tree.Reachable) : tree.WellFormed := by
  obtain ⟨calls, hnames, rfl⟩ := h
  exact TreeCall.wellFormed_runAll Tree.wellFormed_empty hnames

/-- From the empty tree, calls lead to well-formed trees only, in whatever order they are made and
whichever of them are refused. -/
theorem TreeCall.run_leaves_wellFormed (calls : List TreeCall)
    (hnames : NamesNodes .empty calls) : (runAll .empty calls).WellFormed :=
  wellFormed_runAll Tree.wellFormed_empty hnames

/-- A run with a second child of the same name, a cycle, a place that does not exist and a token
without terminator, all refused, and a child that loses its name and with it its parent. -/
theorem TreeCall.run_leaves_wellFormed_refusals :
    NamesNodes .empty
      [.add (.container { name := some "knot" }) none, .add (.container { name := some "knot" }) none,
        .add (.container { name := some "knot" }) none, .add (.leaf .glue) none, .addContent 0 1,
        .addNamed 0 2, .addContent 1 0, .addNamed 0 1, .setChild 0 0 3, .setName 1 (some ""),
        .addContent 0 3, .read (.arr [.str "<>", .null]), .setChild 0 0 4, .read (.arr [])] ∧
    (runAll .empty
      [.add (.container { name := some "knot" }) none, .add (.container { name := some "knot" }) none,
        .add (.container { name := some "knot" }) none, .add (.leaf .glue) none, .addContent 0 1,
        .addNamed 0 2, .addContent 1 0, .addNamed 0 1, .setChild 0 0 3, .setName 1 (some ""),
        .addContent 0 3, .read (.arr [.str "<>", .null]), .setChild 0 0 4,
        .read (.arr [])]).WellFormed :=
  ⟨by decide, run_leaves_wellFormed _ (by decide)⟩

end Narrative
