import Narrative.Json.Reader
import Narrative.Wire.Encoding

/-!
# Reading subtrees

A token is turned into new nodes at the end of a tree, each node before those
below it. When a token is refused, the tree is cut back to the nodes it had.
-/

namespace Narrative

/-- A step of reading into a tree. -/
abbrev Decoding := EStateM DecodeError Tree

namespace Decoding

/-- An edit as a step of reading. -/
def edit {α : Type} (step : Edit α) : Decoding α := fun tree =>
  match step tree with
  | .ok a tree => .ok a tree
  | .error error tree => .error (.tree error) tree

def ofExcept {α : Type} : Except DecodeError α → Decoding α
  | .ok a => pure a
  | .error error => throw error

/-- Cuts the tree back to its old nodes when a step fails. -/
def orRollBack {α : Type} (step : Decoding α) : Decoding α := fun tree =>
  match step tree with
  | .ok a tree => .ok a tree
  | .error error after => .error error (after.truncate tree.size)

/-- The container that a terminator describes, without its children. -/
def containerOf (fields : Dict Json) : Except DecodeError Container := do
  let flags ← Wire.optionalWord fields Wire.flagsKey
  let name ← match Dict.get? fields Wire.nameKey with
    | some value => some <$> Wire.asStr fields Wire.nameKey value
    | none => .ok none
  .ok { flags := ⟨flags⟩, name }

/-- The container that an array describes, without its children. -/
def containerOfItems (items : List Json) : Except DecodeError Container :=
  match items.getLast? with
  | none => .error .missingTerminator
  | some .null => .ok {}
  | some (.obj fields) => containerOf fields
  | some token => .error (.invalidTerminator token.text)

/-- Moves a new node into a container under a name. -/
def addUnder (container : NodeId) (name : String) (child : NodeId) : Decoding Unit := do
  if ((← get).container? child).isNone then throw (.namedContentNotContainer name)
  else do
    edit (Edit.setName child (some name))
    edit (Edit.addNamed container child)

mutual

/-- Adds the subtree that a token stands for and returns its top node. -/
def token : Json → Decoding NodeId
  | .null => throw (.unrecognizedToken Json.null.text)
  | .bool b => edit (Edit.add (.leaf (.value (.bool b))))
  | .int n => edit (Edit.add (.leaf (.value (.int n))))
  | .float x => edit (Edit.add (.leaf (.value (.float x))))
  | .str text => do
    let leaf ← ofExcept (Leaf.ofString text)
    edit (Edit.add (.leaf leaf))
  | .obj fields => do
    let leaf ← ofExcept (Leaf.ofFields fields)
    edit (Edit.add (.leaf leaf))
  | .arr items => do
    let container ← ofExcept (containerOfItems items)
    let id ← edit (Edit.add (.container container))
    children id items
    pure id

/-- Adds the children that an array describes: content, then what the terminator lists. -/
def children (id : NodeId) : List Json → Decoding Unit
  | [] => pure ()
  | [.obj fields] => named id fields
  | [_] => pure ()
  | item :: rest => do
    let child ← token item
    edit (Edit.addContent id child)
    children id rest

/-- Adds the children that a terminator lists by name. -/
def named (id : NodeId) : List (String × Json) → Decoding Unit
  | [] => pure ()
  | (key, item) :: rest => do
    if key = Wire.flagsKey ∨ key = Wire.nameKey then pure ()
    else do
      let child ← token item
      addUnder id key child
    named id rest

end

/-- The subtrees of tokens, one after the other. -/
def tokens : List Json → Decoding (List NodeId)
  | [] => pure []
  | item :: rest => do
    let id ← token item
    let ids ← tokens rest
    pure (id :: ids)

/-- The subtrees of named tokens, one after the other. -/
def entries : List (String × Json) → Decoding (List (String × NodeId))
  | [] => pure []
  | (name, item) :: rest => do
    let id ← token item
    let ids ← entries rest
    pure ((name, id) :: ids)

/-- Adds the subtree of a token, or nothing. -/
def readObject (item : Json) : Decoding NodeId := orRollBack (token item)

/-- Adds the subtrees of tokens, or nothing. -/
def readList (items : List Json) : Decoding (List NodeId) := orRollBack (tokens items)

/-- Adds the subtrees of named tokens, or nothing. -/
def readDict (fields : Dict Json) : Decoding (List (String × NodeId)) :=
  orRollBack (entries fields)

end Decoding

/-- A tree and one of its nodes. -/
structure Subtree where
  tree : Tree
  id : NodeId

namespace Subtree

/-- The subtree of a token, in a tree of its own. -/
def ofToken (token : Json) : Except DecodeError Subtree :=
  match (Decoding.readObject token).run .empty with
  | .ok id tree => .ok { tree, id }
  | .error error _ => .error error

/-- The subtree of a token that is given as text. -/
def ofText (text : String) : Except DecodeError Subtree :=
  match Json.parse text with
  | .ok token => ofToken token
  | .error error => .error (.json error)

end Subtree

end Narrative
