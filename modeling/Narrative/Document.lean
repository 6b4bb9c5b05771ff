import Narrative.Tree.Comparison
import Narrative.Tree.Navigation
import Narrative.Wire.Decoding

/-!
# Story documents

A document is a tree of content with a root and the version of the format it was
written in. Reading accepts a range of versions; the root has to be a container.
-/

namespace Narrative

/-- A compiled story. -/
structure Document where
  tree : Tree
  root : NodeId
  version : Int32 := 12

namespace Document

/-- The version that is written, and the newest that is read. -/
def currentVersion : Int32 := 12

/-- The oldest version that is read. -/
def minimumVersion : Int32 := 11

def versionKey : String := "inkVersion"

def rootKey : String := "root"

/-- The names under which the root lists its flows. -/
def flowNames (document : Document) : List String :=
  match document.tree.container? document.root with
  | some container => container.namedOnly.map NamedEntry.name
  | none => []

/-- The token of a document; `none` when the tree has no such root. -/
def encode? (document : Document) : Option Json :=
  (document.tree.encode? document.root true).map fun root =>
    .obj [(versionKey, .int document.version), (rootKey, root)]

/-- Writing a document; `none` when the tree has no such root. -/
def stream? (document : Document) : Option (Json.Writing Unit) :=
  (document.tree.stream? document.root true).map fun root =>
    Json.Writing.object do
      Json.Writing.intProperty versionKey document.version
      Json.Writing.property rootKey root

/-- The text of a document, written piece by piece. -/
def streamed? (document : Document) : Option String := document.stream?.map Json.Writing.text

/-- The text of a token, cut after two hundred characters. -/
def excerpt (token : Json) : String :=
  if token.text.length ≤ 200 then token.text
  else String.ofList (token.text.toList.take 200) ++ "..."

/-- The version that a document states. -/
def versionOf (token : Json) (fields : Dict Json) : Except DecodeError Int32 :=
  match Dict.get? fields versionKey with
  | none => .error (.missingField versionKey (excerpt token))
  | some (.int version) =>
    if currentVersion < version then
      .error (.versionTooNew version.toInt currentVersion.toInt)
    else if version < minimumVersion then
      .error (.versionTooOld version.toInt minimumVersion.toInt)
    else .ok version
  | some _ => .error (.invalidField versionKey (excerpt token))

/-- The document that a token stands for. -/
def ofToken (token : Json) : Except DecodeError Document :=
  match token.obj? with
  | none => .error (.expectedObject (excerpt token))
  | some fields => do
    let version ← versionOf token fields
    match Dict.get? fields rootKey with
    | none => .error (.missingField rootKey (excerpt token))
    | some root => do
      let subtree ← Subtree.ofToken root
      if (subtree.tree.container? subtree.id).isSome then
        .ok { tree := subtree.tree, root := subtree.id, version }
      else .error (.rootNotContainer root.text)

/-- The document that a text stands for. -/
def ofText (text : String) : Except DecodeError Document :=
  match Json.parse text with
  | .ok token => ofToken token
  | .error error => .error (.json error)

/-- Whether two documents have the same content. -/
def sameContent (a b : Document) : Bool := a.tree.sameStructure a.root b.tree b.root

end Document

end Narrative
