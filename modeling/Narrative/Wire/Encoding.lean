import Narrative.Tree.Outline
import Narrative.Wire.Token

/-!
# Storing subtrees

A container is stored as an array: its content, and last a terminator, which is
an object with the children that are listed by name only, the count flags under
`#f` and the container's own name under `#n`, or null when there is nothing to
say. A child in a terminator is stored without its own name.

`Outline.encode` builds the token as a value, where a key that occurs twice in a
terminator keeps its first position and its last value. `Outline.stream` writes
the same text piece by piece, where such a key is written twice.
-/

namespace Narrative

namespace Wire

def flagsKey : String := "#f"

def nameKey : String := "#n"

/-- The terminator of a container. -/
def terminator (named : List (String × Json)) (flags : CountFlags) (name : Option String) : Json :=
  let fields := Dict.insertAll (Dict.ofList named)
    ((if flags.isEmpty then [] else [(flagsKey, Json.int flags.bits.toInt32)])
      ++ (match name with
          | some name => [(nameKey, Json.str name)]
          | none => []))
  if fields.isEmpty then .null else .obj fields

end Wire

namespace Outline

mutual

/-- The token of a subtree; the own name of a container is left out on demand. -/
def encode (withName : Bool) : Outline → Json
  | leaf l => l.token
  | container name flags content named =>
    .arr (encodeItems content
      ++ [Wire.terminator (encodeNamed named) flags (if withName then name else none)])

def encodeItems : List Outline → List Json
  | [] => []
  | item :: rest => encode true item :: encodeItems rest

def encodeNamed : List (String × Outline) → List (String × Json)
  | [] => []
  | (name, item) :: rest => (name, encode false item) :: encodeNamed rest

end

mutual

/-- Writes the token of a subtree. -/
def stream (withName : Bool) : Outline → Json.Writing Unit
  | leaf l => Json.Writing.value l.token
  | container name flags content named => do
    Json.Writing.arrayStart
    streamItems content
    let ownName := if withName then name else none
    if named.isEmpty && flags.isEmpty && ownName.isNone then Json.Writing.null
    else do
      Json.Writing.objectStart
      streamNamed named
      if flags.isEmpty then pure ()
      else Json.Writing.intProperty Wire.flagsKey flags.bits.toInt32
      match ownName with
      | some name => Json.Writing.strProperty Wire.nameKey name
      | none => pure ()
      Json.Writing.objectEnd
    Json.Writing.arrayEnd

def streamItems : List Outline → Json.Writing Unit
  | [] => pure ()
  | item :: rest => do
    stream true item
    streamItems rest

/-- Writes children as properties under their names. -/
def streamNamed : List (String × Outline) → Json.Writing Unit
  | [] => pure ()
  | (name, item) :: rest => do
    Json.Writing.property name (stream false item)
    streamNamed rest

end

/-- Writes subtrees as properties, each with its own name. -/
def streamEntries : List (String × Outline) → Json.Writing Unit
  | [] => pure ()
  | (name, item) :: rest => do
    Json.Writing.property name (stream true item)
    streamEntries rest

end Outline

namespace Tree

/-- The token of the subtree at a node; `none` when the tree has no such node. -/
def encode? (tree : Tree) (id : NodeId) (withName : Bool) : Option Json :=
  (tree.outline? id).map (Outline.encode withName)

/-- Writing the token of the subtree at a node; `none` when the tree has no such node. -/
def stream? (tree : Tree) (id : NodeId) (withName : Bool) : Option (Json.Writing Unit) :=
  (tree.outline? id).map (Outline.stream withName)

/-- The outlines of several nodes. -/
def outlines? (tree : Tree) (ids : List NodeId) : Option (List Outline) := ids.mapM tree.outline?

/-- The outlines of several named nodes. -/
def namedOutlines? (tree : Tree) (entries : List (String × NodeId)) :
    Option (List (String × Outline)) :=
  entries.mapM fun entry => (tree.outline? entry.2).map fun outline => (entry.1, outline)

/-- The token of a list of nodes. -/
def encodeList? (tree : Tree) (ids : List NodeId) : Option Json :=
  (tree.outlines? ids).map fun outlines => .arr (Outline.encodeItems outlines)

def streamList? (tree : Tree) (ids : List NodeId) : Option (Json.Writing Unit) :=
  (tree.outlines? ids).map fun outlines => Json.Writing.array (Outline.streamItems outlines)

/-- The token of named nodes; a repeated name keeps its first position and its last value. -/
def encodeDict? (tree : Tree) (entries : List (String × NodeId)) : Option Json :=
  (tree.namedOutlines? entries).map fun outlines =>
    .obj (Dict.ofList (outlines.map fun entry => (entry.1, entry.2.encode true)))

def streamDict? (tree : Tree) (entries : List (String × NodeId)) : Option (Json.Writing Unit) :=
  (tree.namedOutlines? entries).map fun outlines =>
    Json.Writing.object (Outline.streamEntries outlines)

end Tree

namespace Wire

/-- The token of named integers. -/
def encodeInts (entries : List (String × Int32)) : Json :=
  .obj (Dict.ofList (entries.map fun entry => (entry.1, .int entry.2)))

def intProperties : List (String × Int32) → Json.Writing Unit
  | [] => pure ()
  | (name, n) :: rest => do
    Json.Writing.intProperty name n
    intProperties rest

def streamInts (entries : List (String × Int32)) : Json.Writing Unit :=
  Json.Writing.object (intProperties entries)

/-- The named integers of an object. -/
def decodeInts (fields : Dict Json) : Except DecodeError (List (String × Int32)) :=
  fields.mapM fun entry => do
    let n ← asInt fields "value" entry.2
    .ok (entry.1, n)

end Wire

end Narrative
