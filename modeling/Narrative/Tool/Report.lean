import Narrative.Document
import Narrative.SaveState

/-!
# Reports

What the tool has to say about a story, about a story that was read and written
again, and about a save state.
-/

namespace Narrative.Tool

/-- Texts with a separator between neighbours. -/
def joined (separator : String) : List String → String
  | [] => ""
  | [text] => text
  | text :: rest => text ++ separator ++ joined separator rest

/-- What a story consists of. -/
structure StoryReport where
  version : Int32
  /-- Nodes that can be reached from the root. -/
  nodes : Nat
  containers : Nat
  flows : List String

namespace StoryReport

def ofDocument (document : Document) : StoryReport :=
  let reachable := document.tree.descendants document.root
  { version := document.version
    nodes := reachable.length
    containers := reachable.countP fun id => (document.tree.container? id).isSome
    flows := document.flowNames }

def text (report : StoryReport) : String :=
  "format version: " ++ report.version.toInt.repr
    ++ "\nnodes: " ++ report.nodes.repr ++ " (" ++ report.containers.repr ++ " containers)"
    ++ "\nflows: " ++ joined ", " report.flows

end StoryReport

/-- What came of reading a story, writing it and reading it again. -/
structure RoundtripReport where
  sizeIn : Nat
  sizeOut : Nat
  isSame : Bool

namespace RoundtripReport

def text (report : RoundtripReport) : String :=
  report.sizeIn.repr ++ " bytes in, " ++ report.sizeOut.repr ++ " bytes out: "
    ++ (if report.isSame then "identical" else "DIFFERENT")

end RoundtripReport

/-- A story that was read, written and read again. -/
structure Roundtrip where
  document : Document
  /-- The text that was written. -/
  written : String
  restored : Document
  /-- The story that is restored is the one that the text stands for. -/
  reread : Document.ofText written = .ok restored

namespace Roundtrip

/-- Reads a story, writes it and reads it again. -/
def ofText (text : String) : Except DecodeError Roundtrip := do
  let document ← Document.ofText text
  let written := document.streamed?.getD ""
  match reread : Document.ofText written with
  | .ok restored => .ok { document, written, restored, reread }
  | .error error => .error error

def report (roundtrip : Roundtrip) (text : String) : RoundtripReport :=
  { sizeIn := text.utf8ByteSize
    sizeOut := roundtrip.written.utf8ByteSize
    isSame := roundtrip.document.sameContent roundtrip.restored }

end Roundtrip

/-- What a save state consists of. -/
structure SaveReport where
  turn : Int32
  choices : List String
  stack : List String
  bindings : List String
  visits : Nat

namespace SaveReport

/-- An entry of the evaluation stack in words. -/
def describe : Payload → String
  | .leaf (.value value) => value.typeName ++ " " ++ value.text
  | payload => payload.kindName

def ofState (state : SaveState) : SaveReport :=
  { turn := state.turn
    choices := state.choices.map Choice.text
    stack := state.stack.filterMap fun id => (state.tree.payload? id).map describe
    bindings := state.bindings.map Prod.fst
    visits := state.visits.length }

def text (report : SaveReport) : String :=
  "turn: " ++ report.turn.toInt.repr
    ++ "\nchoices: " ++ joined " | " report.choices
    ++ "\nevaluation stack: " ++ joined ", " report.stack
    ++ "\nvariables: " ++ joined ", " report.bindings
    ++ "\nvisit counts: " ++ report.visits.repr

end SaveReport

end Narrative.Tool
