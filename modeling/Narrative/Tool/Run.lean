import Narrative.Compiler
import Narrative.Tool.Arguments
import Narrative.Tool.Files
import Narrative.Tool.Report
import Narrative.Tool.Sample

/-!
# Running commands

What each command does: which files it reads and writes and what it reports. A
command that fails says why, and writes nothing before it has read all it needs.
-/

namespace Narrative.Tool

/-- Why a command fails. -/
inductive ToolError where
  | file
  | decode (error : DecodeError)
  | compile (error : CompileError)
deriving DecidableEq

namespace ToolError

/-- The text of an error that is not about files. -/
def message : ToolError → Option String
  | file => none
  | decode error => error.message.map ("Incompatible or malformed document: " ++ ·)
  | compile error => some ("Compile error: " ++ error.message)

end ToolError

/-- A command's work with files. -/
abbrev Work (m : Type → Type) := ExceptT ToolError m

namespace Work

variable {m : Type → Type} [Monad m]

def ofDecode {α : Type} : Except DecodeError α → Work m α
  | .ok a => pure a
  | .error error => throw (.decode error)

def readText (files : Files m) (file : String) : Work m String := do
  match ← files.read file with
  | some text => pure text
  | none => throw .file

def writeText (files : Files m) (file text : String) : Work m Unit := do
  if ← files.write file text then pure () else throw .file

def writeDocument (files : Files m) (file : String) (document : Document) : Work m Unit :=
  writeText files file (document.streamed?.getD "")

def inspect (files : Files m) (file : String) : Work m String := do
  let document ← ofDecode (Document.ofText (← readText files file))
  pure (StoryReport.ofDocument document).text

def checkSave (files : Files m) (file : String) : Work m String := do
  let state ← ofDecode (SaveState.ofText (← readText files file))
  pure (SaveReport.ofState state).text

def roundtrip (files : Files m) (file : String) (output : Option String) : Work m String := do
  let text ← readText files file
  let roundtrip ← ofDecode (Roundtrip.ofText text)
  match output with
  | some output => writeDocument files output roundtrip.restored
  | none => pure ()
  pure (roundtrip.report text).text

def sample (files : Files m) (output : Option String) : Work m String := do
  match (sampleStory.compile { file := some "sample" }).result with
  | .error error => throw (.compile error)
  | .ok document =>
    match output with
    | some output => do
      writeDocument files output document
      pure ("wrote " ++ output)
    | none => pure (document.streamed?.getD "")

/-- The text that a command prints. -/
def run (files : Files m) : Command → Work m String
  | .inspect file => inspect files file
  | .checkSave file => checkSave files file
  | .roundtrip file output => roundtrip files file output
  | .sample output => sample files output

end Work

end Narrative.Tool
