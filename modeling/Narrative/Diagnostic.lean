import Narrative.SourceRange

/-!
# Diagnostics

What a compiler has to say about a story. A journal keeps what was reported; a
listener, if there is one, is told of every report as it is made and keeps what
it was told when the journal is cleared.
-/

namespace Narrative

/-- How much a diagnostic matters. -/
inductive Severity where
  /-- A note that the author left in the story. -/
  | author
  | warning
  | error
deriving DecidableEq

namespace Severity

def label : Severity → String
  | author => "TODO"
  | warning => "WARNING"
  | error => "ERROR"

def isError : Severity → Bool
  | error => true
  | _ => false

end Severity

/-- One thing to say about a story. -/
structure Diagnostic where
  message : String
  severity : Severity
  range : Option SourceRange := none
deriving DecidableEq

namespace Diagnostic

def isError (diagnostic : Diagnostic) : Bool := diagnostic.severity.isError

/-- How a diagnostic is shown. -/
def text (diagnostic : Diagnostic) : String :=
  match diagnostic.range with
  | some range => diagnostic.severity.label ++ ": " ++ range.text ++ ": " ++ diagnostic.message
  | none => diagnostic.severity.label ++ ": " ++ diagnostic.message

end Diagnostic

/-- What a listener was told. -/
structure Notice where
  text : String
  severity : Severity
deriving DecidableEq

/-- What was reported, and what a listener heard of it. -/
structure Journal where
  reported : List Diagnostic := []
  /-- What the listener was told so far; `none` when nobody listens. -/
  heard : Option (List Notice) := none

namespace Journal

def report (journal : Journal) (diagnostic : Diagnostic) : Journal :=
  { reported := journal.reported ++ [diagnostic]
    heard := journal.heard.map (· ++ [⟨diagnostic.text, diagnostic.severity⟩]) }

def reportAll (journal : Journal) (diagnostics : List Diagnostic) : Journal :=
  diagnostics.foldl report journal

/-- Forgets what was reported; the listener does not. -/
def clear (journal : Journal) : Journal := { journal with reported := [] }

def errorCount (journal : Journal) : Nat := journal.reported.countP Diagnostic.isError

def hasErrors (journal : Journal) : Bool := decide (0 < journal.errorCount)

end Journal

end Narrative
