/-!
# Source ranges

Where in a source text something stands. Lines and characters count from one.
`SourceRange.merge` covers two ranges; positions are compared by line first and
by character within a line.
-/

namespace Narrative

/-- A line and a character in it. -/
structure Position where
  line : Nat
  character : Nat
deriving DecidableEq

namespace Position

/-- Whether a position is another one or stands before it. -/
def notAfter (a b : Position) : Bool :=
  decide (a.line < b.line) || (a.line == b.line && decide (a.character ≤ b.character))

/-- The earlier of two positions. -/
def earliest (a b : Position) : Position := if a.notAfter b then a else b

/-- The later of two positions. -/
def latest (a b : Position) : Position := if b.notAfter a then a else b

end Position

/-- A range of source text. -/
structure SourceRange where
  /-- The file that holds the text, if known. -/
  file : Option String := none
  /-- The logical source, if it differs from the file. -/
  source : Option String := none
  start : Position
  stop : Position
deriving DecidableEq

namespace SourceRange

/-- Whole lines, with both characters at one. -/
def lines (file : Option String) (first last : Nat) : SourceRange :=
  { file, start := ⟨first, 1⟩, stop := ⟨last, 1⟩ }

/-- The smallest range that covers both; the names are those of the first. -/
def merge (a b : SourceRange) : SourceRange :=
  { a with start := a.start.earliest b.start, stop := a.stop.latest b.stop }

/-- A range with a file filled in where it has none. -/
def withFile (range : SourceRange) (file : Option String) : SourceRange :=
  { range with file := range.file <|> file }

/-- How a range is named in a message. -/
def text (range : SourceRange) : String :=
  match range.file with
  | some file => "line " ++ range.start.line.repr ++ " of " ++ file
  | none => "line " ++ range.start.line.repr

end SourceRange

end Narrative
