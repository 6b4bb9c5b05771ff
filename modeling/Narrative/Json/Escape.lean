/-!
# Escaped text

What stands between the quotes of a written string: a backslash, a quote, a
newline and a tab are escaped, every other character below U+0020 is left out,
and all else stands for itself. The text is handed on in pieces, a run of plain
characters at a time. A run is known by the octets between which it stands; it is
cut out of the text when the character after it is one to be replaced.
-/

namespace Narrative.Json

/-- What is written in place of a character; `none` for one that stands for itself. -/
def replacement? (c : Char) : Option String :=
  if c = '\\' then some "\\\\"
  else if c = '"' then some "\\\""
  else if c = '\n' then some "\\n"
  else if c = '\t' then some "\\t"
  else if c < ' ' then some ""
  else none

/-- A piece of an escaped text. -/
inductive Piece where
  /-- What stands in the text between two octets. -/
  | run (start stop : String.Pos.Raw)
  /-- What is written in place of a character. -/
  | replacement (written : String)
deriving DecidableEq

/-- What a piece of a text is written as. -/
def Piece.written (text : String) : Piece → String
  | run start stop => start.extract text stop
  | replacement written => written

/-- Characters with the octets at which they begin, when the first begins at a given one. -/
def charOffsets : String.Pos.Raw → List Char → List (String.Pos.Raw × Char)
  | _, [] => []
  | offset, c :: rest => (offset, c) :: charOffsets (offset + c) rest

/-- The pieces of the rest of a text, of which a run has begun and is not handed on yet: runs of plain
characters with replacements between them. -/
def escapedPieces (text : String) : (start : String.Pos.Raw) → List (String.Pos.Raw × Char) → List Piece
  | start, [] => [.run start text.rawEndPos]
  | start, (offset, c) :: rest =>
    match replacement? c with
    | some replacement =>
      .run start offset :: .replacement replacement :: escapedPieces text (offset + c) rest
    | none => escapedPieces text start rest

/-- The pieces of a whole text. -/
def piecesOf (text : String) : List Piece := escapedPieces text 0 (charOffsets 0 text.toList)

end Narrative.Json
