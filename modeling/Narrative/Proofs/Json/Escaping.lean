import Mathlib.Data.String.Basic
import Narrative.Json.Escape

/-!
# Escaping character by character

The pieces of a text are found by counting octets, and a run of plain characters
is cut out only when the character after it is met. Every cut falls between two
characters all the same, and the pieces together are what is written for the
characters one by one: nothing is lost or repeated where a run ends, where two
replaced characters meet or where the text ends.
-/

namespace Narrative.Json

/-- What is written for one character between quotes. -/
def escapedChar (c : Char) : List Char :=
  match replacement? c with
  | some replacement => replacement.toList
  | none => [c]

/-- What pieces of a text are written as, one after the other. -/
def joinedPieces (text : String) (pieces : List Piece) : String :=
  (pieces.map (Piece.written text)).foldr (· ++ ·) ""

theorem joinedPieces_cons (text : String) (piece : Piece) (rest : List Piece) :
    joinedPieces text (piece :: rest) = piece.written text ++ joinedPieces text rest := rfl

/-- What stands between the quotes of a written string. -/
def escaped (text : String) : String := joinedPieces text (piecesOf text)

/-- A piece cuts a text between characters only, and not backwards. -/
def Piece.CutsBetween (text : String) : Piece → Prop
  | run start stop => start.IsValid text ∧ stop.IsValid text ∧ start ≤ stop
  | replacement _ => True

/-! ## Offsets -/

/-- The octet after some characters. -/
def offsetAfter (chars : List Char) : String.Pos.Raw := (String.ofList chars).rawEndPos

theorem offsetAfter_nil : offsetAfter [] = 0 := rfl

theorem offsetAfter_concat (chars : List Char) (c : Char) :
    offsetAfter (chars ++ [c]) = offsetAfter chars + c := by
  apply String.Pos.Raw.ext
  simp [offsetAfter]

theorem offsetAfter_toList (text : String) : offsetAfter text.toList = text.rawEndPos := by
  rw [offsetAfter, String.ofList_toList]

theorem isValid_offsetAfter {text : String} {before after : List Char}
    (h : text.toList = before ++ after) : (offsetAfter before).IsValid text := by
  refine String.Pos.Raw.isValid_iff_exists_append.mpr
    ⟨String.ofList before, String.ofList after, ?_, rfl⟩
  rw [← String.ofList_append, ← h, String.ofList_toList]

theorem extract_offsetAfter {text : String} {before run after : List Char}
    (h : text.toList = before ++ run ++ after) :
    (offsetAfter before).extract text (offsetAfter (before ++ run)) = String.ofList run := by
  have htext : text = String.ofList (before ++ run ++ after) := by rw [← h, String.ofList_toList]
  have hstop : offsetAfter (before ++ run) = ⟨String.utf8Len before + String.utf8Len run⟩ := by
    apply String.Pos.Raw.ext
    simp [offsetAfter, String.utf8ByteSize_ofList]
  have hstart : offsetAfter before = ⟨String.utf8Len before⟩ :=
    String.Pos.Raw.ext (String.utf8ByteSize_ofList before)
  rw [htext, hstop, hstart, String.extract_of_valid]

theorem cutsBetween_run {text : String} {before run after : List Char}
    (h : text.toList = before ++ run ++ after) :
    (Piece.run (offsetAfter before) (offsetAfter (before ++ run))).CutsBetween text := by
  have hstart : text.toList = before ++ (run ++ after) := by rw [h, List.append_assoc]
  refine ⟨isValid_offsetAfter hstart, isValid_offsetAfter h, ?_⟩
  simp [offsetAfter, String.Pos.Raw.le_iff, String.utf8ByteSize_ofList]

/-! ## The loop -/

/-- While a run is open, all further cuts fall between characters. -/
theorem cutsBetween_escapedPieces {text : String} {before run rest : List Char}
    (h : text.toList = before ++ run ++ rest) :
    ∀ piece ∈ escapedPieces text (offsetAfter before)
      (charOffsets (offsetAfter (before ++ run)) rest), piece.CutsBetween text := by
  induction rest generalizing before run with
  | nil =>
    rw [charOffsets, escapedPieces, ← offsetAfter_toList, h, List.append_nil, List.forall_mem_singleton]
    exact cutsBetween_run h
  | cons c rest ih =>
    rw [charOffsets, escapedPieces, ← offsetAfter_concat]
    cases replacement? c with
    | some replacement =>
      -- The run ends before the character, and the next one begins, empty, after it.
      have hnext : text.toList = (before ++ run ++ [c]) ++ [] ++ rest := by simp [h]
      have hrest := ih hnext
      rw [List.append_nil] at hrest
      exact List.forall_mem_cons.mpr
        ⟨cutsBetween_run h, List.forall_mem_cons.mpr ⟨trivial, hrest⟩⟩
    | none =>
      have hnext : text.toList = before ++ (run ++ [c]) ++ rest := by simp [h]
      have hrest := ih hnext
      rwa [← List.append_assoc] at hrest

/-- While a run is open, what is still written is the run and the rest, escaped. -/
theorem toList_written_escapedPieces {text : String} {before run rest : List Char}
    (h : text.toList = before ++ run ++ rest) :
    (joinedPieces text (escapedPieces text (offsetAfter before)
      (charOffsets (offsetAfter (before ++ run)) rest))).toList = run ++ rest.flatMap escapedChar := by
  induction rest generalizing before run with
  | nil =>
    rw [charOffsets, escapedPieces, ← offsetAfter_toList, h, List.append_nil]
    simp [joinedPieces, Piece.written, extract_offsetAfter h]
  | cons c rest ih =>
    rw [charOffsets, escapedPieces, ← offsetAfter_concat, List.flatMap_cons, escapedChar]
    cases replacement? c with
    | some replacement =>
      have hnext : text.toList = (before ++ run ++ [c]) ++ [] ++ rest := by simp [h]
      have hrest := ih hnext
      rw [List.append_nil, List.nil_append] at hrest
      rw [joinedPieces_cons, joinedPieces_cons, String.toList_append, String.toList_append, hrest,
        Piece.written, extract_offsetAfter h, String.toList_ofList, Piece.written]
    | none =>
      have hnext : text.toList = before ++ (run ++ [c]) ++ rest := by simp [h]
      have hrest := ih hnext
      rw [← List.append_assoc before] at hrest
      rw [hrest, List.append_assoc]

theorem cutsBetween_of_mem_piecesOf {text : String} {piece : Piece} (h : piece ∈ piecesOf text) :
    piece.CutsBetween text := by
  have hwhole : text.toList = [] ++ [] ++ text.toList := rfl
  have hcuts := cutsBetween_escapedPieces hwhole
  rw [List.append_nil, offsetAfter_nil] at hcuts
  exact hcuts piece h

/-- Text is escaped character by character. -/
theorem toList_escaped (text : String) :
    (escaped text).toList = text.toList.flatMap escapedChar := by
  have hwhole : text.toList = [] ++ [] ++ text.toList := rfl
  have hwritten := toList_written_escapedPieces hwhole
  rwa [List.append_nil, offsetAfter_nil, List.nil_append] at hwritten

end Narrative.Json
