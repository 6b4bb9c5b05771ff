import Narrative.Proofs.Json.Completion

/-!
# Strings and names in pieces

A string value or a property name may be handed to a writer whole or in pieces. In
pieces something is open between the calls that is not open in the one call for the
whole. Both ways leave the same text, the same count of octets and the same things
open, and both stop with the same fault where the one does.
-/

namespace Narrative.Json

/-! ## What is written for a character -/

/-- The rules for the inside of a string, one character at a time. -/
inductive WrittenFor : Char → List Char → Prop where
  | backslash : WrittenFor '\\' ['\\', '\\']
  | quote : WrittenFor '"' ['\\', '"']
  | newline : WrittenFor '\n' ['\\', 'n']
  | tab : WrittenFor '\t' ['\\', 't']
  | control {c : Char} : c < ' ' → c ≠ '\n' → c ≠ '\t' → WrittenFor c []
  | plain {c : Char} : ' ' ≤ c → c ≠ '\\' → c ≠ '"' → WrittenFor c [c]

theorem writtenFor_escapedChar (c : Char) : WrittenFor c (escapedChar c) := by
  rw [escapedChar, replacement?]
  split_ifs with hslash hquote hnewline htab hcontrol
  · subst hslash
    exact .backslash
  · subst hquote
    exact .quote
  · subst hnewline
    exact .newline
  · subst htab
    exact .tab
  · exact .control hcontrol hnewline htab
  · exact .plain (Char.not_lt.mp hcontrol) hslash hquote

theorem forall₂_writtenFor (chars : List Char) :
    List.Forall₂ WrittenFor chars (chars.map escapedChar) := by
  induction chars with
  | nil => exact .nil
  | cons c rest ih => exact .cons (writtenFor_escapedChar c) ih

theorem escaped_empty : escaped "" = "" := by
  apply String.toList_inj.mp
  rw [toList_escaped]
  rfl

theorem escaped_append (first second : String) :
    escaped (first ++ second) = escaped first ++ escaped second := by
  apply String.toList_inj.mp
  simp [toList_escaped]

namespace WriterCall

open Writing

/-! ## Runs of calls for one text -/

/-- The calls that write a string value in pieces. -/
def stringInPieces (pieces : List String) : List WriterCall :=
  .stringStart :: (pieces.map .stringInner ++ [.stringEnd])

/-- The calls that write a property name in pieces. -/
def nameInPieces (pieces : List String) : List WriterCall :=
  .nameStart :: (pieces.map .nameInner ++ [.nameEnd])

/-- Pieces that go on with what is innermost open add the escaped whole. -/
theorem runAll_inner {opening : Opening} {fault : WriterFault} {inner : String → WriterCall}
    (hinner : ∀ text, (inner text).run = do
      requireInside opening fault
      modify (Writer.appendEscaped · text))
    (pieces : List String) {writer : Writer} {n : Nat} {rest : List Frame}
    (hstack : writer.stack = ⟨opening, n⟩ :: rest) :
    runAll (pieces.map inner) writer =
      .ok () (writer.append (escaped (String.join pieces))) := by
  induction pieces generalizing writer with
  | nil =>
    rw [String.join_nil, escaped_empty, Writer.append_empty]
    rfl
  | cons piece pieces ih =>
    have hpiece : (inner piece).run writer = .ok () (writer.append (escaped piece)) := by
      rw [hinner, Step.bind_ok (requireInside_of_stack hstack fault), ← Writer.appendEscaped_eq]
      rfl
    have hopen : (writer.append (escaped piece)).stack = ⟨opening, n⟩ :: rest := hstack
    rw [List.map_cons, runAll, Step.bind_ok hpiece, ih hopen, Writer.append_append,
      String.join_cons, escaped_append]

/-- Pieces and the call that closes what they were written into. -/
theorem runAll_inner_end {opening : Opening} {fault : WriterFault} {inner : String → WriterCall}
    {finish : WriterCall} {mark : String}
    (hinner : ∀ text, (inner text).run = do
      requireInside opening fault
      modify (Writer.appendEscaped · text))
    (hfinish : finish.run = do
      requireInside opening fault
      modify Writer.pop
      put mark)
    (pieces : List String) {writer : Writer} {n : Nat} {rest : List Frame}
    (hstack : writer.stack = ⟨opening, n⟩ :: rest) :
    runAll (pieces.map inner ++ [finish]) writer =
      .ok () ((writer.withStack rest).append (escaped (String.join pieces) ++ mark)) := by
  have hopen : (writer.append (escaped (String.join pieces))).stack = ⟨opening, n⟩ :: rest := hstack
  rw [runAll_append, Step.bind_ok (runAll_inner hinner pieces hstack), runAll_singleton, hfinish,
    end_of_stack hopen, Writer.append_withStack, Writer.append_append]

/-- A string in pieces is written as the string that the pieces make up. -/
theorem runAll_stringInPieces (pieces : List String) :
    runAll (stringInPieces pieces) = run (.str (String.join pieces)) := by
  funext writer
  rw [run, str_eq_scalar, scalar, stringInPieces, runAll, run, Writing.stringStart, bind_assoc,
    Step.bind_eq, Step.bind_eq]
  cases beginValue writer with
  | error => rfl
  | ok _ mid =>
    have hopen : ((mid.push .string).append "\"").stack = ⟨.string, 0⟩ :: mid.stack := rfl
    change runAll (pieces.map .stringInner ++ [.stringEnd]) ((mid.push .string).append "\"") =
      .ok () (mid.append ("\"" ++ escaped (String.join pieces) ++ "\""))
    rw [runAll_inner_end (fun _ => rfl) rfl pieces hopen, Writer.append_withStack,
      Writer.append_append, Writer.push_eq, Writer.withStack_withStack, Writer.withStack_self,
      String.append_assoc]

/-- A name in pieces is written as the name that the pieces make up. -/
theorem runAll_nameInPieces (pieces : List String) :
    runAll (nameInPieces pieces) = run (.propertyStart (String.join pieces)) := by
  funext writer
  rw [run, nameInPieces, runAll, run]
  cases hinside : requireInside .object .propertyOutside writer with
  | error fault after =>
    -- Both begin by asking for an object around them.
    rw [Writing.nameStart, Writing.propertyStart, bind_assoc, Step.bind_eq, Step.bind_eq, hinside]
  | ok _ after =>
    obtain ⟨-, n, rest, hstack⟩ := exists_of_requireInside hinside
    rw [Step.bind_ok (nameStart_of_object hstack), propertyStart_of_object hstack]
    have hopen : ((writer.withStack (⟨.propertyName, 0⟩ :: ⟨.property, 0⟩ :: ⟨.object, n + 1⟩ ::
        rest)).append ((if n == 0 then "" else ",") ++ "\"")).stack =
        ⟨.propertyName, 0⟩ :: ⟨.property, 0⟩ :: ⟨.object, n + 1⟩ :: rest := rfl
    rw [runAll_inner_end (fun _ => rfl) rfl pieces hopen, Writer.append_withStack,
      Writer.append_append, Writer.withStack_withStack]
    simp only [String.append_assoc]

/-- The inside of a string is written from pieces that are cut between characters, and it is what is
written for the characters one by one. A string or a name that comes in pieces is therefore written as
the string or name that they make up. -/
theorem in_pieces_as_whole (text : String) (pieces : List String) :
    (∀ piece ∈ piecesOf text, piece.CutsBetween text) ∧
      (∃ parts, List.Forall₂ WrittenFor text.toList parts ∧ ∀ writer : Writer,
        writer.appendEscaped text = writer.append (String.ofList parts.flatten)) ∧
      runAll (stringInPieces pieces) = run (.str (String.join pieces)) ∧
      runAll (nameInPieces pieces) = run (.propertyStart (String.join pieces)) := by
  refine ⟨fun piece hpiece => cutsBetween_of_mem_piecesOf hpiece, ?_, runAll_stringInPieces pieces,
    runAll_nameInPieces pieces⟩
  refine ⟨text.toList.map escapedChar, forall₂_writtenFor _, ?_⟩
  intro writer
  rw [Writer.appendEscaped_eq, ← List.flatMap_def, ← toList_escaped, String.ofList_toList]

end WriterCall

/-- Characters of two and three octets around a quote and a newline that stand side by side. -/
example : piecesOf "né\"\n€" =
    [.run ⟨0⟩ ⟨3⟩, .replacement "\\\"", .run ⟨4⟩ ⟨4⟩, .replacement "\\n", .run ⟨5⟩ ⟨8⟩] := by
  decide

end Narrative.Json
