import Mathlib.Data.List.Infix
import Narrative.Proofs.Json.OpenText

/-!
# Every text can be completed

A run of calls is looked at after every single call, those inside the bodies of
the forms with a body included: `unrolled` writes such forms out as an opening,
the calls of the body and a closing. At each of these places the octets are
counted rightly, a text that counts as complete is a value of the grammar, and a
text that does not can be completed by further calls.
-/

namespace Narrative.Json

/-! ## Closing what is open -/

/-- The calls that close something open. -/
def Frame.closing : Frame → List WriterCall
  | ⟨.object, _⟩ => [.objectEnd]
  | ⟨.array, _⟩ => [.arrayEnd]
  | ⟨.property, 0⟩ => [.null, .propertyEnd]
  | ⟨.property, _ + 1⟩ => [.propertyEnd]
  | ⟨.propertyName, _⟩ => [.nameEnd]
  | ⟨.string, _⟩ => [.stringEnd]

/-- A property has a value or is waiting for it. -/
theorem Progress.property_count {n : Nat} {rest : List Frame} {begun : Bool} {text : List Char}
    (h : Progress (⟨.property, n⟩ :: rest) begun text) : n = 0 ∨ n = 1 := by
  cases h with
  | property => exact Or.inl rfl
  | filled => exact Or.inr rfl

namespace Writing

theorem end_of_stack {opening : Opening} {n : Nat} {rest : List Frame} {writer : Writer}
    (h : writer.stack = ⟨opening, n⟩ :: rest) (fault : WriterFault) (mark : String) :
    (do
      requireInside opening fault
      modify Writer.pop
      put mark : Writing Unit) writer = .ok () ((writer.withStack rest).append mark) := by
  rw [Step.bind_ok (requireInside_of_stack h fault)]
  change EStateM.Result.ok () (writer.pop.append mark) = _
  rw [Writer.pop_eq, h, List.tail_cons]

theorem null_of_property {writer : Writer} {rest : List Frame}
    (h : writer.stack = ⟨.property, 0⟩ :: rest) :
    null writer = .ok () ((writer.withStack (⟨.property, 1⟩ :: rest)).append "null") := by
  rw [null, renders_scalar _ _ (Writer.ready_of_property h), Writer.admitted_of_property h]

end Writing

namespace WriterCall

open Writing

theorem runAll_singleton (call : WriterCall) : runAll [call] = call.run := by
  rw [runAll, runAll]
  exact bind_pure_unit

theorem runAll_append (first second : List WriterCall) :
    runAll (first ++ second) = (runAll first >>= fun _ => runAll second) := by
  induction first with
  | nil => simp [runAll]
  | cons call rest ih => rw [List.cons_append, runAll, runAll, ih, bind_assoc]

theorem exists_runAll_end (call : WriterCall) {writer : Writer} {opening : Opening} {n : Nat}
    {rest : List Frame} (hstack : writer.stack = ⟨opening, n⟩ :: rest) {fault : WriterFault}
    {mark : String}
    (hcall : call.run = do
      requireInside opening fault
      modify Writer.pop
      put mark) :
    ∃ after, runAll [call] writer = .ok () after ∧ after.stack = rest ∧
      after.begun = writer.begun := by
  rw [runAll_singleton, hcall, end_of_stack hstack]
  exact ⟨_, rfl, rfl, rfl⟩

/-- What is innermost open can be closed where a sound writer stands. -/
theorem exists_runAll_closing {writer : Writer} (h : writer.Sound) {frame : Frame}
    {rest : List Frame} (hstack : writer.stack = frame :: rest) :
    ∃ after, runAll frame.closing writer = .ok () after ∧ after.stack = rest ∧
      after.begun = writer.begun := by
  obtain ⟨opening, n⟩ := frame
  cases opening with
  | object => exact exists_runAll_end .objectEnd hstack rfl
  | array => exact exists_runAll_end .arrayEnd hstack rfl
  | propertyName => exact exists_runAll_end .nameEnd hstack rfl
  | string => exact exists_runAll_end .stringEnd hstack rfl
  | property =>
    have hprogress := h.progress
    rw [hstack] at hprogress
    rcases hprogress.property_count with rfl | rfl
    · rw [Frame.closing, runAll, runAll_singleton, run, run,
        Step.bind_ok (null_of_property hstack), propertyEnd_of_filled rfl]
      exact ⟨_, rfl, rfl, rfl⟩
    · rw [Frame.closing, runAll_singleton, run, propertyEnd_of_filled hstack]
      exact ⟨_, rfl, rfl, rfl⟩

/-- All that is open can be closed, from the inside out. -/
theorem exists_runAll_closings {writer : Writer} (h : writer.Sound) :
    ∃ after, runAll (writer.stack.flatMap Frame.closing) writer = .ok () after ∧
      after.stack = [] ∧ after.begun = writer.begun := by
  generalize hstack : writer.stack = stack
  induction stack generalizing writer with
  | nil => exact ⟨writer, rfl, hstack, rfl⟩
  | cons frame rest ih =>
    obtain ⟨mid, hclose, hmid, hbegun⟩ := exists_runAll_closing h hstack
    obtain ⟨after, hrest, hempty, hafter⟩ := ih (keeps_runAll _ _ _ h hclose) hmid
    refine ⟨after, ?_, hempty, hafter.trans hbegun⟩
    rw [List.flatMap_cons, runAll_append, Step.bind_ok hclose, hrest]

theorem exists_completion {writer : Writer} (h : writer.Sound) :
    ∃ more after, runAll more writer = .ok () after ∧ after.isComplete = true := by
  cases hbegun : writer.begun with
  | false =>
    -- Nothing has been begun, so nothing is open either and any value will do.
    have hstack : writer.stack = [] := by
      have hprogress := h.progress
      rw [hbegun] at hprogress
      generalize writer.stack = stack at hprogress
      generalize writer.text.toList = text at hprogress
      cases hprogress
      rfl
    have hopening : writer.opening? = none := by simp [Writer.opening?, hstack]
    have hready : writer.Ready := by simp [Writer.Ready, hopening, hbegun]
    refine ⟨[.null], writer.admitted.append "null", ?_, ?_⟩
    · rw [runAll_singleton]
      exact renders_scalar _ writer hready
    · simp [Writer.isComplete, Writer.admitted, hopening, hstack, Writer.append]
  | true =>
    obtain ⟨after, hrun, hempty, hafter⟩ := exists_runAll_closings h
    exact ⟨_, after, hrun, by simp [Writer.isComplete, hempty, hafter, hbegun]⟩

/-! ## Looking between the calls -/

mutual

/-- A call with its body, if it has one, written out. -/
def unrolled : WriterCall → List WriterCall
  | object body => objectStart :: (unrolledAll body ++ [objectEnd])
  | array body => arrayStart :: (unrolledAll body ++ [arrayEnd])
  | property name body => propertyStart name :: (unrolledAll body ++ [propertyEnd])
  | call => [call]

def unrolledAll : List WriterCall → List WriterCall
  | [] => []
  | call :: rest => unrolled call ++ unrolledAll rest

end

mutual

theorem runAll_unrolled : ∀ call : WriterCall, runAll (unrolled call) = run call
  | .object body => by
    rw [unrolled, runAll, runAll_append, runAll_unrolledAll body, runAll_singleton]
    rfl
  | .array body => by
    rw [unrolled, runAll, runAll_append, runAll_unrolledAll body, runAll_singleton]
    rfl
  | .property name body => by
    rw [unrolled, runAll, runAll_append, runAll_unrolledAll body, runAll_singleton]
    rfl
  | .objectStart => runAll_singleton _
  | .objectEnd => runAll_singleton _
  | .arrayStart => runAll_singleton _
  | .arrayEnd => runAll_singleton _
  | .propertyStart _ => runAll_singleton _
  | .propertyEnd => runAll_singleton _
  | .strProperty _ _ => runAll_singleton _
  | .intProperty _ _ => runAll_singleton _
  | .boolProperty _ _ => runAll_singleton _
  | .nameStart => runAll_singleton _
  | .nameInner _ => runAll_singleton _
  | .nameEnd => runAll_singleton _
  | .null => runAll_singleton _
  | .bool _ => runAll_singleton _
  | .int _ => runAll_singleton _
  | .float _ => runAll_singleton _
  | .str _ => runAll_singleton _
  | .stringStart => runAll_singleton _
  | .stringInner _ => runAll_singleton _
  | .stringEnd => runAll_singleton _
  | .value _ => runAll_singleton _

theorem runAll_unrolledAll : ∀ calls : List WriterCall, runAll (unrolledAll calls) = runAll calls
  | [] => rfl
  | call :: rest => by
    rw [unrolledAll, runAll_append, runAll_unrolled call, runAll_unrolledAll rest, runAll]

end

/-- After every call of a run that is allowed throughout, the octets written are counted, a text that
counts as complete is one value of the grammar, and one that does not can be completed. -/
theorem text_is_value_or_completable (calls : List WriterCall) {last : Writer}
    (hrun : runAll calls .empty = .ok () last) :
    runAll (unrolledAll calls) .empty = .ok () last ∧
      ∀ first, first <+: unrolledAll calls → ∃ writer, runAll first .empty = .ok () writer ∧
        writer.size = writer.text.utf8ByteSize ∧
        (writer.isComplete = true → Grammar.Value writer.text.toList) ∧
        (writer.isComplete = false →
          ∃ more after, runAll more writer = .ok () after ∧ after.isComplete = true) := by
  rw [← runAll_unrolledAll calls] at hrun
  refine ⟨hrun, ?_⟩
  rintro first ⟨rest, hrest⟩
  rw [← hrest, runAll_append] at hrun
  obtain ⟨_, writer, hfirst, -⟩ := Step.exists_of_bind_ok hrun
  have hsound := keeps_runAll first _ _ Writer.sound_empty hfirst
  refine ⟨writer, hfirst, hsound.sized, ?_, fun _ => exists_completion hsound⟩
  intro hcomplete
  have hprogress := hsound.progress
  simp only [Writer.isComplete, Bool.and_eq_true, List.isEmpty_iff] at hcomplete
  rw [hcomplete.1, hcomplete.2] at hprogress
  generalize writer.text.toList = text at hprogress ⊢
  cases hprogress with
  | complete hvalue => exact hvalue

/-- A key that comes in two pieces, an array with an empty object and a string with a control
character, and a property in one call. -/
def nestedCalls : List WriterCall :=
  [.object
    [.nameStart, .nameInner "a\"", .nameInner "b", .nameEnd,
      .array [.value (.obj []), .stringStart, .stringInner "x\u0001\n", .stringEnd, .null],
      .propertyEnd, .boolProperty "a" true]]

theorem text_is_value_or_completable_nested :
    ∃ last, runAll nestedCalls .empty = .ok () last ∧
      runAll (unrolledAll nestedCalls) .empty = .ok () last ∧
        ∀ first, first <+: unrolledAll nestedCalls → ∃ writer,
          runAll first .empty = .ok () writer ∧ writer.size = writer.text.utf8ByteSize ∧
          (writer.isComplete = true → Grammar.Value writer.text.toList) ∧
          (writer.isComplete = false →
            ∃ more after, runAll more writer = .ok () after ∧ after.isComplete = true) :=
  ⟨_, rfl, text_is_value_or_completable nestedCalls rfl⟩

end WriterCall

end Narrative.Json
