import Narrative.Json.Writer
import Narrative.Proofs.Json.Escaping
import Narrative.Proofs.Step

/-!
# What a step of writing writes

A step renders a text when, wherever a value may stand, it writes this text and
leaves the writer as any other value would. Steps that write several values or
properties into something open render a list of texts. Writing a whole value
renders its compact text.
-/

namespace Narrative.Json

/-- Texts with commas between them, and one before the first unless nothing precedes it. -/
def separated (first : Bool) : List String → String
  | [] => ""
  | text :: rest => (if first then "" else ",") ++ text ++ separated false rest

/-- A name with the text of its value. -/
def labelled (name text : String) : String := "\"" ++ escaped name ++ "\":" ++ text

mutual

/-- The compact text of a value. -/
def compact : Json → String
  | null => "null"
  | bool value => if value then "true" else "false"
  | int value => value.toInt.repr
  | float value => value.wireText
  | str text => "\"" ++ escaped text ++ "\""
  | arr items => "[" ++ separated true (compactItems items) ++ "]"
  | obj fields => "\x7b" ++ separated true (compactFields fields) ++ "\x7d"

def compactItems : List Json → List String
  | [] => []
  | item :: rest => compact item :: compactItems rest

def compactFields : List (String × Json) → List String
  | [] => []
  | (key, item) :: rest => labelled key (compact item) :: compactFields rest

end

theorem separated_append (first : Bool) (texts more : List String) :
    separated first (texts ++ more) =
      separated first texts ++ separated (first && texts.isEmpty) more := by
  induction texts generalizing first with
  | nil => simp [separated]
  | cons text rest ih => simp [separated, ih, String.append_assoc]

namespace Writer

variable (writer : Writer)

@[simp] theorem append_append (first second : String) :
    (writer.append first).append second = writer.append (first ++ second) := by
  simp [append, String.append_assoc, Nat.add_assoc]

theorem append_empty : writer.append "" = writer := by
  simp [append]

theorem appendEscaped_eq (text : String) :
    writer.appendEscaped text = writer.append (escaped text) := by
  have hpieces : ∀ (pieces : List String) (writer : Writer),
      pieces.foldl append writer = writer.append (pieces.foldr (· ++ ·) "") := by
    intro pieces
    induction pieces with
    | nil => exact fun writer => writer.append_empty.symm
    | cons piece rest ih => simp [ih]
  exact hpieces _ writer

/-- A value may be written here: first of all, in an array, or in a property that has none yet. -/
def Ready : Prop :=
  match writer.opening? with
  | none => writer.begun = false
  | some .property => writer.count = 0
  | some .array => True
  | some _ => False

/-- The writer when a value is about to be written: a comma stands where one is needed, and the value
is counted. -/
def admitted : Writer :=
  match writer.opening? with
  | none => { writer with begun := true }
  | some .property => writer.increment
  | some .array => writer.separate.increment
  | some _ => writer

/-- The writer with something else open. -/
def withStack (stack : List Frame) : Writer := { writer with stack }

@[simp] theorem stack_append (piece : String) : (writer.append piece).stack = writer.stack := rfl

@[simp] theorem stack_withStack (stack : List Frame) : (writer.withStack stack).stack = stack := rfl

@[simp] theorem append_withStack (piece : String) (stack : List Frame) :
    (writer.append piece).withStack stack = (writer.withStack stack).append piece := rfl

@[simp] theorem withStack_withStack (first second : List Frame) :
    (writer.withStack first).withStack second = writer.withStack second := rfl

theorem withStack_self : writer.withStack writer.stack = writer := rfl

theorem push_eq (opening : Opening) :
    writer.push opening = writer.withStack (⟨opening, 0⟩ :: writer.stack) := rfl

theorem pop_eq : writer.pop = writer.withStack writer.stack.tail := rfl

@[simp] theorem increment_append (piece : String) :
    (writer.append piece).increment = writer.increment.append piece := by
  simp only [increment]
  cases h : writer.stack with
  | nil => simp [append, h]
  | cons frame rest => simp [append, h]

variable {writer}

theorem separate_increment {opening : Opening} {n : Nat} {rest : List Frame}
    (h : writer.stack = ⟨opening, n⟩ :: rest) :
    writer.separate.increment =
      (writer.withStack (⟨opening, n + 1⟩ :: rest)).append (if n == 0 then "" else ",") := by
  cases n with
  | zero => simp [separate, count, increment, h, withStack, append]
  | succ n => simp [separate, count, increment, h, withStack, append]

theorem ready_of_array {n : Nat} {rest : List Frame} (h : writer.stack = ⟨.array, n⟩ :: rest) :
    writer.Ready := by
  simp [Ready, opening?, h]

theorem admitted_of_array {n : Nat} {rest : List Frame} (h : writer.stack = ⟨.array, n⟩ :: rest) :
    writer.admitted =
      (writer.withStack (⟨.array, n + 1⟩ :: rest)).append (if n == 0 then "" else ",") := by
  rw [← separate_increment h]
  simp [admitted, opening?, h]

theorem ready_of_property {rest : List Frame} (h : writer.stack = ⟨.property, 0⟩ :: rest) :
    writer.Ready := by
  simp [Ready, opening?, count, h]

theorem admitted_of_property {rest : List Frame} (h : writer.stack = ⟨.property, 0⟩ :: rest) :
    writer.admitted = writer.withStack (⟨.property, 1⟩ :: rest) := by
  simp [admitted, opening?, increment, h, withStack]

end Writer

namespace Writing

theorem require_of_true {condition : Bool} (h : condition = true) (fault : WriterFault) :
    require condition fault = pure () := by
  rw [require, if_pos h]

theorem requireInside_of_stack {opening : Opening} {n : Nat} {rest : List Frame} {writer : Writer}
    (h : writer.stack = ⟨opening, n⟩ :: rest) (fault : WriterFault) :
    requireInside opening fault writer = .ok () writer := by
  have hinside : (writer.opening? == some opening) = true := by simp [Writer.opening?, h]
  change require (writer.opening? == some opening) fault writer = _
  rw [require_of_true hinside]
  rfl

theorem beginValue_eq (writer : Writer) :
    beginValue writer = (match writer.opening? with
      | none => require (!writer.begun) .secondValue *> set { writer with begun := true }
      | some .property =>
        require (writer.count == 0) .propertyFilled *> set writer.increment
      | some .array => set writer.separate.increment
      | some opening => throw (.valueIn opening) : Writing Unit) writer := by
  rfl

/-- A value is begun where one may be written. -/
theorem beginValue_of_ready {writer : Writer} (h : writer.Ready) :
    beginValue writer = .ok () writer.admitted := by
  rw [Writer.Ready] at h
  rw [beginValue_eq, Writer.admitted]
  cases hopen : writer.opening? with
  | none =>
    rw [hopen] at h
    simp only [h, Bool.not_false, require_of_true]
    rfl
  | some opening =>
    cases opening with
    | property =>
      rw [hopen] at h
      simp only [h, beq_self_eq_true, require_of_true]
      rfl
    | array => rfl
    | _ => simp [hopen] at h

/-- A value may be written exactly where beginning one does not fail. -/
theorem ready_iff_beginValue {writer : Writer} :
    writer.Ready ↔ ∃ after, beginValue writer = .ok () after := by
  refine ⟨fun h => ⟨_, beginValue_of_ready h⟩, ?_⟩
  rintro ⟨after, h⟩
  rw [beginValue_eq] at h
  rw [Writer.Ready]
  cases hopen : writer.opening? with
  | none =>
    cases hbegun : writer.begun with
    | false => rfl
    | true =>
      simp only [hopen, hbegun, require, Bool.not_true, Bool.false_eq_true, if_false] at h
      cases h
  | some opening =>
    cases opening with
    | property =>
      by_cases hcount : writer.count = 0
      · exact hcount
      · simp only [hopen, require, beq_iff_eq, hcount, if_false] at h
        cases h
    | array => trivial
    | _ =>
      simp only [hopen] at h
      cases h

/-! ## Steps that write whole values -/

/-- A step writes one value, with this text, wherever a value may stand. -/
def Renders (step : Writing Unit) (text : String) : Prop :=
  ∀ writer : Writer, writer.Ready → step writer = .ok () (writer.admitted.append text)

/-- A step writes the next values or properties of what is open, with these texts. -/
def RendersMembers (opening : Opening) (step : Writing Unit) (texts : List String) : Prop :=
  ∀ (writer : Writer) (n : Nat) (rest : List Frame), writer.stack = ⟨opening, n⟩ :: rest →
    step writer = .ok () ((writer.withStack (⟨opening, n + texts.length⟩ :: rest)).append
      (separated (n == 0) texts))

theorem renders_scalar (piece : String) : Renders (scalar piece) piece := by
  intro writer hready
  rw [scalar, Step.bind_ok (beginValue_of_ready hready)]
  rfl

theorem renders_str (text : String) : Renders (str text) ("\"" ++ escaped text ++ "\"") := by
  intro writer hready
  rw [str, Step.bind_ok (beginValue_of_ready hready)]
  change EStateM.Result.ok () (((writer.admitted.append "\"").appendEscaped text).append "\"") = _
  rw [Writer.appendEscaped_eq, Writer.append_append, Writer.append_append, String.append_assoc]

theorem rendersMembers_nil (opening : Opening) : RendersMembers opening (pure ()) [] := by
  intro writer n rest hstack
  change EStateM.Result.ok () writer = _
  rw [List.length_nil, Nat.add_zero, ← hstack, Writer.withStack_self, separated,
    Writer.append_empty]

theorem RendersMembers.append {opening : Opening} {step next : Writing Unit}
    {texts more : List String} (h : RendersMembers opening step texts)
    (hnext : RendersMembers opening next more) :
    RendersMembers opening (step >>= fun _ => next) (texts ++ more) := by
  intro writer n rest hstack
  have hfirst : (n + texts.length == 0) = (n == 0 && texts.isEmpty) := by
    cases texts <;> simp
  rw [Step.bind_ok (h writer n rest hstack), hnext _ (n + texts.length) rest rfl, separated_append,
    hfirst, List.length_append, ← Nat.add_assoc]
  simp

/-- A value in an array. -/
theorem Renders.item {step : Writing Unit} {text : String} (h : Renders step text) :
    RendersMembers .array step [text] := by
  intro writer n rest hstack
  rw [h writer (Writer.ready_of_array hstack), Writer.admitted_of_array hstack,
    Writer.append_append]
  simp [separated]

theorem propertyStart_of_object {writer : Writer} {n : Nat} {rest : List Frame}
    (h : writer.stack = ⟨.object, n⟩ :: rest) (name : String) :
    propertyStart name writer =
      .ok () ((writer.withStack (⟨.property, 0⟩ :: ⟨.object, n + 1⟩ :: rest)).append
        ((if n == 0 then "" else ",") ++ ("\"" ++ escaped name ++ "\":"))) := by
  rw [propertyStart, Step.bind_ok (requireInside_of_stack h _)]
  change EStateM.Result.ok () ((((writer.separate.append "\"").appendEscaped name).append
    "\":").increment.push .property) = _
  simp [Writer.appendEscaped_eq, Writer.separate_increment h, Writer.push_eq,
    String.append_assoc]

theorem propertyEnd_of_filled {writer : Writer} {rest : List Frame}
    (h : writer.stack = ⟨.property, 1⟩ :: rest) :
    propertyEnd writer = .ok () (writer.withStack rest) := by
  have hcount : (writer.count == 1) = true := by simp [Writer.count, h]
  rw [propertyEnd, Step.bind_ok (requireInside_of_stack h _)]
  change (require (writer.count == 1) .propertyNotFilled >>= fun _ =>
    modify Writer.pop : Writing Unit) writer = _
  rw [require_of_true hcount]
  change EStateM.Result.ok () writer.pop = _
  rw [Writer.pop_eq, h, List.tail_cons]

/-- A property whose value is written by such a step. -/
theorem Renders.property {step : Writing Unit} {text : String} (h : Renders step text)
    (name : String) : RendersMembers .object (property name step) [labelled name text] := by
  intro writer n rest hstack
  rw [Writing.property, Step.bind_ok (propertyStart_of_object hstack name),
    Step.bind_ok (h _ (Writer.ready_of_property rfl)), Writer.admitted_of_property rfl,
    propertyEnd_of_filled rfl]
  simp [separated, labelled, String.append_assoc]

/-- Members with an opening and a closing mark around them are a value. -/
theorem renders_enclosed {opening : Opening} {body : Writing Unit} {texts : List String}
    (h : RendersMembers opening body texts) (first last : String) (fault : WriterFault) :
    Renders (do
      beginValue
      modify (Writer.push · opening)
      put first
      body
      requireInside opening fault
      modify Writer.pop
      put last) (first ++ separated true texts ++ last) := by
  intro writer hready
  have hbody := h ((writer.admitted.push opening).append first) 0 writer.admitted.stack rfl
  rw [Step.bind_ok (beginValue_of_ready hready)]
  change (body >>= fun _ => requireInside opening fault >>= fun _ => modify Writer.pop >>= fun _ =>
    put last) ((writer.admitted.push opening).append first) = _
  rw [Step.bind_ok hbody, Step.bind_ok (requireInside_of_stack rfl fault)]
  change EStateM.Result.ok () (Writer.append (Writer.pop _) last) = _
  simp [Writer.pop_eq, Writer.push_eq, Writer.withStack_self, String.append_assoc]

theorem RendersMembers.array {body : Writing Unit} {texts : List String}
    (h : RendersMembers .array body texts) :
    Renders (array body) ("[" ++ separated true texts ++ "]") := by
  simpa only [Writing.array, arrayStart, arrayEnd, bind_assoc] using
    renders_enclosed h "[" "]" .arrayEndOutside

theorem RendersMembers.object {body : Writing Unit} {texts : List String}
    (h : RendersMembers .object body texts) :
    Renders (object body) ("\x7b" ++ separated true texts ++ "\x7d") := by
  simpa only [Writing.object, objectStart, objectEnd, bind_assoc] using
    renders_enclosed h "\x7b" "\x7d" .objectEndOutside

mutual

/-- A whole value is written as its compact text. -/
theorem renders_value : ∀ token : Json, Renders (value token) token.compact
  | .null => renders_scalar _
  | .bool _ => renders_scalar _
  | .int _ => renders_scalar _
  | .float _ => renders_scalar _
  | .str text => renders_str text
  | .arr items => (rendersMembers_values items).array
  | .obj fields => (rendersMembers_properties fields).object

theorem rendersMembers_values : ∀ items : List Json,
    RendersMembers .array (values items) (compactItems items)
  | [] => rendersMembers_nil .array
  | item :: rest => (renders_value item).item.append (rendersMembers_values rest)

theorem rendersMembers_properties : ∀ fields : List (String × Json),
    RendersMembers .object (properties fields) (compactFields fields)
  | [] => rendersMembers_nil .object
  | (key, item) :: rest =>
    ((renders_value item).property key).append (rendersMembers_properties rest)

end

/-- A step writes one value: it never fails where a value may stand, and it leaves what is open as any
scalar would. -/
def WritesValue (step : Writing Unit) : Prop :=
  ∀ writer : Writer, writer.Ready → ∃ after, step writer = .ok () after ∧
    ∀ piece, ∃ other, scalar piece writer = .ok () other ∧ after.stack = other.stack ∧
      after.begun = other.begun

theorem Renders.writesValue {step : Writing Unit} {text : String} (h : Renders step text) :
    WritesValue step :=
  fun writer hready => ⟨_, h writer hready, fun piece =>
    ⟨_, renders_scalar piece writer hready, rfl, rfl⟩⟩

theorem Renders.text_eq {step : Writing Unit} {text : String} (h : Renders step text) :
    step.text = text := by
  have hrun : step.run .empty = .ok () (Writer.empty.admitted.append text) := h .empty rfl
  rw [Writing.text, hrun]
  simp [Writer.append, Writer.admitted, Writer.opening?, Writer.empty]

end Writing

theorem text_eq_compact (token : Json) : token.text = token.compact :=
  (Writing.renders_value token).text_eq

end Narrative.Json
