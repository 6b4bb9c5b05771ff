import Narrative.Json.Script
import Narrative.Proofs.Json.NumberTexts

/-!
# Texts in the making

What a writer has open says how far its text has come in the grammar: which
lists have been begun, with how many entries, and whether a value, the end of a
name or the end of a string is to follow. Every operation that is allowed keeps
this account. So a complete text is a value of the grammar, and since the account
names at every place something that may follow, no place is a dead end.

Nothing is said about operations that are not allowed where they are called.
-/

namespace Narrative.Json

open Grammar

/-! ## Unfinished texts -/

/-- The comma before the next entry of a list that has `n` of them. -/
def comma (n : Nat) : List Char := (if n == 0 then "" else ",").toList

/-- The text of a list with `n` entries, which may be none. -/
def SoFar (listed : List Char → Prop) (n : Nat) (text : List Char) : Prop :=
  if n = 0 then text = [] else listed text

/-- A text after which a value is to come. The value is counted already in what is open. -/
inductive Awaits : List Frame → List Char → Prop where
  | whole : Awaits [] []
  | item {rest : List Frame} {outer items : List Char} {n : Nat} : Awaits rest outer →
      SoFar Elements n items →
      Awaits (⟨.array, n + 1⟩ :: rest) (outer ++ ('[' :: (items ++ comma n)))
  | member {rest : List Frame} {outer members key : List Char} {n : Nat} : Awaits rest outer →
      SoFar Members n members → Quoted key →
      Awaits (⟨.property, 1⟩ :: ⟨.object, n + 1⟩ :: rest)
        (outer ++ ('{' :: (members ++ (comma n ++ (key ++ [':'])))))

/-- How far a text has come, by what is open and whether the top-level value has been begun. -/
inductive Progress : List Frame → Bool → List Char → Prop where
  | blank : Progress [] false []
  | complete {text : List Char} : Value text → Progress [] true text
  | array {rest : List Frame} {outer items : List Char} {n : Nat} : Awaits rest outer →
      SoFar Elements n items → Progress (⟨.array, n⟩ :: rest) true (outer ++ ('[' :: items))
  | object {rest : List Frame} {outer members : List Char} {n : Nat} : Awaits rest outer →
      SoFar Members n members → Progress (⟨.object, n⟩ :: rest) true (outer ++ ('{' :: members))
  | property {rest : List Frame} {outer members key : List Char} {n : Nat} : Awaits rest outer →
      SoFar Members n members → Quoted key →
      Progress (⟨.property, 0⟩ :: ⟨.object, n + 1⟩ :: rest) true
        (outer ++ ('{' :: (members ++ (comma n ++ (key ++ [':'])))))
  | filled {rest : List Frame} {outer members : List Char} {n : Nat} : Awaits rest outer →
      Members members →
      Progress (⟨.property, 1⟩ :: ⟨.object, n + 1⟩ :: rest) true (outer ++ ('{' :: members))
  | name {rest : List Frame} {outer members inside : List Char} {n : Nat} : Awaits rest outer →
      SoFar Members n members → Inside inside →
      Progress (⟨.propertyName, 0⟩ :: ⟨.property, 0⟩ :: ⟨.object, n + 1⟩ :: rest) true
        (outer ++ ('{' :: (members ++ (comma n ++ ('"' :: inside)))))
  | string {rest : List Frame} {outer inside : List Char} : Awaits rest outer → Inside inside →
      Progress (⟨.string, 0⟩ :: rest) true (outer ++ ('"' :: inside))

theorem SoFar.item {n : Nat} {items value : List Char} (h : SoFar Elements n items)
    (hvalue : Value value) : Elements (items ++ (comma n ++ value)) := by
  cases n with
  | zero =>
    obtain rfl : items = [] := h
    exact .one hvalue.element
  | succ n => simpa [comma] using Elements.more h hvalue.element

theorem SoFar.member {n : Nat} {members key value : List Char} (h : SoFar Members n members)
    (hkey : Quoted key) (hvalue : Value value) :
    Members (members ++ (comma n ++ (key ++ (':' :: value)))) := by
  cases n with
  | zero =>
    obtain rfl : members = [] := h
    exact .one (hkey.member hvalue)
  | succ n => simpa [comma] using Members.more h (hkey.member hvalue)

/-- A value goes where one is to come. -/
theorem Awaits.written {stack : List Frame} {outer value : List Char} (h : Awaits stack outer)
    (hvalue : Value value) : Progress stack true (outer ++ value) := by
  cases h with
  | whole => exact .complete hvalue
  | @item _ _ _ n houter hitems =>
    have hlisted : SoFar Elements (n + 1) _ := hitems.item hvalue
    simpa using Progress.array houter hlisted
  | member houter hmembers hkey => simpa using Progress.filled houter (hmembers.member hkey hvalue)

theorem Progress.arrayEnd {n : Nat} {rest : List Frame} {begun : Bool} {text : List Char}
    (h : Progress (⟨.array, n⟩ :: rest) begun text) : Progress rest begun (text ++ [']']) := by
  cases h with
  | @array _ outer items _ houter hitems =>
    cases n with
    | zero =>
      obtain rfl : items = [] := hitems
      simpa using houter.written (.emptyArray blanks_nil)
    | succ n => simpa using houter.written (.array hitems)

theorem Progress.objectEnd {n : Nat} {rest : List Frame} {begun : Bool} {text : List Char}
    (h : Progress (⟨.object, n⟩ :: rest) begun text) : Progress rest begun (text ++ ['}']) := by
  cases h with
  | @object _ outer members _ houter hmembers =>
    cases n with
    | zero =>
      obtain rfl : members = [] := hmembers
      simpa using houter.written (.emptyObject blanks_nil)
    | succ n => simpa using houter.written (.object hmembers)

theorem Progress.stringInner {n : Nat} {rest : List Frame} {begun : Bool} {text more : List Char}
    (h : Progress (⟨.string, n⟩ :: rest) begun text) (hmore : Inside more) :
    Progress (⟨.string, n⟩ :: rest) begun (text ++ more) := by
  cases h with
  | string houter hinside => simpa using Progress.string houter (hinside.append hmore)

theorem Progress.stringEnd {n : Nat} {rest : List Frame} {begun : Bool} {text : List Char}
    (h : Progress (⟨.string, n⟩ :: rest) begun text) : Progress rest begun (text ++ ['"']) := by
  cases h with
  | string houter hinside => simpa using houter.written (.string (.mk hinside))

theorem Progress.nameInner {n : Nat} {rest : List Frame} {begun : Bool} {text more : List Char}
    (h : Progress (⟨.propertyName, n⟩ :: rest) begun text) (hmore : Inside more) :
    Progress (⟨.propertyName, n⟩ :: rest) begun (text ++ more) := by
  cases h with
  | name houter hmembers hinside =>
    simpa using Progress.name houter hmembers (hinside.append hmore)

theorem Progress.nameEnd {n : Nat} {rest : List Frame} {begun : Bool} {text : List Char}
    (h : Progress (⟨.propertyName, n⟩ :: rest) begun text) :
    Progress rest begun (text ++ ['"', ':']) := by
  cases h with
  | name houter hmembers hinside => simpa using Progress.property houter hmembers (.mk hinside)

theorem Progress.propertyStart {n : Nat} {rest : List Frame} {begun : Bool} {text key : List Char}
    (h : Progress (⟨.object, n⟩ :: rest) begun text) (hkey : Quoted key) :
    Progress (⟨.property, 0⟩ :: ⟨.object, n + 1⟩ :: rest) begun
      (text ++ (comma n ++ (key ++ [':']))) := by
  cases h with
  | object houter hmembers => simpa using Progress.property houter hmembers hkey

theorem Progress.nameStart {n : Nat} {rest : List Frame} {begun : Bool} {text : List Char}
    (h : Progress (⟨.object, n⟩ :: rest) begun text) :
    Progress (⟨.propertyName, 0⟩ :: ⟨.property, 0⟩ :: ⟨.object, n + 1⟩ :: rest) begun
      (text ++ (comma n ++ ['"'])) := by
  cases h with
  | object houter hmembers => simpa using Progress.name houter hmembers .nil

theorem Progress.propertyEnd {rest : List Frame} {begun : Bool} {text : List Char}
    (h : Progress (⟨.property, 1⟩ :: rest) begun text) : Progress rest begun text := by
  cases h with
  | filled houter hmembers => exact .object houter hmembers

/-! ## Writers that keep account -/

namespace Writer

/-- The octets are counted, and what is open describes the text. -/
structure Sound (writer : Writer) : Prop where
  sized : writer.size = writer.text.utf8ByteSize
  progress : Progress writer.stack writer.begun writer.text.toList

theorem sound_empty : Writer.empty.Sound := ⟨rfl, .blank⟩

variable {writer : Writer}

theorem sized_append (h : writer.size = writer.text.utf8ByteSize) (piece : String) :
    (writer.append piece).size = (writer.append piece).text.utf8ByteSize := by
  simp [append, h]

/-- A writer stays sound when it goes on to the next place of the grammar. -/
theorem Sound.advance (h : writer.Sound) {stack : List Frame} {piece : String}
    (hprogress : Progress stack writer.begun (writer.text.toList ++ piece.toList)) :
    ((writer.withStack stack).append piece).Sound where
  sized := sized_append h.sized piece
  progress := by simpa [append, withStack] using hprogress

/-- Where a value may be written, the text awaits one as soon as it is counted. -/
theorem Sound.admitted (h : writer.Sound) (hready : writer.Ready) :
    writer.admitted.size = writer.admitted.text.utf8ByteSize ∧ writer.admitted.begun = true ∧
      Awaits writer.admitted.stack writer.admitted.text.toList := by
  obtain ⟨text, stack, begun, size⟩ := writer
  obtain ⟨hsized, hprogress⟩ := h
  simp only at hsized hprogress
  generalize htext : text.toList = chars at hprogress
  cases hprogress with
  | blank => exact ⟨hsized, rfl, by simpa [Writer.admitted, opening?, htext] using Awaits.whole⟩
  | complete => simp [Ready, opening?] at hready
  | array houter hitems =>
    rw [admitted_of_array rfl]
    refine ⟨sized_append hsized _, rfl, ?_⟩
    simpa [append, withStack, htext, comma] using Awaits.item houter hitems
  | object => simp [Ready, opening?] at hready
  | property houter hmembers hkey =>
    rw [admitted_of_property rfl]
    refine ⟨hsized, rfl, ?_⟩
    simpa [withStack, htext] using Awaits.member houter hmembers hkey
  | filled => simp [Ready, opening?, count] at hready
  | name => simp [Ready, opening?] at hready
  | string => simp [Ready, opening?] at hready

end Writer

namespace Writing

/-- A step leaves a sound writer sound whenever it is allowed. -/
def Keeps (step : Writing Unit) : Prop :=
  ∀ writer after : Writer, writer.Sound → step writer = .ok () after → after.Sound

theorem keeps_pure : Keeps (pure ()) := by
  intro writer after h hstep
  cases hstep
  exact h

theorem Keeps.bind {step next : Writing Unit} (h : Keeps step) (hnext : Keeps next) :
    Keeps (step >>= fun _ => next) := by
  intro writer after hsound hstep
  obtain ⟨_, mid, hfirst, hsecond⟩ := Step.exists_of_bind_ok hstep
  exact hnext _ _ (h _ _ hsound hfirst) hsecond

theorem exists_of_requireInside {opening : Opening} {fault : WriterFault} {writer after : Writer}
    (h : requireInside opening fault writer = .ok () after) :
    after = writer ∧ ∃ n rest, writer.stack = ⟨opening, n⟩ :: rest := by
  change require (writer.opening? == some opening) fault writer = _ at h
  cases hinside : writer.opening? == some opening with
  | false =>
    rw [hinside] at h
    cases h
  | true =>
    rw [hinside] at h
    cases h
    refine ⟨rfl, ?_⟩
    have hopening : writer.opening? = some opening := by simpa using hinside
    cases hstack : writer.stack with
    | nil => simp [Writer.opening?, hstack] at hopening
    | cons frame rest =>
      refine ⟨frame.count, rest, ?_⟩
      simp only [Writer.opening?, hstack, List.head?_cons, Option.map_some, Option.some.injEq]
        at hopening
      rw [← hopening]

theorem beginValue_eq_ok {writer after : Writer} (h : beginValue writer = .ok () after) :
    writer.Ready ∧ after = writer.admitted := by
  have hready := ready_iff_beginValue.mpr ⟨after, h⟩
  rw [beginValue_of_ready hready] at h
  cases h
  exact ⟨hready, rfl⟩

/-! ## What one operation keeps -/

/-- A value of one piece. -/
theorem keeps_scalar {piece : String} (hvalue : Value piece.toList) : Keeps (scalar piece) := by
  intro writer after h hstep
  obtain ⟨_, mid, hbegin, hput⟩ := Step.exists_of_bind_ok hstep
  obtain ⟨hready, rfl⟩ := beginValue_eq_ok hbegin
  obtain ⟨hsized, hbegun, hawaits⟩ := h.admitted hready
  cases hput
  refine ⟨Writer.sized_append hsized piece, ?_⟩
  simpa [Writer.append, hbegun] using hawaits.written hvalue

theorem str_eq_scalar (text : String) : str text = scalar ("\"" ++ escaped text ++ "\"") := by
  funext writer
  rw [str, scalar, Step.bind_eq, Step.bind_eq]
  cases beginValue writer with
  | ok _ mid =>
    change EStateM.Result.ok () (((mid.append "\"").appendEscaped text).append "\"") =
      EStateM.Result.ok () (mid.append ("\"" ++ escaped text ++ "\""))
    rw [Writer.appendEscaped_eq, Writer.append_append, Writer.append_append, String.append_assoc]
  | error => rfl

theorem keeps_str (text : String) : Keeps (str text) := by
  rw [str_eq_scalar]
  apply keeps_scalar
  simpa using Value.string (quoted_escaped text)

theorem keeps_null : Keeps null := by
  apply keeps_scalar
  exact .null

theorem keeps_bool (value : Bool) : Keeps (bool value) := by
  apply keeps_scalar
  cases value with
  | true => exact .true
  | false => exact .false

theorem keeps_int (value : Int32) : Keeps (int value) :=
  keeps_scalar (.number (number_repr_int _))

theorem keeps_float (value : Single) : Keeps (float value) :=
  keeps_scalar (.number value.number_wireText)

/-- Opening something where a value may stand. -/
theorem keeps_start {opening : Opening} {mark : String}
    (h : ∀ {stack outer}, Awaits stack outer →
      Progress (⟨opening, 0⟩ :: stack) true (outer ++ mark.toList)) :
    Keeps (do
      beginValue
      modify (Writer.push · opening)
      put mark) := by
  intro writer after hsound hstep
  obtain ⟨_, mid, hbegin, hrest⟩ := Step.exists_of_bind_ok hstep
  obtain ⟨hready, rfl⟩ := beginValue_eq_ok hbegin
  obtain ⟨hsized, hbegun, hawaits⟩ := hsound.admitted hready
  cases hrest
  refine ⟨Writer.sized_append hsized mark, ?_⟩
  simpa [Writer.append, Writer.push, hbegun] using h hawaits

/-- Closing what is innermost open. -/
theorem keeps_end {opening : Opening} {fault : WriterFault} {mark : String}
    (h : ∀ {n rest begun text}, Progress (⟨opening, n⟩ :: rest) begun text →
      Progress rest begun (text ++ mark.toList)) :
    Keeps (do
      requireInside opening fault
      modify Writer.pop
      put mark) := by
  intro writer after hsound hstep
  obtain ⟨_, mid, hinside, hrest⟩ := Step.exists_of_bind_ok hstep
  obtain ⟨rfl, n, rest, hstack⟩ := exists_of_requireInside hinside
  cases hrest
  have hprogress := hsound.progress
  rw [hstack] at hprogress
  have hsound := hsound.advance (h hprogress)
  simpa [Writer.pop_eq, hstack] using hsound

/-- Going on with what is innermost open. -/
theorem keeps_inner {opening : Opening} {fault : WriterFault} (text : String)
    (h : ∀ {n rest begun before more}, Progress (⟨opening, n⟩ :: rest) begun before → Inside more →
      Progress (⟨opening, n⟩ :: rest) begun (before ++ more)) :
    Keeps (do
      requireInside opening fault
      modify (Writer.appendEscaped · text)) := by
  intro writer after hsound hstep
  obtain ⟨_, mid, hinside, hrest⟩ := Step.exists_of_bind_ok hstep
  obtain ⟨rfl, n, rest, hstack⟩ := exists_of_requireInside hinside
  cases hrest
  have hprogress := hsound.progress
  rw [hstack] at hprogress
  have hsound := hsound.advance (h hprogress (inside_escaped text))
  rw [← hstack, Writer.withStack_self, ← Writer.appendEscaped_eq] at hsound
  exact hsound

theorem keeps_objectStart : Keeps objectStart :=
  keeps_start fun h => Progress.object h (n := 0) rfl

theorem keeps_arrayStart : Keeps arrayStart :=
  keeps_start fun h => Progress.array h (n := 0) rfl

theorem keeps_stringStart : Keeps stringStart :=
  keeps_start fun h => Progress.string h .nil

theorem keeps_objectEnd : Keeps objectEnd := keeps_end Progress.objectEnd

theorem keeps_arrayEnd : Keeps arrayEnd := keeps_end Progress.arrayEnd

theorem keeps_stringEnd : Keeps stringEnd := keeps_end Progress.stringEnd

theorem keeps_nameEnd : Keeps nameEnd := keeps_end Progress.nameEnd

theorem keeps_stringInner (text : String) : Keeps (stringInner text) :=
  keeps_inner text Progress.stringInner

theorem keeps_nameInner (text : String) : Keeps (nameInner text) :=
  keeps_inner text Progress.nameInner

theorem keeps_propertyStart (name : String) : Keeps (propertyStart name) := by
  intro writer after hsound hstep
  obtain ⟨_, mid, hinside, -⟩ := Step.exists_of_bind_ok hstep
  obtain ⟨-, n, rest, hstack⟩ := exists_of_requireInside hinside
  rw [propertyStart_of_object hstack] at hstep
  cases hstep
  have hprogress := hsound.progress
  rw [hstack] at hprogress
  apply hsound.advance
  simpa [comma] using hprogress.propertyStart (quoted_escaped name)

theorem nameStart_of_object {writer : Writer} {n : Nat} {rest : List Frame}
    (h : writer.stack = ⟨.object, n⟩ :: rest) :
    nameStart writer =
      .ok () ((writer.withStack (⟨.propertyName, 0⟩ :: ⟨.property, 0⟩ :: ⟨.object, n + 1⟩ ::
        rest)).append ((if n == 0 then "" else ",") ++ "\"")) := by
  rw [nameStart, Step.bind_ok (requireInside_of_stack h _)]
  change EStateM.Result.ok () (((writer.separate.append "\"").increment.push .property).push
    .propertyName) = _
  simp [Writer.separate_increment h, Writer.push_eq]

theorem keeps_nameStart : Keeps nameStart := by
  intro writer after hsound hstep
  obtain ⟨_, mid, hinside, -⟩ := Step.exists_of_bind_ok hstep
  obtain ⟨-, n, rest, hstack⟩ := exists_of_requireInside hinside
  rw [nameStart_of_object hstack] at hstep
  cases hstep
  have hprogress := hsound.progress
  rw [hstack] at hprogress
  apply hsound.advance
  simpa [comma] using hprogress.nameStart

theorem keeps_propertyEnd : Keeps propertyEnd := by
  intro writer after hsound hstep
  obtain ⟨_, mid, hinside, hrest⟩ := Step.exists_of_bind_ok hstep
  obtain ⟨rfl, n, rest, hstack⟩ := exists_of_requireInside hinside
  have hcount : mid.count = n := by simp [Writer.count, hstack]
  change (require (mid.count == 1) .propertyNotFilled >>= fun _ => modify Writer.pop :
    Writing Unit) mid = _ at hrest
  by_cases hone : n = 1
  · subst hone
    rw [propertyEnd_of_filled hstack] at hstep
    cases hstep
    have hprogress := hsound.progress
    rw [hstack] at hprogress
    refine ⟨hsound.sized, ?_⟩
    simpa [Writer.withStack] using hprogress.propertyEnd
  · have hfalse : (mid.count == 1) = false := by simp [hcount, hone]
    rw [hfalse] at hrest
    cases hrest

/-! ## What the forms with a body keep -/

theorem Keeps.object {body : Writing Unit} (h : Keeps body) : Keeps (object body) :=
  keeps_objectStart.bind (h.bind keeps_objectEnd)

theorem Keeps.array {body : Writing Unit} (h : Keeps body) : Keeps (array body) :=
  keeps_arrayStart.bind (h.bind keeps_arrayEnd)

theorem Keeps.property {body : Writing Unit} (h : Keeps body) (name : String) :
    Keeps (property name body) :=
  (keeps_propertyStart name).bind (h.bind keeps_propertyEnd)

mutual

theorem keeps_value : ∀ token : Json, Keeps (value token)
  | .null => keeps_null
  | .bool b => keeps_bool b
  | .int n => keeps_int n
  | .float x => keeps_float x
  | .str text => keeps_str text
  | .arr items => (keeps_values items).array
  | .obj fields => (keeps_properties fields).object

theorem keeps_values : ∀ items : List Json, Keeps (values items)
  | [] => keeps_pure
  | item :: rest => (keeps_value item).bind (keeps_values rest)

theorem keeps_properties : ∀ fields : List (String × Json), Keeps (properties fields)
  | [] => keeps_pure
  | (key, item) :: rest => ((keeps_value item).property key).bind (keeps_properties rest)

end

end Writing

namespace WriterCall

open Writing

mutual

theorem keeps_run : ∀ call : WriterCall, Keeps call.run
  | .objectStart => keeps_objectStart
  | .objectEnd => keeps_objectEnd
  | .object body => (keeps_runAll body).object
  | .arrayStart => keeps_arrayStart
  | .arrayEnd => keeps_arrayEnd
  | .array body => (keeps_runAll body).array
  | .propertyStart name => keeps_propertyStart name
  | .propertyEnd => keeps_propertyEnd
  | .property name body => (keeps_runAll body).property name
  | .strProperty name text => (keeps_str text).property name
  | .intProperty name n => (keeps_int n).property name
  | .boolProperty name b => (keeps_bool b).property name
  | .nameStart => keeps_nameStart
  | .nameInner text => keeps_nameInner text
  | .nameEnd => keeps_nameEnd
  | .null => keeps_null
  | .bool b => keeps_bool b
  | .int n => keeps_int n
  | .float x => keeps_float x
  | .str text => keeps_str text
  | .stringStart => keeps_stringStart
  | .stringInner text => keeps_stringInner text
  | .stringEnd => keeps_stringEnd
  | .value token => keeps_value token

/-- Calls one after the other keep account, in whatever order they are made. -/
theorem keeps_runAll : ∀ calls : List WriterCall, Keeps (runAll calls)
  | [] => keeps_pure
  | call :: rest => (keeps_run call).bind (keeps_runAll rest)

end

end WriterCall

end Narrative.Json
