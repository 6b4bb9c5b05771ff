import Narrative.Proofs.Dict
import Narrative.Proofs.Path
import Narrative.Proofs.Wire.Reading

/-!
# Tokens of leaves, read back

A leaf is faithful when its token keeps all of it: paths that are read back from
their texts, words below half their range, and no data where the token has no
place for it. The token of a faithful leaf is read as that leaf, and every leaf
that is read is faithful. Floats are kept with all their bits.
-/

namespace Narrative

/-- The token of a divert has one key for its kind, and counts arguments of host functions only. -/
structure Divert.Faithful (divert : Divert) : Prop where
  path : ∀ path, divert.target = .path path → path.Readable
  arguments_lt : divert.externalArguments.toNat < 2 ^ 31
  push_eq_none : divert.isExternal = true → divert.push = none
  isExternal : 0 < divert.externalArguments → divert.isExternal = true

/-- A leaf whose token keeps all of it. -/
def Leaf.Faithful : Leaf → Prop
  | value (.divertTarget path) => path.Readable
  | divert d => d.Faithful
  | choicePoint point => point.path.Readable ∧ point.flags.toNat < 2 ^ 31
  | reference (.readCount path) => path.Readable
  | choice c => c.target.Readable
  | _ => True

namespace Leaf

theorem ofString_command (c : Command) : ofString c.token = .ok (command c) := by
  cases c <;> rfl

theorem ofString_operator (o : Operator) : ofString o.token = .ok (operator o) := by
  cases o <;> rfl

theorem ofString_text (text : String) :
    Outline.ofToken? (Value.string text).token = some (.leaf (value (.string text))) := by
  rw [Value.token]
  split
  · next h =>
    have htext : text = "\n" := by simpa [StoryText.isNewline] using h
    subst htext
    rfl
  · have hlist : ("^" ++ text).toList = '^' :: text.toList := by simp
    have hne : ¬ "^" ++ text = "\n" := by
      intro h
      rw [h] at hlist
      simp at hlist
    simp [Outline.ofToken?, ofString, hne, hlist, Except.toOption]

/-- The first entry decides the kind of an object when no other entry does. -/
theorem firstKey?_head {α : Type} {key : String} {value : Json} {rest : Dict Json} {kind : α}
    {kinds : List (String × α)} (hnodup : (kinds.map Prod.fst).Nodup)
    (hrest : ∀ other ∈ kinds.map Prod.fst, Dict.get? rest other = none)
    (hkind : (key, kind) ∈ kinds) :
    firstKey? ((key, value) :: rest) kinds = some (key, value, kind) := by
  induction kinds with
  | nil => cases hkind
  | cons first others ih =>
    obtain ⟨name, other⟩ := first
    rw [List.map_cons, List.nodup_cons] at hnodup
    rw [List.map_cons, List.forall_mem_cons] at hrest
    rw [firstKey?, Dict.get?]
    rcases List.mem_cons.mp hkind with heq | hmem
    · cases heq
      rw [if_pos rfl]
    · have hne : ¬ key = name := by
        rintro rfl
        exact hnodup.1 (List.mem_map.mpr ⟨_, hmem, rfl⟩)
      rw [if_neg hne, hrest.1]
      exact ih hnodup.2 hrest.2 hmem

theorem objectKeys_nodup : (objectKeys.map Prod.fst).Nodup := by
  decide

theorem ofToken?_head {key : String} {value : Json} {rest : Dict Json} {kind : ObjectKind} {l : Leaf}
    (hrest : ∀ other ∈ objectKeys.map Prod.fst, Dict.get? rest other = none)
    (hkind : (key, kind) ∈ objectKeys)
    (hread : ofKind ((key, value) :: rest) key value kind = .ok l) :
    Outline.ofToken? (.obj ((key, value) :: rest)) = some (.leaf l) := by
  rw [Outline.ofToken?, ofFields, firstKey?_head objectKeys_nodup hrest hkind]
  simp only [hread]
  rfl

theorem get?_mark {mark : String} (h : mark ∉ objectKeys.map Prod.fst) (value : Json) :
    ∀ other ∈ objectKeys.map Prod.fst, Dict.get? [(mark, value)] other = none := by
  intro other hother
  have hne : ¬ mark = other := fun heq => h (heq ▸ hother)
  simp [Dict.get?, hne]

end Leaf

namespace Divert

/-- The entries of a divert's token after the first. -/
def marks (divert : Divert) : Dict Json :=
  (if divert.hasVariableTarget then [("var", .bool true)] else [])
    ++ (if divert.isConditional then [("c", .bool true)] else [])
    ++ (if 0 < divert.externalArguments then [("exArgs", .int divert.externalArguments.toInt32)]
        else [])

variable (divert : Divert)

theorem token_eq : divert.token = .obj ((divert.key, .str divert.targetText) :: divert.marks) := by
  simp [token, marks]

theorem get?_marks_var : Dict.get? divert.marks "var" =
    if divert.hasVariableTarget then some (.bool true) else none := by
  simp only [marks, Dict.get?_append]
  split <;> split <;> split <;> simp [Dict.get?]

theorem get?_marks_c : Dict.get? divert.marks "c" =
    if divert.isConditional then some (.bool true) else none := by
  simp only [marks, Dict.get?_append]
  split <;> split <;> split <;> simp [Dict.get?]

theorem get?_marks_exArgs : Dict.get? divert.marks "exArgs" =
    if 0 < divert.externalArguments then some (.int divert.externalArguments.toInt32) else none := by
  simp only [marks, Dict.get?_append]
  split <;> split <;> split <;> simp [Dict.get?]

theorem get?_marks_kind {key : String} (h : key ∈ Leaf.objectKeys.map Prod.fst) :
    Dict.get? divert.marks key = none := by
  have hvar : key ≠ "var" := by rintro rfl; revert h; decide
  have hc : key ≠ "c" := by rintro rfl; revert h; decide
  have hargs : key ≠ "exArgs" := by rintro rfl; revert h; decide
  simp only [marks, Dict.get?_append]
  split <;> split <;> split <;> simp [Dict.get?, hvar.symm, hc.symm, hargs.symm]

/-- Arguments are read of host functions only. -/
def argumentsOf (fields : Dict Json) (isExternal : Bool) : Except DecodeError UInt32 :=
  if isExternal then Wire.optionalWord fields "exArgs" else .ok 0

theorem ofFields_eq_ok_iff {fields : Dict Json} {key : String} {target : Json}
    {push : Option StackPush} {isExternal : Bool} {divert : Divert} :
    ofFields fields key target push isExternal = .ok divert ↔
      ∃ text isVariable arguments isConditional, target = .str text ∧
        Wire.flag fields "var" = .ok isVariable ∧
        argumentsOf fields isExternal = .ok arguments ∧
        Wire.flag fields "c" = .ok isConditional ∧
        divert = { target := if isVariable then .named text else .path (.parse text), push
                   isExternal, externalArguments := arguments, isConditional } := by
  rw [ofFields, argumentsOf]
  constructor
  · intro h
    obtain ⟨text, htext, h⟩ := exists_of_bind_eq_ok h
    obtain ⟨isVariable, hvar, h⟩ := exists_of_bind_eq_ok h
    have hboth : ∃ arguments,
        (if isExternal then Wire.optionalWord fields "exArgs" else .ok 0) = .ok arguments ∧
          ∃ isConditional, Wire.flag fields "c" = .ok isConditional ∧
            Except.ok { target := if isVariable then .named text else .path (.parse text), push
                        isExternal, externalArguments := arguments, isConditional } =
              (Except.ok divert : Except DecodeError Divert) := by
      cases isExternal <;>
      · obtain ⟨arguments, hargs, h⟩ := exists_of_bind_eq_ok h
        exact ⟨arguments, hargs, exists_of_bind_eq_ok h⟩
    obtain ⟨arguments, hargs, isConditional, hc, h⟩ := hboth
    exact ⟨text, isVariable, arguments, isConditional, Wire.asStr_eq_ok_iff.mp htext, hvar, hargs, hc,
      (Except.ok.inj h).symm⟩
  · rintro ⟨text, isVariable, arguments, isConditional, rfl, hvar, hargs, hc, rfl⟩
    rw [Wire.asStr_eq_ok_iff.mpr rfl, hvar, hc]
    cases isExternal with
    | false =>
      cases hargs
      rfl
    | true =>
      rw [if_pos rfl] at hargs
      rw [hargs]
      rfl

/-- The kind that the key of a divert stands for. -/
theorem mem_objectKeys_key :
    (divert.key, .divert (if divert.isExternal then none else divert.push) divert.isExternal) ∈
      Leaf.objectKeys := by
  rw [key]
  cases hext : divert.isExternal with
  | true => simp [Leaf.objectKeys, kinds]
  | false =>
    cases hpush : divert.push with
    | none => simp [Leaf.objectKeys, kinds]
    | some push => cases push <;> simp [Leaf.objectKeys, kinds]

theorem key_ne_mark {mark : String} (h : mark ∉ Leaf.objectKeys.map Prod.fst) :
    ¬ divert.key = mark := by
  rintro rfl
  exact h (List.mem_map.mpr ⟨_, divert.mem_objectKeys_key, rfl⟩)

variable {divert}

/-- The token of a faithful divert is read as that divert. -/
theorem ofFields_token (h : divert.Faithful) :
    ofFields ((divert.key, .str divert.targetText) :: divert.marks) divert.key
        (.str divert.targetText) (if divert.isExternal then none else divert.push)
        divert.isExternal =
      .ok divert := by
  have hvar : Wire.flag ((divert.key, .str divert.targetText) :: divert.marks) "var" =
      .ok divert.hasVariableTarget := by
    rw [Wire.flag, Dict.get?, if_neg (divert.key_ne_mark (by decide)), get?_marks_var]
    cases divert.hasVariableTarget <;> rfl
  have hc : Wire.flag ((divert.key, .str divert.targetText) :: divert.marks) "c" =
      .ok divert.isConditional := by
    rw [Wire.flag, Dict.get?, if_neg (divert.key_ne_mark (by decide)), get?_marks_c]
    cases divert.isConditional <;> rfl
  have hargs : Wire.optionalWord ((divert.key, .str divert.targetText) :: divert.marks) "exArgs" =
      .ok divert.externalArguments := by
    rw [Wire.optionalWord_eq_ok_iff, Dict.get?, if_neg (divert.key_ne_mark (by decide)),
      get?_marks_exArgs]
    split
    · exact Or.inr ⟨rfl, h.arguments_lt⟩
    · next hzero => exact Or.inl ⟨rfl, by grind⟩
  have hread : argumentsOf ((divert.key, .str divert.targetText) :: divert.marks)
      divert.isExternal = .ok divert.externalArguments := by
    rw [argumentsOf]
    split
    · exact hargs
    · next hext =>
      have hzero : ¬ 0 < divert.externalArguments := fun hpos => hext (h.isExternal hpos)
      exact congrArg Except.ok (by grind)
  have htarget : (if divert.hasVariableTarget then .named divert.targetText
      else .path (.parse divert.targetText)) = divert.target := by
    rw [hasVariableTarget, variableName?, targetText]
    cases ht : divert.target with
    | named name => rfl
    | path path => exact congrArg DivertTarget.path (h.path path ht)
  have hpush : (if divert.isExternal then none else divert.push) = divert.push := by
    split
    · next hext => exact (h.push_eq_none hext).symm
    · rfl
  rw [hpush]
  refine ofFields_eq_ok_iff.mpr ⟨_, _, _, _, rfl, hvar, hread, hc, ?_⟩
  rw [htarget]

end Divert

namespace Leaf

/-- The token of a faithful leaf is read as that leaf. -/
theorem ofToken?_token {l : Leaf} (h : l.Faithful) : Outline.ofToken? l.token = some (.leaf l) := by
  cases l with
  | value v =>
    cases v with
    | bool b => simp [token, Value.token, Outline.ofToken?]
    | int n => simp [token, Value.token, Outline.ofToken?]
    | float x => simp [token, Value.token, Outline.ofToken?]
    | string text => exact ofString_text text
    | divertTarget path =>
      have hkind : ("^->", ObjectKind.divertTarget) ∈ objectKeys := by simp [objectKeys]
      exact ofToken?_head (by simp [Dict.get?]) hkind
        (congrArg (fun path => Except.ok (value (.divertTarget path))) h)
    | variablePointer name context =>
      have hkind : ("^var", ObjectKind.variablePointer) ∈ objectKeys := by simp [objectKeys]
      exact ofToken?_head (get?_mark (by decide) _) hkind rfl
  | command c =>
    rw [token, Outline.ofToken?, ofString_command]
    rfl
  | divert d =>
    rw [token, Divert.token_eq]
    refine ofToken?_head (fun _ => d.get?_marks_kind) d.mem_objectKeys_key ?_
    rw [ofKind, Divert.ofFields_token h]
    rfl
  | choicePoint point =>
    obtain ⟨hpath, hflags⟩ := h
    have hkind : ("*", ObjectKind.choicePoint) ∈ objectKeys := by simp [objectKeys]
    refine ofToken?_head (get?_mark (by decide) _) hkind ?_
    rw [ofKind, Wire.asStr_eq_ok_iff.mpr rfl, Wire.optionalWord_eq_ok_iff.mpr (Or.inr ⟨rfl, hflags⟩)]
    exact congrArg (fun path => Except.ok (choicePoint ⟨path, point.flags⟩)) hpath
  | reference r =>
    cases r with
    | named name =>
      have hkind : ("VAR?", ObjectKind.reference) ∈ objectKeys := by simp [objectKeys]
      exact ofToken?_head (by simp [Dict.get?]) hkind rfl
    | readCount path =>
      have hkind : ("CNT?", ObjectKind.readCount) ∈ objectKeys := by simp [objectKeys]
      exact ofToken?_head (by simp [Dict.get?]) hkind
        (congrArg (fun path => Except.ok (reference (.readCount path))) h)
  | assignment a =>
    obtain ⟨name, isGlobal, isNew⟩ := a
    have hkind : (if isGlobal then "VAR=" else "temp=", ObjectKind.assignment isGlobal) ∈
        objectKeys := by cases isGlobal <;> simp [objectKeys, Assignment.kinds]
    have hrest : ∀ other ∈ objectKeys.map Prod.fst,
        Dict.get? (if isNew then [] else [("re", Json.bool true)]) other = none := by
      cases isNew with
      | true => simp [Dict.get?]
      | false => exact get?_mark (by decide) _
    exact ofToken?_head hrest hkind (by cases isGlobal <;> cases isNew <;> rfl)
  | operator o =>
    rw [token, Outline.ofToken?, ofString_operator]
    rfl
  | glue => rfl
  | tag text =>
    have hkind : ("#", ObjectKind.tag) ∈ objectKeys := by simp [objectKeys]
    exact ofToken?_head (by simp [Dict.get?]) hkind rfl
  | void => rfl
  | choice c =>
    have hread : ofFields [("text", .str c.text), ("index", .int c.index),
        ("originalChoicePath", .str c.source), ("originalThreadIndex", .int c.thread),
        ("targetPath", .str c.target.text)] = .ok (choice { c with target := .parse c.target.text }) :=
      rfl
    have htarget : Path.parse c.target.text = c.target := h
    rw [token, Choice.token, Outline.ofToken?, hread, htarget]
    rfl

/-! ## Leaves that are read -/

theorem firstKey?_mem {α : Type} {fields : Dict Json} {kinds : List (String × α)} {key : String}
    {found : Json} {kind : α} (h : firstKey? fields kinds = some (key, found, kind)) :
    (key, kind) ∈ kinds := by
  induction kinds with
  | nil => cases h
  | cons first rest ih =>
    rw [firstKey?] at h
    split at h
    · cases h
      exact List.mem_cons_self
    · exact List.mem_cons_of_mem _ (ih h)

theorem faithful_of_ofString {text : String} {l : Leaf} (h : ofString text = .ok l) :
    l.Faithful := by
  rw [ofString] at h
  split at h
  · cases h
    trivial
  · split at h
    · cases h
      trivial
    · cases hword : ofWord? text with
      | none => simp [hword] at h
      | some word =>
        simp only [hword] at h
        obtain rfl : word = l := Except.ok.inj h
        rw [ofWord?] at hword
        split at hword
        · cases hword
          trivial
        · split at hword
          · cases hword
            trivial
          · split at hword
            · cases hword
              trivial
            · split at hword
              · cases hword
                trivial
              · cases hword

theorem external_push_of_mem {key : String} {push : Option StackPush} {isExternal : Bool}
    (h : (key, ObjectKind.divert push isExternal) ∈ objectKeys) (hext : isExternal = true) :
    push = none := by
  subst hext
  have hkind : key = "x()" ∧ push = none := by
    simpa [objectKeys, Divert.kinds, Assignment.kinds] using h
  exact hkind.2

theorem faithful_of_divert {fields : Dict Json} {key : String} {found : Json}
    {push : Option StackPush} {isExternal : Bool} {d : Divert}
    (hmem : (key, ObjectKind.divert push isExternal) ∈ objectKeys)
    (h : Divert.ofFields fields key found push isExternal = .ok d) : d.Faithful := by
  obtain ⟨text, isVariable, arguments, isConditional, -, -, hargs, -, rfl⟩ :=
    Divert.ofFields_eq_ok_iff.mp h
  constructor
  · intro path hpath
    cases isVariable with
    | true => cases hpath
    | false =>
      cases hpath
      exact Path.readable_parse text
  · cases isExternal with
    | true => exact Wire.optionalWord_lt hargs
    | false =>
      cases hargs
      exact Nat.two_pow_pos 31
  · exact external_push_of_mem hmem
  · intro hpos
    cases isExternal with
    | true => rfl
    | false =>
      cases hargs
      exact absurd hpos (UInt32.lt_irrefl 0)

theorem faithful_of_ofKind {fields : Dict Json} {key : String} {found : Json} {kind : ObjectKind}
    {l : Leaf} (hmem : (key, kind) ∈ objectKeys) (h : ofKind fields key found kind = .ok l) :
    l.Faithful := by
  cases kind with
  | divert push isExternal =>
    obtain ⟨d, hd, h⟩ := exists_of_bind_eq_ok h
    cases h
    exact faithful_of_divert hmem hd
  | divertTarget =>
    obtain ⟨text, -, h⟩ := exists_of_bind_eq_ok h
    cases h
    exact Path.readable_parse text
  | choicePoint =>
    obtain ⟨text, -, h⟩ := exists_of_bind_eq_ok h
    obtain ⟨flags, hflags, h⟩ := exists_of_bind_eq_ok h
    cases h
    exact ⟨Path.readable_parse text, Wire.optionalWord_lt hflags⟩
  | readCount =>
    obtain ⟨text, -, h⟩ := exists_of_bind_eq_ok h
    cases h
    exact Path.readable_parse text
  | variablePointer =>
    obtain ⟨name, -, h⟩ := exists_of_bind_eq_ok h
    obtain ⟨context, -, h⟩ := exists_of_bind_eq_ok h
    cases h
    trivial
  | reference | assignment | tag =>
    obtain ⟨text, -, h⟩ := exists_of_bind_eq_ok h
    cases h
    trivial

theorem faithful_of_choice {fields : Dict Json} {c : Choice} (h : Choice.ofFields fields = .ok c) :
    c.target.Readable := by
  obtain ⟨text, -, h⟩ := exists_of_bind_eq_ok h
  obtain ⟨index, -, h⟩ := exists_of_bind_eq_ok h
  obtain ⟨source, -, h⟩ := exists_of_bind_eq_ok h
  obtain ⟨thread, -, h⟩ := exists_of_bind_eq_ok h
  obtain ⟨target, -, h⟩ := exists_of_bind_eq_ok h
  cases h
  exact Path.readable_parse target

theorem faithful_of_ofFields {fields : Dict Json} {l : Leaf} (h : ofFields fields = .ok l) :
    l.Faithful := by
  rw [ofFields] at h
  split at h
  · next key found kind hfirst => exact faithful_of_ofKind (firstKey?_mem hfirst) h
  · split at h
    · obtain ⟨c, hc, h⟩ := exists_of_bind_eq_ok h
      cases h
      exact faithful_of_choice hc
    · cases h

/-- A leaf that is read from a token is faithful. -/
theorem faithful_of_ofToken? {item : Json} {l : Leaf}
    (h : Outline.ofToken? item = some (.leaf l)) : l.Faithful := by
  cases item with
  | null => simp [Outline.ofToken?] at h
  | bool _ | int _ | float _ =>
    simp only [Outline.ofToken?] at h
    cases h
    trivial
  | str text =>
    rw [Outline.ofToken?] at h
    obtain ⟨m, hm, heq⟩ := Option.map_eq_some_iff.mp h
    cases heq
    exact faithful_of_ofString (toOption_eq_some_iff.mp hm)
  | obj fields =>
    rw [Outline.ofToken?] at h
    obtain ⟨m, hm, heq⟩ := Option.map_eq_some_iff.mp h
    cases heq
    exact faithful_of_ofFields (toOption_eq_some_iff.mp hm)
  | arr items =>
    obtain ⟨_, _, _, _, _, _, heq⟩ := Outline.exists_of_ofToken?_arr h
    cases heq

end Leaf

end Narrative
