import Narrative.Proofs.Json.Depth
import Narrative.Proofs.Wire.Reloading

/-!
# What legible tokens stand for

A token is legible when there is no float in it and no character that writing
leaves out. What a legible token stands for is stored as a token that its text
keeps, and no stored token nests deeper than the one that was read: a terminator
is written only where there was one. Nothing else is asked of the token, which may
list keys that mean nothing, or names that are told twice.
-/

namespace Narrative

namespace Json

mutual

/-- No float, and no character below U+0020 but newlines and tabs. -/
def isLegible : Json → Bool
  | float _ => false
  | str text => decide (Printable text)
  | arr items => areLegible items
  | obj fields => areFieldsLegible fields
  | _ => true

def areLegible : List Json → Bool
  | [] => true
  | item :: rest => isLegible item && areLegible rest

def areFieldsLegible : List (String × Json) → Bool
  | [] => true
  | (key, item) :: rest => decide (Printable key) && isLegible item && areFieldsLegible rest

end

theorem isLegible_str {text : String} : (str text).isLegible = true ↔ Printable text := by
  rw [isLegible, decide_eq_true_iff]

theorem isLegible_arr {items : List Json} :
    (arr items).isLegible = true ↔ ∀ item ∈ items, item.isLegible = true := by
  rw [isLegible]
  induction items with
  | nil => simp [areLegible]
  | cons item rest ih => simp [areLegible, ih]

theorem isLegible_obj {fields : List (String × Json)} :
    (obj fields).isLegible = true ↔
      ∀ field ∈ fields, Printable field.1 ∧ field.2.isLegible = true := by
  rw [isLegible]
  induction fields with
  | nil => simp [areFieldsLegible]
  | cons field rest ih => simp [areFieldsLegible, ih, and_assoc]

end Json

open Json

namespace Outline

/-! ## An induction on what is read -/

/-- A relation between tokens and what they stand for that every leaf keeps, and every container whose
children keep it. -/
structure KeptByReading (R : Json → Outline → Prop) : Prop where
  ofLeaf : ∀ {item : Json} {l : Leaf}, ofToken? item = some (leaf l) → R item (leaf l)
  ofContainer : ∀ {items : List Json} {shell : Container} {content : List Outline}
    {named : List (String × Outline)}, Decoding.containerOfItems items = .ok shell →
    (∀ outline ∈ content, ∃ item ∈ items, R item outline) →
    (∀ entry ∈ named, ∃ fields item outline, items.getLast? = some (.obj fields) ∧
      (entry.1, item) ∈ fields ∧ R item outline ∧ entry.2 = outline.rename (some entry.1)) →
    R (.arr items) (container shell.name shell.flags content named)

namespace KeptByReading

variable {R : Json → Outline → Prop}

theorem leaf_case (hR : KeptByReading R) {item : Json} (hitem : ∀ items, item ≠ .arr items)
    {outline : Outline} (h : ofToken? item = some outline) : R item outline := by
  obtain ⟨l, rfl⟩ := exists_leaf_of_ofToken? hitem h
  exact hR.ofLeaf h

mutual

theorem token (hR : KeptByReading R) : ∀ {item : Json} {outline : Outline},
    ofToken? item = some outline → R item outline
  | .arr items, outline, h => by
    obtain ⟨shell, content, named, hshell, hread, -, rfl⟩ := exists_of_ofToken?_arr h
    obtain ⟨hcontent, hnamed⟩ := hR.children hread
    exact hR.ofContainer hshell hcontent hnamed
  | .null, _, h => hR.leaf_case (fun _ => Json.noConfusion) h
  | .bool _, _, h => hR.leaf_case (fun _ => Json.noConfusion) h
  | .int _, _, h => hR.leaf_case (fun _ => Json.noConfusion) h
  | .float _, _, h => hR.leaf_case (fun _ => Json.noConfusion) h
  | .str _, _, h => hR.leaf_case (fun _ => Json.noConfusion) h
  | .obj _, _, h => hR.leaf_case (fun _ => Json.noConfusion) h

theorem children (hR : KeptByReading R) : ∀ {items : List Json} {content : List Outline}
    {named : List (String × Outline)}, childrenOf? items = some (content, named) →
    (∀ outline ∈ content, ∃ item ∈ items, R item outline) ∧
      ∀ entry ∈ named, ∃ fields item outline, items.getLast? = some (.obj fields) ∧
        (entry.1, item) ∈ fields ∧ R item outline ∧ entry.2 = outline.rename (some entry.1)
  | [], content, named, h => by
    rw [childrenOf?] at h
    cases h
    simp
  | [last], content, named, h => by
    obtain ⟨rfl, ⟨fields, rfl, hnamed⟩ | rfl⟩ := exists_of_childrenOf?_last h
    · refine ⟨by simp, fun entry hentry => ?_⟩
      obtain ⟨item, outline, hlisted⟩ := hR.listed hnamed entry hentry
      exact ⟨fields, item, outline, rfl, hlisted⟩
    · simp
  | item :: next :: rest, content, named, h => by
    obtain ⟨first, others, hfirst, rfl, hrest⟩ := exists_of_childrenOf?_cons h
    obtain ⟨hcontent, hnamed⟩ := hR.children hrest
    refine ⟨List.forall_mem_cons.mpr ⟨⟨item, List.mem_cons_self, hR.token hfirst⟩, ?_⟩, ?_⟩
    · intro outline hmem
      obtain ⟨found, hfound, hkept⟩ := hcontent outline hmem
      exact ⟨found, List.mem_cons_of_mem _ hfound, hkept⟩
    · rw [List.getLast?_cons_cons]
      exact hnamed

theorem listed (hR : KeptByReading R) : ∀ {fields : List (String × Json)}
    {named : List (String × Outline)},
    namedOf? fields = some named → ∀ entry ∈ named, ∃ item outline,
      (entry.1, item) ∈ fields ∧ R item outline ∧ entry.2 = outline.rename (some entry.1)
  | [], named, h => by
    rw [namedOf?] at h
    cases h
    simp
  | (key, item) :: rest, named, h => by
    have hlater : ∀ {tail : List (String × Outline)}, namedOf? rest = some tail →
        ∀ entry ∈ tail, ∃ found outline, (entry.1, found) ∈ (key, item) :: rest ∧
          R found outline ∧ entry.2 = outline.rename (some entry.1) := by
      intro tail htail entry hentry
      obtain ⟨found, outline, hmem, hkept⟩ := hR.listed htail entry hentry
      exact ⟨found, outline, List.mem_cons_of_mem _ hmem, hkept⟩
    by_cases hkey : key = Wire.flagsKey ∨ key = Wire.nameKey
    · exact hlater (namedOf?_cons_reserved hkey item rest ▸ h)
    · obtain ⟨own, flags, content, inner, tail, hfirst, -, rfl, htail⟩ :=
        exists_of_namedOf?_cons hkey h
      refine List.forall_mem_cons.mpr ⟨?_, hlater htail⟩
      exact ⟨item, _, List.mem_cons_self, hR.token hfirst, rfl⟩

end

end KeptByReading

end Outline

/-! ## Leaves -/

namespace Leaf

/-- A string token stands for a text that it holds, or for a word without data. -/
theorem cases_of_ofString {text : String} {l : Leaf} (h : ofString text = .ok l) :
    (∃ held, l = value (.string held) ∧ ∀ c ∈ held.toList, c ∈ text.toList) ∨
      (∃ c, l = command c) ∨ (∃ o, l = operator o) ∨ l = glue ∨ l = void := by
  rw [ofString] at h
  split at h
  · cases h
    exact Or.inl ⟨text, rfl, fun _ hc => hc⟩
  · split at h
    · next rest htext =>
      cases h
      refine Or.inl ⟨_, rfl, fun c hc => ?_⟩
      rw [String.toList_ofList] at hc
      exact htext ▸ List.mem_cons_of_mem _ hc
    · cases hword : ofWord? text with
      | none => simp [hword] at h
      | some word =>
        simp only [hword] at h
        obtain rfl : word = l := Except.ok.inj h
        rw [ofWord?] at hword
        split at hword
        · cases hword
          exact Or.inr (Or.inr (Or.inr (Or.inl rfl)))
        split at hword
        · cases hword
          exact Or.inr (Or.inl ⟨_, rfl⟩)
        split at hword
        · cases hword
          exact Or.inr (Or.inr (Or.inl ⟨_, rfl⟩))
        split at hword
        · cases hword
          exact Or.inr (Or.inr (Or.inr (Or.inr rfl)))
        · cases hword

theorem nesting_of_ofString {text : String} {l : Leaf} (h : ofString text = .ok l) :
    l.token.nesting = 0 := by
  rcases cases_of_ofString h with ⟨held, rfl, -⟩ | ⟨c, rfl⟩ | ⟨o, rfl⟩ | rfl | rfl
  · rw [token, Value.token]
    split <;> rfl
  all_goals rfl

theorem nesting_token_le (l : Leaf) : l.token.nesting ≤ 1 := by
  have hflat : ∀ {fields : Dict Json}, (∀ field ∈ fields, field.2.nesting ≤ 0) →
      (obj fields).nesting ≤ 1 := fun h => Nat.succ_le_succ (nestingFields_le_iff.mpr h)
  cases l with
  | value v =>
    cases v with
    | string text =>
      rw [token, Value.token]
      split <;> exact Nat.zero_le 1
    | _ => simp [token, Value.token, nesting, nestingFields]
  | divert d =>
    rw [token, Divert.token_eq]
    refine hflat (List.forall_mem_cons.mpr ⟨Nat.le_refl 0, fun field hfield => ?_⟩)
    rw [Divert.marks] at hfield
    rcases List.mem_append.mp hfield with hfield | hfield
    · rcases List.mem_append.mp hfield with hfield | hfield
      all_goals
        split at hfield
        · obtain rfl := List.mem_singleton.mp hfield
          exact Nat.le_refl 0
        · cases hfield
    · split at hfield
      · obtain rfl := List.mem_singleton.mp hfield
        exact Nat.le_refl 0
      · cases hfield
  | reference r => cases r <;> simp [token, nesting, nestingFields]
  | assignment a =>
    rw [token, Assignment.token]
    cases a.isNew <;> simp [nesting, nestingFields]
  | _ => simp [token, Choice.token, nesting, nestingFields]

theorem kept_of_ofString {text : String} {l : Leaf} (h : ofString text = .ok l)
    (htext : Printable text) : l.token.Kept := by
  rcases cases_of_ofString h with ⟨held, rfl, hheld⟩ | ⟨c, rfl⟩ | ⟨o, rfl⟩ | rfl | rfl
  · exact kept_string fun c hc => htext c (hheld c hc)
  · exact kept_command c
  · exact kept_operator o
  · exact kept_str (by decide)
  · exact kept_str (by decide)

theorem get?_of_firstKey? {α : Type} {fields : Dict Json} {kinds : List (String × α)} {key : String}
    {found : Json} {kind : α} (h : firstKey? fields kinds = some (key, found, kind)) :
    Dict.get? fields key = some found := by
  induction kinds with
  | nil => cases h
  | cons first rest ih =>
    rw [firstKey?] at h
    split at h
    · next hfound =>
      cases h
      exact hfound
    · exact ih h

section Fields

variable {fields : Dict Json} (hfields : (obj fields).isLegible = true)
include hfields

theorem printable_of_get? {key text : String} (h : Dict.get? fields key = some (.str text)) :
    Printable text :=
  isLegible_str.mp (isLegible_obj.mp hfields _ (Dict.mem_of_get? h)).2

theorem printable_of_requiredStr {key text : String}
    (h : Wire.requiredStr fields key = .ok text) : Printable text := by
  rw [Wire.requiredStr] at h
  split at h
  · next value hvalue =>
    obtain rfl := Wire.asStr_eq_ok_iff.mp h
    exact printable_of_get? hfields hvalue
  · cases h

theorem kept_of_ofKind {key : String} {found : Json} {kind : ObjectKind} {l : Leaf}
    (hfound : Dict.get? fields key = some found) (h : ofKind fields key found kind = .ok l) :
    l.token.Kept := by
  have hkeys : Printable "^->" ∧ Printable "^var" ∧ Printable "ci" ∧ Printable "*" ∧
      Printable "flg" ∧ Printable "VAR?" ∧ Printable "CNT?" ∧ Printable "#" := by decide
  obtain ⟨htarget, hpointer, hcontext, hpoint, hflags, hname, hcount, htag⟩ := hkeys
  cases kind with
  | divert push isExternal =>
    obtain ⟨d, hd, h⟩ := exists_of_bind_eq_ok h
    cases h
    obtain ⟨text, isVariable, _, _, rfl, -, -, -, rfl⟩ := Divert.ofFields_eq_ok_iff.mp hd
    refine kept_divert ?_
    rw [Divert.targetText]
    cases isVariable with
    | true => exact printable_of_get? hfields hfound
    | false =>
      have hback : Printable (Path.parse text).text :=
        (Path.text_parse text).symm ▸ printable_of_get? hfields hfound
      exact hback
  | divertTarget =>
    obtain ⟨text, htext, h⟩ := exists_of_bind_eq_ok h
    cases h
    obtain rfl := Wire.asStr_eq_ok_iff.mp htext
    refine kept_single htarget (kept_str ?_)
    exact (Path.text_parse text).symm ▸ printable_of_get? hfields hfound
  | choicePoint =>
    obtain ⟨text, htext, h⟩ := exists_of_bind_eq_ok h
    obtain ⟨flags, -, h⟩ := exists_of_bind_eq_ok h
    cases h
    obtain rfl := Wire.asStr_eq_ok_iff.mp htext
    refine kept_double (by decide) hpoint (kept_str ?_) hflags (kept_int _)
    exact (Path.text_parse text).symm ▸ printable_of_get? hfields hfound
  | readCount =>
    obtain ⟨text, htext, h⟩ := exists_of_bind_eq_ok h
    cases h
    obtain rfl := Wire.asStr_eq_ok_iff.mp htext
    refine kept_single hcount (kept_str ?_)
    exact (Path.text_parse text).symm ▸ printable_of_get? hfields hfound
  | variablePointer =>
    obtain ⟨name, htext, h⟩ := exists_of_bind_eq_ok h
    obtain ⟨context, -, h⟩ := exists_of_bind_eq_ok h
    cases h
    obtain rfl := Wire.asStr_eq_ok_iff.mp htext
    exact kept_double (by decide) hpointer (kept_str (printable_of_get? hfields hfound)) hcontext
      (kept_int _)
  | reference =>
    obtain ⟨name, htext, h⟩ := exists_of_bind_eq_ok h
    cases h
    obtain rfl := Wire.asStr_eq_ok_iff.mp htext
    exact kept_single hname (kept_str (printable_of_get? hfields hfound))
  | assignment isGlobal =>
    obtain ⟨name, htext, h⟩ := exists_of_bind_eq_ok h
    cases h
    obtain rfl := Wire.asStr_eq_ok_iff.mp htext
    exact kept_assignment (printable_of_get? hfields hfound)
  | tag =>
    obtain ⟨text, htext, h⟩ := exists_of_bind_eq_ok h
    cases h
    obtain rfl := Wire.asStr_eq_ok_iff.mp htext
    exact kept_single htag (kept_str (printable_of_get? hfields hfound))

theorem kept_of_choice {c : Choice} (h : Choice.ofFields fields = .ok c) :
    (choice c).token.Kept := by
  obtain ⟨text, htext, h⟩ := exists_of_bind_eq_ok h
  obtain ⟨index, -, h⟩ := exists_of_bind_eq_ok h
  obtain ⟨source, hsource, h⟩ := exists_of_bind_eq_ok h
  obtain ⟨thread, -, h⟩ := exists_of_bind_eq_ok h
  obtain ⟨target, htarget, h⟩ := exists_of_bind_eq_ok h
  cases h
  have hkeys : Printable "text" ∧ Printable "index" ∧ Printable "originalChoicePath" ∧
      Printable "originalThreadIndex" ∧ Printable "targetPath" := by decide
  have hback : Printable (Path.parse target).text :=
    (Path.text_parse target).symm ▸ printable_of_requiredStr hfields htarget
  refine kept_obj (by simp [Dict.keys]) ?_
  simp only [List.forall_mem_cons, List.not_mem_nil, false_implies, implies_true, and_true]
  exact ⟨⟨hkeys.1, kept_str (printable_of_requiredStr hfields htext)⟩, ⟨hkeys.2.1, kept_int _⟩,
    ⟨hkeys.2.2.1, kept_str (printable_of_requiredStr hfields hsource)⟩,
    ⟨hkeys.2.2.2.1, kept_int _⟩, hkeys.2.2.2.2, kept_str hback⟩

theorem kept_of_ofFields {l : Leaf} (h : ofFields fields = .ok l) : l.token.Kept := by
  rw [ofFields] at h
  split at h
  · next key found kind hfirst => exact kept_of_ofKind hfields (get?_of_firstKey? hfirst) h
  · split at h
    · obtain ⟨c, hc, h⟩ := exists_of_bind_eq_ok h
      cases h
      exact kept_of_choice hfields hc
    · cases h

end Fields

end Leaf

namespace Outline

/-! ## Containers -/

theorem ofToken?_leaf_cases {item : Json} {l : Leaf} (h : ofToken? item = some (leaf l)) :
    (∃ b, item = .bool b ∧ l = .value (.bool b)) ∨ (∃ n, item = .int n ∧ l = .value (.int n)) ∨
      (∃ x, item = .float x ∧ l = .value (.float x)) ∨
      (∃ text, item = .str text ∧ Leaf.ofString text = .ok l) ∨
      ∃ fields, item = .obj fields ∧ Leaf.ofFields fields = .ok l := by
  cases item with
  | null => simp [ofToken?] at h
  | bool b =>
    cases ofToken?.eq_2 b ▸ h
    simp
  | int n =>
    cases ofToken?.eq_3 n ▸ h
    simp
  | float x =>
    cases ofToken?.eq_4 x ▸ h
    simp
  | str text =>
    obtain ⟨m, hm, heq⟩ := Option.map_eq_some_iff.mp (ofToken?.eq_5 text ▸ h)
    cases heq
    simp [toOption_eq_some_iff.mp hm]
  | obj fields =>
    obtain ⟨m, hm, heq⟩ := Option.map_eq_some_iff.mp (ofToken?.eq_6 fields ▸ h)
    cases heq
    simp [toOption_eq_some_iff.mp hm]
  | arr items =>
    obtain ⟨_, _, _, _, _, _, heq⟩ := exists_of_ofToken?_arr h
    cases heq

theorem Everywhere.rename_keptTop {outline : Outline} (h : outline.Everywhere KeptTop)
    {own : String} (hown : Printable own) : (outline.rename (some own)).Everywhere KeptTop := by
  cases outline with
  | leaf l => exact h
  | container name flags content named =>
    obtain ⟨⟨-, hkeys⟩, hbelow⟩ := h
    refine ⟨⟨fun other hother => ?_, hkeys⟩, hbelow⟩
    cases hother
    exact hown

theorem printable_name_of_containerOfItems {items : List Json}
    (hitems : ∀ item ∈ items, item.isLegible = true) {shell : Container}
    (h : Decoding.containerOfItems items = .ok shell) {own : String} (hown : shell.name = some own) :
    Printable own := by
  rw [Decoding.containerOfItems] at h
  split at h
  · cases h
  · cases h
    cases hown
  · next fields hlast =>
    obtain ⟨flags, name, -, hname, rfl⟩ := Decoding.containerOf_eq_ok_iff.mp h
    obtain rfl : name = some own := hown
    exact Leaf.printable_of_get? (hitems _ (List.mem_of_getLast? hlast)) hname
  · cases h

theorem keptTop_keptByReading :
    KeptByReading fun item outline => item.isLegible = true → outline.Everywhere KeptTop where
  ofLeaf := by
    intro item l h hitem
    rcases ofToken?_leaf_cases h with ⟨b, rfl, rfl⟩ | ⟨n, rfl, rfl⟩ | ⟨x, rfl, -⟩ |
      ⟨text, rfl, hread⟩ | ⟨fields, rfl, hread⟩
    · exact kept_bool b
    · exact kept_int n
    · cases hitem
    · exact Leaf.kept_of_ofString hread (isLegible_str.mp hitem)
    · exact Leaf.kept_of_ofFields hitem hread
  ofContainer := by
    intro items shell content named hshell hcontent hnamed hitems
    rw [isLegible_arr] at hitems
    have hlast : ∀ {fields}, items.getLast? = some (.obj fields) →
        ∀ field ∈ fields, Printable field.1 ∧ field.2.isLegible = true :=
      fun h => isLegible_obj.mp (hitems _ (List.mem_of_getLast? h))
    refine ⟨⟨fun own => printable_name_of_containerOfItems hitems hshell, ?_⟩, ?_, ?_⟩
    · intro entry hentry
      obtain ⟨fields, item, -, hfields, hmem, -⟩ := hnamed entry hentry
      exact (hlast hfields _ hmem).1
    · refine everywhereItems_iff.mpr fun outline hmem => ?_
      obtain ⟨item, hitem, hkept⟩ := hcontent outline hmem
      exact hkept (hitems item hitem)
    · refine everywhereNamed_iff.mpr fun entry hentry => ?_
      obtain ⟨fields, item, outline, hfields, hmem, hkept, hrename⟩ := hnamed entry hentry
      obtain ⟨hkey, hitem⟩ := hlast hfields _ hmem
      rw [hrename]
      exact (hkept hitem).rename_keptTop hkey

/-- The text keeps every leaf and name that a legible token stands for. -/
theorem keptTop_of_isLegible {item : Json} {outline : Outline} (hitem : item.isLegible = true)
    (h : ofToken? item = some outline) : outline.Everywhere KeptTop :=
  keptTop_keptByReading.token h hitem

/-! ## Depth -/

theorem encode_false_rename (outline : Outline) (own : Option String) :
    (outline.rename own).encode false = outline.encode false := by
  cases outline <;> rfl

theorem mem_encodeNamed {named : List (String × Outline)} {field : String × Json}
    (h : field ∈ encodeNamed named) : ∃ entry ∈ named, field = (entry.1, entry.2.encode false) := by
  induction named with
  | nil => cases h
  | cons entry rest ih =>
    rw [encodeNamed] at h
    rcases List.mem_cons.mp h with rfl | h
    · exact ⟨entry, List.mem_cons_self, rfl⟩
    · obtain ⟨found, hfound, heq⟩ := ih h
      exact ⟨found, List.mem_cons_of_mem _ hfound, heq⟩

theorem nesting_of_mem_ownFields {flags : CountFlags} {name : Option String} {field : String × Json}
    (h : field ∈ Wire.ownFields flags name) : field.2.nesting = 0 := by
  rcases List.mem_append.mp h with h | h
  · split at h
    · cases h
    · obtain rfl := List.mem_singleton.mp h
      rfl
  · cases name with
    | none => cases h
    | some name =>
      obtain rfl := List.mem_singleton.mp h
      rfl

/-- A terminator nests as deep as the object it was read from, if it is not left out. -/
theorem nesting_terminator {named : List (String × Json)} {flags : CountFlags} {name : Option String}
    {depth : Nat} (h : ∀ field ∈ named, field.2.nesting ≤ depth) :
    (Wire.terminator named flags name).nesting ≤ depth + 1 := by
  have heq : Wire.terminator named flags name =
      if (Dict.insertAll (Dict.ofList named) (Wire.ownFields flags name)).isEmpty then .null
      else .obj (Dict.insertAll (Dict.ofList named) (Wire.ownFields flags name)) := rfl
  rw [heq]
  split
  · exact Nat.zero_le _
  · refine Nat.succ_le_succ (nestingFields_le_iff.mpr fun field hfield => ?_)
    rcases Dict.mem_of_mem_insertAll hfield with hfield | hfield
    · exact h field (Dict.mem_of_mem_ofList hfield)
    · rw [nesting_of_mem_ownFields hfield]
      exact Nat.zero_le _

theorem nesting_keptByReading :
    KeptByReading fun item outline =>
      ∀ withName, (outline.encode withName).nesting ≤ item.nesting where
  ofLeaf := by
    intro item l h withName
    rw [encode]
    rcases ofToken?_leaf_cases h with ⟨b, rfl, rfl⟩ | ⟨n, rfl, rfl⟩ | ⟨x, rfl, rfl⟩ |
      ⟨text, rfl, hread⟩ | ⟨fields, rfl, hread⟩
    · exact Nat.le_refl _
    · exact Nat.le_refl _
    · exact Nat.le_refl _
    · exact Nat.le_of_eq (Leaf.nesting_of_ofString hread)
    · exact Nat.le_trans (Leaf.nesting_token_le l) (Nat.le_add_left 1 _)
  ofContainer := by
    intro items shell content named hshell hcontent hnamed withName
    rw [encode, nesting, nesting]
    have hin := nestingItems_le_iff.mp (Nat.le_refl (nestingItems items))
    refine Nat.succ_le_succ (nestingItems_le_iff.mpr fun item hitem => ?_)
    rcases List.mem_append.mp hitem with hitem | hitem
    · rw [encodeItems_eq_map] at hitem
      obtain ⟨outline, hmem, rfl⟩ := List.mem_map.mp hitem
      obtain ⟨found, hfound, hle⟩ := hcontent outline hmem
      exact Nat.le_trans (hle true) (hin found hfound)
    · obtain rfl := List.mem_singleton.mp hitem
      rw [Decoding.containerOfItems] at hshell
      split at hshell
      · cases hshell
      · -- A null says nothing, and nothing is written for it.
        next hlast =>
        cases hshell
        obtain rfl : named = [] := by
          refine List.eq_nil_iff_forall_not_mem.mpr fun entry hentry => ?_
          obtain ⟨fields, _, _, hfields, -⟩ := hnamed entry hentry
          cases hlast.symm.trans hfields
        cases withName <;> exact Nat.zero_le _
      · next fields hlast =>
        have hbound := hin _ (List.mem_of_getLast? hlast)
        refine Nat.le_trans (nesting_terminator fun field hfield => ?_) hbound
        obtain ⟨entry, hentry, rfl⟩ := mem_encodeNamed hfield
        obtain ⟨_, item, outline, hfields, hmem, hle, hrename⟩ := hnamed entry hentry
        cases hlast.symm.trans hfields
        rw [hrename, encode_false_rename]
        have hfield := nestingFields_le_iff.mp (Nat.le_refl (nestingFields fields)) _ hmem
        exact Nat.le_trans (hle false) hfield
      · cases hshell

/-- What a token stands for is stored as a token that nests no deeper. -/
theorem nesting_encode_le {item : Json} {outline : Outline} (h : ofToken? item = some outline)
    (withName : Bool) : (outline.encode withName).nesting ≤ item.nesting :=
  nesting_keptByReading.token h withName

end Outline

end Narrative
