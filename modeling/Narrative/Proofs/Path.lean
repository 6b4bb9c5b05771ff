import Narrative.Path

/-!
# Texts of paths

Reading a text as a path loses nothing: the path is written as the same text. The
other way round a path may be lost, when a component contains a dot or looks like
a component of another kind, or when an empty name stands where the text then shows
a relative path or none at all. `Path.readable_iff` says that nothing else is lost.
-/

namespace Narrative

/-! ## Segments -/

/-- A segment is a position exactly when it is how a number below the bound is printed. -/
theorem Component.index?_eq_some_iff {segment : String} {position : Nat} :
    Component.index? segment = some position ↔
      position < Component.indexBound ∧ segment = position.repr := by
  simp only [Component.index?, Option.ite_none_right_eq_some, Option.some.injEq, Bool.and_eq_true,
    decide_eq_true_eq, beq_iff_eq]
  constructor
  · rintro ⟨⟨⟨-, hbound⟩, hprinted⟩, rfl⟩
    exact ⟨hbound, hprinted.symm⟩
  · rintro ⟨hbound, rfl⟩
    have hvalue : Nat.ofDigitChars 10 position.repr.toList 0 = position := by
      rw [Nat.toList_repr, Nat.ofDigitChars_ten_toDigits]
    have hdigits : position.repr.toList.all Char.isDigit = true := by
      rw [Nat.toList_repr, List.all_eq_true]
      exact fun c hc => Nat.isDigit_of_mem_toDigits (by decide) (by decide) hc
    rw [hvalue]
    exact ⟨⟨⟨hdigits, hbound⟩, rfl⟩, rfl⟩

theorem Component.text_parse (segment : String) : (Component.parse segment).text = segment := by
  rw [Component.parse]
  split
  · next h => exact h.symm
  · cases hindex : Component.index? segment with
    | none => rfl
    | some position => exact (Component.index?_eq_some_iff.mp hindex).2.symm

namespace Path

/-- Pieces with a separator between neighbours. -/
def joined (separator : Char) : List (List Char) → List Char
  | [] => []
  | [piece] => piece
  | piece :: rest => piece ++ separator :: joined separator rest

theorem segmentsAt_ne_nil (separator : Char) (text : List Char) : segmentsAt separator text ≠ [] := by
  cases text with
  | nil => simp [segmentsAt]
  | cons c rest =>
    rw [segmentsAt]
    split
    · simp
    · split <;> simp

theorem joined_segmentsAt (separator : Char) (text : List Char) :
    joined separator (segmentsAt separator text) = text := by
  induction text with
  | nil => rfl
  | cons c rest ih =>
    have hne := segmentsAt_ne_nil separator rest
    rw [segmentsAt]
    cases hpieces : segmentsAt separator rest with
    | nil => exact absurd hpieces hne
    | cons piece pieces =>
      rw [hpieces] at ih
      split
      · next hc => rw [joined, ih, hc, List.nil_append]; simp
      · cases pieces with
        | nil => simpa [joined] using ih
        | cons next pieces => simpa [joined] using ih

theorem toList_dotted (pieces : List (List Char)) :
    (dotted (pieces.map fun piece => Component.parse (String.ofList piece))).toList =
      joined '.' pieces := by
  induction pieces with
  | nil => rfl
  | cons piece rest ih =>
    cases rest with
    | nil => simp [dotted, joined, Component.text_parse]
    | cons next rest =>
      simp only [List.map_cons] at ih
      simp [dotted, joined, Component.text_parse, ih]

theorem toList_dotted_componentsOf (body : List Char) :
    (dotted (componentsOf body)).toList = body := by
  cases body with
  | nil => rfl
  | cons c rest => rw [componentsOf, toList_dotted, joined_segmentsAt]; simp

/-- A text is the text of the path it is read as. -/
theorem text_parse (text : String) : (Path.parse text).text = text := by
  apply String.toList_inj.mp
  rw [parse]
  split
  · next body h => simp [Path.text, relative, toList_dotted_componentsOf, h]
  · simp [Path.text, absolute, toList_dotted_componentsOf]

/-- The path is read back from its text. -/
def Readable (path : Path) : Prop := Path.parse path.text = path

theorem readable_parse (text : String) : (Path.parse text).Readable := by
  rw [Readable, text_parse]

end Path

/-! ## Components that are not lost -/

/-- A text with something other than digits in it is no number. -/
theorem ne_repr_of_mem {name : String} {c : Char} (hc : c ∈ name.toList) (hdigit : c.isDigit = false)
    (n : Nat) : name ≠ n.repr := by
  rintro rfl
  have hmem : c ∈ Nat.toDigits 10 n := by
    rwa [Nat.toList_repr] at hc
  rw [Nat.isDigit_of_mem_toDigits (by decide) (by decide) hmem] at hdigit
  cases hdigit

namespace Component

/-- The component is read back from its segment, which is one segment and no more. -/
structure Readable (component : Component) : Prop where
  parse_text : Component.parse component.text = component
  no_dot : '.' ∉ component.text.toList

/-- A name that is taken for nothing else where it stands as a segment. -/
structure Unmistaken (name : String) : Prop where
  no_dot : '.' ∉ name.toList
  ne_parent : name ≠ "^"
  ne_number : ∀ n < indexBound, name ≠ n.repr

theorem readable_parse {segment : String} (h : '.' ∉ segment.toList) :
    (Component.parse segment).Readable := by
  constructor
  · rw [text_parse]
  · rwa [text_parse]

theorem readable_parent : parent.Readable := ⟨rfl, by decide⟩

theorem repr_ne_parent (n : Nat) : n.repr ≠ "^" := by
  have hcaret : '^' ∈ "^".toList := by decide
  exact (ne_repr_of_mem hcaret (by decide) n).symm

theorem readable_index_iff {position : Nat} :
    (index position).Readable ↔ position < indexBound := by
  constructor
  · rintro ⟨hparse, -⟩
    rw [text, Component.parse, if_neg (repr_ne_parent position)] at hparse
    cases hindex : index? position.repr with
    | none =>
      rw [hindex] at hparse
      cases hparse
    | some other =>
      rw [hindex] at hparse
      cases hparse
      exact (index?_eq_some_iff.mp hindex).1
  · intro hbound
    refine ⟨?_, fun hdot => ne_repr_of_mem hdot (by decide) position rfl⟩
    rw [text, Component.parse, if_neg (repr_ne_parent position),
      index?_eq_some_iff.mpr ⟨hbound, rfl⟩]

theorem readable_name_iff {name : String} : (Component.name name).Readable ↔ Unmistaken name := by
  constructor
  · rintro ⟨hparse, hdot⟩
    rw [text, Component.parse] at hparse
    refine ⟨hdot, ?_, ?_⟩
    · rintro rfl
      cases hparse
    · rintro n hbound rfl
      rw [if_neg (repr_ne_parent n), index?_eq_some_iff.mpr ⟨hbound, rfl⟩] at hparse
      cases hparse
  · rintro ⟨hdot, hparent, hnumber⟩
    refine ⟨?_, hdot⟩
    rw [text, Component.parse, if_neg hparent]
    cases hindex : index? name with
    | none => rfl
    | some position =>
      obtain ⟨hbound, hprinted⟩ := index?_eq_some_iff.mp hindex
      exact absurd hprinted (hnumber position hbound)

/-- Only the empty name is written as nothing. -/
theorem Readable.eq_of_text {component : Component} (h : component.Readable)
    (htext : component.text.toList = []) : component = .name "" := by
  rw [← h.parse_text, String.toList_eq_nil_iff.mp htext]
  decide

end Component

/-- A component that is read back and that has a text. -/
structure Component.Plain (component : Component) : Prop extends Component.Readable component where
  text_ne : component.text ≠ ""

/-! ## Paths that are not lost -/

namespace Path

theorem not_mem_of_mem_segmentsAt {separator : Char} {text piece : List Char}
    (h : piece ∈ segmentsAt separator text) : separator ∉ piece := by
  induction text generalizing piece with
  | nil =>
    obtain rfl := List.mem_singleton.mp h
    exact List.not_mem_nil
  | cons c rest ih =>
    rw [segmentsAt] at h
    split at h
    · rcases List.mem_cons.mp h with rfl | h
      · exact List.not_mem_nil
      · exact ih h
    · next hc =>
      cases hpieces : segmentsAt separator rest with
      | nil => exact absurd hpieces (segmentsAt_ne_nil separator rest)
      | cons first others =>
        rw [hpieces] at h ih
        rcases List.mem_cons.mp h with rfl | h
        · simpa [Ne.symm hc] using ih List.mem_cons_self
        · exact ih (List.mem_cons_of_mem first h)

theorem segmentsAt_of_not_mem {separator : Char} {piece : List Char} (h : separator ∉ piece) :
    segmentsAt separator piece = [piece] := by
  induction piece with
  | nil => rfl
  | cons c piece ih =>
    rw [List.mem_cons, not_or] at h
    rw [segmentsAt, if_neg (Ne.symm h.1), ih h.2]

theorem segmentsAt_append {separator : Char} {piece : List Char} (h : separator ∉ piece)
    (rest : List Char) :
    segmentsAt separator (piece ++ separator :: rest) = piece :: segmentsAt separator rest := by
  induction piece with
  | nil => rw [List.nil_append, segmentsAt, if_pos rfl]
  | cons c piece ih =>
    rw [List.mem_cons, not_or] at h
    rw [List.cons_append, segmentsAt, if_neg (Ne.symm h.1), ih h.2]

/-- Cutting undoes joining when no piece has a separator in it. -/
theorem segmentsAt_joined {separator : Char} {pieces : List (List Char)} (hne : pieces ≠ [])
    (h : ∀ piece ∈ pieces, separator ∉ piece) :
    segmentsAt separator (joined separator pieces) = pieces := by
  induction pieces with
  | nil => exact absurd rfl hne
  | cons piece rest ih =>
    rw [List.forall_mem_cons] at h
    cases rest with
    | nil => exact segmentsAt_of_not_mem h.1
    | cons next rest =>
      rw [joined, segmentsAt_append h.1, ih (List.cons_ne_nil _ _) h.2]
      exact List.cons_ne_nil _ _

/-! ### What is read -/

theorem readable_of_mem_componentsOf {body : List Char} {component : Component}
    (h : component ∈ componentsOf body) : component.Readable := by
  cases body with
  | nil => cases h
  | cons c rest =>
    obtain ⟨piece, hpiece, rfl⟩ := List.mem_map.mp h
    apply Component.readable_parse
    rw [String.toList_ofList]
    exact not_mem_of_mem_segmentsAt hpiece

/-- No text is read as a lone empty name. -/
theorem componentsOf_ne_empty_name (body : List Char) : componentsOf body ≠ [.name ""] := by
  intro h
  have hbody := toList_dotted_componentsOf body
  rw [h] at hbody
  cases hbody
  cases h

/-- A text that does not begin with a dot is not read as a path that begins with the empty name. -/
theorem head?_componentsOf_ne {body : List Char} (hdot : ∀ rest, body ≠ '.' :: rest) :
    (componentsOf body).head? ≠ some (.name "") := by
  intro h
  obtain ⟨rest, hrest⟩ := List.head?_eq_some_iff.mp h
  have hbody := toList_dotted_componentsOf body
  rw [hrest] at hbody
  cases rest with
  | nil => exact componentsOf_ne_empty_name body hrest
  | cons next rest =>
    refine hdot (dotted (next :: rest)).toList ?_
    rw [← hbody]
    simp [dotted, Component.text]

/-! ### What is written -/

variable {components : List Component}

/-- Components are what is read from their texts. -/
theorem map_parse_text (h : ∀ c ∈ components, c.Readable) :
    (components.map fun c => c.text.toList).map
      (fun piece => Component.parse (String.ofList piece)) = components := by
  rw [List.map_map]
  refine (List.map_congr_left fun c hc => ?_).trans (List.map_id _)
  rw [Function.comp_apply, String.ofList_toList, (h c hc).parse_text, id]

theorem segmentsAt_dotted (hne : components ≠ []) (h : ∀ c ∈ components, c.Readable) :
    segmentsAt '.' (dotted components).toList = components.map fun c => c.text.toList := by
  have hjoined := toList_dotted (components.map fun c => c.text.toList)
  rw [map_parse_text h] at hjoined
  rw [hjoined]
  apply segmentsAt_joined
  · simpa using hne
  · intro piece hpiece
    obtain ⟨c, hc, rfl⟩ := List.mem_map.mp hpiece
    exact (h c hc).no_dot

theorem componentsOf_dotted (hne : components ≠ [.name ""]) (h : ∀ c ∈ components, c.Readable) :
    componentsOf (dotted components).toList = components := by
  cases components with
  | nil => rfl
  | cons first others =>
    have hcut := segmentsAt_dotted (List.cons_ne_nil first others) h
    cases hbody : (dotted (first :: others)).toList with
    | nil =>
      -- There is one component, and it is written as nothing.
      rw [hbody, segmentsAt, List.map_cons, List.cons.injEq] at hcut
      obtain ⟨hfirst, hothers⟩ := hcut
      rw [(h first List.mem_cons_self).eq_of_text hfirst.symm, List.map_eq_nil_iff.mp hothers.symm]
        at hne
      exact absurd rfl hne
    | cons c rest =>
      rw [componentsOf, ← hbody, hcut, map_parse_text h]
      simp

theorem dotted_ne_dot (hhead : components.head? ≠ some (.name "")) (h : ∀ c ∈ components, c.Readable)
    (rest : List Char) : (dotted components).toList ≠ '.' :: rest := by
  intro hbody
  cases components with
  | nil => cases hbody
  | cons first others =>
    have hcut := segmentsAt_dotted (List.cons_ne_nil first others) h
    rw [hbody, segmentsAt, if_pos rfl, List.map_cons, List.cons.injEq] at hcut
    rw [(h first List.mem_cons_self).eq_of_text hcut.1.symm] at hhead
    exact hhead rfl

/-- A path is read back exactly when its components are, unless an empty name at its front makes its
text that of a relative path or of the empty one. -/
theorem readable_iff {path : Path} :
    path.Readable ↔ (∀ c ∈ path.components, c.Readable) ∧
      ¬ (path.isRelative = false ∧ path.head? = some (.name "")) ∧
      ¬ (path.isRelative = true ∧ path.components = [.name ""]) := by
  constructor
  · intro h
    rw [← h, parse]
    split
    · next body _ =>
      refine ⟨fun c hc => readable_of_mem_componentsOf hc, nofun, ?_⟩
      rintro ⟨-, hempty⟩
      exact componentsOf_ne_empty_name body hempty
    · next hdot =>
      refine ⟨fun c hc => readable_of_mem_componentsOf hc, ?_, nofun⟩
      rintro ⟨-, hhead⟩
      exact head?_componentsOf_ne hdot hhead
  · obtain ⟨components, isRelative⟩ := path
    rintro ⟨hcomponents, habsolute, hrelative⟩
    rw [Readable, parse]
    cases isRelative with
    | true =>
      have htext : (text ⟨components, true⟩).toList = '.' :: (dotted components).toList := by
        simp [text]
      rw [htext]
      have hne : components ≠ [.name ""] := fun hempty => hrelative ⟨rfl, hempty⟩
      exact congrArg relative (componentsOf_dotted hne hcomponents)
    | false =>
      have htext : (text ⟨components, false⟩).toList = (dotted components).toList := by
        simp [text]
      have hhead : components.head? ≠ some (.name "") := fun hhead => habsolute ⟨rfl, hhead⟩
      have hne : components ≠ [.name ""] := by
        rintro rfl
        exact hhead rfl
      rw [htext]
      split
      · next body hbody => exact absurd hbody (dotted_ne_dot hhead hcomponents body)
      · exact congrArg absolute (componentsOf_dotted hne hcomponents)

/-- An absolute path of plain components is read back from its text. -/
theorem readable_absolute (h : ∀ component ∈ components, component.Plain) :
    (absolute components).Readable := by
  refine readable_iff.mpr ⟨fun c hc => (h c hc).toReadable, ?_, nofun⟩
  rintro ⟨-, hhead⟩
  exact (h _ (List.mem_of_head? hhead)).text_ne rfl

/-- Texts are never lost as paths. Paths are never lost as texts, with these exceptions: a position
that is not below the bound, a name that looks like something else, an absolute path with an empty
name in front and a relative path of the empty name alone. -/
theorem text_loses_only_lookalikes :
    (∀ text, (Path.parse text).text = text) ∧
      ∀ path : Path, Path.parse path.text = path ↔
        (∀ position, .index position ∈ path.components → position < Component.indexBound) ∧
        (∀ name, .name name ∈ path.components → Component.Unmistaken name) ∧
        ¬ (path.isRelative = false ∧ path.head? = some (.name "")) ∧
        ¬ (path.isRelative = true ∧ path.components = [.name ""]) := by
  refine ⟨text_parse, ?_⟩
  intro path
  have hcomponents : (∀ c ∈ path.components, c.Readable) ↔
      (∀ position, .index position ∈ path.components → position < Component.indexBound) ∧
        ∀ name, .name name ∈ path.components → Component.Unmistaken name := by
    constructor
    · intro h
      exact ⟨fun position hmem => Component.readable_index_iff.mp (h _ hmem),
        fun name hmem => Component.readable_name_iff.mp (h _ hmem)⟩
    · rintro ⟨hpositions, hnames⟩ c hc
      cases c with
      | index position => exact Component.readable_index_iff.mpr (hpositions position hc)
      | name name => exact Component.readable_name_iff.mpr (hnames name hc)
      | parent => exact Component.readable_parent
  rw [← and_assoc, ← hcomponents]
  exact readable_iff

/-- An empty name in front of a relative path is no loss, and one at the end of a path neither. -/
example : Path.parse (relative [.name "", .name "01", .parent]).text =
      relative [.name "", .name "01", .parent] ∧
    Path.parse (absolute [.index 7, .name ""]).text = absolute [.index 7, .name ""] := by
  decide

end Path

end Narrative
