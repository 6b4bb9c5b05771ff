import Narrative.Proofs.Dict
import Narrative.Proofs.Json.ReadingBack

/-!
# Values that their texts keep

A value without floats whose strings and keys have no character that writing leaves
out, and whose objects repeat no key, is read back from its text unchanged, unless it
nests too deep.
-/

namespace Narrative.Json

/-- No character below U+0020 but newlines and tabs. -/
def Printable (text : String) : Prop := ∀ c ∈ text.toList, c < ' ' → c = '\n' ∨ c = '\t'

instance (text : String) : Decidable (Printable text) :=
  List.decidableBAll (fun c => c < ' ' → c = '\n' ∨ c = '\t') text.toList

namespace Printable

theorem append {first second : String} (hfirst : Printable first) (hsecond : Printable second) :
    Printable (first ++ second) := by
  intro c hc
  rw [String.toList_append] at hc
  rcases List.mem_append.mp hc with hc | hc
  · exact hfirst c hc
  · exact hsecond c hc

theorem cleanText_eq {text : String} (h : Printable text) : cleanText text = text := by
  have hkept : ∀ c ∈ text.toList, isKept c = true := by
    intro c hc
    by_cases hcontrol : c < ' '
    · rcases h c hc hcontrol with rfl | rfl <;> rfl
    · simp [isKept, hcontrol]
  rw [cleanText, List.filter_eq_self.mpr hkept, String.ofList_toList]

end Printable

/-- A value that its text keeps if it does not nest too deep. -/
structure Kept (token : Json) : Prop where
  floatFree : token.isFloatFree = true
  clean_eq : token.clean = token

theorem kept_null : null.Kept := ⟨rfl, rfl⟩

theorem kept_bool (value : Bool) : (bool value).Kept := ⟨rfl, rfl⟩

theorem kept_int (value : Int32) : (int value).Kept := ⟨rfl, rfl⟩

theorem kept_str {text : String} (h : Printable text) : (str text).Kept :=
  ⟨rfl, congrArg str h.cleanText_eq⟩

theorem kept_arr {items : List Json} (h : ∀ item ∈ items, item.Kept) : (arr items).Kept := by
  have hall : areFloatFree items = true ∧ cleanItems items = items := by
    induction items with
    | nil => exact ⟨rfl, rfl⟩
    | cons item rest ih =>
      obtain ⟨hitem, hrest⟩ := List.forall_mem_cons.mp h
      obtain ⟨hfree, hclean⟩ := ih hrest
      rw [areFloatFree, cleanItems, hitem.floatFree, hfree, hitem.clean_eq, hclean]
      exact ⟨rfl, rfl⟩
  exact ⟨hall.1, congrArg arr hall.2⟩

theorem kept_obj {fields : Dict Json} (hkeys : (Dict.keys fields).Nodup)
    (h : ∀ field ∈ fields, Printable field.1 ∧ field.2.Kept) : (obj fields).Kept := by
  have hall : areFieldsFloatFree fields = true ∧ cleanFields fields = fields := by
    clear hkeys
    induction fields with
    | nil => exact ⟨rfl, rfl⟩
    | cons field rest ih =>
      obtain ⟨⟨hkey, hitem⟩, hrest⟩ := List.forall_mem_cons.mp h
      obtain ⟨hfree, hclean⟩ := ih hrest
      rw [areFieldsFloatFree, cleanFields, hitem.floatFree, hfree, hitem.clean_eq, hclean,
        hkey.cleanText_eq]
      exact ⟨rfl, rfl⟩
  refine ⟨hall.1, ?_⟩
  rw [clean, hall.2, Dict.ofList_of_nodup hkeys]

/-- A value that its text keeps is read back from it. -/
theorem Kept.parse_text {token : Json} (h : token.Kept) (hdepth : token.nesting ≤ depthLimit) :
    parse token.text = .ok token := by
  rw [Json.parse_text, reread?_of_floatFree h.floatFree hdepth, h.clean_eq]
  rfl

end Narrative.Json
