import Narrative.Proofs.Dict
import Narrative.Proofs.Json.ReadingBack
import Narrative.Proofs.Wire.Fields

/-!
# How deep a text nests

What is read under a limit on the depth nests no deeper than the limit, whatever
else the text holds. A value under a repeated key is gone, so only an upper bound
on the depth is told.
-/

namespace Narrative.Json

theorem nestingItems_le_iff {items : List Json} {depth : Nat} :
    nestingItems items ≤ depth ↔ ∀ item ∈ items, item.nesting ≤ depth := by
  induction items with
  | nil => simp [nestingItems]
  | cons item rest ih => rw [nestingItems, Nat.max_le, ih, List.forall_mem_cons]

theorem nestingFields_le_iff {fields : List (String × Json)} {depth : Nat} :
    nestingFields fields ≤ depth ↔ ∀ field ∈ fields, field.2.nesting ≤ depth := by
  induction fields with
  | nil => simp [nestingFields]
  | cons field rest ih => rw [nestingFields, Nat.max_le, ih, List.forall_mem_cons]

/-- Every value that is read nests at most so deep. -/
def ReadsWithin (depth : Nat) (reader : ValueReader) : Prop :=
  ∀ ⦃input value rest⦄, reader input = .ok (value, rest) → value.nesting ≤ depth

/-! ## Numbers -/

namespace Numeral

variable {negative : Bool} {significand : Nat} {exponent : Int} {input rest : Octets} {value : Json}

theorem nesting_ofFloat (h : ofFloat negative significand exponent = .ok value) :
    value.nesting = 0 := by
  rw [ofFloat] at h
  split at h
  · cases h
    rfl
  · cases h

theorem nesting_ofInteger (h : ofInteger negative significand = .ok value) : value.nesting = 0 := by
  rw [ofInteger] at h
  split at h
  · split at h
    · exact nesting_ofFloat h
    · split at h
      · cases h
        rfl
      · cases h
  · split at h
    · cases h
      rfl
    · cases h

theorem nesting_withExponent
    (h : withExponent negative significand exponent input = .ok (value, rest)) :
    value.nesting = 0 := by
  unfold withExponent at h
  split at h
  · split at h
    · obtain ⟨⟨shift, after⟩, -, h⟩ := exists_of_bind_eq_ok h
      obtain ⟨found, hfound, h⟩ := exists_of_bind_eq_ok h
      cases h
      exact nesting_ofFloat hfound
    · obtain ⟨found, hfound, h⟩ := exists_of_bind_eq_ok h
      cases h
      exact nesting_ofFloat hfound
  · obtain ⟨found, hfound, h⟩ := exists_of_bind_eq_ok h
    cases h
    exact nesting_ofFloat hfound

theorem nesting_read (h : read negative input = .ok (value, rest)) : value.nesting = 0 := by
  obtain ⟨⟨whole, after⟩, -, h⟩ := exists_of_bind_eq_ok h
  dsimp only at h
  split at h
  · split at h
    · obtain ⟨⟨fraction, after⟩, -, h⟩ := exists_of_bind_eq_ok h
      exact nesting_withExponent h
    · split at h
      · exact nesting_withExponent h
      · obtain ⟨found, hfound, h⟩ := exists_of_bind_eq_ok h
        cases h
        exact nesting_ofInteger hfound
  · split at h
    · obtain ⟨found, hfound, h⟩ := exists_of_bind_eq_ok h
      cases h
      exact nesting_ofInteger hfound
    · exact nesting_withExponent h

end Numeral

/-! ## Values -/

namespace ReadsWithin

variable {depth : Nat} {reader : ValueReader}

theorem nesting_items (h : ReadsWithin depth reader) {fuel : Nat} {input rest : Octets}
    {values : List Json} (hread : readItems reader fuel input = .ok (values, rest)) :
    ∀ value ∈ values, value.nesting ≤ depth := by
  induction fuel generalizing input values with
  | zero => cases hread
  | succ fuel ih =>
    obtain ⟨⟨first, after⟩, hfirst, hread⟩ := exists_of_bind_eq_ok hread
    dsimp only at hread
    split at hread
    · cases hread
    · split at hread
      · obtain ⟨⟨others, last⟩, hothers, hread⟩ := exists_of_bind_eq_ok hread
        cases hread
        exact List.forall_mem_cons.mpr ⟨h hfirst, ih hothers⟩
      · split at hread
        · cases hread
          exact List.forall_mem_singleton.mpr (h hfirst)
        · cases hread

theorem nesting_entries (h : ReadsWithin depth reader) {fuel : Nat} {input rest : Octets}
    {entries : List (String × Json)} (hread : readEntries reader fuel input = .ok (entries, rest)) :
    ∀ entry ∈ entries, entry.2.nesting ≤ depth := by
  induction fuel generalizing input entries with
  | zero => cases hread
  | succ fuel ih =>
    obtain ⟨⟨key, colon⟩, -, hread⟩ := exists_of_bind_eq_ok hread
    obtain ⟨⟨first, after⟩, hfirst, hread⟩ := exists_of_bind_eq_ok hread
    dsimp only at hread
    split at hread
    · cases hread
    · split at hread
      · obtain ⟨⟨others, last⟩, hothers, hread⟩ := exists_of_bind_eq_ok hread
        cases hread
        exact List.forall_mem_cons.mpr ⟨h hfirst, ih hothers⟩
      · split at hread
        · cases hread
          exact List.forall_mem_singleton.mpr (h hfirst)
        · cases hread

theorem readArray (h : ReadsWithin depth reader) : ReadsWithin (depth + 1) (readArray reader) := by
  intro input value rest hread
  rw [Json.readArray] at hread
  split at hread
  · cases hread
  · split at hread
    · cases hread
      exact Nat.le_add_left 1 depth
    · obtain ⟨⟨values, last⟩, hvalues, hread⟩ := exists_of_bind_eq_ok hread
      cases hread
      exact Nat.succ_le_succ (nestingItems_le_iff.mpr (h.nesting_items hvalues))

theorem readObject (h : ReadsWithin depth reader) : ReadsWithin (depth + 1) (readObject reader) := by
  intro input value rest hread
  rw [Json.readObject] at hread
  split at hread
  · cases hread
  · split at hread
    · cases hread
      exact Nat.le_add_left 1 depth
    · obtain ⟨⟨entries, last⟩, hentries, hread⟩ := exists_of_bind_eq_ok hread
      cases hread
      refine Nat.succ_le_succ (nestingFields_le_iff.mpr fun field hfield => ?_)
      exact h.nesting_entries hentries field (Dict.mem_of_mem_ofList hfield)

/-- All but arrays and objects nests not at all. -/
theorem readFrom {array object : ValueReader} (harray : ReadsWithin depth array)
    (hobject : ReadsWithin depth object) (b : UInt8) :
    ReadsWithin depth (readFrom array object b) := by
  intro input value rest hread
  rw [Json.readFrom] at hread
  split at hread
  · obtain ⟨⟨text, last⟩, -, hread⟩ := exists_of_bind_eq_ok hread
    cases hread
    exact Nat.zero_le _
  split at hread
  · exact harray hread
  split at hread
  · exact hobject hread
  split at hread
  · rw [Numeral.nesting_read hread]
    exact Nat.zero_le _
  split at hread
  · rw [Numeral.nesting_read hread]
    exact Nat.zero_le _
  iterate 3
    split at hread
    · obtain ⟨last, -, hread⟩ := exists_of_bind_eq_ok hread
      cases hread
      exact Nat.zero_le _
  cases hread

end ReadsWithin

theorem readsWithin_readValue (depth : Nat) : ReadsWithin depth (readValue depth) := by
  induction depth with
  | zero =>
    intro input value rest hread
    rw [readValue] at hread
    split at hread
    · cases hread
    · refine ReadsWithin.readFrom ?_ ?_ _ hread <;>
      · intro _ _ _ hnone
        cases hnone
  | succ depth ih =>
    intro input value rest hread
    rw [readValue] at hread
    split at hread
    · cases hread
    · exact ih.readArray.readFrom ih.readObject _ hread

/-- What a text is read as nests no deeper than the limit. -/
theorem nesting_le_of_parse {text : String} {value : Json} (h : parse text = .ok value) :
    value.nesting ≤ depthLimit := by
  rw [parse, ofOctets] at h
  obtain ⟨⟨first, rest⟩, hfirst, h⟩ := exists_of_bind_eq_ok h
  dsimp only at h
  split at h
  · cases h
    exact readsWithin_readValue depthLimit hfirst
  · cases h

end Narrative.Json
