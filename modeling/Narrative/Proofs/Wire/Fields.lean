import Mathlib.Algebra.Group.Nat.Defs
import Narrative.Wire.Decoding

/-!
# Reading fields

When the readers of fields succeed, and with what. The errors that they report
otherwise are not the subject here.
-/

namespace Narrative

/-- A sequence of two readings succeeds when both do. -/
theorem exists_of_bind_eq_ok {ε α β : Type} {first : Except ε α} {next : α → Except ε β} {b : β}
    (h : (first >>= next) = .ok b) : ∃ a, first = .ok a ∧ next a = .ok b := by
  cases first with
  | error e => cases h
  | ok a => exact ⟨a, rfl, h⟩

theorem toOption_eq_some_iff {ε α : Type} {read : Except ε α} {a : α} :
    read.toOption = some a ↔ read = .ok a := by
  cases read <;> simp [Except.toOption]

namespace Wire

variable {fields : Dict Json} {field : String} {value : Json}

theorem asStr_eq_ok_iff {text : String} : asStr fields field value = .ok text ↔ value = .str text := by
  cases value <;> simp [asStr, Json.str?]

theorem asInt_eq_ok_iff {n : Int32} : asInt fields field value = .ok n ↔ value = .int n := by
  cases value <;> simp [asInt, Json.int?]

/-- A word is stored as a negative number from half its range on. -/
theorem toInt32_neg_iff (word : UInt32) : word.toInt32 < 0 ↔ 2 ^ 31 ≤ word.toNat := by
  have hint : word.toInt32.toInt = word.toBitVec.toInt := rfl
  have hnat : word.toBitVec.toNat = word.toNat := rfl
  have hbound := word.toNat_lt
  rw [Int32.lt_iff_toInt_lt, hint, BitVec.toInt_eq_toNat_cond, hnat, Int32.toInt_zero]
  split <;> omega

theorem asWord_eq_ok_iff {word : UInt32} :
    asWord fields field value = .ok word ↔ value = .int word.toInt32 ∧ word.toNat < 2 ^ 31 := by
  constructor
  · intro h
    obtain ⟨n, hn, h⟩ := exists_of_bind_eq_ok h
    split at h
    · cases h
    · next hneg =>
      obtain rfl : n.toUInt32 = word := Except.ok.inj h
      have hback := toInt32_neg_iff n.toUInt32
      rw [Int32.toInt32_toUInt32] at hback
      rw [Int32.toInt32_toUInt32]
      exact ⟨asInt_eq_ok_iff.mp hn, Nat.not_le.mp (fun hle => hneg (hback.mpr hle))⟩
  · rintro ⟨rfl, hword⟩
    have hneg : ¬ word.toInt32 < 0 := fun h => Nat.not_lt.mpr ((toInt32_neg_iff word).mp h) hword
    have hint : asInt fields field (.int word.toInt32) = .ok word.toInt32 := asInt_eq_ok_iff.mpr rfl
    simp only [asWord, hint, bind, Except.bind, if_neg hneg, UInt32.toUInt32_toInt32]

theorem optionalWord_eq_ok_iff {word : UInt32} :
    optionalWord fields field = .ok word ↔
      (Dict.get? fields field = none ∧ word = 0) ∨
        (Dict.get? fields field = some (.int word.toInt32) ∧ word.toNat < 2 ^ 31) := by
  rw [optionalWord]
  cases Dict.get? fields field with
  | none => simp [eq_comm]
  | some value => simp [asWord_eq_ok_iff]

/-- A word that is read is below half its range. -/
theorem optionalWord_lt {word : UInt32} (h : optionalWord fields field = .ok word) :
    word.toNat < 2 ^ 31 := by
  rcases optionalWord_eq_ok_iff.mp h with ⟨-, rfl⟩ | ⟨-, hword⟩
  · decide
  · exact hword

end Wire

namespace Decoding

/-- The container that a terminator describes: flags and name are read, and there are no children
yet. -/
theorem containerOf_eq_ok_iff {fields : Dict Json} {shell : Container} :
    containerOf fields = .ok shell ↔
      ∃ flags name, Wire.optionalWord fields Wire.flagsKey = .ok flags ∧
        Dict.get? fields Wire.nameKey = name.map Json.str ∧
        shell = { flags := ⟨flags⟩, name } := by
  constructor
  · intro h
    obtain ⟨flags, hflags, h⟩ := exists_of_bind_eq_ok h
    cases hname : Dict.get? fields Wire.nameKey with
    | none =>
      simp only [hname] at h
      exact ⟨flags, none, hflags, rfl, (Except.ok.inj h).symm⟩
    | some value =>
      simp only [hname] at h
      obtain ⟨name, hread, h⟩ := exists_of_bind_eq_ok h
      cases value with
      | str text =>
        obtain rfl : some text = name := Except.ok.inj hread
        exact ⟨flags, some text, hflags, rfl, (Except.ok.inj h).symm⟩
      | _ => cases hread
  · rintro ⟨flags, name, hflags, hname, rfl⟩
    cases name with
    | none => simp [containerOf, hflags, hname, bind, Except.bind]
    | some name =>
      simp only [containerOf, hflags, hname, Option.map_some, bind, Except.bind, Wire.asStr,
        Json.str?]
      rfl

end Decoding

end Narrative
