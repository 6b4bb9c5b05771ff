import Narrative.Document
import Narrative.Proofs.Wire.RoundTrip

/-!
# Documents, read back

When a document is read, and that what is read is stored as a token that is read
as the same document.
-/

namespace Narrative.Document

theorem versionOf_eq_ok_iff {token : Json} {fields : Dict Json} {version : Int32} :
    versionOf token fields = .ok version ↔
      Dict.get? fields versionKey = some (.int version) ∧ ¬ currentVersion < version ∧
        ¬ version < minimumVersion := by
  constructor
  · intro h
    rw [versionOf] at h
    split at h
    · cases h
    · next n hget =>
      split at h
      · cases h
      · next hnew =>
        split at h
        · cases h
        · next hold =>
          cases h
          exact ⟨hget, hnew, hold⟩
    · cases h
  · rintro ⟨hget, hnew, hold⟩
    simp only [versionOf, hget, if_neg hnew, if_neg hold]

theorem ofToken_eq_ok_iff {token : Json} {document : Document} :
    ofToken token = .ok document ↔
      ∃ fields root, token = .obj fields ∧
        versionOf token fields = .ok document.version ∧
        Dict.get? fields rootKey = some root ∧
        Subtree.ofToken root = .ok ⟨document.tree, document.root⟩ ∧
        (document.tree.container? document.root).isSome := by
  constructor
  · intro h
    cases token with
    | obj fields =>
      obtain ⟨version, hversion, h⟩ := exists_of_bind_eq_ok h
      cases hroot : Dict.get? fields rootKey with
      | none => simp [hroot] at h
      | some root =>
        simp only [hroot] at h
        obtain ⟨subtree, hsubtree, h⟩ := exists_of_bind_eq_ok h
        split at h
        · next hcontainer =>
          cases h
          exact ⟨fields, root, rfl, hversion, hroot, hsubtree, hcontainer⟩
        · cases h
    | _ => cases h
  · rintro ⟨fields, root, rfl, hversion, hroot, hsubtree, hcontainer⟩
    simp only [ofToken, Json.obj?, hversion, hroot, hsubtree, bind, Except.bind, if_pos hcontainer]

/-- A document that was read is stored as a token that is read as the same document. -/
theorem exists_reread {token : Json} {document : Document} (h : ofToken token = .ok document) :
    ∃ again, document.encode? = some again ∧ ofToken again = .ok document := by
  obtain ⟨fields, root, -, hversion, -, hroot, hcontainer⟩ := ofToken_eq_ok_iff.mp h
  obtain ⟨item, hencode, hread⟩ := Subtree.exists_reread hroot
  refine ⟨.obj [(versionKey, .int document.version), (rootKey, item)], ?_, ?_⟩
  · rw [encode?]
    rw [hencode]
    rfl
  · refine ofToken_eq_ok_iff.mpr ⟨_, item, rfl, ?_, rfl, hread, hcontainer⟩
    exact versionOf_eq_ok_iff.mpr ⟨rfl, (versionOf_eq_ok_iff.mp hversion).2⟩

end Narrative.Document
