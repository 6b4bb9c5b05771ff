import Narrative.Proofs.Wire.Legible
import Narrative.Tool.Report

/-!
# Stories that are read, written and read again

A story whose text is legible is written as a text that is read as the same story,
however the first text was laid out: with keys that mean nothing, with repeated
keys, or with names that are told twice. The second text never nests deeper than
the first one.
-/

namespace Narrative

open Json

/-- No child is listed under a key of the terminator where the outline is faithful. -/
theorem Tree.WellFormed.clear_of_faithful {tree : Tree} (h : tree.WellFormed) {id : NodeId}
    {outline : Outline} (hout : tree.outline? id = some outline) (hfaithful : outline.Faithful) :
    tree.Clear id := by
  refine ⟨lt_size_of_outline? hout, fun d c hwithin hc e he => ?_⟩
  obtain ⟨inner, hinner⟩ := h.exists_outline? (tree.lt_size_of_container? hc)
  have htop := (h.everywhere_iff hout).mp hfaithful d hwithin inner hinner
  obtain ⟨content, named, hshows, rfl⟩ := outline?_container hc hinner
  obtain ⟨pair, hpair, hname, -⟩ := exists_of_forall₂_left hshows.named he
  obtain ⟨hflags, hown⟩ := htop.2 pair hpair
  rw [hname]
  exact ⟨fun hboth => hflags hboth.1, fun hboth => hown hboth.1⟩

namespace Document

/-- A document that was read from a legible token is stored as a token that its text keeps, that
nests no deeper and that is read as the same document. -/
theorem exists_kept {token : Json} {document : Document} (hlegible : token.isLegible = true)
    (h : ofToken token = .ok document) :
    ∃ stored, document.encode? = some stored ∧ ofToken stored = .ok document ∧ stored.Kept ∧
      stored.nesting ≤ token.nesting ∧ document.streamed? = some stored.text ∧
      document.sameContent document = true := by
  obtain ⟨stored, hstored, hreread⟩ := exists_reread h
  obtain ⟨fields, root, rfl, -, hroot, hsubtree, -⟩ := ofToken_eq_ok_iff.mp h
  obtain ⟨outline, hread, hplace⟩ := Subtree.ofToken_eq_ok_iff.mp hsubtree
  obtain ⟨hwell, hout⟩ : document.tree.WellFormed ∧
      document.tree.outline? document.root = some outline := by
    injection hplace with htree hplace
    rw [htree, hplace]
    exact Subtree.wellFormed_of_ofToken hread
  have hfaithful := Outline.Faithful.of_ofToken? hread
  have hmem := Dict.mem_of_get? hroot
  have hkept : outline.Everywhere Outline.KeptTop :=
    Outline.keptTop_of_isLegible (isLegible_obj.mp hlegible _ hmem).2 hread
  have hclear := hwell.clear_of_faithful hout hfaithful
  obtain ⟨written, hwritten, hstream⟩ := exists_stream? hwell hclear
  cases hstored.symm.trans hwritten
  obtain rfl : .obj [(versionKey, .int document.version), (rootKey, outline.encode true)] =
      stored := by
    rw [encode?, Tree.encode?, hout] at hstored
    exact Option.some.inj hstored
  refine ⟨_, hstored, hreread, ?_, ?_, ?_, ?_⟩
  · have hkeys : Printable versionKey ∧ Printable rootKey := by decide
    have hitem := Outline.kept_encode (Outline.WellNamed.of_ofToken? hread) hfaithful hkept true
    refine kept_obj (by simp [Dict.keys, versionKey, rootKey]) ?_
    simp [hkeys, hitem, kept_int]
  · have hdeep := nestingFields_le_iff.mp (Nat.le_refl (nestingFields fields)) _ hmem
    have hitem := Nat.le_trans (Outline.nesting_encode_le hread true) hdeep
    exact Nat.succ_le_succ (by simpa [nestingFields, nesting] using hitem)
  · rw [streamed?, hstream]
    rfl
  · have hnumbers : outline.Everywhere Outline.NotNaNTop := by
      refine (hwell.everywhere_iff hout).mpr fun d hd inner hinner => ?_
      have htop := (hwell.everywhere_iff hout).mp hkept d hd inner hinner
      cases inner with
      | leaf l => exact Leaf.notNaN_of_kept htop
      | container => trivial
    exact Tree.sameStructure_of_outline? hwell hwell hout hout hnumbers

end Document

namespace Tool.Roundtrip

/-- The round trip of a story that is written as a text which is read again. -/
theorem ofText_eq_ok {text written : String} {document restored : Document}
    (hread : Document.ofText text = .ok document) (hwritten : document.streamed? = some written)
    (hreread : Document.ofText written = .ok restored) :
    ofText text = .ok { document, written, restored, reread := hreread } := by
  have hgetD : document.streamed?.getD "" = written := by rw [hwritten, Option.getD_some]
  subst hgetD
  rw [ofText, hread]
  simp only [bind, Except.bind]
  split
  · next other hother =>
    cases hother.symm.trans hreread
    rfl
  · next error herror => cases herror.symm.trans hreread

/-- A story with a legible text goes through the round trip: nothing fails, what is written is read
as the story that is restored, that story is the same, and it is written as the same text, which
nests no deeper than the first one. -/
theorem legible_story_survives {text : String} {document : Document}
    (hread : Document.ofText text = .ok document)
    (hlegible : ∀ token, Json.parse text = .ok token → token.isLegible = true) :
    ∃ roundtrip, ofText text = .ok roundtrip ∧ (roundtrip.report text).isSame = true ∧
      roundtrip.document = document ∧
      document.streamed? = some roundtrip.written ∧
      Document.ofText roundtrip.written = .ok roundtrip.restored ∧
      roundtrip.restored.streamed? = some roundtrip.written ∧
      ∀ token again, Json.parse text = .ok token → Json.parse roundtrip.written = .ok again →
        again.nesting ≤ token.nesting := by
  cases htoken : Json.parse text with
  | error e => simp [Document.ofText, htoken] at hread
  | ok token =>
    have hdocument : Document.ofToken token = .ok document := by
      simpa [Document.ofText, htoken] using hread
    obtain ⟨stored, hencode, hreread, hkept, hdepth, hstream, hsame⟩ :=
      Document.exists_kept (hlegible token htoken) hdocument
    have hparse : Json.parse stored.text = .ok stored :=
      hkept.parse_text (Nat.le_trans hdepth (nesting_le_of_parse htoken))
    have hrestored : Document.ofText stored.text = .ok document := by
      rw [Document.ofText, hparse]
      exact hreread
    refine ⟨_, ofText_eq_ok hread hstream hrestored, hsame, rfl, hstream, hrestored, hstream, ?_⟩
    intro token' again hagain hwritten
    cases hagain
    cases hparse.symm.trans hwritten
    exact hdepth

/-- A story of the oldest version with keys that mean nothing, a count of flags that is told twice, and
a knot that states a name other than the one it is listed under. -/
def redundantText : String :=
  "\x7b\"note\":[true],\"inkVersion\":11,\"root\":[\"^Hi\",\x7b\"->\":\"knot\",\"extra\":null\x7d,"
    ++ "\"done\",\x7b\"knot\":[\"^Deep\",\x7b\"#n\":\"other\",\"#f\":1,\"#f\":3\x7d],"
    ++ "\"#n\":\"top\"\x7d]\x7d"

theorem legible_story_survives_redundant :
    ∃ document roundtrip, Document.ofText redundantText = .ok document ∧
      ofText redundantText = .ok roundtrip ∧ (roundtrip.report redundantText).isSame = true ∧
      document.streamed? = some roundtrip.written ∧
      Document.ofText roundtrip.written = .ok roundtrip.restored ∧
      roundtrip.restored.streamed? = some roundtrip.written := by
  have hread : (Document.ofText redundantText).toOption.isSome := by decide +kernel
  have hlegible : (Json.parse redundantText).toOption.all Json.isLegible = true := by
    decide +kernel
  obtain ⟨document, hdocument⟩ := Option.isSome_iff_exists.mp hread
  rw [toOption_eq_some_iff] at hdocument
  obtain ⟨roundtrip, hroundtrip, hsame, -, hwritten, hrestored, hstream, -⟩ :=
    legible_story_survives hdocument fun token htoken => by
      rw [htoken] at hlegible
      exact hlegible
  exact ⟨document, roundtrip, hdocument, hroundtrip, hsame, hwritten, hrestored, hstream⟩

end Tool.Roundtrip

end Narrative
