import Narrative.Proofs.Document
import Narrative.Proofs.SaveState

/-!
# What is stored of what was read

Many tokens stand for the same content: readers skip entries they do not know,
take defaults for those that are missing, and look at the first key that decides
a kind. Storing what was read picks one of these tokens, the same one whenever
the content is the same.
-/

namespace Narrative

/-- Storing an accepted value gives a token that is read as that value, with nothing lost or moved, and
that is therefore what the value is stored as from then on. -/
def StoresNormalForm {α : Type} (read : Json → Except DecodeError α) (store : α → Option Json)
    (token : Json) : Prop :=
  ∀ value, read token = .ok value →
    ∃ again, store value = some again ∧ read again = .ok value ∧
      ∀ later, read again = .ok later → store later = some again

theorem storesNormalForm_of_reread {α : Type} {read : Json → Except DecodeError α}
    {store : α → Option Json} {token : Json}
    (h : ∀ value, read token = .ok value →
      ∃ again, store value = some again ∧ read again = .ok value) :
    StoresNormalForm read store token := by
  intro value hread
  obtain ⟨again, hstore, hagain⟩ := h value hread
  refine ⟨again, hstore, hagain, fun later hlater => ?_⟩
  cases hagain.symm.trans hlater
  exact hstore

/-- Subtrees, documents and save states are stored in a normal form of the tokens they are read from.
A save state is an object with tables by name, where no name is repeated. -/
theorem stored_form_is_normal :
    (∀ token, StoresNormalForm Subtree.ofToken
      (fun subtree => subtree.tree.encode? subtree.id true) token) ∧
    (∀ token, StoresNormalForm Document.ofToken Document.encode? token) ∧
    (∀ token : Json, token.KeysDistinct →
      StoresNormalForm SaveState.ofToken SaveState.encode? token) :=
  ⟨fun _ => storesNormalForm_of_reread fun _ => Subtree.exists_reread,
    fun _ => storesNormalForm_of_reread fun _ => Document.exists_reread,
    fun _ hkeys => storesNormalForm_of_reread fun _ => SaveState.exists_reread hkeys⟩

/-- A save state with an entry that nobody reads, without the counts, and with a container whose name
is stated where it is not needed. -/
def redundantSave : Json :=
  .obj [("turnIdx", .int 3), ("storySeed", .int (-1)), ("currentChoices", .arr []),
    ("evalStack", .arr [.str "^\n", .obj [("c", .bool false), ("->", .str ".^.x"), ("*", .null)],
      .arr [.obj [("#f", .int 0), ("knot", .arr [.obj [("#n", .str "other")]])]]]),
    ("variablesState", .obj [("x", .int 2)]), ("extra", .null)]

theorem stored_form_is_normal_redundant :
    redundantSave.KeysDistinct ∧ (SaveState.ofToken redundantSave).toOption.isSome = true ∧
      StoresNormalForm SaveState.ofToken SaveState.encode? redundantSave := by
  have hkeys : redundantSave.KeysDistinct := by
    simp [redundantSave, Json.KeysDistinct, Json.KeysDistinctFields, Json.KeysDistinctItems,
      Dict.keys]
  exact ⟨hkeys, by decide, stored_form_is_normal.2.2 redundantSave hkeys⟩

end Narrative
