import Narrative.Proofs.Wire.RoundTrip
import Narrative.SaveState

/-!
# Save states, read back

When a save state is read, which nodes its tree then has, and that what is read is
stored as a token that is read as the same save state. Objects are taken to have
different keys, as in a table by key; a list of variables with a repeated name
would be stored with the last of its values only.
-/

namespace Narrative

namespace Json

mutual

/-- No object in the value repeats a key. -/
def KeysDistinct : Json → Prop
  | arr items => KeysDistinctItems items
  | obj fields => (Dict.keys fields).Nodup ∧ KeysDistinctFields fields
  | _ => True

def KeysDistinctItems : List Json → Prop
  | [] => True
  | item :: rest => KeysDistinct item ∧ KeysDistinctItems rest

def KeysDistinctFields : List (String × Json) → Prop
  | [] => True
  | (_, value) :: rest => KeysDistinct value ∧ KeysDistinctFields rest

end

theorem KeysDistinctFields.of_get? {fields : Dict Json} (h : KeysDistinctFields fields)
    {key : String} {value : Json} (hget : Dict.get? fields key = some value) :
    value.KeysDistinct := by
  induction fields with
  | nil => cases hget
  | cons entry rest ih =>
    rw [Dict.get?] at hget
    split at hget
    · cases hget
      exact h.1
    · exact ih h.2 hget

theorem int?_eq_some_iff {value : Json} {n : Int32} : value.int? = some n ↔ value = .int n := by
  cases value <;> simp [int?]

theorem arr?_eq_some_iff {value : Json} {items : List Json} :
    value.arr? = some items ↔ value = .arr items := by
  cases value <;> simp [arr?]

theorem obj?_eq_some_iff {value : Json} {fields : Dict Json} :
    value.obj? = some fields ↔ value = .obj fields := by
  cases value <;> simp [obj?]

end Json

/-! ## Named integers -/

namespace Wire

/-- The entries of named integers in an object. -/
def intFields (ints : List (String × Int32)) : Dict Json :=
  ints.map fun entry => (entry.1, .int entry.2)

theorem keys_intFields (ints : List (String × Int32)) :
    Dict.keys (intFields ints) = ints.map Prod.fst := by
  simp [Dict.keys, intFields]

theorem encodeInts_of_nodup {ints : List (String × Int32)} (h : (ints.map Prod.fst).Nodup) :
    encodeInts ints = .obj (intFields ints) := by
  rw [← keys_intFields] at h
  exact congrArg Json.obj (Dict.ofList_of_nodup h)

theorem decodeInts_eq_ok_iff {fields : Dict Json} {ints : List (String × Int32)} :
    decodeInts fields = .ok ints ↔ fields = intFields ints := by
  -- An error quotes all the fields, so these stay fixed along the list.
  have hall : ∀ (whole rest : Dict Json) (ints : List (String × Int32)),
      (rest.mapM fun entry => do
        let n ← asInt whole "value" entry.2
        .ok (entry.1, n)) = (.ok ints : Except DecodeError _) ↔ rest = intFields ints := by
    intro whole rest
    induction rest with
    | nil =>
      intro ints
      cases ints <;> simp [intFields, pure, Except.pure]
    | cons entry rest ih =>
      obtain ⟨name, value⟩ := entry
      intro ints
      rw [List.mapM_cons]
      constructor
      · intro h
        obtain ⟨pair, hpair, h⟩ := exists_of_bind_eq_ok h
        obtain ⟨n, hn, hpair⟩ := exists_of_bind_eq_ok hpair
        obtain ⟨others, hothers, h⟩ := exists_of_bind_eq_ok h
        cases hpair
        cases h
        obtain rfl : value = .int n := asInt_eq_ok_iff.mp hn
        rw [(ih others).mp hothers]
        rfl
      · intro h
        cases ints with
        | nil => cases h
        | cons int others =>
          cases h
          rw [(ih others).mpr rfl]
          rfl
  exact hall fields fields ints

end Wire

/-! ## Choices -/

namespace Choice

theorem ofToken_token {choice : Choice} (h : choice.target.Readable) :
    ofToken choice.token = .ok choice := by
  have hread : ofToken choice.token = .ok { choice with target := .parse choice.target.text } := rfl
  have htarget : Path.parse choice.target.text = choice.target := h
  rw [hread, htarget]

theorem readable_of_ofTokens {tokens : List Json} {choices : List Choice}
    (h : ofTokens tokens = .ok choices) : ∀ choice ∈ choices, choice.target.Readable := by
  induction tokens generalizing choices with
  | nil =>
    cases h
    simp
  | cons token rest ih =>
    obtain ⟨first, hfirst, h⟩ := exists_of_bind_eq_ok h
    obtain ⟨others, hothers, h⟩ := exists_of_bind_eq_ok h
    cases h
    cases token with
    | obj fields => exact List.forall_mem_cons.mpr ⟨Leaf.faithful_of_choice hfirst, ih hothers⟩
    | _ => cases hfirst

theorem ofTokens_map_token {choices : List Choice}
    (h : ∀ choice ∈ choices, choice.target.Readable) :
    ofTokens (choices.map token) = .ok choices := by
  induction choices with
  | nil => rfl
  | cons first rest ih =>
    obtain ⟨hfirst, hrest⟩ := List.forall_mem_cons.mp h
    rw [List.map_cons, ofTokens, ofToken_token hfirst, ih hrest]
    rfl

end Choice

/-! ## Steps of reading -/

namespace Decoding

theorem exists_of_bind_ofExcept {α β : Type} {read : Except DecodeError α} {next : α → Decoding β}
    {tree after : Tree} {b : β} (h : (ofExcept read >>= next) tree = .ok b after) :
    ∃ a, read = .ok a ∧ next a tree = .ok b after := by
  cases read with
  | error e => cases h
  | ok a => exact ⟨a, rfl, h⟩

theorem bind_ofExcept {α β : Type} {read : Except DecodeError α} {a : α} (h : read = .ok a)
    (next : α → Decoding β) (tree : Tree) : (ofExcept read >>= next) tree = next a tree := by
  rw [h]
  rfl

end Decoding

theorem Tree.namedOutlines?_zip {tree : Tree} {ids : List NodeId} {outlines : List Outline}
    (h : List.Forall₂ (fun id outline => tree.outline? id = some outline) ids outlines)
    (names : List String) : tree.namedOutlines? (names.zip ids) = some (names.zip outlines) := by
  refine mapM_eq_some_iff.mpr ?_
  induction h generalizing names with
  | nil => simp
  | cons hfirst _ ih =>
    cases names with
    | nil => simp
    | cons name names =>
      rw [List.zip_cons_cons, List.zip_cons_cons]
      exact .cons (by rw [hfirst]; rfl) (ih names)

theorem Outline.encodeItems_eq_map (items : List Outline) :
    encodeItems items = items.map (encode true) := by
  induction items with
  | nil => rfl
  | cons item rest ih => rw [encodeItems, ih, List.map_cons]

namespace SaveState

open Outline

theorem typed_eq_ok_iff {α : Type} {view : Json → Option α} {fields : Dict Json} {key : String}
    {a : α} :
    typed view fields key = .ok a ↔
      ∃ value, Dict.get? fields key = some value ∧ view value = some a := by
  rw [typed, field]
  cases Dict.get? fields key with
  | none => simp [bind, Except.bind]
  | some value => cases hview : view value <;> simp [bind, Except.bind, hview]

variable {fields : Dict Json} {key : String}

theorem typed_int_eq_ok_iff {n : Int32} :
    typed Json.int? fields key = .ok n ↔ Dict.get? fields key = some (.int n) := by
  simp [typed_eq_ok_iff, Json.int?_eq_some_iff]

theorem typed_arr_eq_ok_iff {items : List Json} :
    typed Json.arr? fields key = .ok items ↔ Dict.get? fields key = some (.arr items) := by
  simp [typed_eq_ok_iff, Json.arr?_eq_some_iff]

theorem typed_obj_eq_ok_iff {entries : Dict Json} :
    typed Json.obj? fields key = .ok entries ↔ Dict.get? fields key = some (.obj entries) := by
  simp [typed_eq_ok_iff, Json.obj?_eq_some_iff]

theorem counts_eq_ok_iff {ints : List (String × Int32)} :
    counts fields key = .ok ints ↔
      (Dict.get? fields key = none ∧ ints = []) ∨
        Dict.get? fields key = some (.obj (Wire.intFields ints)) := by
  rw [counts, Dict.contains]
  cases hget : Dict.get? fields key with
  | none => simp [eq_comm]
  | some value =>
    rw [if_pos (by rfl)]
    constructor
    · intro h
      obtain ⟨entries, hentries, h⟩ := exists_of_bind_eq_ok h
      cases hget.symm.trans (typed_obj_eq_ok_iff.mp hentries)
      exact Or.inr (by rw [Wire.decodeInts_eq_ok_iff.mp h])
    · rintro (⟨h, -⟩ | h)
      · cases h
      · cases h
        rw [typed_obj_eq_ok_iff.mpr hget]
        exact Wire.decodeInts_eq_ok_iff.mpr rfl

/-- A save state that is read from fields: where each part comes from, and which nodes are planted for
the stack and for the values of the variables. -/
structure ReadFrom (fields : Dict Json) (state : SaveState) (stack : List Outline)
    (variableTokens : Dict Json) (values : List Outline) : Prop where
  turn_eq : Dict.get? fields turnKey = some (.int state.turn)
  seed_eq : Dict.get? fields seedKey = some (.int state.seed)
  choices_eq : ∃ tokens, Dict.get? fields choicesKey = some (.arr tokens) ∧
    Choice.ofTokens tokens = .ok state.choices
  stack_eq : ∃ tokens, Dict.get? fields stackKey = some (.arr tokens) ∧
    tokens.mapM ofToken? = some stack
  variables_eq : Dict.get? fields variablesKey = some (.obj variableTokens)
  values_eq : (variableTokens.map Prod.snd).mapM ofToken? = some values
  visits_eq : counts fields visitsKey = .ok state.visits
  turns_eq : counts fields turnsKey = .ok state.turns
  tree_eq : state.tree =
    Tree.empty.extend (layoutItems none 0 stack ++ layoutItems none (sizeItems stack) values)
  places_eq : state.stack = places 0 stack
  bindings_eq : state.bindings =
    (variableTokens.map Prod.fst).zip (places (sizeItems stack) values)

theorem ofToken_obj (fields : Dict Json) :
    ofToken (.obj fields) =
      match ofFields fields .empty with
      | .ok state _ => .ok state
      | .error error _ => .error error := rfl

/-- Reading the fields of a save state into an empty tree. -/
theorem exists_readFrom {fields : Dict Json} {state : SaveState} {after : Tree}
    (h : ofFields fields .empty = .ok state after) :
    ∃ stack variableTokens values, ReadFrom fields state stack variableTokens values := by
  obtain ⟨turn, hturn, h⟩ := Decoding.exists_of_bind_ofExcept h
  obtain ⟨seed, hseed, h⟩ := Decoding.exists_of_bind_ofExcept h
  obtain ⟨choiceTokens, hchoiceTokens, h⟩ := Decoding.exists_of_bind_ofExcept h
  obtain ⟨choices, hchoices, h⟩ := Decoding.exists_of_bind_ofExcept h
  obtain ⟨stackTokens, hstackTokens, h⟩ := Decoding.exists_of_bind_ofExcept h
  obtain ⟨stack, mid, hstack, h⟩ := Step.exists_of_bind_ok h
  obtain ⟨variableTokens, hvariables, h⟩ := Decoding.exists_of_bind_ofExcept h
  obtain ⟨bindings, last, hbindings, h⟩ := Step.exists_of_bind_ok h
  obtain ⟨visits, hvisits, h⟩ := Decoding.exists_of_bind_ofExcept h
  obtain ⟨turns, hturns, h⟩ := Decoding.exists_of_bind_ofExcept h
  cases h
  rcases Decoding.readList_spec stackTokens .empty with ⟨outlines, houtlines, hspec⟩ | ⟨-, e, hspec⟩
  · cases hspec.symm.trans hstack
    rcases Decoding.readDict_spec variableTokens
        (Tree.empty.extend (layoutItems none 0 outlines)) with
      ⟨values, hvalues, hspec⟩ | ⟨-, e, hspec⟩
    · cases hspec.symm.trans hbindings
      have hsize : (Tree.empty.extend (layoutItems none 0 outlines)).size = sizeItems outlines := by
        rw [Tree.size_extend, length_layoutItems]
        exact Nat.zero_add _
      rw [hsize, Tree.extend_extend]
      exact ⟨outlines, variableTokens, values,
        { turn_eq := typed_int_eq_ok_iff.mp hturn
          seed_eq := typed_int_eq_ok_iff.mp hseed
          choices_eq := ⟨choiceTokens, typed_arr_eq_ok_iff.mp hchoiceTokens, hchoices⟩
          stack_eq := ⟨stackTokens, typed_arr_eq_ok_iff.mp hstackTokens, houtlines⟩
          variables_eq := typed_obj_eq_ok_iff.mp hvariables
          values_eq := hvalues
          visits_eq := hvisits
          turns_eq := hturns
          tree_eq := rfl
          places_eq := rfl
          bindings_eq := rfl }⟩
    · cases hspec.symm.trans hbindings
  · cases hspec.symm.trans hstack

theorem ReadFrom.ofToken_eq {fields : Dict Json} {state : SaveState} {stack : List Outline}
    {variableTokens : Dict Json} {values : List Outline}
    (h : ReadFrom fields state stack variableTokens values) :
    ofToken (.obj fields) = .ok state := by
  obtain ⟨choiceTokens, hchoiceTokens, hchoices⟩ := h.choices_eq
  obtain ⟨stackTokens, hstackTokens, hstack⟩ := h.stack_eq
  have hsize : (Tree.empty.extend (layoutItems none 0 stack)).size = sizeItems stack := by
    rw [Tree.size_extend, length_layoutItems]
    exact Nat.zero_add _
  have hreadStack : Decoding.readList stackTokens .empty =
      .ok (places 0 stack) (Tree.empty.extend (layoutItems none 0 stack)) := by
    rcases Decoding.readList_spec stackTokens .empty with ⟨outlines, hread, hspec⟩ | ⟨hnone, -⟩
    · cases hstack.symm.trans hread
      exact hspec
    · cases hstack.symm.trans hnone
  have hreadValues : Decoding.readDict variableTokens
      (Tree.empty.extend (layoutItems none 0 stack)) = .ok state.bindings state.tree := by
    rcases Decoding.readDict_spec variableTokens (Tree.empty.extend (layoutItems none 0 stack)) with
      ⟨outlines, hread, hspec⟩ | ⟨hnone, -⟩
    · cases h.values_eq.symm.trans hread
      rw [hspec, hsize, Tree.extend_extend, h.bindings_eq, h.tree_eq]
    · cases h.values_eq.symm.trans hnone
  have hfields : ofFields fields .empty = .ok state state.tree := by
    refine (Decoding.bind_ofExcept (typed_int_eq_ok_iff.mpr h.turn_eq) _ _).trans ?_
    refine (Decoding.bind_ofExcept (typed_int_eq_ok_iff.mpr h.seed_eq) _ _).trans ?_
    refine (Decoding.bind_ofExcept (typed_arr_eq_ok_iff.mpr hchoiceTokens) _ _).trans ?_
    refine (Decoding.bind_ofExcept hchoices _ _).trans ?_
    refine (Decoding.bind_ofExcept (typed_arr_eq_ok_iff.mpr hstackTokens) _ _).trans ?_
    refine (Step.bind_ok hreadStack).trans ?_
    refine (Decoding.bind_ofExcept (typed_obj_eq_ok_iff.mpr h.variables_eq) _ _).trans ?_
    refine (Step.bind_ok hreadValues).trans ?_
    refine (Decoding.bind_ofExcept h.visits_eq _ _).trans ?_
    refine (Decoding.bind_ofExcept h.turns_eq _ _).trans ?_
    rw [← h.places_eq]
    rfl
  rw [ofToken_obj, hfields]

/-! ## Storing what was read -/

namespace ReadFrom

variable {state : SaveState} {stack : List Outline} {variableTokens : Dict Json}
  {values : List Outline}

theorem carries (h : ReadFrom fields state stack variableTokens values) :
    state.tree.Carries 0 (layoutItems none 0 stack) ∧
      state.tree.Carries (sizeItems stack) (layoutItems none (sizeItems stack) values) := by
  have hall : state.tree.Carries 0
      (layoutItems none 0 stack ++ layoutItems none (sizeItems stack) values) :=
    h.tree_eq ▸ Tree.carries_extend [] _
  obtain ⟨hstack, hvalues⟩ := Tree.carries_append.mp hall
  rw [length_layoutItems, Nat.zero_add] at hvalues
  exact ⟨hstack, hvalues⟩

theorem size_tree (h : ReadFrom fields state stack variableTokens values) :
    state.tree.size = sizeItems stack + sizeItems values := by
  rw [h.tree_eq, Tree.size_extend, List.length_append, length_layoutItems, length_layoutItems]
  exact Nat.zero_add _

theorem outlines? (h : ReadFrom fields state stack variableTokens values) :
    state.tree.outlines? state.stack = some stack := by
  rw [h.places_eq]
  refine mapM_eq_some_iff.mpr (Tree.forall₂_places_of_carries h.carries.1 ?_)
  rw [h.size_tree]
  exact Nat.le_add_right _ _

/-- The values of the variables stand behind those of the stack. -/
theorem forall₂_values (h : ReadFrom fields state stack variableTokens values) :
    List.Forall₂ (fun place outline => state.tree.outline? place = some outline)
      (places (sizeItems stack) values) values := by
  refine Tree.forall₂_places_of_carries h.carries.2 ?_
  rw [h.size_tree]
  exact Nat.le_add_left _ _

theorem namedOutlines? (h : ReadFrom fields state stack variableTokens values) :
    state.tree.namedOutlines? state.bindings =
      some ((variableTokens.map Prod.fst).zip values) := by
  rw [h.bindings_eq]
  exact Tree.namedOutlines?_zip h.forall₂_values _

theorem length_values (h : ReadFrom fields state stack variableTokens values) :
    (variableTokens.map Prod.fst).length = (encodeItems values).length := by
  have hlength := (mapM_eq_some_iff.mp h.values_eq).length_eq
  simpa [encodeItems_eq_map] using hlength

theorem keys_zip (h : ReadFrom fields state stack variableTokens values) :
    Dict.keys ((variableTokens.map Prod.fst).zip (encodeItems values)) = Dict.keys variableTokens :=
  List.map_fst_zip (Nat.le_of_eq h.length_values)

/-- The entries that the variables are stored as. -/
theorem encodeDict? (h : ReadFrom fields state stack variableTokens values)
    (hkeys : (Dict.keys variableTokens).Nodup) :
    state.tree.encodeDict? state.bindings =
      some (.obj ((variableTokens.map Prod.fst).zip (encodeItems values))) := by
  have hzip : ((variableTokens.map Prod.fst).zip values).map
      (fun entry => (entry.1, entry.2.encode true)) =
        (variableTokens.map Prod.fst).zip (encodeItems values) := by
    rw [encodeItems_eq_map, List.zip_map_right]
    rfl
  rw [Tree.encodeDict?, h.namedOutlines?, Option.map_some, hzip,
    Dict.ofList_of_nodup (h.keys_zip ▸ hkeys)]

end ReadFrom

theorem names_nodup_of_counts {ints : List (String × Int32)}
    (hfields : Json.KeysDistinctFields fields) (h : counts fields key = .ok ints) :
    (ints.map Prod.fst).Nodup := by
  rcases counts_eq_ok_iff.mp h with ⟨-, rfl⟩ | hget
  · simp
  · have hvalue := hfields.of_get? hget
    rw [← Wire.keys_intFields]
    exact hvalue.1

/-- What a part of a list of tokens stands for is stored as tokens that stand for the same. -/
theorem mapM_encodeItems_of_read {tokens : List Json} {outlines : List Outline}
    (h : tokens.mapM ofToken? = some outlines) :
    (encodeItems outlines).mapM ofToken? = some outlines := by
  refine mapM_eq_some_iff.mpr ?_
  rw [encodeItems_eq_map, List.forall₂_map_left_iff, List.forall₂_same]
  intro outline hmem
  obtain ⟨token, -, hread⟩ := exists_of_forall₂_right (mapM_eq_some_iff.mp h) hmem
  exact ofToken?_encode_of_read hread

/-- The fields of a save state when its lists of names have no repetitions. -/
def storedFields (state : SaveState) (stack : List Outline) (variableTokens : Dict Json)
    (values : List Outline) : Dict Json :=
  [(turnKey, .int state.turn), (seedKey, .int state.seed),
    (choicesKey, .arr (state.choices.map Choice.token)), (stackKey, .arr (encodeItems stack)),
    (variablesKey, .obj ((variableTokens.map Prod.fst).zip (encodeItems values))),
    (visitsKey, .obj (Wire.intFields state.visits)),
    (turnsKey, .obj (Wire.intFields state.turns))]

/-- A save state that was read is stored as a token that is read as the same save state. -/
theorem exists_reread {token : Json} {state : SaveState} (hkeys : token.KeysDistinct)
    (h : ofToken token = .ok state) :
    ∃ again, state.encode? = some again ∧ ofToken again = .ok state := by
  cases token with
  | obj fields =>
    obtain ⟨-, hfields⟩ := hkeys
    obtain ⟨stack, variableTokens, values, hread⟩ : ∃ stack variableTokens values,
        ReadFrom fields state stack variableTokens values := by
      rw [ofToken_obj] at h
      cases hrun : ofFields fields .empty with
      | error e after => simp [hrun] at h
      | ok found after =>
        simp only [hrun] at h
        cases h
        exact exists_readFrom hrun
    obtain ⟨choiceTokens, -, hchoices⟩ := hread.choices_eq
    obtain ⟨stackTokens, -, hstack⟩ := hread.stack_eq
    have hvariables : (Dict.keys variableTokens).Nodup := (hfields.of_get? hread.variables_eq).1
    have hagain : ReadFrom (storedFields state stack variableTokens values) state stack
        ((variableTokens.map Prod.fst).zip (encodeItems values)) values :=
      { turn_eq := rfl
        seed_eq := rfl
        choices_eq := ⟨_, rfl, Choice.ofTokens_map_token (Choice.readable_of_ofTokens hchoices)⟩
        stack_eq := ⟨_, rfl, mapM_encodeItems_of_read hstack⟩
        variables_eq := rfl
        values_eq := by
          rw [List.map_snd_zip (Nat.le_of_eq hread.length_values.symm)]
          exact mapM_encodeItems_of_read hread.values_eq
        visits_eq := counts_eq_ok_iff.mpr (Or.inr rfl)
        turns_eq := counts_eq_ok_iff.mpr (Or.inr rfl)
        tree_eq := hread.tree_eq
        places_eq := hread.places_eq
        bindings_eq := by
          rw [List.map_fst_zip (Nat.le_of_eq hread.length_values)]
          exact hread.bindings_eq }
    refine ⟨.obj (storedFields state stack variableTokens values), ?_, hagain.ofToken_eq⟩
    rw [encode?, Tree.encodeList?, hread.outlines?, hread.encodeDict? hvariables,
      Wire.encodeInts_of_nodup (names_nodup_of_counts hfields hread.visits_eq),
      Wire.encodeInts_of_nodup (names_nodup_of_counts hfields hread.turns_eq)]
    rfl
  | _ => cases h

end SaveState

end Narrative
