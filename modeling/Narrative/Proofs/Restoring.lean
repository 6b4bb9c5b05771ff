import Narrative.Proofs.SaveState
import Narrative.Proofs.Tree.SameOutline

/-!
# Save states, restored

What is left of a save state that is stored and read again. Its values are stored
one by one, also when one of them lies within another or occurs twice, and read
one after the other into one new tree. Names that are given twice are joined when
the save state is stored.
-/

namespace Narrative

namespace Tree

open Outline

variable {tree : Tree} {id : NodeId}

/-- The token of the subtree at a node is read as a subtree of the same structure. -/
def readsBack (tree : Tree) (id : NodeId) : Bool :=
  match (tree.encode? id true).map Subtree.ofToken with
  | some (.ok copy) => tree.sameStructure id copy.tree copy.id
  | _ => false

theorem readsBack_iff :
    tree.readsBack id = true ↔
      ∃ token image, tree.encode? id true = some token ∧ ofToken? token = some image ∧
        tree.sameStructure id (Tree.empty.extend (image.layout none 0)) 0 = true := by
  rw [readsBack]
  cases tree.encode? id true with
  | none => simp
  | some token =>
    cases hcopy : Subtree.ofToken token with
    | error e =>
      have hnone : ∀ image, ofToken? token ≠ some image := fun image hread => by
        cases hcopy.symm.trans (Subtree.ofToken_eq_ok_iff.mpr ⟨image, hread, rfl⟩)
      simp [hcopy, hnone]
    | ok copy =>
      obtain ⟨image, hread, rfl⟩ := Subtree.ofToken_eq_ok_iff.mp hcopy
      simp [hcopy, hread]

/-- The token of a subtree that reads back. -/
structure StoredAs (tree : Tree) (id : NodeId) (token : Json) : Prop where
  readsBack : tree.readsBack id = true
  encode?_eq : tree.encode? id true = some token

theorem exists_storedAs (h : tree.readsBack id = true) : ∃ token, tree.StoredAs id token := by
  obtain ⟨token, -, htoken, -, -⟩ := readsBack_iff.mp h
  exact ⟨token, h, htoken⟩

namespace StoredAs

variable {token : Json} {image : Outline}

theorem exists_image (h : tree.StoredAs id token) : ∃ image, ofToken? token = some image := by
  obtain ⟨found, image, hfound, himage, -⟩ := readsBack_iff.mp h.readsBack
  cases hfound.symm.trans h.encode?_eq
  exact ⟨image, himage⟩

/-- Wherever the image of a subtree is planted, it has the structure of the subtree. -/
theorem sameStructure (h : tree.StoredAs id token) (himage : ofToken? token = some image)
    {other : Tree} (hother : other.WellFormed) {place : NodeId}
    (hplace : other.outline? place = some image) : tree.sameStructure id other place = true := by
  obtain ⟨found, first, hfound, hfirst, hsame⟩ := readsBack_iff.mp h.readsBack
  cases hfound.symm.trans h.encode?_eq
  cases hfirst.symm.trans himage
  obtain ⟨hcopy, hout⟩ := Subtree.wellFormed_of_ofToken himage
  exact SameOutline.sameWithin hcopy hother ⟨image, hout, hplace⟩ hsame

end StoredAs

theorem exists_images {ids : List NodeId} {tokens : List Json}
    (h : List.Forall₂ tree.StoredAs ids tokens) :
    ∃ images, tokens.mapM ofToken? = some images := by
  obtain ⟨images, himages⟩ : ∃ images,
      List.Forall₂ (fun token image => ofToken? token = some image) tokens images := by
    refine exists_forall₂ fun token htoken => ?_
    obtain ⟨id, -, hstored⟩ := exists_of_forall₂_right h htoken
    exact hstored.exists_image
  exact ⟨images, mapM_eq_some_iff.mpr himages⟩

/-- Wherever the images of several subtrees are planted, they have the structure of the subtrees. -/
theorem forall₂_sameStructure {ids places : List NodeId} {tokens : List Json}
    {images : List Outline} (h : List.Forall₂ tree.StoredAs ids tokens)
    (himages : tokens.mapM ofToken? = some images) {other : Tree} (hother : other.WellFormed)
    (hplaces : List.Forall₂ (fun place image => other.outline? place = some image) places images) :
    List.Forall₂ (fun id place => tree.sameStructure id other place = true) ids places := by
  have hpairs : List.Forall₂ (fun place token => ∃ image, ofToken? token = some image ∧
      other.outline? place = some image) places tokens :=
    forall₂_of_common hplaces (mapM_eq_some_iff.mp himages)
      fun _ _ _ image _ hplace himage => ⟨image, himage, hplace⟩
  refine forall₂_of_common h hpairs fun id _ place token _ hstored hpair => ?_
  obtain ⟨image, himage, hplace⟩ := hpair
  exact hstored.sameStructure himage hother hplace

theorem encodeList?_of_storedAs {ids : List NodeId} {tokens : List Json}
    (h : List.Forall₂ tree.StoredAs ids tokens) : tree.encodeList? ids = some (.arr tokens) := by
  suffices ∃ outlines, tree.outlines? ids = some outlines ∧ encodeItems outlines = tokens by
    obtain ⟨outlines, houtlines, rfl⟩ := this
    rw [encodeList?, houtlines]
    rfl
  induction h with
  | nil => exact ⟨[], rfl, rfl⟩
  | cons hfirst _ ih =>
    obtain ⟨outline, hout, rfl⟩ := Option.map_eq_some_iff.mp hfirst.encode?_eq
    obtain ⟨outlines, houtlines, rfl⟩ := ih
    refine ⟨outline :: outlines, ?_, rfl⟩
    rw [outlines?, List.mapM_cons, hout, ← outlines?, houtlines]
    rfl

theorem encodeDict?_of_storedAs {entries : List (String × NodeId)} {tokens : List (String × Json)}
    (h : List.Forall₂ (Dict.Related tree.StoredAs) entries tokens) :
    tree.encodeDict? entries = some (.obj (Dict.ofList tokens)) := by
  suffices ∃ outlines, tree.namedOutlines? entries = some outlines ∧
      (outlines.map fun entry => (entry.1, entry.2.encode true)) = tokens by
    obtain ⟨outlines, houtlines, rfl⟩ := this
    rw [encodeDict?, houtlines]
    rfl
  induction h with
  | nil => exact ⟨[], rfl, rfl⟩
  | @cons entry token _ _ hfirst _ ih =>
    obtain ⟨hname, hstored⟩ := hfirst
    obtain ⟨outline, hout, htoken⟩ := Option.map_eq_some_iff.mp hstored.encode?_eq
    obtain ⟨outlines, houtlines, rfl⟩ := ih
    refine ⟨(entry.1, outline) :: outlines, ?_, ?_⟩
    · rw [namedOutlines?, List.mapM_cons, hout, ← namedOutlines?, houtlines]
      rfl
    · rw [List.map_cons, hname, htoken]

end Tree

theorem Wire.encodeInts_eq (ints : List (String × Int32)) :
    encodeInts ints = .obj (intFields (Dict.collapsed ints)) := by
  have hfields : List.Forall₂ (Dict.Related fun n token => Json.int n = token) ints
      (ints.map fun entry => (entry.1, .int entry.2)) := by
    rw [List.forall₂_map_right_iff, List.forall₂_same]
    exact fun entry _ => ⟨rfl, rfl⟩
  have hjoined := Dict.forall₂_ofList hfields
  rw [Dict.ofList_eq_collapsed] at hjoined
  have hall := map_eq_map_of_forall₂ (f := fun entry => (entry.1, Json.int entry.2)) (g := id)
    hjoined fun entry token h => Prod.ext h.1 h.2
  rw [List.map_id] at hall
  exact congrArg Json.obj hall.symm

namespace SaveState

open Outline

/-- What a save state that was stored and read again has in common with the one before. -/
structure Restores (restored state : SaveState) : Prop where
  turn : restored.turn = state.turn
  seed : restored.seed = state.seed
  choices : restored.choices = state.choices
  stack : List.Forall₂ (fun id place => state.tree.sameStructure id restored.tree place = true)
    state.stack restored.stack
  bindings : List.Forall₂
    (Dict.Related fun id place => state.tree.sameStructure id restored.tree place = true)
    (Dict.collapsed state.bindings) restored.bindings
  visits : restored.visits = Dict.collapsed state.visits
  turns : restored.turns = Dict.collapsed state.turns

/-- The save state that is read when the stack and the variables were stored as tokens that stand
for the given outlines. -/
def rebuilt (state : SaveState) (stack : List Outline) (names : List String)
    (values : List Outline) : SaveState :=
  { state with
    tree :=
      Tree.empty.extend (layoutItems none 0 stack ++ layoutItems none (sizeItems stack) values)
    stack := places 0 stack
    bindings := names.zip (places (sizeItems stack) values)
    visits := Dict.collapsed state.visits
    turns := Dict.collapsed state.turns }

section Rebuilt

variable {state : SaveState} {stackTokens : List Json} {variableTokens : Dict Json}
  {stack values : List Outline}

theorem wellFormed_rebuilt (hstack : stackTokens.mapM ofToken? = some stack)
    (hvalues : (variableTokens.map Prod.snd).mapM ofToken? = some values) :
    (state.rebuilt stack (Dict.keys variableTokens) values).tree.WellFormed := by
  have hnamed : ∀ {tokens : List Json} {images : List Outline},
      tokens.mapM ofToken? = some images → ∀ image ∈ images, image.WellNamed := by
    intro tokens images h image hmem
    obtain ⟨token, -, hread⟩ := exists_of_forall₂_right (mapM_eq_some_iff.mp h) hmem
    exact WellNamed.of_ofToken? hread
  have hfirst := Tree.wellFormed_empty.extend_layoutItems (hnamed hstack)
  have hboth := hfirst.extend_layoutItems (hnamed hvalues)
  have hsize : Tree.empty.size = 0 := rfl
  rw [Tree.extend_extend, Tree.size_extend, length_layoutItems, hsize, Nat.zero_add] at hboth
  exact hboth

/-- The fields of a save state, with the tokens of its stack and of its variables. -/
def fieldsWith (state : SaveState) (stackTokens : List Json) (variableTokens : Dict Json) :
    Dict Json :=
  [(turnKey, .int state.turn), (seedKey, .int state.seed),
    (choicesKey, .arr (state.choices.map Choice.token)), (stackKey, .arr stackTokens),
    (variablesKey, .obj variableTokens),
    (visitsKey, .obj (Wire.intFields (Dict.collapsed state.visits))),
    (turnsKey, .obj (Wire.intFields (Dict.collapsed state.turns)))]

theorem readFrom_fieldsWith (hchoices : ∀ choice ∈ state.choices, choice.target.Readable)
    (hstack : stackTokens.mapM ofToken? = some stack)
    (hvalues : (variableTokens.map Prod.snd).mapM ofToken? = some values) :
    ReadFrom (state.fieldsWith stackTokens variableTokens)
      (state.rebuilt stack (Dict.keys variableTokens) values) stack variableTokens values where
  turn_eq := rfl
  seed_eq := rfl
  choices_eq := ⟨_, rfl, Choice.ofTokens_map_token hchoices⟩
  stack_eq := ⟨stackTokens, rfl, hstack⟩
  variables_eq := rfl
  values_eq := hvalues
  visits_eq := counts_eq_ok_iff.mpr (Or.inr rfl)
  turns_eq := counts_eq_ok_iff.mpr (Or.inr rfl)
  tree_eq := rfl
  places_eq := rfl
  bindings_eq := rfl

end Rebuilt

/-- A save state whose values read back is read again from what it is stored as: every value is there,
in its order, and a name that was given twice has its last value at its first place. -/
theorem stored_state_is_restored {state : SaveState}
    (hstack : ∀ id ∈ state.stack, state.tree.readsBack id = true)
    (hbindings : ∀ entry ∈ state.bindings, state.tree.readsBack entry.2 = true)
    (hchoices : ∀ choice ∈ state.choices, Path.parse choice.target.text = choice.target) :
    ∃ token restored, state.encode? = some token ∧ ofToken token = .ok restored ∧
      restored.Restores state := by
  obtain ⟨stackTokens, hstackTokens⟩ : ∃ tokens,
      List.Forall₂ state.tree.StoredAs state.stack tokens :=
    exists_forall₂ fun id hid => Tree.exists_storedAs (hstack id hid)
  obtain ⟨entries, hentries⟩ : ∃ entries,
      List.Forall₂ (Dict.Related state.tree.StoredAs) state.bindings entries := by
    refine exists_forall₂ fun entry hentry => ?_
    obtain ⟨token, htoken⟩ := Tree.exists_storedAs (hbindings entry hentry)
    exact ⟨(entry.1, token), rfl, htoken⟩
  obtain ⟨hnames, hvalueTokens⟩ := Dict.forall₂_related_iff.mp (Dict.forall₂_ofList hentries)
  obtain ⟨stack, hstackImages⟩ := Tree.exists_images hstackTokens
  obtain ⟨values, hvalueImages⟩ := Tree.exists_images hvalueTokens
  have hread := readFrom_fieldsWith hchoices hstackImages hvalueImages
  have hwell : (state.rebuilt stack (Dict.keys (Dict.ofList entries)) values).tree.WellFormed :=
    wellFormed_rebuilt hstackImages hvalueImages
  refine ⟨.obj (state.fieldsWith stackTokens (Dict.ofList entries)), _, ?_, hread.ofToken_eq, ?_⟩
  · rw [encode?, Tree.encodeList?_of_storedAs hstackTokens, Tree.encodeDict?_of_storedAs hentries,
      Wire.encodeInts_eq, Wire.encodeInts_eq]
    rfl
  · have hvalues := Tree.forall₂_sameStructure hvalueTokens hvalueImages hwell hread.forall₂_values
    exact
      { turn := rfl
        seed := rfl
        choices := rfl
        stack := Tree.forall₂_sameStructure hstackTokens hstackImages hwell
          (mapM_eq_some_iff.mp hread.outlines?)
        bindings := by
          rw [← Dict.ofList_eq_collapsed]
          exact hnames ▸ Dict.forall₂_zip hvalues
        visits := rfl
        turns := rfl }

/-- A container with flags that lists a knot by name, which holds a value and a divert. -/
def cellarCalls : List TreeCall :=
  [.add (.container { flags := .visits }) none, .add (.container { name := some "cellar" }) none,
    .add (.leaf (.value (.int 7))) none,
    .add (.leaf (.divert (.toPath (.relative [.parent, .index 2])))) none,
    .addContent 1 2, .addContent 1 3, .addNamed 0 1]

/-- A save state with a container on the stack, a value within it and the container again; two
variables and two counts share their names. -/
def cellarState : SaveState where
  tree := TreeCall.runAll .empty cellarCalls
  turn := 4
  seed := 99
  choices :=
    [{ text := "Go down", index := 0, source := "0.1", thread := 0,
       target := .absolute [.name "cellar", .index 0] }]
  stack := [0, 2, 0, 3]
  bindings := [("gold", 2), ("hat", 1), ("gold", 0)]
  visits := [("cellar", 1), ("hall", 2), ("cellar", 3)]
  turns := [("hall", 2)]

theorem stored_state_is_restored_cellar :
    ∃ token restored, cellarState.encode? = some token ∧ ofToken token = .ok restored ∧
      restored.Restores cellarState :=
  stored_state_is_restored (by decide) (by decide) (by decide)

end SaveState

end Narrative
