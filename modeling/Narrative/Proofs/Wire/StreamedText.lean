import Narrative.Document
import Narrative.Proofs.SaveState
import Narrative.Proofs.Tree.Reachable
import Narrative.Proofs.Wire.Streaming

/-!
# The text of documents and save states

A document or a save state that is written piece by piece has the text of its
stored token, provided that no key is used twice on the way.
-/

namespace Narrative

open Json

namespace Outline

theorem streamEntries_eq_properties (entries : List (String × Outline)) :
    streamEntries entries =
      Writing.properties (entries.map fun entry => (entry.1, entry.2.literal true)) := by
  induction entries with
  | nil => rfl
  | cons entry rest ih =>
    rw [streamEntries, ih, stream_eq_value, List.map_cons, Writing.properties]

end Outline

namespace Tree

variable {tree : Tree}

/-- A node of the tree in whose subtree no terminator uses a key twice. -/
def Clear (tree : Tree) (id : NodeId) : Prop := id < tree.size ∧ tree.Unambiguous id true

theorem WellFormed.exists_outline_of_clear (h : tree.WellFormed) {id : NodeId} (hid : tree.Clear id) :
    ∃ outline, tree.outline? id = some outline ∧ outline.WellNamed ∧ outline.Unambiguous true := by
  obtain ⟨outline, hout⟩ := h.exists_outline? hid.1
  exact ⟨outline, hout, h.wellNamed_of_outline? hout, h.unambiguous_outline? hout hid.2⟩

/-- A list of nodes is written as its stored token. -/
theorem WellFormed.exists_streamList? (h : tree.WellFormed) {ids : List NodeId}
    (hids : ∀ id ∈ ids, tree.Clear id) :
    ∃ stored, tree.encodeList? ids = some stored ∧
      tree.streamList? ids = some (Writing.value stored) := by
  obtain ⟨outlines, hall⟩ := exists_forall₂ fun id hid => h.exists_outline_of_clear (hids id hid)
  have hout : tree.outlines? ids = some outlines :=
    mapM_eq_some_iff.mpr (hall.imp fun _ _ hid => hid.1)
  have hsame : Outline.literalItems outlines = Outline.encodeItems outlines := by
    refine Outline.literalItems_eq_encodeItems (Outline.everywhereItems_iff.mpr ?_)
      (Outline.unambiguousItems_iff.mpr ?_)
    · intro outline hmem
      obtain ⟨id, -, -, hwell, -⟩ := exists_of_forall₂_right hall hmem
      exact hwell
    · intro outline hmem
      obtain ⟨id, -, -, -, hclear⟩ := exists_of_forall₂_right hall hmem
      exact hclear
  refine ⟨.arr (Outline.encodeItems outlines), ?_, ?_⟩
  · rw [encodeList?, hout, Option.map_some]
  · rw [streamList?, hout, Option.map_some, Outline.streamItems_eq_values, hsame, Writing.value]

/-- Named nodes are written as their stored token when no name is repeated. -/
theorem WellFormed.exists_streamDict? (h : tree.WellFormed) {entries : List (String × NodeId)}
    (hentries : ∀ entry ∈ entries, tree.Clear entry.2) (hnames : (entries.map Prod.fst).Nodup) :
    ∃ stored, tree.encodeDict? entries = some stored ∧
      tree.streamDict? entries = some (Writing.value stored) := by
  have hexists : ∀ entry ∈ entries, ∃ pair : String × Outline, entry.1 = pair.1 ∧
      tree.outline? entry.2 = some pair.2 ∧ pair.2.literal true = pair.2.encode true := by
    intro entry hentry
    obtain ⟨outline, hout, hwell, hclear⟩ := h.exists_outline_of_clear (hentries entry hentry)
    exact ⟨(entry.1, outline), rfl, hout, Outline.literal_eq_encode hwell hclear⟩
  obtain ⟨pairs, hall⟩ := exists_forall₂ hexists
  have hout : tree.namedOutlines? entries = some pairs := by
    refine mapM_eq_some_iff.mpr (hall.imp fun entry pair hpair => ?_)
    rw [hpair.2.1, Option.map_some, hpair.1]
  have hkeys : (Dict.keys (pairs.map fun pair => (pair.1, pair.2.encode true))).Nodup := by
    rw [map_eq_map_of_forall₂ hall fun _ _ hpair => hpair.1] at hnames
    rwa [Dict.keys, List.map_map]
  have hsame : (pairs.map fun pair => (pair.1, pair.2.literal true)) =
      pairs.map fun pair => (pair.1, pair.2.encode true) := by
    refine List.map_congr_left fun pair hmem => ?_
    obtain ⟨entry, -, -, -, heq⟩ := exists_of_forall₂_right hall hmem
    rw [heq]
  refine ⟨.obj (pairs.map fun pair => (pair.1, pair.2.encode true)), ?_, ?_⟩
  · rw [encodeDict?, hout, Option.map_some, Dict.ofList_of_nodup hkeys]
  · rw [streamDict?, hout, Option.map_some, Outline.streamEntries_eq_properties, hsame,
      Writing.value]

end Tree

namespace Wire

theorem intProperties_eq_properties (ints : List (String × Int32)) :
    intProperties ints = Writing.properties (intFields ints) := by
  induction ints with
  | nil => rfl
  | cons entry rest ih =>
    rw [intProperties, ih]
    simp [intFields, Writing.properties, Writing.value, Writing.intProperty]

theorem streamInts_eq_value {ints : List (String × Int32)} (h : (ints.map Prod.fst).Nodup) :
    streamInts ints = Writing.value (encodeInts ints) := by
  rw [encodeInts_of_nodup h, streamInts, intProperties_eq_properties, Writing.value]

end Wire

/-- A document is written as its stored token. -/
theorem Document.exists_stream? {document : Document} (h : document.tree.WellFormed)
    (hroot : document.tree.Clear document.root) :
    ∃ stored, document.encode? = some stored ∧
      document.stream? = some (Writing.value stored) := by
  obtain ⟨written, root, hstream, hencode, hsame⟩ := h.exists_stream? hroot.1 true
  obtain rfl := hsame hroot.2
  refine ⟨.obj [(versionKey, .int document.version), (rootKey, written)], ?_, ?_⟩
  · rw [encode?, hencode, Option.map_some]
  · rw [stream?, hstream, Option.map_some]
    simp [Writing.value, Writing.properties, Writing.intProperty]

/-- A save state is written as its stored token when none of its names is repeated. -/
theorem SaveState.exists_stream? {state : SaveState} (h : state.tree.WellFormed)
    (hstack : ∀ id ∈ state.stack, state.tree.Clear id)
    (hbindings : ∀ entry ∈ state.bindings, state.tree.Clear entry.2)
    (hnames : (state.bindings.map Prod.fst).Nodup) (hvisits : (state.visits.map Prod.fst).Nodup)
    (hturns : (state.turns.map Prod.fst).Nodup) :
    ∃ stored, state.encode? = some stored ∧ state.stream? = some (Writing.value stored) := by
  obtain ⟨stack, hstored, hwritten⟩ := h.exists_streamList? hstack
  obtain ⟨bindings, hstoredBindings, hwrittenBindings⟩ := h.exists_streamDict? hbindings hnames
  refine ⟨.obj [(turnKey, .int state.turn), (seedKey, .int state.seed),
    (choicesKey, .arr (state.choices.map Choice.token)), (stackKey, stack),
    (variablesKey, bindings), (visitsKey, Wire.encodeInts state.visits),
    (turnsKey, Wire.encodeInts state.turns)], ?_, ?_⟩
  · rw [encode?, hstored, hstoredBindings]
    rfl
  · rw [stream?, hwritten, hwrittenBindings, Wire.streamInts_eq_value hvisits,
      Wire.streamInts_eq_value hturns]
    simp [Writing.value, Writing.properties, Writing.intProperty]

/-- Writing a subtree piece by piece writes one value, which is its stored token unless a terminator
uses a key twice; so documents and save states have the text of their stored tokens. -/
theorem streamed_as_stored :
    (∀ tree : Tree, tree.WellFormed → ∀ id < tree.size, ∃ step stored,
      tree.stream? id true = some step ∧ tree.encode? id true = some stored ∧
        Writing.WritesValue step ∧ (tree.Unambiguous id true → step = Writing.value stored)) ∧
    (∀ document : Document, document.tree.WellFormed → document.tree.Clear document.root →
      ∃ text, document.streamed? = some text ∧ document.encode?.map Json.text = some text) ∧
    (∀ state : SaveState, state.tree.WellFormed → (∀ id ∈ state.stack, state.tree.Clear id) →
      (∀ entry ∈ state.bindings, state.tree.Clear entry.2) →
      (state.bindings.map Prod.fst).Nodup → (state.visits.map Prod.fst).Nodup →
      (state.turns.map Prod.fst).Nodup →
      ∃ text, state.streamed? = some text ∧ state.encode?.map Json.text = some text) := by
  refine ⟨?_, ?_, ?_⟩
  · intro tree h id hid
    obtain ⟨written, stored, hstream, hencode, hsame⟩ := h.exists_stream? hid true
    exact ⟨_, stored, hstream, hencode, (Writing.renders_value written).writesValue,
      fun hclear => congrArg Writing.value (hsame hclear)⟩
  · intro document h hroot
    obtain ⟨stored, hencode, hstream⟩ := Document.exists_stream? h hroot
    exact ⟨stored.text, by rw [Document.streamed?, hstream]; rfl, by rw [hencode]; rfl⟩
  · intro state h hstack hbindings hnames hvisits hturns
    obtain ⟨stored, hencode, hstream⟩ :=
      SaveState.exists_stream? h hstack hbindings hnames hvisits hturns
    exact ⟨stored.text, by rw [SaveState.streamed?, hstream]; rfl, by rw [hencode]; rfl⟩

/-- A container with flags that lists `#n` by name, and in it a named container that lists `#f`. -/
def Tree.reserved : Tree :=
  TreeCall.runAll .empty
    [.add (.container { flags := .visits }) none, .add (.container { name := some "a" }) none,
      .add (.container { name := some "#f" }) none, .add (.container { name := some "#n" }) none,
      .add (.leaf (.value (.int 7))) none, .addContent 0 1, .addNamed 1 2, .addNamed 0 3,
      .addContent 3 4]

theorem Tree.wellFormed_reserved : Tree.reserved.WellFormed :=
  Tree.Reachable.wellFormed ⟨_, by decide, rfl⟩

theorem Tree.clear_reserved : ∀ id < 5, Tree.reserved.Clear id := by
  have hsize : Tree.reserved.size = 5 := by decide
  have hsafe : ∀ id < 5, (Tree.reserved.container? id).all (fun c => c.namedOnly.all fun e =>
      !(e.name == Wire.flagsKey && !c.flags.isEmpty) && !(e.name == Wire.nameKey && c.name.isSome)) =
        true := by
    decide
  intro top htop
  refine ⟨hsize ▸ htop, fun id c _ hc e he => ?_⟩
  have hid : id < 5 := hsize ▸ Tree.reserved.lt_size_of_container? hc
  have hall := hsafe id hid
  rw [hc, Option.all_some, List.all_eq_true] at hall
  have hentry := hall e he
  constructor
  · rintro ⟨hname, hflags⟩
    simp [hname, hflags] at hentry
  · rintro ⟨hname, hsome, -⟩
    simp [hname, hsome] at hentry

/-- A save state with two values on its stack, one inside the other. -/
def SaveState.reserved : SaveState :=
  { tree := Tree.reserved, stack := [4, 0], bindings := [("x", 1)], visits := [("a", 2)] }

theorem streamed_as_stored_reserved :
    (∃ step stored, Tree.reserved.stream? 0 true = some step ∧
      Tree.reserved.encode? 0 true = some stored ∧ Writing.WritesValue step ∧
        step = Writing.value stored) ∧
    (∃ text, (Document.mk Tree.reserved 0 12).streamed? = some text ∧
      (Document.mk Tree.reserved 0 12).encode?.map Json.text = some text) ∧
    (∃ text, SaveState.reserved.streamed? = some text ∧
      SaveState.reserved.encode?.map Json.text = some text) := by
  have hclear := Tree.clear_reserved
  obtain ⟨htree, hdocument, hstate⟩ := streamed_as_stored
  refine ⟨?_, ?_, ?_⟩
  · obtain ⟨step, stored, hstream, hencode, hvalue, hsame⟩ :=
      htree Tree.reserved Tree.wellFormed_reserved 0 (by decide)
    exact ⟨step, stored, hstream, hencode, hvalue, hsame (hclear 0 (by decide)).2⟩
  · exact hdocument _ Tree.wellFormed_reserved (hclear 0 (by decide))
  · refine hstate _ Tree.wellFormed_reserved ?_ ?_ (by decide) (by decide) (by decide)
    · intro id hid
      exact hclear id (by revert id; decide)
    · intro entry hentry
      exact hclear entry.2 (by revert entry; decide)

end Narrative
