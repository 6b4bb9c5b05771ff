import Narrative.Proofs.Document
import Narrative.Proofs.Json.Kept
import Narrative.Proofs.Tree.SameOutline
import Narrative.Proofs.Wire.Storable
import Narrative.Proofs.Wire.StreamedText

/-!
# Documents, read back from their texts

A node lasts when its token keeps all of it and the text keeps the token. When all
nodes of a document last, and its text does not nest too deep, the text is read as a
document with the same outline, which is therefore written as the same text. All nodes
of a document that was read stand within its root.
-/

namespace Narrative

open Json

/-! ## Tokens of leaves -/

theorem Path.printable_dotted {components : List Component}
    (h : ∀ component ∈ components, Printable component.text) : Printable (dotted components) := by
  have hdot : Printable "." := by decide
  induction components with
  | nil => decide
  | cons component rest ih =>
    obtain ⟨hfirst, hrest⟩ := List.forall_mem_cons.mp h
    cases rest with
    | nil => exact hfirst
    | cons next rest =>
      rw [dotted]
      · exact (hfirst.append hdot).append (ih hrest)
      · exact List.cons_ne_nil _ _

theorem Path.printable_absolute {components : List Component}
    (h : ∀ component ∈ components, Printable component.text) :
    Printable (absolute components).text := by
  have hnone : Printable "" := by decide
  exact hnone.append (printable_dotted h)

namespace Json

theorem kept_single {key : String} {token : Json} (hkey : Printable key) (h : token.Kept) :
    (obj [(key, token)]).Kept := by
  refine kept_obj (List.nodup_singleton _) fun field hfield => ?_
  obtain rfl := List.mem_singleton.mp hfield
  exact ⟨hkey, h⟩

theorem kept_double {key other : String} {token more : Json} (hne : key ≠ other)
    (hkey : Printable key) (h : token.Kept) (hother : Printable other) (hmore : more.Kept) :
    (obj [(key, token), (other, more)]).Kept := by
  refine kept_obj (by simpa [Dict.keys] using hne) ?_
  exact List.forall_mem_cons.mpr ⟨⟨hkey, h⟩, List.forall_mem_singleton.mpr ⟨hother, hmore⟩⟩

end Json

namespace Leaf

theorem kept_command (c : Command) : (command c).token.Kept := by
  refine kept_str ?_
  cases c <;> decide

theorem kept_operator (o : Operator) : (operator o).token.Kept := by
  refine kept_str ?_
  cases o <;> decide

theorem kept_string {text : String} (h : Printable text) : (value (.string text)).token.Kept := by
  have hcaret : Printable "^" := by decide
  rw [token, Value.token]
  split
  · exact kept_str (by decide)
  · exact kept_str (hcaret.append h)

theorem kept_assignment {a : Assignment} (h : Printable a.name) : (assignment a).token.Kept := by
  have hkey : Printable (if a.isGlobal then "VAR=" else "temp=") ∧
      (if a.isGlobal then "VAR=" else "temp=") ≠ "re" := by
    split <;> decide
  have hre : Printable "re" := by decide
  rw [token, Assignment.token]
  cases a.isNew with
  | true => exact kept_single hkey.1 (kept_str h)
  | false => exact kept_double hkey.2 hkey.1 (kept_str h) hre (kept_bool true)

theorem kept_divert {d : Divert} (h : Printable d.targetText) : (divert d).token.Kept := by
  have hkey : Printable d.key ∧ d.key ≠ "var" ∧ d.key ≠ "c" ∧ d.key ≠ "exArgs" := by
    rw [Divert.key]
    split
    · decide
    · split <;> decide
  have hmarks : Printable "var" ∧ Printable "c" ∧ Printable "exArgs" := by decide
  rw [token, Divert.token]
  refine kept_obj ?_ fun field hfield => ?_
  · simp only [Dict.keys]
    split <;> split <;> split <;> simp [hkey]
  · simp only [List.mem_append, List.mem_singleton] at hfield
    rcases hfield with ((rfl | hfield) | hfield) | hfield
    · exact ⟨hkey.1, kept_str h⟩
    · split at hfield
      · obtain rfl := List.mem_singleton.mp hfield
        exact ⟨hmarks.1, kept_bool true⟩
      · cases hfield
    · split at hfield
      · obtain rfl := List.mem_singleton.mp hfield
        exact ⟨hmarks.2.1, kept_bool true⟩
      · cases hfield
    · split at hfield
      · obtain rfl := List.mem_singleton.mp hfield
        exact ⟨hmarks.2.2, kept_int _⟩
      · cases hfield

end Leaf

/-! ## Tokens of outlines -/

namespace Wire

variable {named : Dict Json} {flags : CountFlags} {name : Option String}

theorem kept_terminator (hnodup : (Dict.keys named).Nodup) (hkeys : Unreserved named)
    (hnamed : ∀ field ∈ named, Printable field.1 ∧ field.2.Kept)
    (hname : ∀ own, name = some own → Printable own) : (terminator named flags name).Kept := by
  have hflagsKey : Printable flagsKey := by decide
  have hnameKey : Printable nameKey := by decide
  rw [terminator_eq hnodup hkeys.not_mem_ownFields, terminatorOf]
  split
  · exact kept_null
  · refine kept_obj ?_ fun field hfield => ?_
    · rw [Dict.keys, List.map_append]
      exact hnodup.append keys_ownFields_nodup hkeys.not_mem_ownFields
    · rcases List.mem_append.mp hfield with hfield | hfield
      · exact hnamed field hfield
      · simp only [ownFields] at hfield
        rcases List.mem_append.mp hfield with hfield | hfield
        · split at hfield
          · cases hfield
          · obtain rfl := List.mem_singleton.mp hfield
            exact ⟨hflagsKey, kept_int _⟩
        · cases name with
          | none => cases hfield
          | some own =>
            obtain rfl := List.mem_singleton.mp hfield
            exact ⟨hnameKey, kept_str (hname own rfl)⟩

end Wire

namespace Outline

open Wire

/-- The text keeps a leaf, or the names that a container states. -/
def KeptTop : Outline → Prop
  | leaf l => l.token.Kept
  | container name _ _ named =>
    (∀ own, name = some own → Printable own) ∧ ∀ entry ∈ named, Printable entry.1

mutual

/-- The text keeps the token of an outline when it keeps every leaf and name in it. -/
theorem kept_encode : ∀ {outline : Outline}, outline.WellNamed → outline.Faithful →
    outline.Everywhere KeptTop → ∀ withName, (outline.encode withName).Kept
  | leaf _, _, _, hkept, _ => hkept
  | container name flags content named, hwell, hfaithful, hkept, withName => by
    obtain ⟨⟨hnames, -⟩, hwellContent, hwellNamed⟩ := hwell
    obtain ⟨⟨-, hreserved⟩, hfaithfulContent, hfaithfulNamed⟩ := hfaithful
    obtain ⟨⟨hown, hkeys⟩, hkeptContent, hkeptNamed⟩ := hkept
    have hitems := kept_encodeItems hwellContent hfaithfulContent hkeptContent
    have hfields := kept_encodeNamed hwellNamed hfaithfulNamed hkeptNamed hkeys
    rw [encode]
    refine kept_arr fun item hitem => ?_
    rcases List.mem_append.mp hitem with hitem | hitem
    · exact hitems item hitem
    · obtain rfl := List.mem_singleton.mp hitem
      refine kept_terminator ?_ ?_ hfields ?_
      · rw [keys_encodeNamed]
        exact hnames.of_append_right
      · intro key hkey
        rw [keys_encodeNamed] at hkey
        obtain ⟨entry, hentry, rfl⟩ := List.mem_map.mp hkey
        exact hreserved entry hentry
      · intro own hsome
        split at hsome
        · exact hown own hsome
        · cases hsome

theorem kept_encodeItems : ∀ {content : List Outline}, EverywhereItems NamesInOrder content →
    EverywhereItems FaithfulTop content → EverywhereItems KeptTop content →
    ∀ item ∈ encodeItems content, item.Kept
  | [], _, _, _ => fun _ hitem => nomatch hitem
  | first :: rest, hwell, hfaithful, hkept => by
    have hfirst := kept_encode hwell.1 hfaithful.1 hkept.1 true
    have hrest := kept_encodeItems hwell.2 hfaithful.2 hkept.2
    rw [encodeItems]
    exact List.forall_mem_cons.mpr ⟨hfirst, hrest⟩

theorem kept_encodeNamed : ∀ {named : List (String × Outline)},
    EverywhereNamed NamesInOrder named → EverywhereNamed FaithfulTop named →
    EverywhereNamed KeptTop named → (∀ entry ∈ named, Printable entry.1) →
    ∀ field ∈ encodeNamed named, Printable field.1 ∧ field.2.Kept
  | [], _, _, _, _ => fun _ hfield => nomatch hfield
  | (key, first) :: rest, hwell, hfaithful, hkept, hkeys => by
    obtain ⟨hkey, hkeys⟩ := List.forall_mem_cons.mp hkeys
    have hfirst := kept_encode hwell.1 hfaithful.1 hkept.1 false
    have hrest := kept_encodeNamed hwell.2 hfaithful.2 hkept.2 hkeys
    rw [encodeNamed]
    exact List.forall_mem_cons.mpr ⟨⟨hkey, hfirst⟩, hrest⟩

end

/-! ## Nodes of a laid out outline -/

mutual

theorem exists_parent_of_mem_lower : ∀ {outline : Outline} {n : Nat} {node : Node},
    node ∈ outline.lower n → ∃ p, node.parent = some p
  | leaf _, _, _, hnode => nomatch hnode
  | container _ _ content named, n, node, hnode => by
    rw [lower] at hnode
    rcases List.mem_append.mp hnode with hnode | hnode
    · exact exists_parent_of_mem_layoutItems hnode
    · exact exists_parent_of_mem_layoutNamed hnode

theorem exists_parent_of_mem_layoutItems : ∀ {content : List Outline} {parent n : Nat} {node : Node},
    node ∈ layoutItems (some parent) n content → ∃ p, node.parent = some p
  | [], _, _, _, hnode => nomatch hnode
  | first :: rest, parent, n, node, hnode => by
    rw [layoutItems] at hnode
    rcases List.mem_append.mp hnode with hnode | hnode
    · rcases List.mem_cons.mp hnode with rfl | hnode
      · exact ⟨parent, rfl⟩
      · exact exists_parent_of_mem_lower hnode
    · exact exists_parent_of_mem_layoutItems hnode

theorem exists_parent_of_mem_layoutNamed : ∀ {named : List (String × Outline)} {parent n : Nat}
    {node : Node}, node ∈ layoutNamed (some parent) n named → ∃ p, node.parent = some p
  | [], _, _, _, hnode => nomatch hnode
  | (_, first) :: rest, parent, n, node, hnode => by
    rw [layoutNamed] at hnode
    rcases List.mem_append.mp hnode with hnode | hnode
    · rcases List.mem_cons.mp hnode with rfl | hnode
      · exact ⟨parent, rfl⟩
      · exact exists_parent_of_mem_lower hnode
    · exact exists_parent_of_mem_layoutNamed hnode

end

end Outline

/-- All nodes of a subtree that was read stand within its top. -/
theorem Subtree.within_of_ofToken {item : Json} {outline : Outline}
    (h : Outline.ofToken? item = some outline) {id : NodeId}
    (hid : id < (Tree.empty.extend (outline.layout none 0)).size) :
    (Tree.empty.extend (outline.layout none 0)).Within 0 id := by
  obtain ⟨hwf, -⟩ := Subtree.wellFormed_of_ofToken h
  refine hwf.within_only_root (fun top hlt htop => ?_) hid
  obtain ⟨node, hnode⟩ := Tree.exists_get? _ hlt
  cases top with
  | zero => rfl
  | succ k =>
    have hget := Tree.empty.get?_extend_new (outline.layout none 0) (k + 1)
    have hzero : Tree.empty.size = 0 := rfl
    rw [hzero, Nat.zero_add, hnode, Outline.layout, List.getElem?_cons_succ] at hget
    obtain ⟨p, hp⟩ := Outline.exists_parent_of_mem_lower (List.mem_of_getElem? hget.symm)
    rw [Tree.parent?, hnode, Option.bind_some, hp] at htop
    cases htop

/-! ## Nodes that last -/

theorem Leaf.notNaN_of_kept {l : Leaf} (h : l.token.Kept) : l.NotNaN := by
  cases l with
  | value v =>
    cases v with
    | float x => cases h.floatFree
    | _ => trivial
  | _ => trivial

/-- A node whose token keeps all of it, and whose text keeps the token. -/
def Payload.Lasting : Payload → Prop
  | leaf l => l.Faithful ∧ l.token.Kept
  | container c => c.flags.bits.toNat < 2 ^ 31 ∧
      ∀ name, c.name = some name → Printable name ∧ name ≠ Wire.flagsKey ∧ name ≠ Wire.nameKey

/-- All nodes of a tree last. -/
def Tree.Lasting (tree : Tree) : Prop :=
  ∀ id payload, tree.payload? id = some payload → payload.Lasting

namespace Tree.Lasting

variable {tree : Tree} (hlasting : tree.Lasting) (h : tree.WellFormed)
include hlasting h

theorem entry {id : NodeId} {c : Container} (hc : tree.container? id = some c) {e : NamedEntry}
    (he : e ∈ c.table) : Printable e.name ∧ e.name ≠ Wire.flagsKey ∧ e.name ≠ Wire.nameKey := by
  have hname := (h.tidy id c hc).named e he
  obtain ⟨d, hd, hvalid⟩ := Option.bind_eq_some_iff.mp hname
  obtain ⟨hown, -⟩ := Option.filter_eq_some_iff.mp hvalid
  exact (hlasting e.id _ (payload?_of_container? hd)).2 e.name hown

theorem storable {id : NodeId} {payload : Payload} (hp : tree.payload? id = some payload) :
    payload.Storable := by
  have hnode := hlasting id payload hp
  cases payload with
  | leaf l => exact ⟨hnode.1, Leaf.notNaN_of_kept hnode.2⟩
  | container c =>
    have hc : tree.container? id = some c := by simp [container?, hp, Payload.container?]
    exact ⟨hnode.1, fun e he => (hlasting.entry h hc (List.mem_filter.mp he).1).2⟩

theorem clear {id : NodeId} (hid : id < tree.size) : tree.Clear id := by
  refine ⟨hid, fun d c _ hc e he => ?_⟩
  obtain ⟨-, hflags, hname⟩ := hlasting.entry h hc (List.mem_filter.mp he).1
  exact ⟨fun hboth => hflags hboth.1, fun hboth => hname hboth.1⟩

theorem everywhere_keptTop {id : NodeId} {outline : Outline}
    (hout : tree.outline? id = some outline) : outline.Everywhere Outline.KeptTop := by
  refine (h.everywhere_iff hout).mpr fun d _ inner hinner => ?_
  rcases payload_cases_of_outline? hinner with ⟨l, hp, rfl⟩ | ⟨c, content, named, hc, hshows, rfl⟩
  · exact (hlasting d _ hp).2
  · refine ⟨fun own hown => ((hlasting d _ (payload?_of_container? hc)).2 own hown).1, ?_⟩
    intro pair hpair
    obtain ⟨e, he, hname, -⟩ := hshows.of_mem_named hpair
    rw [← hname]
    exact (hlasting.entry h hc (List.mem_filter.mp he).1).1

end Tree.Lasting

/-! ## Documents that last -/

namespace Document

/-- A document that a text is read as, with the outline of another one that is written so. -/
structure Reloaded (document : Document) (text : String) (reloaded : Document) : Prop where
  read : ofText text = .ok reloaded
  written : reloaded.streamed? = some text
  same : document.tree.sameStructure document.root reloaded.tree reloaded.root = true
  outline : document.tree.SameOutline reloaded.tree document.root reloaded.root
  wellFormed : reloaded.tree.WellFormed
  within : ∀ id < reloaded.tree.size, reloaded.tree.Within reloaded.root id

/-- The text of a document whose nodes all last is read as a document with the same outline. -/
theorem exists_reloaded {document : Document} (hlasting : document.tree.Lasting)
    (h : document.tree.WellFormed) (hversion : document.version = currentVersion)
    {c : Container} (hroot : document.tree.container? document.root = some c) :
    ∃ token, document.encode? = some token ∧ document.streamed? = some token.text ∧
      (token.nesting ≤ depthLimit → ∃ reloaded, document.Reloaded token.text reloaded) := by
  obtain ⟨tree, root, version⟩ := document
  obtain rfl : version = currentVersion := hversion
  have hid := tree.lt_size_of_container? hroot
  obtain ⟨outline, hout⟩ := h.exists_outline? hid
  obtain ⟨hfaithful, hnumbers⟩ := (h.storable_iff hout).mp fun _ _ _ hp => hlasting.storable h hp
  have hwell := h.wellNamed_of_outline? hout
  have hread := Outline.ofToken?_encode_self hwell hfaithful
  obtain ⟨hwf, hout'⟩ := Subtree.wellFormed_of_ofToken hread
  have hsame : tree.SameOutline _ root 0 := ⟨outline, hout, hout'⟩
  obtain ⟨stored, hstored, hstream⟩ := exists_stream? h (hlasting.clear h hid)
  obtain rfl : .obj [(versionKey, .int currentVersion), (rootKey, outline.encode true)] = stored := by
    rw [encode?, Tree.encode?, hout] at hstored
    exact Option.some.inj hstored
  have hkept : (Json.obj [(versionKey, .int currentVersion),
      (rootKey, outline.encode true)]).Kept := by
    have hkeys : Printable versionKey ∧ Printable rootKey := by decide
    have hitem := Outline.kept_encode hwell hfaithful (hlasting.everywhere_keptTop h hout) true
    refine kept_obj (by simp [Dict.keys, versionKey, rootKey]) ?_
    simp [hkeys, hitem, kept_int]
  refine ⟨_, hstored, by rw [streamed?, hstream]; rfl, fun hdepth => ?_⟩
  refine ⟨⟨Tree.empty.extend (outline.layout none 0), 0, currentVersion⟩, ?_, ?_, ?_, ?_, hwf, ?_⟩
  · rw [ofText, hkept.parse_text hdepth]
    refine ofToken_eq_ok_iff.mpr ⟨_, outline.encode true, rfl, ?_, rfl, ?_, ?_⟩
    · have hcurrent : ¬ currentVersion < currentVersion ∧ ¬ currentVersion < minimumVersion := by
        decide
      exact versionOf_eq_ok_iff.mpr ⟨rfl, hcurrent⟩
    · exact Subtree.ofToken_eq_ok_iff.mpr ⟨outline, hread, rfl⟩
    · obtain ⟨d, _, _, hd, -, -⟩ := hsame.exists_container hroot
      exact Option.isSome_iff_exists.mpr ⟨d, hd⟩
  · -- What is written depends on the outline only.
    rw [stream?, Tree.stream?, hout] at hstream
    rw [streamed?, stream?, Tree.stream?, hout', hstream]
    rfl
  · exact Tree.sameStructure_of_outline? h hwf hout hout' hnumbers
  · exact hsame
  · exact fun _ => Subtree.within_of_ofToken hread

end Document

end Narrative
