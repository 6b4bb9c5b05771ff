import Narrative.Proofs.Tree.Planted
import Narrative.Proofs.Wire.LeafTokens
import Narrative.Proofs.Wire.Terminator

/-!
# Tokens of subtrees, read back

An outline is faithful when the token of every leaf and container in it keeps all
of it: besides the conditions on leaves, count flags are below half their range
and no child is listed under a key that the terminator uses for itself. What is
read is faithful, and the token of a faithful outline with its names in order is
read as that outline.
-/

namespace Narrative

namespace Wire

variable {named : Dict Json} {flags : CountFlags} {name : Option String}

/-- No child is listed under a key that the terminator uses for itself. -/
def Unreserved (named : Dict Json) : Prop :=
  ∀ key ∈ Dict.keys named, key ≠ flagsKey ∧ key ≠ nameKey

theorem Unreserved.not_mem_ownFields (h : Unreserved named) :
    ∀ key ∈ Dict.keys named, key ∉ Dict.keys (ownFields flags name) := by
  intro key hin hown
  rcases mem_keys_ownFields.mp hown with ⟨rfl, -⟩ | ⟨rfl, -⟩
  · exact (h _ hin).1 rfl
  · exact (h _ hin).2 rfl

theorem containerOf_fields (hkeys : Unreserved named) (hflags : flags.bits.toNat < 2 ^ 31) :
    Decoding.containerOf (named ++ ownFields flags name) = .ok { flags, name } := by
  have hnone : ∀ key, key = flagsKey ∨ key = nameKey → Dict.get? named key = none := by
    intro key hkey
    rw [Dict.get?_eq_none_iff]
    intro hin
    rcases hkey with rfl | rfl
    · exact (hkeys _ hin).1 rfl
    · exact (hkeys _ hin).2 rfl
  refine Decoding.containerOf_eq_ok_iff.mpr ⟨flags.bits, name, ?_, ?_, rfl⟩
  · rw [optionalWord_eq_ok_iff, Dict.get?_append, hnone _ (Or.inl rfl), Option.none_or,
      get?_ownFields_flags]
    split
    · next h => exact Or.inl ⟨rfl, by simpa [CountFlags.isEmpty] using h⟩
    · exact Or.inr ⟨rfl, hflags⟩
  · rw [Dict.get?_append, hnone _ (Or.inr rfl), Option.none_or, get?_ownFields_name]

/-- The terminator tells flags and name. -/
theorem containerOfItems_terminator (hnodup : (Dict.keys named).Nodup) (hkeys : Unreserved named)
    (hflags : flags.bits.toNat < 2 ^ 31) (items : List Json) :
    Decoding.containerOfItems (items ++ [terminator named flags name]) = .ok { flags, name } := by
  rw [Decoding.containerOfItems]
  rw [List.getLast?_concat, terminator_eq hnodup hkeys.not_mem_ownFields, terminatorOf]
  by_cases hempty : (named ++ ownFields flags name).isEmpty
  · rw [if_pos hempty]
    obtain ⟨-, hown⟩ : named = [] ∧ ownFields flags name = [] := by simpa using hempty
    have hplain : flags = {} ∧ name = none := by
      simp only [ownFields] at hown
      cases name with
      | some name => simp at hown
      | none =>
        have hbits : flags.isEmpty = true := by
          cases hf : flags.isEmpty with
          | true => rfl
          | false => simp [hf] at hown
        exact ⟨congrArg CountFlags.mk (by simpa [CountFlags.isEmpty] using hbits), rfl⟩
    rw [hplain.1, hplain.2]
  · rw [if_neg hempty]
    exact containerOf_fields hkeys hflags

end Wire

namespace Outline

open Wire

/-- The token of a leaf keeps all of it, or that of a container does apart from its children. -/
def FaithfulTop : Outline → Prop
  | leaf l => l.Faithful
  | container _ flags _ named =>
    flags.bits.toNat < 2 ^ 31 ∧ ∀ entry ∈ named, entry.1 ≠ flagsKey ∧ entry.1 ≠ nameKey

def Faithful (outline : Outline) : Prop := outline.Everywhere FaithfulTop

theorem faithfulTop_holdsOfRead : HoldsOfRead FaithfulTop where
  ofLeaf h := Leaf.faithful_of_ofToken? h
  ofContainer := by
    intro items shell content named hshell hread _ _
    refine ⟨?_, fun entry hentry => (keys_of_childrenOf? hread entry hentry).2⟩
    rw [Decoding.containerOfItems] at hshell
    split at hshell
    · cases hshell
    · cases hshell
      exact Nat.two_pow_pos 31
    · obtain ⟨flags, name, hflags, -, rfl⟩ := Decoding.containerOf_eq_ok_iff.mp hshell
      exact optionalWord_lt hflags
    · cases hshell

/-- What is read is faithful. -/
theorem Faithful.of_ofToken? {item : Json} {outline : Outline}
    (h : ofToken? item = some outline) : outline.Faithful :=
  faithfulTop_holdsOfRead.everywhere_self h

theorem childrenOf?_append {items : List Json} {content : List Outline}
    (hitems : items.mapM ofToken? = some content) {last : Json} {named : List (String × Outline)}
    (hlast : childrenOf? [last] = some ([], named)) :
    childrenOf? (items ++ [last]) = some (content, named) := by
  induction items generalizing content with
  | nil =>
    cases hitems
    exact hlast
  | cons item rest ih =>
    rw [List.mapM_cons] at hitems
    obtain ⟨first, hfirst, hitems⟩ := Option.bind_eq_some_iff.mp hitems
    obtain ⟨others, hothers, hitems⟩ := Option.bind_eq_some_iff.mp hitems
    cases hitems
    have hrest := ih hothers
    cases rest with
    | nil =>
      rw [List.nil_append] at hrest
      rw [List.singleton_append, childrenOf?_cons, hfirst, hrest]
    | cons next rest =>
      rw [List.cons_append] at hrest
      rw [List.cons_append, List.cons_append, childrenOf?_cons, hfirst, hrest]

theorem namedOf?_ownFields (flags : CountFlags) (name : Option String) :
    namedOf? (ownFields flags name) = some [] := by
  simp only [ownFields]
  split <;> cases name <;> simp [namedOf?]

theorem childrenOf?_terminator {fields : Dict Json} {named : List (String × Outline)}
    {flags : CountFlags} {name : Option String} (hnodup : (Dict.keys fields).Nodup)
    (hkeys : Unreserved fields)
    (hread : namedOf? (fields ++ ownFields flags name) = some named) :
    childrenOf? [terminator fields flags name] = some ([], named) := by
  rw [terminator_eq hnodup hkeys.not_mem_ownFields, terminatorOf]
  split
  · next hempty =>
    rw [List.isEmpty_iff.mp hempty, namedOf?] at hread
    cases hread
    rfl
  · rw [childrenOf?, hread]
    rfl

theorem exists_of_validName? {outline : Outline} {name : String}
    (h : outline.validName? = some name) :
    ∃ flags content named, outline = container (some name) flags content named ∧
      ¬ name.isEmpty := by
  cases outline with
  | leaf l => cases h
  | container own flags content named =>
    obtain ⟨rfl, hne⟩ := Option.filter_eq_some_iff.mp h
    exact ⟨flags, content, named, rfl, by simpa using hne⟩

mutual

/-- The token of a faithful outline with its names in order is read as that outline, apart from the
name when it is left out. -/
theorem ofToken?_encode : ∀ {outline : Outline}, outline.WellNamed → outline.Faithful →
    ∀ withName, ofToken? (outline.encode withName) =
      some (outline.rename (if withName then outline.name? else none))
  | leaf l, _, hfaithful, withName => by
    rw [encode, Leaf.ofToken?_token hfaithful]
    rfl
  | container name flags content named, hwell, hfaithful, withName => by
    obtain ⟨⟨hnames, hkeys⟩, hcontent, hentries⟩ := hwell
    obtain ⟨⟨hflags, hreserved⟩, hitems, hnamed⟩ := hfaithful
    have hnodup : (Dict.keys (encodeNamed named)).Nodup := by
      rw [keys_encodeNamed]
      exact hnames.of_append_right
    have hunreserved : Unreserved (encodeNamed named) := by
      intro key hkey
      rw [keys_encodeNamed] at hkey
      obtain ⟨entry, hentry, rfl⟩ := List.mem_map.mp hkey
      exact hreserved entry hentry
    have hchildren := childrenOf?_append (mapM_encodeItems hcontent hitems)
      (childrenOf?_terminator hnodup hunreserved
        (namedOf?_encodeNamed hentries hnamed hkeys hreserved
          (namedOf?_ownFields flags (if withName then name else none))))
    rw [encode, ofToken?, containerOfItems_terminator hnodup hunreserved hflags, hchildren]
    simp only [if_pos hnames]
    rfl

theorem mapM_encodeItems : ∀ {content : List Outline}, EverywhereItems NamesInOrder content →
    EverywhereItems FaithfulTop content → (encodeItems content).mapM ofToken? = some content
  | [], _, _ => rfl
  | item :: rest, hwell, hfaithful => by
    have hitem := ofToken?_encode hwell.1 hfaithful.1 true
    rw [if_pos rfl, rename_name?] at hitem
    rw [encodeItems, List.mapM_cons, hitem, mapM_encodeItems hwell.2 hfaithful.2]
    rfl

theorem namedOf?_encodeNamed : ∀ {named : List (String × Outline)},
    EverywhereNamed NamesInOrder named → EverywhereNamed FaithfulTop named →
    (∀ entry ∈ named, entry.2.validName? = some entry.1) →
    (∀ entry ∈ named, entry.1 ≠ flagsKey ∧ entry.1 ≠ nameKey) →
    ∀ {rest : Dict Json}, namedOf? rest = some [] →
    namedOf? (encodeNamed named ++ rest) = some named
  | [], _, _, _, _, rest, hrest => hrest
  | (key, item) :: others, hwell, hfaithful, hkeys, hreserved, rest, hrest => by
    obtain ⟨hkey, hkeys⟩ := List.forall_mem_cons.mp hkeys
    obtain ⟨hfree, hreserved⟩ := List.forall_mem_cons.mp hreserved
    have hitem := ofToken?_encode hwell.1 hfaithful.1 false
    have hothers := namedOf?_encodeNamed hwell.2 hfaithful.2 hkeys hreserved hrest
    obtain ⟨flags, content, named, hshape, hne⟩ := exists_of_validName? hkey
    simp only at hshape hne
    subst hshape
    rw [encodeNamed, List.cons_append, namedOf?_cons (by simpa using hfree), hitem, hothers]
    exact if_neg hne

end

theorem ofToken?_encode_self {outline : Outline} (hwell : outline.WellNamed)
    (hfaithful : outline.Faithful) : ofToken? (outline.encode true) = some outline := by
  rw [ofToken?_encode hwell hfaithful, if_pos rfl, rename_name?]

/-- What a token stands for is stored as a token that stands for the same. -/
theorem ofToken?_encode_of_read {item : Json} {outline : Outline}
    (h : ofToken? item = some outline) : ofToken? (outline.encode true) = some outline :=
  ofToken?_encode_self (WellNamed.of_ofToken? h) (Faithful.of_ofToken? h)

end Outline

/-- A tree that was read from a token is well-formed, and its outline is what the token stands for. -/
theorem Subtree.wellFormed_of_ofToken {item : Json} {outline : Outline}
    (h : Outline.ofToken? item = some outline) :
    (Tree.empty.extend (outline.layout none 0)).WellFormed ∧
      (Tree.empty.extend (outline.layout none 0)).outline? 0 = some outline :=
  ⟨Tree.wellFormed_empty.extend_layout (Outline.WellNamed.of_ofToken? h),
    Tree.empty.outline?_extend_layout none outline⟩

/-- A subtree that was read is stored as a token that is read as the same nodes at the same places. -/
theorem Subtree.exists_reread {item : Json} {subtree : Subtree}
    (h : Subtree.ofToken item = .ok subtree) :
    ∃ token, subtree.tree.encode? subtree.id true = some token ∧
      Subtree.ofToken token = .ok subtree := by
  obtain ⟨outline, hread, rfl⟩ := Subtree.ofToken_eq_ok_iff.mp h
  obtain ⟨-, hout⟩ := Subtree.wellFormed_of_ofToken hread
  refine ⟨outline.encode true, by rw [Tree.encode?, hout]; rfl, ?_⟩
  exact Subtree.ofToken_eq_ok_iff.mpr ⟨outline, Outline.ofToken?_encode_of_read hread, rfl⟩

end Narrative
