import Narrative.Proofs.Tree.Comparison
import Narrative.Proofs.Tree.Planted
import Narrative.Proofs.Wire.Reading

/-!
# Which arrays are read

An array is read by adding a container and moving what its items and its terminator
describe into it, one node after the other; that the names of the children are
different is checked only as they are moved. `Wire.Acceptable` says without a tree
which arrays pass all these steps, and `Subtree.Holds` what the container is like in
the end. Objects are taken to have different keys, as in a table by key.
-/

namespace Narrative

namespace Wire

/-- A token that is read on its own. -/
def Readable (item : Json) : Prop := ∃ subtree, Subtree.ofToken item = .ok subtree

/-- What a token is read as on its own. -/
def ReadAs (item : Json) (outline : Outline) : Prop :=
  ∃ subtree, Subtree.ofToken item = .ok subtree ∧
    subtree.tree.outline? subtree.id = some outline

/-- The fields of an array's terminator; there are none when it is null. -/
def terminatorFields (items : List Json) : Dict Json :=
  match items.getLast? with
  | some (.obj fields) => fields
  | _ => []

/-- The flags that a terminator gives its container. -/
def flagsOf (fields : Dict Json) : CountFlags :=
  match Dict.get? fields flagsKey with
  | some (.int n) => ⟨n.toUInt32⟩
  | _ => .empty

/-- The name that a terminator gives its container. -/
def nameOf (fields : Dict Json) : Option String :=
  (Dict.get? fields nameKey).bind Json.str?

/-- The fields of a terminator that list children. -/
def listed (fields : Dict Json) : Dict Json :=
  Dict.filterKeys (fun key => !(key = flagsKey ∨ key = nameKey)) fields

theorem listed_cons (key : String) (item : Json) (rest : Dict Json) :
    listed ((key, item) :: rest) =
      if key = flagsKey ∨ key = nameKey then listed rest else (key, item) :: listed rest := by
  rw [listed, Dict.filterKeys, List.filter_cons]
  by_cases hkey : key = flagsKey ∨ key = nameKey <;> simp only [hkey] <;> rfl

/-- The name of what a token describes, unless it is empty. -/
def ownName? : Json → Option String
  | .arr items => (nameOf (terminatorFields items)).filter fun name => !name.isEmpty
  | _ => none

/-- The names of the content that an array describes. -/
def contentNames (items : List Json) : List String := items.dropLast.filterMap ownName?

/-- The flags and the name of a terminator have the right types. -/
structure Legal (fields : Dict Json) : Prop where
  flags : ∀ value, Dict.get? fields flagsKey = some value → ∃ n : Int32, value = .int n ∧ 0 ≤ n
  name : ∀ value, Dict.get? fields nameKey = some value → ∃ name, value = .str name

/-- The last element of an array is there, and it is null or an object. -/
def Terminated (items : List Json) : Prop :=
  ∃ last, items.getLast? = some last ∧ (last = .null ∨ ∃ fields, last = .obj fields)

/-- An array that describes a container. -/
structure Acceptable (items : List Json) : Prop where
  terminated : Terminated items
  content : ∀ item ∈ items.dropLast, Readable item
  names : (contentNames items).Nodup
  legal : Legal (terminatorFields items)
  listed : ∀ entry ∈ listed (terminatorFields items), entry.1 ≠ "" ∧
    entry.1 ∉ contentNames items ∧ (∃ inner, entry.2 = .arr inner) ∧ Readable entry.2

theorem readAs_iff {item : Json} {outline : Outline} :
    ReadAs item outline ↔ Outline.ofToken? item = some outline := by
  constructor
  · rintro ⟨subtree, hread, hout⟩
    obtain ⟨image, himage, rfl⟩ := Subtree.ofToken_eq_ok_iff.mp hread
    have hsame : (Tree.empty.extend (image.layout none 0)).outline? 0 = some image :=
      Tree.outline?_extend_layout none image
    rw [himage, ← hsame, hout]
  · intro h
    exact ⟨_, Subtree.ofToken_eq_ok_iff.mpr ⟨outline, h, rfl⟩,
      Tree.outline?_extend_layout none outline⟩

theorem readable_iff {item : Json} :
    Readable item ↔ ∃ outline, Outline.ofToken? item = some outline := by
  constructor
  · rintro ⟨subtree, hread⟩
    obtain ⟨outline, houtline, -⟩ := Subtree.ofToken_eq_ok_iff.mp hread
    exact ⟨outline, houtline⟩
  · rintro ⟨outline, houtline⟩
    exact ⟨_, Subtree.ofToken_eq_ok_iff.mpr ⟨outline, houtline, rfl⟩⟩

/-! ## Flags and name -/

theorem optionalWord_flagsKey_eq_ok_iff {fields : Dict Json} {word : UInt32} :
    optionalWord fields flagsKey = .ok word ↔
      (∀ value, Dict.get? fields flagsKey = some value → ∃ n : Int32, value = .int n ∧ 0 ≤ n) ∧
        flagsOf fields = ⟨word⟩ := by
  rw [optionalWord, flagsOf]
  cases Dict.get? fields flagsKey with
  | none => simp [CountFlags.empty]
  | some value =>
    cases value with
    | int n =>
      by_cases hn : n < 0
      · simp [asWord, asInt, Json.int?, bind, Except.bind, hn, Int32.not_le.mpr hn]
      · simp [asWord, asInt, Json.int?, bind, Except.bind, hn, Int32.not_lt.mp hn]
    | _ => simp [asWord, asInt, Json.int?, bind, Except.bind]

theorem get?_nameKey_eq_iff {fields : Dict Json} {name : Option String} :
    Dict.get? fields nameKey = name.map Json.str ↔
      (∀ value, Dict.get? fields nameKey = some value → ∃ name, value = .str name) ∧
        nameOf fields = name := by
  rw [nameOf]
  cases Dict.get? fields nameKey with
  | none => cases name <;> simp
  | some value => cases value <;> cases name <;> simp [Json.str?]

end Wire

namespace Decoding

open Wire

theorem containerOf_eq_ok_iff_legal {fields : Dict Json} {shell : Container} :
    containerOf fields = .ok shell ↔
      Legal fields ∧ shell = { flags := flagsOf fields, name := nameOf fields } := by
  rw [containerOf_eq_ok_iff]
  simp only [optionalWord_flagsKey_eq_ok_iff, get?_nameKey_eq_iff]
  constructor
  · rintro ⟨word, name, ⟨hlegal, hflags⟩, ⟨hname, rfl⟩, rfl⟩
    exact ⟨⟨hlegal, hname⟩, by rw [hflags]⟩
  · rintro ⟨hlegal, rfl⟩
    exact ⟨(flagsOf fields).bits, nameOf fields, ⟨hlegal.flags, rfl⟩, ⟨hlegal.name, rfl⟩, rfl⟩

/-- A null terminator describes what an empty object would. -/
theorem containerOfItems_eq_ok_iff {items : List Json} {shell : Container} :
    containerOfItems items = .ok shell ↔
      Terminated items ∧ containerOf (terminatorFields items) = .ok shell := by
  rw [containerOfItems, Terminated, terminatorFields]
  cases items.getLast? with
  | none => simp
  | some last => cases last <;> simp [containerOf, optionalWord, Dict.get?, bind, Except.bind]

end Decoding

namespace Outline

open Wire

theorem childrenOf?_eq_some_iff {items : List Json} {content : List Outline}
    {named : List (String × Outline)} :
    childrenOf? items = some (content, named) ↔
      List.Forall₂ (fun item outline => ofToken? item = some outline) items.dropLast content ∧
        namedOf? (terminatorFields items) = some named := by
  induction items generalizing content with
  | nil => simp [childrenOf?, terminatorFields, namedOf?, eq_comm]
  | cons item rest ih =>
    cases rest with
    | nil =>
      cases item with
      | obj fields =>
        cases hnamed : namedOf? fields <;> simp [childrenOf?, terminatorFields, hnamed, eq_comm]
      | _ => simp [childrenOf?, terminatorFields, namedOf?, eq_comm]
    | cons next rest =>
      have hfields : terminatorFields (item :: next :: rest) = terminatorFields (next :: rest) := by
        simp [terminatorFields, List.getLast?_cons_cons]
      rw [hfields, List.dropLast_cons_cons, List.forall₂_cons_left_iff]
      constructor
      · intro h
        obtain ⟨first, others, hfirst, rfl, hrest⟩ := exists_of_childrenOf?_cons h
        obtain ⟨hothers, hnamed⟩ := ih.mp hrest
        exact ⟨⟨first, others, hfirst, hothers, rfl⟩, hnamed⟩
      · rintro ⟨⟨first, others, hfirst, hothers, rfl⟩, hnamed⟩
        rw [childrenOf?_cons, hfirst, ih.mpr ⟨hothers, hnamed⟩]

/-- What a field of a terminator lists: a container that takes the key for its name. -/
def ListedAs (field : String × Json) (entry : String × Outline) : Prop :=
  field.1 ≠ "" ∧ ∃ own flags content named,
    ofToken? field.2 = some (container own flags content named) ∧
      entry = (field.1, container (some field.1) flags content named)

theorem namedOf?_eq_some_iff {fields : Dict Json} {named : List (String × Outline)} :
    namedOf? fields = some named ↔ List.Forall₂ ListedAs (listed fields) named := by
  induction fields generalizing named with
  | nil => simp [namedOf?, listed, Dict.filterKeys, eq_comm]
  | cons field rest ih =>
    obtain ⟨key, item⟩ := field
    by_cases hkey : key = flagsKey ∨ key = nameKey
    · rw [namedOf?_cons_reserved hkey, listed_cons, if_pos hkey, ih]
    · rw [listed_cons, if_neg hkey, List.forall₂_cons_left_iff]
      constructor
      · intro h
        obtain ⟨own, flags, content, inner, tail, hitem, hne, rfl, htail⟩ :=
          exists_of_namedOf?_cons hkey h
        have hname : key ≠ "" := by simpa using hne
        exact ⟨_, tail, ⟨hname, own, flags, content, inner, hitem, rfl⟩, ih.mp htail, rfl⟩
      · rintro ⟨_, tail, ⟨hname, own, flags, content, inner, hitem, rfl⟩, htail, rfl⟩
        have hne : ¬ key.isEmpty := by simpa using hname
        rw [namedOf?_cons hkey, hitem, ih.mpr htail]
        exact if_neg hne

theorem ofToken?_arr_eq_some_iff {items : List Json} {outline : Outline} :
    ofToken? (.arr items) = some outline ↔
      ∃ content named, Terminated items ∧ Legal (terminatorFields items) ∧
        childrenOf? items = some (content, named) ∧ (childNames content named).Nodup ∧
        outline = container (nameOf (terminatorFields items)) (flagsOf (terminatorFields items))
          content named := by
  constructor
  · intro h
    obtain ⟨shell, content, named, hshell, hread, hnames, rfl⟩ := exists_of_ofToken?_arr h
    obtain ⟨hterminated, hshell⟩ := Decoding.containerOfItems_eq_ok_iff.mp hshell
    obtain ⟨hlegal, rfl⟩ := Decoding.containerOf_eq_ok_iff_legal.mp hshell
    exact ⟨content, named, hterminated, hlegal, hread, hnames, rfl⟩
  · rintro ⟨content, named, hterminated, hlegal, hread, hnames, rfl⟩
    have hshell := Decoding.containerOfItems_eq_ok_iff.mpr
      ⟨hterminated, Decoding.containerOf_eq_ok_iff_legal.mpr ⟨hlegal, rfl⟩⟩
    simp [ofToken?, hshell, hread, hnames]

/-! ## Names -/

/-- Arrays are read as containers, and no other token is. -/
theorem cases_of_ofToken? {item : Json} {outline : Outline} (h : ofToken? item = some outline) :
    (∃ l, outline = leaf l ∧ ∀ items, item ≠ .arr items) ∨
      ∃ items flags content named, item = .arr items ∧
        outline = container (nameOf (terminatorFields items)) flags content named := by
  by_cases harr : ∃ items, item = .arr items
  · obtain ⟨items, rfl⟩ := harr
    obtain ⟨content, named, -, -, -, -, rfl⟩ := ofToken?_arr_eq_some_iff.mp h
    exact Or.inr ⟨items, _, content, named, rfl, rfl⟩
  · have hleaf : ∀ items, item ≠ .arr items := fun items heq => harr ⟨items, heq⟩
    obtain ⟨l, rfl⟩ := exists_leaf_of_ofToken? hleaf h
    exact Or.inl ⟨l, rfl, hleaf⟩

theorem validName?_of_ofToken? {item : Json} {outline : Outline}
    (h : ofToken? item = some outline) : ownName? item = outline.validName? := by
  rcases cases_of_ofToken? h with ⟨l, rfl, hleaf⟩ | ⟨items, flags, content, named, rfl, rfl⟩
  · cases item with
    | arr items => exact absurd rfl (hleaf items)
    | _ => rfl
  · rfl

/-- A field lists a child exactly when it has a key and its value is an array that is read. -/
theorem exists_listedAs_iff {field : String × Json} :
    (∃ entry, ListedAs field entry) ↔
      field.1 ≠ "" ∧ (∃ inner, field.2 = .arr inner) ∧ Readable field.2 := by
  rw [readable_iff]
  constructor
  · rintro ⟨_, hne, own, flags, content, named, hread, rfl⟩
    rcases cases_of_ofToken? hread with ⟨l, hl, -⟩ | ⟨items, _, _, _, harr, -⟩
    · cases hl
    · exact ⟨hne, ⟨items, harr⟩, _, hread⟩
  · rintro ⟨hne, ⟨inner, harr⟩, outline, hread⟩
    rcases cases_of_ofToken? hread with ⟨l, -, hleaf⟩ | ⟨items, flags, content, named, -, rfl⟩
    · exact absurd harr (hleaf inner)
    · exact ⟨_, hne, _, flags, content, named, hread, rfl⟩

theorem ListedAs.eq_rename {field : String × Json} {entry : String × Outline}
    (h : ListedAs field entry) : entry.1 = field.1 ∧
      ∃ outline, ReadAs field.2 outline ∧ entry.2 = outline.rename (some field.1) := by
  obtain ⟨-, own, flags, content, named, hread, rfl⟩ := h
  exact ⟨rfl, _, readAs_iff.mpr hread, rfl⟩

/-- The names of the children are those of the content and the keys of the terminator. -/
theorem childNames_eq {items : List Json} {content : List Outline}
    {named : List (String × Outline)}
    (hcontent : List.Forall₂ (fun item outline => ofToken? item = some outline) items.dropLast content)
    (hnamed : List.Forall₂ ListedAs (listed (terminatorFields items)) named) :
    childNames content named =
      contentNames items ++ Dict.keys (listed (terminatorFields items)) := by
  have hnames : contentNames items = content.filterMap validName? :=
    filterMap_eq_filterMap_of_forall₂ hcontent fun _ _ hread => validName?_of_ofToken? hread
  have hkeys : Dict.keys (listed (terminatorFields items)) = named.map Prod.fst :=
    map_eq_map_of_forall₂ hnamed fun _ _ hentry => hentry.eq_rename.1.symm
  rw [childNames, hnames, hkeys]

/-- The names of the children are different when those of the content are and no key is one of them. -/
theorem childNames_nodup_iff {items : List Json} {content : List Outline}
    {named : List (String × Outline)} (hkeys : (Dict.keys (terminatorFields items)).Nodup)
    (hcontent : List.Forall₂ (fun item outline => ofToken? item = some outline) items.dropLast content)
    (hnamed : List.Forall₂ ListedAs (listed (terminatorFields items)) named) :
    (childNames content named).Nodup ↔ (contentNames items).Nodup ∧
      ∀ field ∈ listed (terminatorFields items), field.1 ∉ contentNames items := by
  have hlisted : (Dict.keys (listed (terminatorFields items))).Nodup :=
    hkeys.sublist (List.filter_sublist.map Prod.fst)
  rw [childNames_eq hcontent hnamed, List.nodup_append']
  constructor
  · rintro ⟨hnames, -, hdisjoint⟩
    exact ⟨hnames, fun field hfield hin => hdisjoint hin (List.mem_map_of_mem hfield)⟩
  · rintro ⟨hnames, hfree⟩
    refine ⟨hnames, hlisted, fun name hin hkey => ?_⟩
    obtain ⟨field, hfield, rfl⟩ := List.mem_map.mp hkey
    exact hfree field hfield hin

end Outline

/-! ## What is accepted, and what it is read as -/

/-- The top of a subtree is the container that an array describes. Its children are what the items and
the fields of the terminator are read as on their own; those that are listed take their keys for names. -/
structure Subtree.Holds (subtree : Subtree) (items : List Json) (c : Container) : Prop where
  container : subtree.tree.container? subtree.id = some c
  flags : c.flags = Wire.flagsOf (Wire.terminatorFields items)
  name : c.name = Wire.nameOf (Wire.terminatorFields items)
  content : List.Forall₂ (fun item child => ∃ outline, Wire.ReadAs item outline ∧
    subtree.tree.outline? child = some outline) items.dropLast c.content
  named : List.Forall₂ (fun field entry => entry.name = field.1 ∧
    ∃ outline, Wire.ReadAs field.2 outline ∧
      subtree.tree.outline? entry.id = some (outline.rename (some field.1)))
    (Wire.listed (Wire.terminatorFields items)) c.namedOnly

namespace Wire

open Outline

variable {items : List Json}

theorem acceptable_of_readable (hkeys : (Dict.keys (terminatorFields items)).Nodup)
    (h : Readable (.arr items)) : Acceptable items := by
  obtain ⟨outline, hread⟩ := readable_iff.mp h
  obtain ⟨content, named, hterminated, hlegal, hchildren, hnames, -⟩ :=
    ofToken?_arr_eq_some_iff.mp hread
  obtain ⟨hcontent, hnamed⟩ := childrenOf?_eq_some_iff.mp hchildren
  rw [namedOf?_eq_some_iff] at hnamed
  obtain ⟨hnames, hfree⟩ := (childNames_nodup_iff hkeys hcontent hnamed).mp hnames
  refine ⟨hterminated, ?_, hnames, hlegal, ?_⟩
  · intro item hitem
    obtain ⟨first, -, hfirst⟩ := exists_of_forall₂_left hcontent hitem
    exact readable_iff.mpr ⟨first, hfirst⟩
  · intro field hfield
    obtain ⟨entry, -, hentry⟩ := exists_of_forall₂_left hnamed hfield
    obtain ⟨hne, harr, hvalue⟩ := exists_listedAs_iff.mp ⟨entry, hentry⟩
    exact ⟨hne, hfree field hfield, harr, hvalue⟩

theorem Acceptable.readable (hkeys : (Dict.keys (terminatorFields items)).Nodup)
    (h : Acceptable items) : Readable (.arr items) := by
  obtain ⟨content, hcontent⟩ := exists_forall₂ fun item hitem =>
    readable_iff.mp (h.content item hitem)
  obtain ⟨named, hnamed⟩ := exists_forall₂ fun field hfield =>
    have ⟨hne, _, harr, hvalue⟩ := h.listed field hfield
    exists_listedAs_iff.mpr ⟨hne, harr, hvalue⟩
  have hnames := (childNames_nodup_iff hkeys hcontent hnamed).mpr
    ⟨h.names, fun field hfield => (h.listed field hfield).2.1⟩
  have hchildren := childrenOf?_eq_some_iff.mpr ⟨hcontent, namedOf?_eq_some_iff.mpr hnamed⟩
  exact readable_iff.mpr
    ⟨_, ofToken?_arr_eq_some_iff.mpr ⟨content, named, h.terminated, h.legal, hchildren, hnames, rfl⟩⟩

theorem exists_holds {subtree : Subtree} (h : Subtree.ofToken (.arr items) = .ok subtree) :
    ∃ c, subtree.Holds items c := by
  obtain ⟨outline, hread, rfl⟩ := Subtree.ofToken_eq_ok_iff.mp h
  obtain ⟨content, named, -, -, hchildren, -, rfl⟩ := ofToken?_arr_eq_some_iff.mp hread
  obtain ⟨hcontent, hnamed⟩ := childrenOf?_eq_some_iff.mp hchildren
  rw [namedOf?_eq_some_iff] at hnamed
  have hout : (Tree.empty.extend ((container (nameOf (terminatorFields items))
      (flagsOf (terminatorFields items)) content named).layout none 0)).outline? 0 = some _ :=
    Tree.outline?_extend_layout none _
  rcases Tree.payload_cases_of_outline? hout with ⟨l, -, hl⟩ | ⟨c, shown, shownNamed, hc, hshows, heq⟩
  · cases hl
  · injection heq with hname hflags hsame hsameNamed
    subst hsame hsameNamed
    refine ⟨c, hc, hflags.symm, hname.symm, ?_, ?_⟩
    · exact forall₂_of_common hcontent hshows.content fun item _ child outline _ hitem hchild =>
        ⟨outline, readAs_iff.mpr hitem, hchild⟩
    · refine forall₂_of_common hnamed hshows.named fun field _ entry pair _ hfield hentry => ?_
      obtain ⟨hkey, outline, hvalue, hpair⟩ := hfield.eq_rename
      exact ⟨hentry.1.trans hkey, outline, hvalue, hpair ▸ hentry.2⟩

/-- An array is read exactly when it is acceptable, and then as the container that it describes. -/
theorem array_read_iff_acceptable (items : List Json)
    (hkeys : (Dict.keys (terminatorFields items)).Nodup) :
    (Readable (.arr items) ↔ Acceptable items) ∧
      ∀ subtree, Subtree.ofToken (.arr items) = .ok subtree → ∃ c, subtree.Holds items c :=
  ⟨⟨acceptable_of_readable hkeys, Acceptable.readable hkeys⟩, fun _ => exists_holds⟩

/-- Two knots, of which one stands in the content under the name that its terminator gives it; the
other one is listed by name only, so that the key takes the place of its name. -/
def knots : List Json :=
  [.arr [.str "\n", .obj [("#n", .str "start"), ("#f", .int 5)]], .int 3,
    .obj [("end", .arr [.str "<>", .obj [("#n", .str "start")]]), ("#f", .int 1), ("#n", .str "")]]

theorem array_read_iff_acceptable_knots :
    (Dict.keys (terminatorFields knots)).Nodup ∧ Readable (.arr knots) ∧ Acceptable knots ∧
      ∀ subtree, Subtree.ofToken (.arr knots) = .ok subtree → ∃ c, subtree.Holds knots c := by
  have hkeys : (Dict.keys (terminatorFields knots)).Nodup := by decide
  have hread : Readable (.arr knots) := ⟨_, rfl⟩
  obtain ⟨hiff, hholds⟩ := array_read_iff_acceptable knots hkeys
  exact ⟨hkeys, hread, hiff.mp hread, hholds⟩

end Wire

end Narrative
