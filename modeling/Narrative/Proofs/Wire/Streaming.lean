import Narrative.Proofs.Json.Rendering
import Narrative.Proofs.Tree.Subtree
import Narrative.Proofs.Wire.Terminator

/-!
# Subtrees, written piece by piece

Writing a subtree piece by piece is the same step as writing a token in which
every terminator has its entries one after the other, repeated keys included.
That is the stored token of the subtree unless some terminator uses a key both
for a child and for the container itself.
-/

namespace Narrative

namespace Json.Writing

theorem values_append (items more : List Json) :
    values (items ++ more) = values items >>= fun _ => values more := by
  induction items with
  | nil => rfl
  | cons item rest ih => simp only [List.cons_append, values, ih, bind_assoc]

theorem properties_append (fields more : List (String × Json)) :
    properties (fields ++ more) = properties fields >>= fun _ => properties more := by
  induction fields with
  | nil => rfl
  | cons entry rest ih => simp only [List.cons_append, properties, ih, bind_assoc]

end Json.Writing

namespace Outline

open Json Wire

mutual

/-- The token that is written for a subtree, with the entries of each terminator as they come. -/
def literal (withName : Bool) : Outline → Json
  | leaf l => l.token
  | container name flags content named =>
    .arr (literalItems content
      ++ [terminatorOf (literalNamed named) flags (if withName then name else none)])

def literalItems : List Outline → List Json
  | [] => []
  | item :: rest => literal true item :: literalItems rest

def literalNamed : List (String × Outline) → List (String × Json)
  | [] => []
  | (name, item) :: rest => (name, literal false item) :: literalNamed rest

end

theorem isEmpty_terminator (fields : Dict Json) (flags : CountFlags) (name : Option String) :
    (fields ++ ownFields flags name).isEmpty =
      (fields.isEmpty && flags.isEmpty && name.isNone) := by
  simp only [ownFields]
  cases fields <;> cases flags.isEmpty <;> cases name <;> rfl

/-- How the entries of a terminator are written. -/
theorem value_terminatorOf (fields : Dict Json) (flags : CountFlags) (name : Option String) :
    Writing.value (terminatorOf fields flags name) =
      (if fields.isEmpty && flags.isEmpty && name.isNone then Writing.null
      else do
        Writing.objectStart
        Writing.properties fields
        if flags.isEmpty then pure () else Writing.intProperty flagsKey flags.bits.toInt32
        match name with
        | some name => Writing.strProperty nameKey name
        | none => pure ()
        Writing.objectEnd) := by
  rw [terminatorOf, isEmpty_terminator]
  split
  · rfl
  · simp only [ownFields]
    cases flags.isEmpty <;> cases name <;>
      simp [Writing.value, Writing.object, Writing.properties_append, Writing.properties,
        Writing.intProperty, Writing.strProperty]

mutual

theorem stream_eq_value (withName : Bool) : ∀ outline : Outline,
    outline.stream withName = Writing.value (outline.literal withName)
  | leaf l => rfl
  | container name flags content named => by
    have hempty : named.isEmpty = (literalNamed named).isEmpty := by
      cases named <;> rfl
    simp only [stream, literal, Writing.value, Writing.array, Writing.values_append, Writing.values,
      streamItems_eq_values content, streamNamed_eq_properties named, hempty, value_terminatorOf]
    generalize (if withName then name else none) = shown
    cases shown <;> cases flags.isEmpty <;> cases (literalNamed named).isEmpty <;> simp

theorem streamItems_eq_values : ∀ content : List Outline,
    streamItems content = Writing.values (literalItems content)
  | [] => rfl
  | item :: rest => by
    rw [streamItems, literalItems, Writing.values, stream_eq_value true item,
      streamItems_eq_values rest]

theorem streamNamed_eq_properties : ∀ named : List (String × Outline),
    streamNamed named = Writing.properties (literalNamed named)
  | [] => rfl
  | (name, item) :: rest => by
    rw [streamNamed, literalNamed, Writing.properties, stream_eq_value false item,
      streamNamed_eq_properties rest]

end

/-! ## Where the written token is the stored one -/

mutual

/-- No terminator uses a key for a child and for the container itself. -/
def Unambiguous (withName : Bool) : Outline → Prop
  | leaf _ => True
  | container name flags content named =>
    (∀ entry ∈ named, entry.1 ∉ Dict.keys (ownFields flags (if withName then name else none))) ∧
      UnambiguousItems content ∧ UnambiguousNamed named

def UnambiguousItems : List Outline → Prop
  | [] => True
  | item :: rest => Unambiguous true item ∧ UnambiguousItems rest

def UnambiguousNamed : List (String × Outline) → Prop
  | [] => True
  | (_, item) :: rest => Unambiguous false item ∧ UnambiguousNamed rest

end

theorem unambiguousItems_iff {items : List Outline} :
    UnambiguousItems items ↔ ∀ item ∈ items, item.Unambiguous true := by
  induction items with
  | nil => simp [UnambiguousItems]
  | cons item rest ih => simp [UnambiguousItems, ih]

theorem unambiguousNamed_iff {named : List (String × Outline)} :
    UnambiguousNamed named ↔ ∀ entry ∈ named, entry.2.Unambiguous false := by
  induction named with
  | nil => simp [UnambiguousNamed]
  | cons entry rest ih => simp [UnambiguousNamed, ih]

mutual

/-- The written token is the stored one when the names are in order and no key is used twice. -/
theorem literal_eq_encode : ∀ {outline : Outline} {withName : Bool}, outline.WellNamed →
    outline.Unambiguous withName → outline.literal withName = outline.encode withName
  | leaf _, _, _, _ => rfl
  | container name flags content named, withName, hwell, hclear => by
    obtain ⟨⟨hnames, -⟩, hcontent, hentries⟩ := hwell
    obtain ⟨hkeys, hitems, hnamed⟩ := hclear
    have hnodup : (Dict.keys (encodeNamed named)).Nodup := by
      rw [keys_encodeNamed]
      exact hnames.of_append_right
    have hfree : ∀ key ∈ Dict.keys (encodeNamed named),
        key ∉ Dict.keys (ownFields flags (if withName then name else none)) := by
      intro key hkey
      rw [keys_encodeNamed] at hkey
      obtain ⟨entry, hentry, rfl⟩ := List.mem_map.mp hkey
      exact hkeys entry hentry
    rw [literal, encode, literalItems_eq_encodeItems hcontent hitems,
      literalNamed_eq_encodeNamed hentries hnamed, terminator_eq hnodup hfree]

theorem literalItems_eq_encodeItems : ∀ {content : List Outline},
    EverywhereItems NamesInOrder content → UnambiguousItems content →
    literalItems content = encodeItems content
  | [], _, _ => rfl
  | item :: rest, hwell, hclear => by
    rw [literalItems, encodeItems, literal_eq_encode hwell.1 hclear.1,
      literalItems_eq_encodeItems hwell.2 hclear.2]

theorem literalNamed_eq_encodeNamed : ∀ {named : List (String × Outline)},
    EverywhereNamed NamesInOrder named → UnambiguousNamed named →
    literalNamed named = encodeNamed named
  | [], _, _ => rfl
  | (name, item) :: rest, hwell, hclear => by
    rw [literalNamed, encodeNamed, literal_eq_encode hwell.1 hclear.1,
      literalNamed_eq_encodeNamed hwell.2 hclear.2]

end

end Outline

namespace Tree

variable {tree : Tree} {top id : NodeId}

/-- The own name of a container is written: at the top on demand, and below it when the container
stands in a content. -/
def NameWritten (tree : Tree) (top : NodeId) (withName : Bool) (id : NodeId) : Prop :=
  if id = top then withName = true else ∃ parent c, tree.container? parent = some c ∧ id ∈ c.content

/-- No container within a subtree that has count flags lists a child `#f` by name only, and none whose
own name is written lists a child `#n` so. -/
def Unambiguous (tree : Tree) (top : NodeId) (withName : Bool) : Prop :=
  ∀ id c, tree.Within top id → tree.container? id = some c → ∀ e ∈ c.namedOnly,
    ¬ (e.name = Wire.flagsKey ∧ c.flags.isEmpty = false) ∧
      ¬ (e.name = Wire.nameKey ∧ c.name.isSome ∧ tree.NameWritten top withName id)

theorem WellFormed.ne_of_within_child (h : tree.WellFormed) {child : NodeId}
    (hup : tree.Up child top) (hid : tree.Within child id) : id ≠ top := by
  rintro rfl
  exact h.acyclic _ (Relation.TransGen.tail' hid hup)

/-- A subtree below an unambiguous one is unambiguous; its top is written without a name when it is
listed by name only. -/
theorem Unambiguous.child (h : tree.WellFormed) {withName childWithName : Bool} {child : NodeId}
    (hclear : tree.Unambiguous top withName) (hup : tree.Up child top)
    (hname : childWithName = true → ∃ parent c, tree.container? parent = some c ∧ child ∈ c.content) :
    tree.Unambiguous child childWithName := by
  intro id c hid hc e he
  obtain ⟨hflags, hkey⟩ := hclear id c (within_iff.mpr (Or.inr ⟨child, hup, hid⟩)) hc e he
  refine ⟨hflags, fun ⟨heq, hsome, hwritten⟩ => hkey ⟨heq, hsome, ?_⟩⟩
  rw [NameWritten] at hwritten ⊢
  rw [if_neg (h.ne_of_within_child hup hid)]
  split at hwritten
  · next heq => exact heq ▸ hname hwritten
  · exact hwritten

/-- The outline of an unambiguous subtree is unambiguous. -/
theorem WellFormed.unambiguous_outline? (h : tree.WellFormed) {withName : Bool} {outline : Outline}
    (hout : tree.outline? id = some outline) (hclear : tree.Unambiguous id withName) :
    outline.Unambiguous withName := by
  induction id using h.wellFounded_up.induction generalizing outline withName with
  | _ id ih =>
    rcases payload_cases_of_outline? hout with
      ⟨l, -, rfl⟩ | ⟨c, content, named, hc, hshows, rfl⟩
    · trivial
    · refine ⟨?_, Outline.unambiguousItems_iff.mpr ?_, Outline.unambiguousNamed_iff.mpr ?_⟩
      · intro pair hpair hown
        obtain ⟨e, he, hname, -⟩ := hshows.of_mem_named hpair
        obtain ⟨hflags, hkey⟩ := hclear id c .refl hc e he
        rw [NameWritten, if_pos rfl] at hkey
        rcases Wire.mem_keys_ownFields.mp hown with ⟨heq, hsome⟩ | ⟨heq, hsome⟩
        · exact hflags ⟨hname.trans heq, hsome⟩
        · cases withName with
          | false => cases hsome
          | true => exact hkey ⟨hname.trans heq, hsome, rfl⟩
      · intro outline hmem
        obtain ⟨child, hchild, hlook⟩ := exists_of_forall₂_right hshows.content hmem
        have hup := h.parent_of_mem hc (c.mem_children.mpr (Or.inl hchild))
        exact ih child hup hlook (hclear.child h hup fun _ => ⟨id, c, hc, hchild⟩)
      · intro pair hmem
        obtain ⟨entry, hentry, -, hlook⟩ := hshows.of_mem_named hmem
        have hup := h.parent_of_mem hc
          (List.mem_append_right _ (List.mem_map.mpr ⟨entry, hentry, rfl⟩))
        exact ih entry.id hup hlook (hclear.child h hup nofun)

/-- Every subtree is written as some value, and an unambiguous one as its stored token. -/
theorem WellFormed.exists_stream? (h : tree.WellFormed) (hid : id < tree.size) (withName : Bool) :
    ∃ written stored, tree.stream? id withName = some (Json.Writing.value written) ∧
      tree.encode? id withName = some stored ∧
      (tree.Unambiguous id withName → written = stored) := by
  obtain ⟨outline, hout⟩ := h.exists_outline? hid
  refine ⟨outline.literal withName, outline.encode withName, ?_, ?_, fun hclear => ?_⟩
  · rw [stream?, hout, Option.map_some, Outline.stream_eq_value]
  · rw [encode?, hout, Option.map_some]
  · exact Outline.literal_eq_encode (h.wellNamed_of_outline? hout)
      (h.unambiguous_outline? hout hclear)

end Tree

end Narrative
