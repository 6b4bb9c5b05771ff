import Narrative.Proofs.Tree.Naming
import Narrative.Proofs.Wire.Fields

/-!
# What reading a token adds to a tree

`Outline.ofToken?` says what a token stands for without mentioning a tree. Reading
the token adds exactly the nodes of that outline at the end of the tree, and fails
exactly when the token stands for nothing; on failure the nodes that were there
before are untouched. The errors themselves are not the subject here.
-/

namespace Narrative

namespace Outline

mutual

/-- What a token stands for, if it stands for anything. -/
def ofToken? : Json → Option Outline
  | .null => none
  | .bool b => some (leaf (.value (.bool b)))
  | .int n => some (leaf (.value (.int n)))
  | .float x => some (leaf (.value (.float x)))
  | .str text => (Leaf.ofString text).toOption.map leaf
  | .obj fields => (Leaf.ofFields fields).toOption.map leaf
  | .arr items =>
    match Decoding.containerOfItems items, childrenOf? items with
    | .ok shell, some (content, named) =>
      if (childNames content named).Nodup then
        some (container shell.name shell.flags content named)
      else none
    | _, _ => none

/-- The children that an array describes: its content, and what its terminator lists. -/
def childrenOf? : List Json → Option (List Outline × List (String × Outline))
  | [] => some ([], [])
  | [.obj fields] => (namedOf? fields).map fun named => ([], named)
  | [_] => some ([], [])
  | item :: rest =>
    match ofToken? item, childrenOf? rest with
    | some first, some (content, named) => some (first :: content, named)
    | _, _ => none

/-- The children that a terminator lists; each takes its key for a name. -/
def namedOf? : List (String × Json) → Option (List (String × Outline))
  | [] => some []
  | (key, item) :: rest =>
    if key = Wire.flagsKey ∨ key = Wire.nameKey then namedOf? rest
    else
      match ofToken? item, namedOf? rest with
      | some (container _ flags content named), some others =>
        if key.isEmpty then none
        else some ((key, container (some key) flags content named) :: others)
      | _, _ => none

end

/-- A token that is not an array stands for a leaf, if for anything. -/
theorem exists_leaf_of_ofToken? {item : Json} (hitem : ∀ items, item ≠ .arr items)
    {outline : Outline} (h : ofToken? item = some outline) : ∃ l, outline = leaf l := by
  cases item with
  | arr items => exact absurd rfl (hitem items)
  | null => simp [ofToken?] at h
  | bool b => exact ⟨_, (Option.some.inj (ofToken?.eq_2 b ▸ h)).symm⟩
  | int n => exact ⟨_, (Option.some.inj (ofToken?.eq_3 n ▸ h)).symm⟩
  | float x => exact ⟨_, (Option.some.inj (ofToken?.eq_4 x ▸ h)).symm⟩
  | str text =>
    obtain ⟨l, -, rfl⟩ := Option.map_eq_some_iff.mp (ofToken?.eq_5 text ▸ h)
    exact ⟨l, rfl⟩
  | obj fields =>
    obtain ⟨l, -, rfl⟩ := Option.map_eq_some_iff.mp (ofToken?.eq_6 fields ▸ h)
    exact ⟨l, rfl⟩

theorem exists_of_ofToken?_arr {items : List Json} {outline : Outline}
    (h : ofToken? (.arr items) = some outline) :
    ∃ shell content named, Decoding.containerOfItems items = .ok shell ∧
      childrenOf? items = some (content, named) ∧ (childNames content named).Nodup ∧
      outline = container shell.name shell.flags content named := by
  rw [ofToken?] at h
  cases hshell : Decoding.containerOfItems items with
  | error e => simp [hshell] at h
  | ok shell =>
    cases hread : childrenOf? items with
    | none => simp [hshell, hread] at h
    | some pair =>
      obtain ⟨content, named⟩ := pair
      simp only [hshell, hread] at h
      split at h
      · next hnames => exact ⟨shell, content, named, rfl, rfl, hnames, (Option.some.inj h).symm⟩
      · cases h

theorem childrenOf?_cons (item next : Json) (rest : List Json) :
    childrenOf? (item :: next :: rest) =
      match ofToken? item, childrenOf? (next :: rest) with
      | some first, some (content, named) => some (first :: content, named)
      | _, _ => none := by
  rw [childrenOf?] <;> simp

/-- What a longer array stands for starts with what its first item stands for. -/
theorem exists_of_childrenOf?_cons {item next : Json} {rest : List Json} {content : List Outline}
    {named : List (String × Outline)}
    (h : childrenOf? (item :: next :: rest) = some (content, named)) :
    ∃ first others, ofToken? item = some first ∧ content = first :: others ∧
      childrenOf? (next :: rest) = some (others, named) := by
  rw [childrenOf?_cons] at h
  cases hfirst : ofToken? item with
  | none => simp [hfirst] at h
  | some first =>
    cases hrest : childrenOf? (next :: rest) with
    | none => simp [hfirst, hrest] at h
    | some pair =>
      simp only [hfirst, hrest] at h
      cases h
      exact ⟨first, pair.1, rfl, rfl, rfl⟩

/-- An array of one item stands for what the item lists, if it is an object. -/
theorem exists_of_childrenOf?_last {last : Json} {content : List Outline}
    {named : List (String × Outline)} (h : childrenOf? [last] = some (content, named)) :
    content = [] ∧ ((∃ fields, last = .obj fields ∧ namedOf? fields = some named) ∨ named = []) := by
  cases last with
  | obj fields =>
    rw [childrenOf?] at h
    obtain ⟨others, hothers, heq⟩ := Option.map_eq_some_iff.mp h
    cases heq
    exact ⟨rfl, Or.inl ⟨fields, rfl, hothers⟩⟩
  | _ =>
    cases h
    exact ⟨rfl, Or.inr rfl⟩

theorem namedOf?_cons_reserved {key : String} (hkey : key = Wire.flagsKey ∨ key = Wire.nameKey)
    (item : Json) (rest : List (String × Json)) : namedOf? ((key, item) :: rest) = namedOf? rest := by
  rw [namedOf?, if_pos hkey]

theorem namedOf?_cons {key : String} (hkey : ¬ (key = Wire.flagsKey ∨ key = Wire.nameKey))
    (item : Json) (rest : List (String × Json)) :
    namedOf? ((key, item) :: rest) =
      match ofToken? item, namedOf? rest with
      | some (container _ flags content named), some others =>
        if key.isEmpty then none
        else some ((key, container (some key) flags content named) :: others)
      | _, _ => none := by
  rw [namedOf?, if_neg hkey]

/-- What a longer terminator lists starts with its first child, under a key that is not empty. -/
theorem exists_of_namedOf?_cons {key : String} {item : Json} {rest : List (String × Json)}
    {others : List (String × Outline)} (hkey : ¬ (key = Wire.flagsKey ∨ key = Wire.nameKey))
    (h : namedOf? ((key, item) :: rest) = some others) :
    ∃ own flags content named tail, ofToken? item = some (container own flags content named) ∧
      ¬ key.isEmpty ∧ others = (key, container (some key) flags content named) :: tail ∧
      namedOf? rest = some tail := by
  rw [namedOf?_cons hkey] at h
  cases hfirst : ofToken? item with
  | none => simp [hfirst] at h
  | some first =>
    cases hrest : namedOf? rest with
    | none => cases first <;> simp [hfirst, hrest] at h
    | some tail =>
      cases first with
      | leaf l => simp [hfirst] at h
      | container own flags content named =>
        simp only [hfirst, hrest] at h
        split at h
        · cases h
        · next hne => exact ⟨own, flags, content, named, tail, rfl, hne, (Option.some.inj h).symm, rfl⟩

end Outline

namespace Decoding

open Outline Narrative.Tree
open Container (NamesDistinct namesDistinct_cons namesDistinct_named_cons not_namesDistinct_cons
  not_namesDistinct_named_cons)

/-- A step fails and leaves the nodes before a place as they were. -/
def FailsAbove {α : Type} (n : Nat) (step : Decoding α) (tree : Tree) : Prop :=
  ∃ error after, step tree = .error error after ∧ ∀ i < n, after.get? i = tree.get? i

theorem FailsAbove.bind {α β : Type} {n : Nat} {step : Decoding α} {tree : Tree}
    (h : FailsAbove n step tree) (next : α → Decoding β) : FailsAbove n (step >>= next) tree := by
  obtain ⟨error, after, hstep, hkeep⟩ := h
  exact ⟨error, after, by rw [Step.bind_eq, hstep], hkeep⟩

theorem FailsAbove.of_bind {α β : Type} {n : Nat} {step : Decoding α} {next : α → Decoding β}
    {tree after : Tree} {a : α} (hstep : step tree = .ok a after)
    (hkeep : ∀ i < n, after.get? i = tree.get? i) (h : FailsAbove n (next a) after) :
    FailsAbove n (step >>= next) tree := by
  obtain ⟨error, final, hnext, hlast⟩ := h
  exact ⟨error, final, by rw [Step.bind_ok hstep, hnext], fun i hi => (hlast i hi).trans (hkeep i hi)⟩

theorem FailsAbove.mono {α : Type} {m n : Nat} {step : Decoding α} {tree : Tree} (hle : m ≤ n)
    (h : FailsAbove n step tree) : FailsAbove m step tree := by
  obtain ⟨error, after, hstep, hkeep⟩ := h
  exact ⟨error, after, hstep, fun i hi => hkeep i (Nat.lt_of_lt_of_le hi hle)⟩

theorem edit_ok {α : Type} {step : Edit α} {tree after : Tree} {a : α}
    (h : step tree = .ok a after) : edit step tree = .ok a after := by
  simp [edit, h]

theorem edit_error {α : Type} {step : Edit α} {tree after : Tree} {error : TreeError}
    (h : step tree = .error error after) : edit step tree = .error (.tree error) after := by
  simp [edit, h]


theorem containerOfItems_empty {items : List Json} {shell : Container}
    (h : containerOfItems items = .ok shell) : shell.content = [] ∧ shell.table = [] := by
  rw [containerOfItems] at h
  split at h
  · cases h
  · cases h
    exact ⟨rfl, rfl⟩
  · obtain ⟨flags, name, _, _, rfl⟩ := containerOf_eq_ok_iff.mp h
    exact ⟨rfl, rfl⟩
  · cases h

theorem edit_add_leaf (l : Leaf) (tree : Tree) :
    edit (Edit.add (.leaf l)) tree =
      .ok tree.size (tree.extend ((leaf l).layout none tree.size)) := by
  rw [edit_ok (Edit.add_eq tree _ _), push_eq_extend]
  rfl

theorem leaf_spec (read : Except DecodeError Leaf) (tree : Tree) :
    (∃ l, read.toOption.map leaf = some (leaf l) ∧
      (do let l ← ofExcept read; edit (Edit.add (.leaf l)) : Decoding NodeId) tree =
        .ok tree.size (tree.extend ((leaf l).layout none tree.size))) ∨
    (read.toOption.map leaf = none ∧
      FailsAbove tree.size (do let l ← ofExcept read; edit (Edit.add (.leaf l))) tree) := by
  cases read with
  | ok l => exact Or.inl ⟨l, rfl, (Step.bind_ok rfl).trans (edit_add_leaf l tree)⟩
  | error e => exact Or.inr ⟨rfl, e, tree, rfl, fun _ _ => rfl⟩

theorem children_cons (id : NodeId) (item next : Json) (rest : List Json) :
    children id (item :: next :: rest) = (do
      let child ← token item
      edit (Edit.addContent id child)
      children id (next :: rest)) := by
  rw [children] <;> simp

theorem addUnder_eq (id : NodeId) (name : String) (child : NodeId) (tree : Tree) :
    addUnder id name child tree =
      if (tree.container? child).isNone then .error (.namedContentNotContainer name) tree
      else (do edit (Edit.setName child (some name)); edit (Edit.addNamed id child) :
        Decoding Unit) tree := by
  change (if (tree.container? child).isNone then throw (.namedContentNotContainer name)
    else do edit (Edit.setName child (some name)); edit (Edit.addNamed id child) :
      Decoding Unit) tree = _
  split <;> rfl

theorem addUnder_leaf (id : NodeId) (name : String) (l : Leaf) (tree : Tree) :
    FailsAbove tree.size (addUnder id name tree.size)
      (tree.extend ((leaf l).layout none tree.size)) := by
  have hc : (tree.extend ((leaf l).layout none tree.size)).container? tree.size = none := by
    simp [container?, payload?, get?_extend_layout, payloadAt, Payload.container?]
  exact ⟨.namedContentNotContainer name, _, by rw [addUnder_eq, hc]; rfl, fun _ _ => rfl⟩

/-- A new container that is listed by name takes the name first. -/
theorem addUnder_container (id : NodeId) (name : String) (own : Option String) (flags : CountFlags)
    (content : List Outline) (named : List (String × Outline)) (tree : Tree) :
    addUnder id name tree.size
        (tree.extend ((container own flags content named).layout none tree.size)) =
      edit (Edit.addNamed id tree.size)
        (tree.extend ((container (some name) flags content named).layout none tree.size)) := by
  have hc : ((tree.extend ((container own flags content named).layout none tree.size)).container?
      tree.size).isNone = false := by
    simp [container?, payload?, get?_extend_layout, payloadAt, Payload.container?]
  rw [addUnder_eq, hc, if_neg Bool.false_ne_true]
  exact Step.bind_ok (edit_ok (Edit.setName_planted (some name) own flags content named))

theorem addUnder_planted {tree : Tree} {id : NodeId} {c : Container} (h : Open tree id c)
    {name : String} (hne : ¬ name.isEmpty) (hfree : name ∉ c.table.map NamedEntry.name)
    (own : Option String) (flags : CountFlags) (content : List Outline)
    (named : List (String × Outline)) :
    addUnder id name tree.size
        (tree.extend ((container own flags content named).layout none tree.size)) =
      .ok () (tree.grown id [] [(name, container (some name) flags content named)]) := by
  rw [addUnder_container]
  exact edit_ok (Edit.addNamed_planted h.root h.container h.ids
    (validName?_container_some hne flags content named) hfree)

theorem addUnder_refused {tree : Tree} {id : NodeId} {c : Container} (h : Open tree id c)
    {name : String} (hbad : ¬ name.isEmpty → name ∈ c.table.map NamedEntry.name)
    (own : Option String) (flags : CountFlags) (content : List Outline)
    (named : List (String × Outline)) :
    FailsAbove tree.size (addUnder id name tree.size)
      (tree.extend ((container own flags content named).layout none tree.size)) := by
  have htaken : ∀ other, (container (some name) flags content named).validName? = some other →
      other ∈ c.table.map NamedEntry.name := by
    intro other hother
    obtain ⟨rfl, hne⟩ : name = other ∧ ¬ other.isEmpty := by
      simpa [Outline.validName?, Container.validName?, Option.filter_eq_some_iff] using hother
    exact hbad hne
  obtain ⟨error, herror⟩ := Edit.addNamed_refused h.root h.container h.ids
    (container (some name) flags content named) htaken
  refine ⟨.tree error, _, (addUnder_container ..).trans (edit_error herror), ?_⟩
  intro i hi
  rw [tree.get?_extend_old hi, tree.get?_extend_old hi]

mutual

theorem token_spec : ∀ (item : Json) (tree : Tree),
    (∃ outline, ofToken? item = some outline ∧
      token item tree = .ok tree.size (tree.extend (outline.layout none tree.size))) ∨
    (ofToken? item = none ∧ FailsAbove tree.size (token item) tree)
  | .null, tree => Or.inr ⟨by simp [ofToken?], _, tree, rfl, fun _ _ => rfl⟩
  | .bool _, tree => Or.inl ⟨_, by rw [ofToken?], edit_add_leaf _ tree⟩
  | .int _, tree => Or.inl ⟨_, by rw [ofToken?], edit_add_leaf _ tree⟩
  | .float _, tree => Or.inl ⟨_, by rw [ofToken?], edit_add_leaf _ tree⟩
  | .str text, tree => by
    rw [ofToken?, token]
    rcases leaf_spec (Leaf.ofString text) tree with ⟨l, hl, hstep⟩ | hfail
    · exact Or.inl ⟨leaf l, hl, hstep⟩
    · exact Or.inr hfail
  | .obj fields, tree => by
    rw [ofToken?, token]
    rcases leaf_spec (Leaf.ofFields fields) tree with ⟨l, hl, hstep⟩ | hfail
    · exact Or.inl ⟨leaf l, hl, hstep⟩
    · exact Or.inr hfail
  | .arr items, tree => by
    rw [ofToken?, token]
    cases hshell : containerOfItems items with
    | error e => exact Or.inr ⟨rfl, e, tree, rfl, fun _ _ => rfl⟩
    | ok shell =>
      obtain ⟨hcontent, htable⟩ := containerOfItems_empty hshell
      have hpush : edit (Edit.add (.container shell)) tree =
          .ok tree.size (tree.push (.container shell) none) := edit_ok (Edit.add_eq tree _ _)
      have hkeep : ∀ i < tree.size,
          (tree.push (.container shell) none).get? i = tree.get? i := fun i hi => by
        rw [get?_push, if_neg (Nat.ne_of_lt hi)]
      have hdistinct : ∀ content named, NamesDistinct shell content named ↔
          (childNames content named).Nodup := fun content named => by
        simp [NamesDistinct, htable]
      rcases children_spec items (Open.push tree hcontent htable) with
        ⟨content, named, hread, hnames, hstep⟩ | ⟨hnone, hfail⟩
      · refine Or.inl ⟨container shell.name shell.flags content named, ?_, ?_⟩
        · simp [hread, (hdistinct content named).mp hnames]
        · rw [push_grown hcontent htable] at hstep
          exact (Step.bind_ok rfl).trans ((Step.bind_ok hpush).trans (Step.bind_ok hstep))
      · refine Or.inr ⟨?_, ?_⟩
        · cases hread : childrenOf? items with
          | none => rfl
          | some pair =>
            obtain ⟨content, named⟩ := pair
            have hclash := (not_congr (hdistinct content named)).mp (hnone content named hread)
            simp [hclash]
        · refine FailsAbove.of_bind (a := shell) rfl (fun _ _ => rfl) ?_
          exact FailsAbove.of_bind hpush hkeep (hfail.bind _)

theorem children_spec : ∀ (items : List Json) {tree : Tree} {id : NodeId} {c : Container},
    Open tree id c →
    (∃ content named, childrenOf? items = some (content, named) ∧ NamesDistinct c content named ∧
      children id items tree = .ok () (tree.grown id content named)) ∨
    ((∀ content named, childrenOf? items = some (content, named) →
      ¬ NamesDistinct c content named) ∧ FailsAbove id (children id items) tree)
  | [], tree, id, c, h =>
    Or.inl ⟨[], [], by rw [childrenOf?], h.namesDistinct_nil, by rw [grown_nil]; rfl⟩
  | [last], tree, id, c, h => by
    cases last with
    | obj fields =>
      rw [childrenOf?, children]
      rcases named_spec fields h with ⟨others, hread, hnames, hstep⟩ | ⟨hnone, hfail⟩
      · exact Or.inl ⟨[], others, by rw [hread]; rfl, hnames, hstep⟩
      · refine Or.inr ⟨?_, hfail⟩
        intro content named hread
        obtain ⟨others, hothers, heq⟩ := Option.map_eq_some_iff.mp hread
        cases heq
        exact hnone _ hothers
    | _ => exact Or.inl ⟨[], [], rfl, h.namesDistinct_nil, by rw [grown_nil]; rfl⟩
  | item :: next :: rest, tree, id, c, h => by
    rw [children_cons]
    rcases token_spec item tree with ⟨first, hfirst, hitem⟩ | ⟨hnone, hfail⟩
    · have hkeep : ∀ i < id, (tree.extend (first.layout none tree.size)).get? i = tree.get? i :=
        fun i hi => tree.get?_extend_old (Nat.lt_trans hi h.lt_size)
      by_cases hclash : ∃ name, first.validName? = some name ∧ name ∈ c.table.map NamedEntry.name
      · obtain ⟨name, hname, hin⟩ := hclash
        refine Or.inr ⟨?_, ?_⟩
        · intro content named hread hdistinct
          obtain ⟨_, others, hsame, rfl, -⟩ := exists_of_childrenOf?_cons hread
          cases hfirst.symm.trans hsame
          exact not_namesDistinct_cons hname hin _ _ hdistinct
        · refine FailsAbove.of_bind hitem hkeep (FailsAbove.bind ⟨_, _, edit_error
            (Edit.addContent_clash h.root h.container h.ids hname hin), fun _ _ => rfl⟩ _)
      · have hfree : ∀ name, first.validName? = some name →
            name ∉ c.table.map NamedEntry.name := fun name hname hin => hclash ⟨name, hname, hin⟩
        have hadd := edit_ok (Edit.addContent_planted h.root h.container h.ids first hfree)
        have hagree : ∀ i < id, (tree.grown id [first] []).get? i =
            (tree.extend (first.layout none tree.size)).get? i := fun i hi =>
          (get?_grown (Nat.lt_trans hi h.lt_size) (Nat.ne_of_lt hi) _ _).trans (hkeep i hi).symm
        rcases children_spec (next :: rest) (h.grown_content first hfree) with
          ⟨content, named, hread, hnames, hstep⟩ | ⟨hnone, hfail⟩
        · refine Or.inl ⟨first :: content, named, by rw [childrenOf?_cons, hfirst, hread], ?_, ?_⟩
          · exact (namesDistinct_cons c tree.size first content named).mp hnames
          · rw [grown_cons h.lt_size] at hstep
            exact (Step.bind_ok hitem).trans ((Step.bind_ok hadd).trans hstep)
        · refine Or.inr ⟨?_, ?_⟩
          · intro content named hread
            obtain ⟨_, others, hsame, rfl, hrest⟩ := exists_of_childrenOf?_cons hread
            cases hfirst.symm.trans hsame
            exact fun hdistinct => hnone others named hrest
              ((namesDistinct_cons c tree.size first others named).mpr hdistinct)
          · exact FailsAbove.of_bind hitem hkeep (FailsAbove.of_bind hadd hagree hfail)
    · refine Or.inr ⟨?_, (hfail.mono (Nat.le_of_lt h.lt_size)).bind _⟩
      simp [childrenOf?_cons, hnone]

theorem named_spec : ∀ (fields : List (String × Json)) {tree : Tree} {id : NodeId} {c : Container},
    Open tree id c →
    (∃ others, namedOf? fields = some others ∧ NamesDistinct c [] others ∧
      named id fields tree = .ok () (tree.grown id [] others)) ∨
    ((∀ others, namedOf? fields = some others → ¬ NamesDistinct c [] others) ∧
      FailsAbove id (named id fields) tree)
  | [], tree, id, c, h =>
    Or.inl ⟨[], by rw [namedOf?], h.namesDistinct_nil, by rw [grown_nil]; rfl⟩
  | (key, item) :: rest, tree, id, c, h => by
    rw [named]
    by_cases hkey : key = Wire.flagsKey ∨ key = Wire.nameKey
    · rw [namedOf?_cons_reserved hkey, if_pos hkey]
      rcases named_spec rest h with ⟨others, hread, hnames, hstep⟩ | ⟨hnone, hfail⟩
      · exact Or.inl ⟨others, hread, hnames, hstep⟩
      · exact Or.inr ⟨hnone, hfail⟩
    · rw [if_neg hkey]
      rcases token_spec item tree with ⟨first, hfirst, hitem⟩ | ⟨hnone, hfail⟩
      · have hkeep : ∀ i < id, (tree.extend (first.layout none tree.size)).get? i = tree.get? i :=
          fun i hi => tree.get?_extend_old (Nat.lt_trans hi h.lt_size)
        cases first with
        | leaf l =>
          refine Or.inr ⟨by simp [namedOf?_cons hkey, hfirst], FailsAbove.of_bind hitem hkeep ?_⟩
          exact ((addUnder_leaf id key l tree).mono (Nat.le_of_lt h.lt_size)).bind _
        | container own flags content named =>
          by_cases hbad : ¬ key.isEmpty → key ∈ c.table.map NamedEntry.name
          · refine Or.inr ⟨?_, FailsAbove.of_bind hitem hkeep ?_⟩
            · intro others hread hdistinct
              obtain ⟨_, _, _, _, tail, _, hne, rfl, _⟩ := exists_of_namedOf?_cons hkey hread
              exact not_namesDistinct_named_cons (hbad hne) _ hdistinct
            · exact ((addUnder_refused h hbad own flags content named).mono
                (Nat.le_of_lt h.lt_size)).bind _
          · obtain ⟨hne, hfree⟩ := Classical.not_imp.mp hbad
            have hadd := addUnder_planted h hne hfree own flags content named
            have hagree : ∀ i < id,
                (tree.grown id [] [(key, container (some key) flags content named)]).get? i =
                  (tree.extend ((container own flags content named).layout none tree.size)).get? i :=
              fun i hi =>
                (get?_grown (Nat.lt_trans hi h.lt_size) (Nat.ne_of_lt hi) _ _).trans (hkeep i hi).symm
            rcases named_spec rest (h.grown_named (container (some key) flags content named) hfree)
              with ⟨others, hread, hnames, hstep⟩ | ⟨hnone, hfail⟩
            · refine Or.inl ⟨_, by rw [namedOf?_cons hkey, hfirst, hread]; exact if_neg hne,
                (namesDistinct_named_cons _ _ _ _).mp hnames, ?_⟩
              rw [grown_named_cons h.lt_size] at hstep
              exact (Step.bind_ok hitem).trans ((Step.bind_ok hadd).trans hstep)
            · refine Or.inr ⟨?_, ?_⟩
              · intro others hread
                obtain ⟨_, _, _, _, tail, hsame, _, rfl, htail⟩ := exists_of_namedOf?_cons hkey hread
                cases hfirst.symm.trans hsame
                exact fun hdistinct =>
                  hnone tail htail ((namesDistinct_named_cons _ _ _ _).mpr hdistinct)
              · exact FailsAbove.of_bind hitem hkeep (FailsAbove.of_bind hadd hagree hfail)
      · refine Or.inr ⟨by simp [namedOf?_cons hkey, hnone], ?_⟩
        exact (hfail.mono (Nat.le_of_lt h.lt_size)).bind _

end

/-! ## Reading all or nothing -/

theorem orRollBack_of_ok {α : Type} {step : Decoding α} {tree after : Tree} {a : α}
    (h : step tree = .ok a after) : orRollBack step tree = .ok a after := by
  simp [orRollBack, h]

/-- A refused reading leaves the tree exactly as it was. -/
theorem orRollBack_of_failsAbove {α : Type} {step : Decoding α} {tree : Tree}
    (h : FailsAbove tree.size step tree) : ∃ error, orRollBack step tree = .error error tree := by
  obtain ⟨error, after, hstep, hkeep⟩ := h
  have hcut : after.truncate tree.size = tree := by
    apply ext_get?
    intro i
    rw [get?_truncate]
    split
    · next hi => exact hkeep i hi
    · next hi => exact ((tree.get?_eq_none_iff i).mpr (Nat.not_lt.mp hi)).symm
  exact ⟨error, by simp [orRollBack, hstep, hcut]⟩

theorem readObject_spec (item : Json) (tree : Tree) :
    (∃ outline, ofToken? item = some outline ∧
      readObject item tree = .ok tree.size (tree.extend (outline.layout none tree.size))) ∨
    (ofToken? item = none ∧ ∃ error, readObject item tree = .error error tree) := by
  rcases token_spec item tree with ⟨outline, hread, hstep⟩ | ⟨hnone, hfail⟩
  · exact Or.inl ⟨outline, hread, orRollBack_of_ok hstep⟩
  · exact Or.inr ⟨hnone, orRollBack_of_failsAbove hfail⟩

theorem tokens_spec (items : List Json) (tree : Tree) :
    (∃ outlines, items.mapM ofToken? = some outlines ∧
      tokens items tree =
        .ok (places tree.size outlines) (tree.extend (layoutItems none tree.size outlines))) ∨
    (items.mapM ofToken? = none ∧ FailsAbove tree.size (tokens items) tree) := by
  induction items generalizing tree with
  | nil => exact Or.inl ⟨[], rfl, by rw [layoutItems, extend_nil]; rfl⟩
  | cons item rest ih =>
    rw [List.mapM_cons, tokens]
    rcases token_spec item tree with ⟨first, hfirst, hitem⟩ | ⟨hnone, hfail⟩
    · rw [hfirst]
      have hkeep : ∀ i < tree.size,
          (tree.extend (first.layout none tree.size)).get? i = tree.get? i :=
        fun i hi => tree.get?_extend_old hi
      have hsize : (tree.extend (first.layout none tree.size)).size = tree.size + first.size := by
        rw [size_extend, length_layout]
      rcases ih (tree.extend (first.layout none tree.size)) with
        ⟨others, hread, hstep⟩ | ⟨hnone, hfail⟩
      · refine Or.inl ⟨first :: others, by rw [hread]; rfl, ?_⟩
        rw [hsize, extend_extend] at hstep
        exact (Step.bind_ok hitem).trans (Step.bind_ok hstep)
      · refine Or.inr ⟨by rw [hnone]; rfl, FailsAbove.of_bind hitem hkeep ?_⟩
        exact (hfail.mono (by rw [hsize]; exact Nat.le_add_right _ _)).bind _
    · exact Or.inr ⟨by rw [hnone]; rfl, hfail.bind _⟩

/-- Reading named tokens is reading the tokens and keeping the names. -/
theorem entries_eq (fields : List (String × Json)) (tree : Tree) :
    Decoding.entries fields tree =
      match tokens (fields.map Prod.snd) tree with
      | .ok ids after => .ok ((fields.map Prod.fst).zip ids) after
      | .error error after => .error error after := by
  induction fields generalizing tree with
  | nil => rfl
  | cons field rest ih =>
    obtain ⟨name, item⟩ := field
    rw [Decoding.entries, List.map_cons, tokens, Step.bind_eq, Step.bind_eq]
    cases token item tree with
    | error error after => rfl
    | ok id after =>
      simp only [Step.bind_eq, ih]
      cases tokens (rest.map Prod.snd) after <;> rfl

theorem readList_spec (items : List Json) (tree : Tree) :
    (∃ outlines, items.mapM ofToken? = some outlines ∧
      readList items tree =
        .ok (places tree.size outlines) (tree.extend (layoutItems none tree.size outlines))) ∨
    (items.mapM ofToken? = none ∧ ∃ error, readList items tree = .error error tree) := by
  rcases tokens_spec items tree with ⟨outlines, hread, hstep⟩ | ⟨hnone, hfail⟩
  · exact Or.inl ⟨outlines, hread, orRollBack_of_ok hstep⟩
  · exact Or.inr ⟨hnone, orRollBack_of_failsAbove hfail⟩

theorem readDict_spec (fields : Dict Json) (tree : Tree) :
    (∃ outlines, (fields.map Prod.snd).mapM ofToken? = some outlines ∧
      readDict fields tree =
        .ok ((fields.map Prod.fst).zip (places tree.size outlines))
          (tree.extend (layoutItems none tree.size outlines))) ∨
    ((fields.map Prod.snd).mapM ofToken? = none ∧
      ∃ error, readDict fields tree = .error error tree) := by
  rcases tokens_spec (fields.map Prod.snd) tree with ⟨outlines, hread, hstep⟩ | ⟨hnone, hfail⟩
  · exact Or.inl ⟨outlines, hread, orRollBack_of_ok (by rw [entries_eq, hstep])⟩
  · obtain ⟨error, after, hstep, hkeep⟩ := hfail
    exact Or.inr ⟨hnone, orRollBack_of_failsAbove ⟨error, after, by rw [entries_eq, hstep], hkeep⟩⟩

end Decoding

/-! ## The names of what is read -/

namespace Outline

/-- The children that a terminator lists are listed under their own names, and not under the keys of
flags and name. -/
theorem keys_of_namedOf? : ∀ {fields : List (String × Json)} {named : List (String × Outline)},
    namedOf? fields = some named → ∀ entry ∈ named,
      entry.2.validName? = some entry.1 ∧ entry.1 ≠ Wire.flagsKey ∧ entry.1 ≠ Wire.nameKey := by
  intro fields
  induction fields with
  | nil =>
    intro named h
    simp_all [namedOf?]
  | cons field rest ih =>
    obtain ⟨key, item⟩ := field
    intro named h
    by_cases hkey : key = Wire.flagsKey ∨ key = Wire.nameKey
    · exact ih (namedOf?_cons_reserved hkey item rest ▸ h)
    · obtain ⟨_, _, _, _, tail, _, hne, rfl, htail⟩ := exists_of_namedOf?_cons hkey h
      intro entry hentry
      rcases List.mem_cons.mp hentry with rfl | hentry
      · exact ⟨validName?_container_some hne _ _ _, fun h => hkey (Or.inl h), fun h => hkey (Or.inr h)⟩
      · exact ih htail entry hentry

theorem keys_of_childrenOf? : ∀ {items : List Json} {content : List Outline}
    {named : List (String × Outline)}, childrenOf? items = some (content, named) →
    ∀ entry ∈ named,
      entry.2.validName? = some entry.1 ∧ entry.1 ≠ Wire.flagsKey ∧ entry.1 ≠ Wire.nameKey := by
  intro items
  induction items with
  | nil =>
    intro content named h
    simp_all [childrenOf?]
  | cons item rest ih =>
    intro content named h
    cases rest with
    | nil =>
      obtain ⟨-, ⟨fields, -, hnamed⟩ | rfl⟩ := exists_of_childrenOf?_last h
      · exact keys_of_namedOf? hnamed
      · simp
    | cons next rest =>
      obtain ⟨first, others, -, rfl, hrest⟩ := exists_of_childrenOf?_cons h
      exact ih hrest

/-- A condition that every leaf that is read satisfies, and every container, whatever its name. -/
structure HoldsOfRead (P : Outline → Prop) : Prop where
  ofLeaf : ∀ {item : Json} {l : Leaf}, ofToken? item = some (leaf l) → P (leaf l)
  ofContainer : ∀ {items : List Json} {shell : Container} {content : List Outline}
    {named : List (String × Outline)}, Decoding.containerOfItems items = .ok shell →
    childrenOf? items = some (content, named) → (childNames content named).Nodup →
    ∀ name, P (container name shell.flags content named)

theorem HoldsOfRead.everywhere_leaf {P : Outline → Prop} (hP : HoldsOfRead P) {item : Json}
    (hitem : ∀ items, item ≠ .arr items) {outline : Outline} (h : ofToken? item = some outline)
    {name : Option String} : (outline.rename name).Everywhere P := by
  obtain ⟨l, rfl⟩ := exists_leaf_of_ofToken? hitem h
  exact hP.ofLeaf h

mutual

theorem HoldsOfRead.everywhere {P : Outline → Prop} (hP : HoldsOfRead P) :
    ∀ {item : Json} {outline : Outline},
    ofToken? item = some outline → ∀ name, (outline.rename name).Everywhere P
  | .arr items, outline, h, name => by
    obtain ⟨shell, content, named, hshell, hread, hnames, rfl⟩ := exists_of_ofToken?_arr h
    have htop := hP.ofContainer hshell hread hnames name
    exact ⟨htop, hP.everywhereChildren hread⟩
  | .null, _, h, _ => hP.everywhere_leaf (fun _ => Json.noConfusion) h
  | .bool _, _, h, _ => hP.everywhere_leaf (fun _ => Json.noConfusion) h
  | .int _, _, h, _ => hP.everywhere_leaf (fun _ => Json.noConfusion) h
  | .float _, _, h, _ => hP.everywhere_leaf (fun _ => Json.noConfusion) h
  | .str _, _, h, _ => hP.everywhere_leaf (fun _ => Json.noConfusion) h
  | .obj _, _, h, _ => hP.everywhere_leaf (fun _ => Json.noConfusion) h

theorem HoldsOfRead.everywhereChildren {P : Outline → Prop} (hP : HoldsOfRead P) :
    ∀ {items : List Json} {content : List Outline}
    {named : List (String × Outline)}, childrenOf? items = some (content, named) →
    EverywhereItems P content ∧ EverywhereNamed P named
  | [], content, named, h => by
    rw [childrenOf?] at h
    cases h
    exact ⟨trivial, trivial⟩
  | [last], content, named, h => by
    obtain ⟨rfl, ⟨fields, rfl, hnamed⟩ | rfl⟩ := exists_of_childrenOf?_last h
    · exact ⟨trivial, hP.everywhereNamed hnamed⟩
    · exact ⟨trivial, trivial⟩
  | item :: next :: rest, content, named, h => by
    obtain ⟨first, others, hfirst, rfl, hrest⟩ := exists_of_childrenOf?_cons h
    obtain ⟨hcontent, hnamed⟩ := hP.everywhereChildren hrest
    exact ⟨⟨first.rename_name? ▸ hP.everywhere hfirst first.name?, hcontent⟩, hnamed⟩

theorem HoldsOfRead.everywhereNamed {P : Outline → Prop} (hP : HoldsOfRead P) :
    ∀ {fields : List (String × Json)}
    {named : List (String × Outline)}, namedOf? fields = some named → EverywhereNamed P named
  | [], named, h => by
    rw [namedOf?] at h
    cases h
    trivial
  | (key, item) :: rest, named, h => by
    by_cases hkey : key = Wire.flagsKey ∨ key = Wire.nameKey
    · exact hP.everywhereNamed (namedOf?_cons_reserved hkey item rest ▸ h)
    · obtain ⟨_, _, _, _, tail, hfirst, _, rfl, htail⟩ := exists_of_namedOf?_cons hkey h
      exact ⟨hP.everywhere hfirst (some key), hP.everywhereNamed htail⟩

end

theorem HoldsOfRead.everywhere_self {P : Outline → Prop} (hP : HoldsOfRead P) {item : Json}
    {outline : Outline} (h : ofToken? item = some outline) : outline.Everywhere P :=
  outline.rename_name? ▸ hP.everywhere h outline.name?

theorem namesInOrder_holdsOfRead : HoldsOfRead NamesInOrder where
  ofLeaf _ := trivial
  ofContainer _ hread hnames _ :=
    ⟨hnames, fun entry hentry => (keys_of_childrenOf? hread entry hentry).1⟩

theorem WellNamed.of_ofToken? {item : Json} {outline : Outline}
    (h : ofToken? item = some outline) : outline.WellNamed :=
  namesInOrder_holdsOfRead.everywhere_self h

end Outline

/-- Reading a token into a tree of its own gives the layout of what the token stands for. -/
theorem Subtree.ofToken_eq_ok_iff {item : Json} {subtree : Subtree} :
    Subtree.ofToken item = .ok subtree ↔
      ∃ outline, Outline.ofToken? item = some outline ∧
        subtree = { tree := Tree.empty.extend (outline.layout none 0), id := 0 } := by
  rcases Decoding.readObject_spec item Tree.empty with ⟨outline, hread, hstep⟩ | ⟨hnone, e, hstep⟩
  · simp only [Subtree.ofToken, EStateM.run, hstep, hread, Except.ok.injEq, Option.some.injEq]
    constructor
    · rintro rfl
      exact ⟨outline, rfl, rfl⟩
    · rintro ⟨_, rfl, rfl⟩
      rfl
  · simp [Subtree.ofToken, EStateM.run, hstep, hnone]

end Narrative
