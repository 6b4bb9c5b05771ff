import Narrative.Proofs.Tree.Comparison
import Narrative.Proofs.Tree.Reachable
import Narrative.Proofs.Wire.RoundTrip

/-!
# Which subtrees a token keeps

The token of a subtree is read back as a subtree of the same structure exactly
when every node in it is storable. Nothing is said about the errors that reading
reports when some node is not.
-/

namespace Narrative

/-- A node that its token keeps, and that compares as equal to itself. -/
def Payload.Storable : Payload → Prop
  | leaf l => l.Faithful ∧ l.NotNaN
  | container c =>
    c.flags.bits.toNat < 2 ^ 31 ∧
      ∀ e ∈ c.namedOnly, e.name ≠ Wire.flagsKey ∧ e.name ≠ Wire.nameKey

theorem Leaf.faithful_of_equal {l m : Leaf} (h : l.equal m = true) (hm : m.Faithful) :
    l.Faithful := by
  rcases eq_or_float_of_equal h with rfl | ⟨x, y, rfl, rfl, -⟩
  · exact hm
  · trivial

namespace Tree

variable {tree : Tree} {id : NodeId}

theorem storable_iff_top {payload : Payload} {outline : Outline}
    (hp : tree.payload? id = some payload) (hout : tree.outline? id = some outline) :
    payload.Storable ↔ outline.FaithfulTop ∧ outline.NotNaNTop := by
  rcases payload_cases_of_outline? hout with ⟨l, hl, rfl⟩ | ⟨c, content, named, hc, hshows, rfl⟩
  · cases hp.symm.trans hl
    exact Iff.rfl
  · cases hp.symm.trans (payload?_of_container? hc)
    have hkeys : (∀ e ∈ c.namedOnly, e.name ≠ Wire.flagsKey ∧ e.name ≠ Wire.nameKey) ↔
        ∀ pair ∈ named, pair.1 ≠ Wire.flagsKey ∧ pair.1 ≠ Wire.nameKey := by
      constructor
      · intro h pair hpair
        obtain ⟨e, he, hname, -⟩ := hshows.of_mem_named hpair
        exact hname ▸ h e he
      · intro h e he
        obtain ⟨pair, hpair, hname, -⟩ := exists_of_forall₂_left hshows.named he
        exact hname ▸ h pair hpair
    simp [Payload.Storable, Outline.FaithfulTop, Outline.NotNaNTop, hkeys]

/-- Every node within a subtree is storable when its outline is faithful and has no NaN in it. -/
theorem WellFormed.storable_iff (h : tree.WellFormed) {outline : Outline}
    (hout : tree.outline? id = some outline) :
    (∀ d, tree.Within id d → ∀ payload, tree.payload? d = some payload → payload.Storable) ↔
      outline.Faithful ∧ outline.Everywhere Outline.NotNaNTop := by
  rw [Outline.Faithful, h.everywhere_iff hout, h.everywhere_iff hout]
  constructor
  · intro hall
    have hboth : ∀ d, tree.Within id d → ∀ inner, tree.outline? d = some inner →
        inner.FaithfulTop ∧ inner.NotNaNTop := by
      intro d hd inner hinner
      obtain ⟨node, hnode⟩ := tree.exists_get? (lt_size_of_outline? hinner)
      have hp : tree.payload? d = some node.payload := by simp [payload?, hnode]
      exact (storable_iff_top hp hinner).mp (hall d hd _ hp)
    exact ⟨fun d hd inner hinner => (hboth d hd inner hinner).1,
      fun d hd inner hinner => (hboth d hd inner hinner).2⟩
  · rintro ⟨hfaithful, hnumbers⟩ d hd payload hp
    obtain ⟨node, hnode, -⟩ := Option.map_eq_some_iff.mp hp
    obtain ⟨inner, hinner⟩ := h.exists_outline? (tree.lt_size_of_get? hnode)
    exact (storable_iff_top hp hinner).mpr ⟨hfaithful d hd inner hinner, hnumbers d hd inner hinner⟩

/-- A node is storable when it compares as equal to one that a token keeps. -/
theorem storable_of_sameWithin {other : Tree} {n : Nat} {image : NodeId} {payload : Payload}
    {outline : Outline} (h : tree.WellFormed) (hother : other.WellFormed)
    (hsame : tree.sameWithin other n id image = true) (hp : tree.payload? id = some payload)
    (hout : other.outline? image = some outline) (hfaithful : outline.FaithfulTop) :
    payload.Storable := by
  obtain ⟨n, rfl⟩ := pos_of_sameWithin hsame
  cases payload with
  | leaf l =>
    obtain ⟨m, hm, hequal⟩ := (sameWithin_leaf hp).mp hsame
    cases (outline?_leaf hm).symm.trans hout
    exact ⟨Leaf.faithful_of_equal hequal hfaithful, Leaf.notNaN_of_equal hequal⟩
  | container c =>
    have hc : tree.container? id = some c := by simp [container?, hp, Payload.container?]
    obtain ⟨d, hd⟩ := exists_container_of_sameWithin hc hsame
    obtain ⟨content, named, hshows, rfl⟩ := outline?_container hd hout
    obtain ⟨hflags, hkeys⟩ := hfaithful
    refine ⟨?_, fun e he => ?_⟩
    · rw [((sameWithin_container hc hd).mp hsame).2.1]
      exact hflags
    · obtain ⟨f, hf, hname⟩ := exists_namedOnly_of_sameWithin h hother hc hd hsame he
      obtain ⟨pair, hpair, hpairname, -⟩ := exists_of_forall₂_left hshows.named hf
      rw [← hname, hpairname]
      exact hkeys pair hpair

end Tree

/-- The token of a subtree is read back as a subtree of the same structure exactly when every node
within it is storable. -/
theorem Tree.reads_back_iff_storable {tree : Tree} (hreach : tree.Reachable) {id : NodeId}
    (hid : id < tree.size) :
    ∃ token, tree.encode? id true = some token ∧
      ((∃ copy, Subtree.ofToken token = .ok copy ∧
          tree.sameStructure id copy.tree copy.id = true) ↔
        ∀ d, tree.Within id d → ∀ payload, tree.payload? d = some payload → payload.Storable) := by
  have h := hreach.wellFormed
  obtain ⟨outline, hout⟩ := h.exists_outline? hid
  refine ⟨outline.encode true, by rw [Tree.encode?, hout]; rfl, ?_⟩
  rw [h.storable_iff hout]
  constructor
  · rintro ⟨copy, hcopy, hsame⟩
    obtain ⟨image, hread, rfl⟩ := Subtree.ofToken_eq_ok_iff.mp hcopy
    obtain ⟨hother, himage⟩ := Subtree.wellFormed_of_ofToken hread
    have hfaithful := (hother.everywhere_iff himage).mp (Outline.Faithful.of_ofToken? hread)
    refine (h.storable_iff hout).mp fun d hd payload hp => ?_
    obtain ⟨n, counterpart, hwithin, hlast⟩ := Tree.exists_counterpart h hother hsame hd
    obtain ⟨inner, hinner⟩ := hother.exists_outline? (Tree.lt_size_of_sameWithin hlast)
    exact Tree.storable_of_sameWithin h hother hlast hp hinner
      (hfaithful counterpart hwithin inner hinner)
  · rintro ⟨hfaithful, hnumbers⟩
    have hread := Outline.ofToken?_encode_self (h.wellNamed_of_outline? hout) hfaithful
    obtain ⟨hother, himage⟩ := Subtree.wellFormed_of_ofToken hread
    exact ⟨_, Subtree.ofToken_eq_ok_iff.mpr ⟨outline, hread, rfl⟩,
      Tree.sameStructure_of_outline? h hother hout himage hnumbers⟩

/-- A container with flags that lists a knot by name, which holds a divert to a relative path. -/
def Tree.knotCalls : List TreeCall :=
  [.add (.container { flags := .visits }) none, .add (.container { name := some "knot" }) none,
    .add (.leaf (.divert (.toPath (.relative [.parent, .index 2])))) none, .addContent 1 2,
    .addNamed 0 1]

theorem Tree.reads_back_iff_storable_knot :
    (TreeCall.runAll .empty knotCalls).Reachable ∧
      0 < (TreeCall.runAll .empty knotCalls).size ∧
      ∃ token, (TreeCall.runAll .empty knotCalls).encode? 0 true = some token ∧
        ((∃ copy, Subtree.ofToken token = .ok copy ∧
            (TreeCall.runAll .empty knotCalls).sameStructure 0 copy.tree copy.id = true) ↔
          ∀ d, (TreeCall.runAll .empty knotCalls).Within 0 d → ∀ payload,
            (TreeCall.runAll .empty knotCalls).payload? d = some payload → payload.Storable) :=
  ⟨⟨knotCalls, by decide, rfl⟩, by decide,
    reads_back_iff_storable ⟨knotCalls, by decide, rfl⟩ (by decide)⟩

end Narrative
