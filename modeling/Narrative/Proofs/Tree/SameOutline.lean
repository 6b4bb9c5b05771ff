import Narrative.Proofs.Tree.Addresses
import Narrative.Proofs.Tree.Alike

/-!
# Nodes with the same outline

Where one tree has a node, another one may have a node with the same outline. An
address that only leads downward then leads from the one and from the other to
nodes that have the same outline again, and what compares as equal to the one
compares as equal to the other.
-/

namespace Narrative

namespace Tree

variable {a b : Tree} {x y : NodeId}

/-- A node of one tree and a node of another have the same outline. -/
def SameOutline (a b : Tree) (x y : NodeId) : Prop :=
  ∃ outline, a.outline? x = some outline ∧ b.outline? y = some outline

namespace SameOutline

theorem exists_container (h : SameOutline a b x y) {c : Container} (hc : a.container? x = some c) :
    ∃ d content named, b.container? y = some d ∧ c.name = d.name ∧ c.flags = d.flags ∧
      Shows a.outline? c content named ∧ Shows b.outline? d content named := by
  obtain ⟨outline, hx, hy⟩ := h
  obtain ⟨content, named, hshows, rfl⟩ := outline?_container hc hx
  rcases payload_cases_of_outline? hy with ⟨l, -, heq⟩ | ⟨d, content', named', hd, hshows', heq⟩
  · cases heq
  · injection heq with hname hflags hcontent hnamed
    subst hcontent hnamed
    exact ⟨d, content, named, hd, hname, hflags, hshows, hshows'⟩

theorem payload?_leaf (h : SameOutline a b x y) {l : Leaf} (hx : a.payload? x = some (.leaf l)) :
    b.payload? y = some (.leaf l) := by
  obtain ⟨outline, hout, hy⟩ := h
  cases (outline?_leaf hx).symm.trans hout
  rcases payload_cases_of_outline? hy with ⟨m, hm, heq⟩ | ⟨_, _, _, -, -, heq⟩
  · cases heq
    exact hm
  · cases heq

/-- Where one step down leads, the same step leads from the other node. -/
theorem exists_step (ha : a.WellFormed) (hb : b.WellFormed) (h : SameOutline a b x y)
    {component : Component} (hdown : component ≠ .parent) {p : NodeId}
    (hp : a.step? x component = some p) :
    ∃ q, b.step? y component = some q ∧ SameOutline a b p q := by
  cases component with
  | parent => exact absurd rfl hdown
  | index position =>
    rw [step?, Tree.content] at hp
    cases hc : a.container? x with
    | none => simp [hc] at hp
    | some c =>
      obtain ⟨d, content, named, hd, -, -, hshows, hshows'⟩ := h.exists_container hc
      have hsame : List.Forall₂ (SameOutline a b) c.content d.content :=
        forall₂_of_common hshows.content hshows'.content
          fun _ _ _ outline _ hout hout' => ⟨outline, hout, hout'⟩
      rw [hc] at hp
      rw [step?, Tree.content, hd]
      rcases rel_cases (rel_getElem? hsame position) with ⟨hnone, -⟩ | ⟨p', q, hp', hq, hpq⟩
      · cases hnone.symm.trans hp
      · cases hp'.symm.trans hp
        exact ⟨q, hq, hpq⟩
  | name name =>
    obtain ⟨c, hc, hfound⟩ := Option.bind_eq_some_iff.mp hp
    obtain ⟨d, content, named, hd, -, -, hshows, hshows'⟩ := h.exists_container hc
    obtain ⟨e, he, rfl, rfl⟩ := Container.exists_of_namedChild? hfound
    have htidy := ha.tidy x c hc
    have htidy' := hb.tidy y d hd
    have hentry : ∃ f ∈ d.table, f.name = e.name ∧ SameOutline a b e.id f.id := by
      cases hpositional : e.positional with
      | true =>
        obtain ⟨outline, hmem, hout⟩ := exists_of_forall₂_left hshows.content
          ((htidy.positional_iff e he).mp hpositional)
        obtain ⟨q, hq, hout'⟩ := exists_of_forall₂_right hshows'.content hmem
        have hvalid : b.validName? q = some e.name := by
          rw [← validName?_of_outline? hout', validName?_of_outline? hout, htidy.named e he]
        obtain ⟨f, hf, rfl⟩ := htidy'.entered q hq e.name hvalid
        exact ⟨f, hf, Option.some.inj ((htidy'.named f hf).symm.trans hvalid), outline, hout, hout'⟩
      | false =>
        have hnamed : e ∈ c.namedOnly := List.mem_filter.mpr ⟨he, by rw [hpositional]; rfl⟩
        obtain ⟨pair, hpair, hname, hout⟩ := exists_of_forall₂_left hshows.named hnamed
        obtain ⟨f, hf, hname', hout'⟩ := hshows'.of_mem_named hpair
        exact ⟨f, (List.mem_filter.mp hf).1, hname'.trans hname.symm, pair.2, hout, hout'⟩
    obtain ⟨f, hf, hname, hsame⟩ := hentry
    refine ⟨f.id, ?_, hsame⟩
    rw [step?, namedChild?, hd, ← hname]
    exact htidy'.namedChild?_of_mem hf

theorem exists_follow (ha : a.WellFormed) (hb : b.WellFormed) (h : SameOutline a b x y)
    {components : List Component} (hdown : ∀ component ∈ components, component ≠ .parent)
    {p : NodeId} (hp : a.follow? x components = some p) :
    ∃ q, b.follow? y components = some q ∧ SameOutline a b p q := by
  induction components generalizing x y with
  | nil =>
    cases hp
    exact ⟨y, rfl, h⟩
  | cons component rest ih =>
    rw [List.forall_mem_cons] at hdown
    rw [follow?] at hp ⊢
    cases hstep : a.step? x component with
    | none => simp [hstep] at hp
    | some next =>
      obtain ⟨next', hstep', hsame⟩ := h.exists_step ha hb hdown.1 hstep
      rw [hstep] at hp
      rw [hstep']
      exact ih hsame hdown.2 hp

/-- What a subtree compares as equal to may be replaced by one with the same outline. -/
theorem sameWithin (ha : a.WellFormed) (hb : b.WellFormed) (h : SameOutline a b x y) {tree : Tree}
    {fuel : Nat} {id : NodeId} (hid : tree.sameWithin a fuel id x = true) :
    tree.sameWithin b fuel id y = true := by
  induction fuel generalizing id x y with
  | zero => cases hid
  | succ fuel ih =>
    cases hp : tree.payload? id with
    | none => simp [Tree.sameWithin, hp] at hid
    | some payload =>
      cases payload with
      | leaf l =>
        obtain ⟨m, hm, hequal⟩ := (sameWithin_leaf hp).mp hid
        exact (sameWithin_leaf hp).mpr ⟨m, h.payload?_leaf hm, hequal⟩
      | container k =>
        have hk : tree.container? id = some k := by simp [container?, hp, Payload.container?]
        obtain ⟨c, hc⟩ := exists_container_of_sameWithin hk hid
        obtain ⟨hname, hflags, hcontent, hcount, hnamed⟩ := (sameWithin_container hk hc).mp hid
        obtain ⟨d, content, named, hd, hname', hflags', hshows, hshows'⟩ := h.exists_container hc
        have hchildren : List.Forall₂ (fun q p => SameOutline a b p q) d.content c.content :=
          forall₂_of_common hshows'.content hshows.content
            fun _ _ _ outline _ hout' hout => ⟨outline, hout, hout'⟩
        refine (sameWithin_container hk hd).mpr ⟨hname.trans hname', hflags.trans hflags', ?_, ?_, ?_⟩
        · exact forall₂_of_common hcontent hchildren fun _ _ _ _ _ hsame hout => ih hout hsame
        · rw [hcount, hshows.named.length_eq, hshows'.named.length_eq]
        · intro e he
          obtain ⟨p, hfound, hsame⟩ := hnamed e he
          have hstep : a.step? x (.name e.name) = some p := by
            rw [step?, namedChild?, hc]
            exact hfound
          obtain ⟨q, hq, hout⟩ := h.exists_step ha hb (by simp) hstep
          rw [step?, namedChild?, hd] at hq
          exact ⟨q, hq, ih hout hsame⟩

end SameOutline

end Tree

end Narrative
