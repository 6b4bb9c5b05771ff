import Narrative.Proofs.Tree.Comparison
import Narrative.Proofs.Tree.Reachable

/-!
# Addresses lead back

The address of a node is collected on the way up, one component for each parent
link; following it down from the topmost ancestor arrives at the node again. The
two walks read different records: the one up takes the names of the nodes
themselves, the one down the tables and contents of the containers above them.
-/

namespace Narrative.Tree

variable {tree : Tree}

/-! ## The topmost ancestor -/

theorem topmost_of_root {id : NodeId} (h : tree.parent? id = none) : tree.topmost id = id := by
  rw [topmost, lineage_of_root h]
  rfl

theorem lineage_ne_nil (id : NodeId) : tree.lineage id ≠ [] := by
  rw [lineage]
  cases tree.size with
  | zero => simp [lineageWithin]
  | succ fuel =>
    rw [lineageWithin]
    split <;> simp

theorem WellFormed.topmost_of_parent (h : tree.WellFormed) {id p : NodeId}
    (hp : tree.parent? id = some p) : tree.topmost id = tree.topmost p := by
  obtain ⟨last, hlast⟩ := Option.isSome_iff_exists.mp
    (List.getLast?_isSome.mpr (tree.lineage_ne_nil p))
  rw [topmost, topmost, h.lineage_of_parent hp, List.getLast?_cons, hlast]
  rfl

/-- Whoever stands above a node and has no parent is its topmost ancestor. -/
theorem WellFormed.topmost_of_within (h : tree.WellFormed) {id top : NodeId}
    (hwithin : tree.Within top id) (htop : tree.parent? top = none) : tree.topmost id = top := by
  induction hwithin using Relation.ReflTransGen.head_induction_on with
  | refl => exact topmost_of_root htop
  | head hup _ ih => rw [h.topmost_of_parent hup, ih]

theorem WellFormed.exists_root_above (h : tree.WellFormed) (id : NodeId) :
    ∃ top, tree.Within top id ∧ tree.parent? top = none := by
  induction hn : (tree.lineage id).length generalizing id with
  | zero => exact absurd (List.length_eq_zero_iff.mp hn) (tree.lineage_ne_nil id)
  | succ n ih =>
    cases hp : tree.parent? id with
    | none => exact ⟨id, .refl, hp⟩
    | some p =>
      have hlen : (tree.lineage p).length = n := by
        rw [h.lineage_of_parent hp, List.length_cons] at hn
        omega
      obtain ⟨top, hwithin, htop⟩ := ih p hlen
      exact ⟨top, hwithin.head hp, htop⟩

/-- All nodes stand within the only one without a parent. -/
theorem WellFormed.within_only_root (h : tree.WellFormed) {root id : NodeId}
    (honly : ∀ top < tree.size, tree.parent? top = none → top = root) (hid : id < tree.size) :
    tree.Within root id := by
  obtain ⟨top, hwithin, htop⟩ := h.exists_root_above id
  have hlt : top < tree.size := by
    rcases Relation.ReflTransGen.cases_tail hwithin with rfl | ⟨_, _, hup⟩
    · exact hid
    · exact h.parent_lt_size hup
  rw [← honly top hlt htop]
  exact hwithin

theorem WellFormed.within_topmost (h : tree.WellFormed) (id : NodeId) :
    tree.Within (tree.topmost id) id ∧ tree.parent? (tree.topmost id) = none := by
  obtain ⟨top, hwithin, htop⟩ := h.exists_root_above id
  rw [h.topmost_of_within hwithin htop]
  exact ⟨hwithin, htop⟩

/-! ## One step -/

/-- The component by which a parent addresses a child leads to the child. A child with a name is
found in the table, whether it stands in the content or not; a child without one stands in the
content. -/
theorem WellFormed.exists_step (h : tree.WellFormed) {id p : NodeId}
    (hp : tree.parent? id = some p) :
    ∃ component, tree.component? p id = some component ∧ tree.step? p component = some id := by
  obtain ⟨c, hc, hchild⟩ := (h.parent_iff id p).mp hp
  have htidy := h.tidy p c hc
  cases hname : tree.validName? id with
  | some name =>
    obtain ⟨e, he, rfl⟩ : ∃ e ∈ c.table, e.id = id := by
      rcases c.mem_children.mp hchild with hin | ⟨e, he, -, hid⟩
      · exact htidy.entered id hin name hname
      · exact ⟨e, he, hid⟩
    obtain rfl : e.name = name := Option.some.inj ((htidy.named e he).symm.trans hname)
    refine ⟨.name e.name, by simp [component?, hname], ?_⟩
    simp [step?, namedChild?, hc, htidy.namedChild?_of_mem he]
  | none =>
    have hin : id ∈ c.content := by
      rcases c.mem_children.mp hchild with hin | ⟨e, he, -, rfl⟩
      · exact hin
      · rw [htidy.named e he] at hname
        cases hname
    obtain ⟨position, hposition⟩ := Option.isSome_iff_exists.mp
      ((c.positionOf?_isSome_iff id).mpr hin)
    refine ⟨.index position, by simp [component?, hname, hc, hposition], ?_⟩
    obtain ⟨hlt, hfound, -⟩ := List.findIdx?_eq_some_iff_getElem.mp hposition
    simp only [step?, content, hc, List.getElem?_eq_getElem hlt]
    exact congrArg some (by simpa using hfound)

/-! ## Whole addresses -/

theorem follow?_append (start : NodeId) (first second : List Component) :
    tree.follow? start (first ++ second) =
      (tree.follow? start first).bind fun mid => tree.follow? mid second := by
  induction first generalizing start with
  | nil => rfl
  | cons component rest ih =>
    rw [List.cons_append, follow?, follow?]
    cases tree.step? start component with
    | none => rfl
    | some next => exact ih next

theorem components_path_of_root {id : NodeId} (h : tree.parent? id = none) :
    (tree.path id).components = [] := by
  simp [path, Path.absolute, lineage_of_root h, componentsUp]

theorem WellFormed.components_path_of_parent (h : tree.WellFormed) {id p : NodeId}
    {component : Component} (hp : tree.parent? id = some p)
    (hcomponent : tree.component? p id = some component) :
    (tree.path id).components = (tree.path p).components ++ [component] := by
  have hup : tree.componentsUp (tree.lineage id) = component :: tree.componentsUp (tree.lineage p) := by
    rw [h.lineage_of_parent hp]
    cases hline : tree.lineage p with
    | nil => exact absurd hline (tree.lineage_ne_nil p)
    | cons first rest =>
      obtain rfl : first = p := by
        cases hq : tree.parent? p with
        | none =>
          rw [lineage_of_root hq] at hline
          exact (List.cons.inj hline).1.symm
        | some q =>
          rw [h.lineage_of_parent hq] at hline
          exact (List.cons.inj hline).1.symm
      rw [componentsUp, hcomponent]
  simp [path, Path.absolute, hup]

/-- Following the address of a node down from a root above it leads to the node. -/
theorem WellFormed.contentAt?_path (h : tree.WellFormed) {id top : NodeId}
    (hwithin : tree.Within top id) (htop : tree.parent? top = none) :
    tree.contentAt? top (tree.path id) = some id := by
  rw [contentAt?]
  -- From the root downward: the address of the parent leads to the parent, one step is left.
  induction hwithin using Relation.ReflTransGen.head_induction_on with
  | refl => rw [components_path_of_root htop, follow?]
  | head hup _ ih =>
    obtain ⟨component, hcomponent, hstep⟩ := h.exists_step hup
    rw [h.components_path_of_parent hup hcomponent, follow?_append, ih, Option.bind_some, follow?,
      hstep]
    rfl

theorem WellFormed.resolve?_path (h : tree.WellFormed) {id origin : NodeId}
    (horigin : origin < tree.size) (hsame : tree.topmost origin = tree.topmost id)
    (hroot : (tree.container? (tree.topmost id)).isSome = true) :
    tree.resolve? origin (tree.path id) = some id := by
  have habsolute : (tree.path id).isRelative = false := rfl
  have hstart : tree.rootContainer? origin = some (tree.topmost id) := by
    simp [rootContainer?, contains, horigin, hsame, hroot]
  obtain ⟨hwithin, htop⟩ := h.within_topmost id
  rw [resolve?, habsolute, hstart]
  exact h.contentAt?_path hwithin htop

/-- In every tree that calls lead to, the address of a node leads to the node from its topmost
ancestor, and means the node to every other node below the same ancestor. -/
theorem address_leads_back (hreach : tree.Reachable) (id : NodeId) :
    (tree.Within (tree.topmost id) id ∧ tree.parent? (tree.topmost id) = none) ∧
      tree.contentAt? (tree.topmost id) (tree.path id) = some id ∧
      ∀ origin < tree.size, tree.topmost origin = tree.topmost id →
        (tree.container? (tree.topmost id)).isSome = true →
        tree.resolve? origin (tree.path id) = some id := by
  have h := hreach.wellFormed
  have htop := h.within_topmost id
  refine ⟨htop, h.contentAt?_path htop.1 htop.2, ?_⟩
  intro origin horigin hsame hroot
  exact h.resolve?_path horigin hsame hroot

/-- A stitch that was renamed after it had been listed by name only, below a knot that took the place
of another child. -/
def stitchCalls : List TreeCall :=
  [.add (.container {}) none, .add (.leaf .glue) none, .add (.container { name := some "knot" }) none,
    .add (.container { name := some "old" }) none, .add (.leaf .void) none, .addContent 0 1,
    .addContent 0 4, .addNamed 2 3, .setName 3 (some "stitch"), .setChild 0 0 2, .addContent 3 1]

theorem address_leads_back_stitch :
    (TreeCall.runAll .empty stitchCalls).path 1 =
        .absolute [.name "knot", .name "stitch", .index 0] ∧
      (TreeCall.runAll .empty stitchCalls).contentAt? 0
        ((TreeCall.runAll .empty stitchCalls).path 1) = some 1 ∧
      (TreeCall.runAll .empty stitchCalls).resolve? 4
        ((TreeCall.runAll .empty stitchCalls).path 1) = some 1 := by
  have hreach : (TreeCall.runAll .empty stitchCalls).Reachable := ⟨stitchCalls, by decide, rfl⟩
  have hback := address_leads_back hreach 1
  exact ⟨by decide, hback.2.1, hback.2.2 4 (by decide) (by decide) (by decide)⟩

end Narrative.Tree
