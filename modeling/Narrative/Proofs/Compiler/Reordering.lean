import Narrative.Proofs.Compiler.Documents
import Narrative.Proofs.Tree.Alike

/-!
# Flows in another order

When the flows of a plan are placed in another order, each flow moves as a block, and
everything else stays where it is. Under this correspondence of places the trees of the
two plans are alike, and so are their entries and the numbers of parameters of their
flows.
-/

namespace Narrative

namespace Compiler

/-! ## Blocks that move -/

/-- The places of one block correspond to those of another, in order. -/
def Shifts (R : Nat → Nat → Prop) (p q n : Nat) : Prop := ∀ k, k < n → R (p + k) (q + k)

namespace Shifts

variable {R : Nat → Nat → Prop} {p q m n : Nat}

theorem left (h : Shifts R p q (m + n)) : Shifts R p q m := fun k hk => h k (by omega)

theorem right (h : Shifts R p q (m + n)) : Shifts R (p + m) (q + m) n := by
  intro k hk
  rw [Nat.add_assoc, Nat.add_assoc]
  exact h (m + k) (by omega)

/-- What stands below a container and its code. -/
theorem below (h : Shifts R p q (1 + m + n)) : Shifts R (p + 1 + m) (q + 1 + m) n := by
  have hright := h.right
  rwa [← Nat.add_assoc, ← Nat.add_assoc] at hright

theorem forall₂ (h : Shifts R p q n) : List.Forall₂ R (List.range' p n) (List.range' q n) := by
  induction n generalizing p q with
  | zero => exact .nil
  | succ n ih =>
    rw [Nat.add_comm] at h
    rw [List.range'_succ, List.range'_succ]
    exact .cons (h 0 (by omega)) (ih h.right)

end Shifts

structure Scope.Alike (R : NodeId → NodeId → Prop) (s t : Scope) : Prop where
  container : R s.container t.container
  knot : Option.Rel R s.knot t.knot
  locals : s.locals = t.locals

structure Entry.Alike (R : NodeId → NodeId → Prop) (e f : Entry) : Prop where
  node : R e.node f.node
  scope : Scope.Alike R e.scope f.scope
  step : e.step = f.step

end Compiler

/-- Two nodes agree in everything but places, which correspond. -/
inductive Payload.Alike (R : NodeId → NodeId → Prop) : Payload → Payload → Prop where
  | leaf {l : Leaf} : Payload.Alike R (.leaf l) (.leaf l)
  | container {c d : Container} : c.Alike R d → Payload.Alike R (.container c) (.container d)

structure Node.Alike (R : NodeId → NodeId → Prop) (n m : Node) : Prop where
  parent : Option.Rel R n.parent m.parent
  payload : n.payload.Alike R m.payload

namespace Compiler

section Flows

variable {R : NodeId → NodeId → Prop}

theorem alike_entriesFrom (c d : NodeId) {s t : Scope} (hscope : Scope.Alike R s t)
    {steps : List Step} {p q : Nat} (h : Shifts R p q steps.length) :
    List.Forall₂ (Entry.Alike R) (entriesFrom c s p steps) (entriesFrom d t q steps) := by
  induction steps generalizing p q with
  | nil => exact .nil
  | cons step rest ih =>
    rw [List.length_cons, Nat.add_comm] at h
    exact .cons ⟨h 0 (by omega), hscope, rfl⟩ (ih h.right)

theorem alike_steps {c d : NodeId} (hcd : R c d) (steps : List Step) :
    List.Forall₂ (Node.Alike R) (steps.map (·.toNode c)) (steps.map (·.toNode d)) := by
  induction steps with
  | nil => exact .nil
  | cons step rest ih => exact .cons ⟨.some hcd, .leaf⟩ ih

namespace FlowPlan

theorem size_pos (flow : FlowPlan) : 0 < flow.size := by
  cases flow
  rw [size]
  omega

theorem rel_find?_tableFrom {flows : List FlowPlan} {p q : Nat}
    (h : Shifts R p q (sizeEach flows)) (name : String) :
    Option.Rel R (((tableFrom p flows).find? fun entry => entry.name == name).map NamedEntry.id)
      (((tableFrom q flows).find? fun entry => entry.name == name).map NamedEntry.id) := by
  induction flows generalizing p q with
  | nil => exact .none
  | cons flow rest ih =>
    rw [sizeEach] at h
    rw [tableFrom, tableFrom, List.find?_cons, List.find?_cons]
    cases flow.name == name with
    | false => exact ih h.right
    | true => exact .some (h.left 0 flow.size_pos)

theorem length_tableFrom (place : NodeId) (flows : List FlowPlan) :
    (tableFrom place flows).length = flows.length := by
  simpa using congrArg List.length (names_tableFrom place flows)

theorem alike_housing {parent parent' : NodeId} (hparent : R parent parent') (name : String)
    (range : Option SourceRange) (flags : CountFlags) (steps : List Step)
    (stitches : List FlowPlan) {p q : Nat}
    (h : Shifts R p q (1 + steps.length + sizeEach stitches)) :
    Node.Alike R (housing parent p name range flags steps (tableFrom (p + 1 + steps.length) stitches))
      (housing parent' q name range flags steps (tableFrom (q + 1 + steps.length) stitches)) := by
  refine ⟨.some hparent, .container ⟨rfl, rfl, h.left.right.forall₂, ?_, ?_⟩⟩
  · exact fun other => rel_find?_tableFrom h.below other
  · simp only [Container.namedOnly, namedOnly_tableFrom, length_tableFrom]

mutual

theorem alike_nodes : ∀ (flow : FlowPlan) (flags : CountFlags) {parent parent' : NodeId}
    {p q : Nat}, R parent parent' → Shifts R p q flow.size →
    List.Forall₂ (Node.Alike R) (flow.nodes flags parent p) (flow.nodes flags parent' q)
  | .mk name range parameters locals steps stitches, flags, parent, parent', p, q, hparent, h => by
    rw [size] at h
    have hown : R p q := h 0 (by omega)
    rw [nodes, nodes]
    exact .cons (alike_housing hparent name range flags steps stitches h)
      (List.rel_append (alike_steps hown steps) (alike_nodesEach stitches flags hown h.below))

theorem alike_nodesEach : ∀ (flows : List FlowPlan) (flags : CountFlags)
    {parent parent' : NodeId} {p q : Nat}, R parent parent' → Shifts R p q (sizeEach flows) →
    List.Forall₂ (Node.Alike R) (nodesEach flags parent p flows) (nodesEach flags parent' q flows)
  | [], _, _, _, _, _, _, _ => .nil
  | flow :: rest, flags, _, _, _, _, hparent, h =>
    List.rel_append (alike_nodes flow flags hparent h.left)
      (alike_nodesEach rest flags hparent h.right)

end

mutual

theorem alike_entries : ∀ (flow : FlowPlan) {knot knot' : Option NodeId} {p q : Nat},
    Option.Rel R knot knot' → Shifts R p q flow.size →
    List.Forall₂ (Entry.Alike R) (flow.entries knot p) (flow.entries knot' q)
  | .mk name range parameters locals steps stitches, knot, knot', p, q, hknot, h => by
    rw [size] at h
    have hown : R p q := h 0 (by omega)
    have hinner : Option.Rel R (knot <|> some p) (knot' <|> some q) := by
      cases hknot with
      | none => exact .some hown
      | some hboth => exact .some hboth
    have hscope : Scope.Alike R ⟨p, knot <|> some p, locals⟩ ⟨q, knot' <|> some q, locals⟩ :=
      ⟨hown, hinner, rfl⟩
    rw [entries, entries]
    exact List.rel_append (alike_entriesFrom p q hscope h.left.right)
      (alike_entriesEach stitches (.some hown) h.below)

theorem alike_entriesEach : ∀ (flows : List FlowPlan) {knot knot' : Option NodeId} {p q : Nat},
    Option.Rel R knot knot' → Shifts R p q (sizeEach flows) →
    List.Forall₂ (Entry.Alike R) (entriesEach knot p flows) (entriesEach knot' q flows)
  | [], _, _, _, _, _, _ => .nil
  | flow :: rest, _, _, _, _, hknot, h =>
    List.rel_append (alike_entries flow hknot h.left) (alike_entriesEach rest hknot h.right)

end

mutual

theorem alike_arities : ∀ (flow : FlowPlan) {p q : Nat}, Shifts R p q flow.size →
    List.Forall₂ (fun a b => R a.1 b.1 ∧ a.2 = b.2) (flow.arities p) (flow.arities q)
  | .mk name range parameters locals steps stitches, p, q, h => by
    rw [size] at h
    rw [arities, arities]
    exact .cons ⟨h 0 (by omega), rfl⟩ (alike_aritiesEach stitches h.below)

theorem alike_aritiesEach : ∀ (flows : List FlowPlan) {p q : Nat},
    Shifts R p q (sizeEach flows) →
    List.Forall₂ (fun a b => R a.1 b.1 ∧ a.2 = b.2) (aritiesEach p flows) (aritiesEach q flows)
  | [], _, _, _ => .nil
  | flow :: rest, _, _, h =>
    List.rel_append (alike_arities flow h.left) (alike_aritiesEach rest h.right)

end

end FlowPlan

end Flows

/-! ## Where flows stand in either order -/

namespace FlowPlan

theorem sizeEach_perm {flows others : List FlowPlan} (h : flows.Perm others) :
    sizeEach flows = sizeEach others := by
  induction h with
  | nil => rfl
  | cons flow _ ih => rw [sizeEach, sizeEach, ih]
  | swap first second rest =>
    simp only [sizeEach]
    omega
  | trans _ _ ih₁ ih₂ => exact ih₁.trans ih₂

namespace LocatedIn

variable {place spot spot' : Nat} {flows : List FlowPlan} {flow other : FlowPlan}

theorem bounds (h : LocatedIn place flows flow spot) :
    place ≤ spot ∧ spot + flow.size ≤ place + sizeEach flows := by
  induction h with
  | head =>
    rw [sizeEach]
    omega
  | tail _ ih =>
    rw [sizeEach]
    omega

/-- Blocks that overlap are the same. -/
theorem eq_of_overlap (h : LocatedIn place flows flow spot)
    (h' : LocatedIn place flows other spot') {i j : Nat} (hi : i < flow.size)
    (hj : j < other.size) (hij : spot + i = spot' + j) : flow = other ∧ spot = spot' := by
  induction h with
  | head =>
    cases h' with
    | head => exact ⟨rfl, rfl⟩
    | tail h' =>
      have hbounds := h'.bounds
      omega
  | tail h ih =>
    cases h' with
    | head =>
      have hbounds := h.bounds
      omega
    | tail h' => exact ih h' hi hij

theorem unique (hdistinct : (flows.map FlowPlan.name).Nodup)
    (h : LocatedIn place flows flow spot) (h' : LocatedIn place flows flow spot') :
    spot = spot' := by
  induction h with
  | head =>
    cases h' with
    | head => rfl
    | tail h' => exact absurd (List.mem_map_of_mem h'.mem) (List.nodup_cons.mp hdistinct).1
  | tail h ih =>
    cases h' with
    | head => exact absurd (List.mem_map_of_mem h.mem) (List.nodup_cons.mp hdistinct).1
    | tail h' => exact ih (List.nodup_cons.mp hdistinct).2 h'

end LocatedIn

end FlowPlan

/-! ## Plans with their flows in another order -/

/-- A plan has the flows of another one in another order, and is the same otherwise. -/
structure Reordered (P Q : Plan) : Prop where
  mainLocals : P.mainLocals = Q.mainLocals
  main : P.main = Q.main
  flows : P.flows.Perm Q.flows
  globals : P.globals = Q.globals
  globalNames : P.globalNames = Q.globalNames
  distinct : (P.flows.map FlowPlan.name).Nodup

/-- Where the places of a plan's tree are when the flows are in another order: each flow moves as a
block, and the rest stays. -/
inductive Moved (P Q : Plan) : Nat → Nat → Prop where
  | fixed {i : Nat} : i < P.firstFlow ∨ P.globalsPlace ≤ i → Moved P Q i i
  | flow {flow : FlowPlan} {p q k : Nat} : FlowPlan.LocatedIn P.firstFlow P.flows flow p →
      FlowPlan.LocatedIn Q.firstFlow Q.flows flow q → k < flow.size → Moved P Q (p + k) (q + k)

namespace Reordered

variable {P Q : Plan} (h : Reordered P Q)
include h

theorem symm : Reordered Q P where
  mainLocals := h.mainLocals.symm
  main := h.main.symm
  flows := h.flows.symm
  globals := h.globals.symm
  globalNames := h.globalNames.symm
  distinct := (h.flows.map FlowPlan.name).nodup_iff.mp h.distinct

theorem firstFlow : P.firstFlow = Q.firstFlow := by rw [Plan.firstFlow, Plan.firstFlow, h.main]

theorem globalsPlace : P.globalsPlace = Q.globalsPlace := by
  rw [Plan.globalsPlace, Plan.globalsPlace, h.firstFlow, FlowPlan.sizeEach_perm h.flows]

theorem globalNodes : P.globalNodes = Q.globalNodes := by
  rw [Plan.globalNodes, Plan.globalNodes, h.globals, h.globalsPlace]

theorem globalEntries : P.globalEntries = Q.globalEntries := by
  rw [Plan.globalEntries, Plan.globalEntries, h.globals, h.globalsPlace]

theorem moved_symm {x y : Nat} (hxy : Moved P Q x y) : Moved Q P y x := by
  cases hxy with
  | fixed hi => exact .fixed (by rwa [← h.firstFlow, ← h.globalsPlace])
  | flow hp hq hk => exact .flow hq hp hk

/-- No place corresponds to two places. -/
theorem moved_unique {x y y' : Nat} (hxy : Moved P Q x y) (hxy' : Moved P Q x y') : y = y' := by
  have hend : P.globalsPlace = P.firstFlow + FlowPlan.sizeEach P.flows := rfl
  cases hxy with
  | fixed hi =>
    generalize hz : x = z at hxy'
    cases hxy' with
    | fixed _ => rfl
    | flow hp _ hk =>
      have hbounds := hp.bounds
      omega
  | @flow flow p q k hp hq hk =>
    generalize hz : p + k = z at hxy'
    cases hxy' with
    | fixed hi =>
      have hbounds := hp.bounds
      omega
    | @flow other p' q' k' hp' hq' hk' =>
      obtain ⟨rfl, rfl⟩ := hp.eq_of_overlap hp' hk hk' hz
      have hsame := hq.unique h.symm.distinct hq'
      omega

theorem moved_iff {x x' y y' : Nat} (hxy : Moved P Q x y) (hxy' : Moved P Q x' y') :
    x = x' ↔ y = y' := by
  constructor
  · rintro rfl
    exact h.moved_unique hxy hxy'
  · rintro rfl
    exact h.symm.moved_unique (h.moved_symm hxy) (h.moved_symm hxy')

omit h in
theorem shifts {flow : FlowPlan} {p q : Nat} (hp : FlowPlan.LocatedIn P.firstFlow P.flows flow p)
    (hq : FlowPlan.LocatedIn Q.firstFlow Q.flows flow q) : Shifts (Moved P Q) p q flow.size :=
  fun _ hk => .flow hp hq hk

/-- What a flow contributes at one place corresponds to what it contributes at the other. -/
theorem exists_spread {α : Type} {S : α → α → Prop} {f : FlowPlan → NodeId → List α}
    (hf : ∀ flow p q, Shifts (Moved P Q) p q flow.size → List.Forall₂ S (f flow p) (f flow q))
    {a : α} (ha : a ∈ FlowPlan.spread f P.firstFlow P.flows) :
    ∃ b ∈ FlowPlan.spread f Q.firstFlow Q.flows, S a b := by
  obtain ⟨flow, p, hp, ha⟩ := FlowPlan.mem_spread.mp ha
  obtain ⟨q, hq⟩ := FlowPlan.exists_locatedIn (h.flows.mem_iff.mp hp.mem) Q.firstFlow
  obtain ⟨b, hb, hab⟩ := exists_of_forall₂_left (hf flow p q (shifts hp hq)) ha
  exact ⟨b, FlowPlan.mem_spread.mpr ⟨flow, q, hq, hb⟩, hab⟩

/-! ## The trees are alike -/

omit h in
theorem moved_root : Moved P Q 0 0 := .fixed (Or.inl (by rw [Plan.firstFlow]; omega))

omit h in
theorem moved_main : Moved P Q 1 1 := .fixed (Or.inl (by rw [Plan.firstFlow]; omega))

/-- The root lists the same names, each with the corresponding place. -/
theorem exists_listed {entry : NamedEntry} (hentry : entry ∈ P.table) :
    ∃ other ∈ Q.table, Moved P Q entry.id other.id ∧ entry.name = other.name := by
  rw [Plan.table] at hentry ⊢
  rcases List.mem_append.mp hentry with hentry | hentry
  · have hflow : ∀ (flow : FlowPlan) (p q : NodeId), Shifts (Moved P Q) p q flow.size →
        List.Forall₂ (fun e f : NamedEntry => Moved P Q e.id f.id ∧ e.name = f.name)
          [⟨flow.name, p, false⟩] [⟨flow.name, q, false⟩] :=
      fun flow p q hpq => .cons ⟨hpq 0 flow.size_pos, rfl⟩ .nil
    rw [FlowPlan.tableFrom_eq] at hentry
    obtain ⟨other, hother, hsame⟩ := h.exists_spread hflow hentry
    rw [← FlowPlan.tableFrom_eq] at hother
    exact ⟨other, List.mem_append_left _ hother, hsame⟩
  · refine ⟨entry, List.mem_append_right _ ?_, ?_, rfl⟩
    · rwa [← h.globals, ← h.globalsPlace]
    · obtain ⟨_, _, rfl⟩ := Option.map_eq_some_iff.mp (Option.mem_toList.mp hentry)
      exact .fixed (Or.inr (Nat.le_refl _))

theorem length_table : P.table.length = Q.table.length := by
  simp only [Plan.table, List.length_append, FlowPlan.length_tableFrom, h.flows.length_eq,
    h.globals, Option.length_toList, Option.isSome_map]

section Trees

variable {flags : CountFlags} (hP : (P.tree flags).WellFormed) (hQ : (Q.tree flags).WellFormed)

include hQ in
theorem namedChild?_of_listed {name : String} {id : NodeId}
    (hid : Container.namedChild? { content := [1, 2], table := P.table } name = some id) :
    ∃ other, Container.namedChild? { content := [1, 2], table := Q.table } name = some other ∧
      Moved P Q id other := by
  obtain ⟨entry, hentry, rfl, rfl⟩ := Container.exists_of_namedChild? hid
  obtain ⟨other, hother, hmoved, hname⟩ := h.exists_listed hentry
  refine ⟨other.id, ?_, hmoved⟩
  rw [hname]
  exact (hQ.tidy 0 _ (Q.container?_root flags)).namedChild?_of_mem hother

include hP hQ in
theorem alike_root : Container.Alike (Moved P Q) { content := [1, 2], table := P.table }
    { content := [1, 2], table := Q.table } := by
  have hdone : Moved P Q 2 2 := .fixed (Or.inl (by rw [Plan.firstFlow]; omega))
  refine ⟨rfl, rfl, .cons moved_main (.cons hdone .nil), fun name => ?_, ?_⟩
  · cases hid : Container.namedChild? { content := [1, 2], table := P.table } name with
    | some id =>
      obtain ⟨other, hother, hmoved⟩ := h.namedChild?_of_listed hQ hid
      rw [hother]
      exact .some hmoved
    | none =>
      cases hother : Container.namedChild? { content := [1, 2], table := Q.table } name with
      | none => exact .none
      | some other =>
        obtain ⟨id, hsome, -⟩ := h.symm.namedChild?_of_listed hP hother
        cases hid.symm.trans hsome
  · rw [Container.namedOnly, Container.namedOnly, Plan.namedOnly_table, Plan.namedOnly_table, h.length_table]

omit h in
theorem rel_get?_of_carries {a b : Tree} {R : NodeId → NodeId → Prop} {p q k : Nat}
    {ns ms : List Node} (ha : a.Carries p ns) (hb : b.Carries q ms)
    (hnodes : List.Forall₂ (Node.Alike R) ns ms) (hk : k < ns.length) :
    Option.Rel (Node.Alike R) (a.get? (p + k)) (b.get? (q + k)) := by
  rcases rel_cases (rel_getElem? hnodes k) with ⟨hn, -⟩ | ⟨n, m, hn, hm, hnm⟩
  · exact absurd (List.getElem?_eq_none_iff.mp hn) (by omega)
  · rw [ha.get?_eq hn, hb.get?_eq hm]
    exact .some hnm

include hP hQ in
/-- Before the first flow everything stays. -/
theorem rel_get?_frame {i : Nat} (hi : i < P.firstFlow) :
    Option.Rel (Node.Alike (Moved P Q)) ((P.tree flags).get? i) ((Q.tree flags).get? i) := by
  have hfixed : ∀ k < P.firstFlow, Moved P Q k k := fun _ hk => .fixed (Or.inl hk)
  obtain ⟨hframe, hmain, -, -⟩ := P.carries_tree flags
  obtain ⟨hframe', hmain', -, -⟩ := Q.carries_tree flags
  have hfirst : P.firstFlow = 3 + P.main.length := rfl
  rw [← h.main] at hframe' hmain'
  have hcontent : Shifts (Moved P Q) 3 3 P.main.length := fun k hk => hfixed _ (by omega)
  have hstart : List.Forall₂ (Node.Alike (Moved P Q))
      [⟨none, none, .container { content := [1, 2], table := P.table }⟩,
        ⟨some 0, none, .container { content := List.range' 3 P.main.length }⟩,
        ⟨some 0, none, .leaf (.command .done)⟩]
      [⟨none, none, .container { content := [1, 2], table := Q.table }⟩,
        ⟨some 0, none, .container { content := List.range' 3 P.main.length }⟩,
        ⟨some 0, none, .leaf (.command .done)⟩] :=
    .cons ⟨.none, .container (h.alike_root hP hQ)⟩
      (.cons ⟨.some moved_root, .container ⟨rfl, rfl, hcontent.forall₂, fun _ => .none, rfl⟩⟩
        (.cons ⟨.some moved_root, .leaf⟩ .nil))
  rcases Nat.lt_or_ge i 3 with hlt | hge
  · have hrel := rel_get?_of_carries hframe hframe' hstart hlt
    rwa [Nat.zero_add] at hrel
  · obtain ⟨k, rfl⟩ := Nat.exists_eq_add_of_le hge
    exact rel_get?_of_carries hmain hmain' (alike_steps moved_main P.main)
      (by rw [List.length_map]; omega)

/-- After the last flow everything stays as well. -/
theorem rel_get?_globals {i : Nat} (hi : P.globalsPlace ≤ i) :
    Option.Rel (Node.Alike (Moved P Q)) ((P.tree flags).get? i) ((Q.tree flags).get? i) := by
  have hfixed : ∀ k, P.globalsPlace ≤ k → Moved P Q k k := fun _ hk => .fixed (Or.inr hk)
  obtain ⟨-, -, -, hglobals⟩ := P.carries_tree flags
  obtain ⟨-, -, -, hglobals'⟩ := Q.carries_tree flags
  rw [← h.globalNodes, ← h.globalsPlace] at hglobals'
  obtain ⟨k, rfl⟩ := Nat.exists_eq_add_of_le hi
  rcases Nat.lt_or_ge k P.globalNodes.length with hlt | hge
  · refine rel_get?_of_carries hglobals hglobals' ?_ hlt
    rw [Plan.globalNodes]
    cases P.globals with
    | none => exact .nil
    | some fragment =>
      have hcontent : Shifts (Moved P Q) (P.globalsPlace + 1) (P.globalsPlace + 1)
          fragment.steps.length := fun k _ => hfixed _ (by omega)
      exact .cons ⟨.some moved_root, .container ⟨rfl, rfl, hcontent.forall₂, fun _ => .none, rfl⟩⟩
        (alike_steps (hfixed _ (Nat.le_refl _)) fragment.steps)
  · -- There are no nodes after the declarations of variables.
    have hsize : P.globalsPlace + P.globalNodes.length = (P.tree flags).size := by
      rw [P.size_tree, Plan.globalsPlace, Plan.firstFlow]
      omega
    have hsize' : P.globalsPlace + P.globalNodes.length = (Q.tree flags).size := by
      rw [Q.size_tree, h.globalsPlace, h.globalNodes, Plan.globalsPlace, Plan.firstFlow]
      omega
    rw [(Tree.get?_eq_none_iff _ _).mpr (by omega), (Tree.get?_eq_none_iff _ _).mpr (by omega)]
    exact .none

include hP hQ in
theorem rel_get? {x y : Nat} (hxy : Moved P Q x y) :
    Option.Rel (Node.Alike (Moved P Q)) ((P.tree flags).get? x) ((Q.tree flags).get? y) := by
  cases hxy with
  | fixed hi =>
    rcases hi with hi | hi
    · exact h.rel_get?_frame hP hQ hi
    · exact h.rel_get?_globals hi
  | @flow flow p q k hp hq hk =>
    obtain ⟨-, -, hflows, -⟩ := P.carries_tree flags
    obtain ⟨-, -, hflows', -⟩ := Q.carries_tree flags
    exact rel_get?_of_carries (hp.carries hflows) (hq.carries hflows')
      (FlowPlan.alike_nodes flow flags moved_root (shifts hp hq))
      (by rwa [FlowPlan.length_nodes])

include hP hQ in
theorem alike_tree : Tree.Alike (Moved P Q) (P.tree flags) (Q.tree flags) where
  size := by rw [P.size_tree, Q.size_tree, h.main, FlowPlan.sizeEach_perm h.flows, h.globalNodes]
  unique := fun hxy hxy' => h.moved_iff hxy hxy'
  parent? := fun hxy => rel_bind (h.rel_get? hP hQ hxy) fun _ _ hnodes => hnodes.parent
  container? := fun {x y} hxy => by
    rcases rel_cases (h.rel_get? hP hQ hxy) with ⟨hn, hm⟩ | ⟨⟨_, _, n⟩, ⟨_, _, m⟩, hn, hm, hnm⟩
    · rw [Tree.container?, Tree.container?, Tree.payload?, Tree.payload?, hn, hm]
      exact .none
    · rw [Tree.container?, Tree.container?, Tree.payload?, Tree.payload?, hn, hm]
      cases hnm.payload with
      | leaf => exact .none
      | container halike => exact .some halike
  leaf? := fun {x y} hxy => by
    rcases rel_cases (h.rel_get? hP hQ hxy) with ⟨hn, hm⟩ | ⟨⟨_, _, n⟩, ⟨_, _, m⟩, hn, hm, hnm⟩
    · rw [Tree.leaf?, Tree.leaf?, Tree.payload?, Tree.payload?, hn, hm]
    · rw [Tree.leaf?, Tree.leaf?, Tree.payload?, Tree.payload?, hn, hm]
      cases hnm.payload with
      | leaf => rfl
      | container _ => rfl

end Trees

/-! ## The entries are alike -/

theorem exists_entry {entry : Entry} (hentry : entry ∈ P.entries) :
    ∃ other ∈ Q.entries, entry.Alike (Moved P Q) other := by
  rw [Plan.entries] at hentry ⊢
  rcases List.mem_append.mp hentry with hentry | hentry
  · rcases List.mem_append.mp hentry with hentry | hentry
    · have hscope : Scope.Alike (Moved P Q) { container := 1, locals := P.mainLocals }
          { container := 1, locals := Q.mainLocals } := ⟨moved_main, .none, h.mainLocals⟩
      have hsteps : Shifts (Moved P Q) 3 3 P.main.length := by
        intro k hk
        refine .fixed (Or.inl ?_)
        rw [Plan.firstFlow]
        omega
      have hall := alike_entriesFrom 1 1 hscope hsteps
      rw [h.main] at hall hentry
      obtain ⟨other, hother, halike⟩ := exists_of_forall₂_left hall hentry
      exact ⟨other, List.mem_append_left _ (List.mem_append_left _ hother), halike⟩
    · rw [FlowPlan.entriesEach_eq] at hentry
      obtain ⟨other, hother, halike⟩ := h.exists_spread
        (fun flow _ _ hpq => FlowPlan.alike_entries flow Option.Rel.none hpq) hentry
      rw [← FlowPlan.entriesEach_eq] at hother
      exact ⟨other, List.mem_append_left _ (List.mem_append_right _ hother), halike⟩
  · have hall : List.Forall₂ (Entry.Alike (Moved P Q)) P.globalEntries Q.globalEntries := by
      rw [← h.globalEntries, Plan.globalEntries]
      cases P.globals with
      | none => exact .nil
      | some fragment =>
        refine alike_entriesFrom _ _ ⟨moved_root, .none, rfl⟩ fun k _ => .fixed (Or.inr ?_)
        omega
    obtain ⟨other, hother, halike⟩ := exists_of_forall₂_left hall hentry
    exact ⟨other, List.mem_append_right _ hother, halike⟩

theorem exists_arity {pair : NodeId × Nat} (hpair : pair ∈ P.arities) :
    ∃ other ∈ Q.arities, Moved P Q pair.1 other.1 ∧ pair.2 = other.2 := by
  rw [Plan.arities, FlowPlan.aritiesEach_eq] at hpair ⊢
  exact h.exists_spread (fun flow _ _ hpq => FlowPlan.alike_arities flow hpq) hpair

end Reordered

end Compiler

end Narrative
