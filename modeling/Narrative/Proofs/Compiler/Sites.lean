import Narrative.Proofs.Compiler.Blocks
import Narrative.Proofs.Correspondence
import Narrative.Proofs.Tree.SameShape

/-!
# What stands where in the tree of a plan

Every node of the tree of a plan is the root or its command, a container that holds the
code of one passage, or one step of such code. The steps have entries, one for each node.
The containers of flows are listed with their numbers of parameters, each once.
-/

namespace Narrative

theorem Tree.Carries.get?_eq {tree : Tree} {n k : Nat} {nodes : List Node} {node : Node}
    (h : tree.Carries n nodes) (hnode : nodes[k]? = some node) : tree.get? (n + k) = some node := by
  induction nodes generalizing n k with
  | nil => cases hnode
  | cons first rest ih =>
    cases k with
    | zero =>
      cases hnode
      exact h.1
    | succ k =>
      have hrest := ih h.2 hnode
      rwa [Nat.add_right_comm] at hrest

namespace Compiler

/-- A container has a name, and its content are steps. -/
def Houses (tree : Tree) (c : NodeId) (name : Option String) (steps : List Step) : Prop :=
  ∃ container, tree.container? c = some container ∧ container.name = name ∧
    List.Forall₂ (fun step node => tree.get? node = some (step.toNode c)) steps container.content

/-- The steps stand in the content of a container, and are looked up in a scope. -/
def Filled (tree : Tree) (entries : List Entry) (c : NodeId) (scope : Scope) (steps : List Step) :
    Prop :=
  ∃ container, tree.container? c = some container ∧
    List.Forall₂ (fun step node => ⟨node, c, scope, step⟩ ∈ entries) steps container.content

theorem Filled.mono {tree : Tree} {entries more : List Entry} {c : NodeId} {scope : Scope}
    {steps : List Step} (h : Filled tree entries c scope steps) (hsub : entries ⊆ more) :
    Filled tree more c scope steps := by
  obtain ⟨container, hcontainer, hsteps⟩ := h
  exact ⟨container, hcontainer, hsteps.imp fun _ _ hentry => hsub hentry⟩

/-- An entry stands in its container, with all the code that it is part of. -/
def Entry.Coded (tree : Tree) (entries : List Entry) (code : Option String → List Step → Prop)
    (entry : Entry) : Prop :=
  entry.node ∈ tree.content entry.holder ∧
    ∃ name steps, code name steps ∧ entry.step ∈ steps ∧
      Filled tree entries entry.holder entry.scope steps

/-- From a place on, each of the next nodes is a step of code that stands there, or a container that
holds such code. -/
structure Standing (tree : Tree) (place count : Nat) (entries : List Entry)
    (code : Option String → List Step → Prop) : Prop where
  nodes : (entries.map Entry.node).Sublist (List.range' place count)
  found : ∀ entry ∈ entries, tree.get? entry.node = some (entry.step.toNode entry.holder)
  coded : ∀ entry ∈ entries, entry.Coded tree entries code
  attached : ∀ i, place ≤ i → i < place + count → tree.parent? i ≠ none
  covered : ∀ i, place ≤ i → i < place + count →
    (∃ entry ∈ entries, entry.node = i) ∨ ∃ name steps, code name steps ∧ Houses tree i name steps

variable {tree : Tree} {code : Option String → List Step → Prop}

theorem Entry.Coded.mono {entries more : List Entry} {entry : Entry}
    (h : entry.Coded tree entries code) (hsub : entries ⊆ more) : entry.Coded tree more code := by
  obtain ⟨hnode, name, steps, hcode, hstep, hfilled⟩ := h
  exact ⟨hnode, name, steps, hcode, hstep, hfilled.mono hsub⟩

theorem standing_nil (tree : Tree) (place : Nat) (code : Option String → List Step → Prop) :
    Standing tree place 0 [] code where
  nodes := List.Sublist.slnil
  found := fun _ hentry => nomatch hentry
  coded := fun _ hentry => nomatch hentry
  attached := fun _ hle hlt => absurd hlt (Nat.not_lt.mpr hle)
  covered := fun _ hle hlt => absurd hlt (Nat.not_lt.mpr hle)

theorem Standing.append {place m n : Nat} {entries more : List Entry}
    (h₁ : Standing tree place m entries code) (h₂ : Standing tree (place + m) n more code) :
    Standing tree place (m + n) (entries ++ more) code where
  nodes := by
    rw [List.map_append, ← List.range'_append_1]
    exact h₁.nodes.append h₂.nodes
  found := by
    intro entry hentry
    rcases List.mem_append.mp hentry with hentry | hentry
    · exact h₁.found entry hentry
    · exact h₂.found entry hentry
  coded := by
    intro entry hentry
    rcases List.mem_append.mp hentry with hentry | hentry
    · exact (h₁.coded entry hentry).mono (List.subset_append_left _ _)
    · exact (h₂.coded entry hentry).mono (List.subset_append_right _ _)
  attached := by
    intro i hle hlt
    by_cases hi : i < place + m
    · exact h₁.attached i hle hi
    · exact h₂.attached i (by omega) (by omega)
  covered := by
    intro i hle hlt
    by_cases hi : i < place + m
    · rcases h₁.covered i hle hi with ⟨entry, hentry, hnode⟩ | hhouse
      · exact Or.inl ⟨entry, List.mem_append_left _ hentry, hnode⟩
      · exact Or.inr hhouse
    · rcases h₂.covered i (by omega) (by omega) with ⟨entry, hentry, hnode⟩ | hhouse
      · exact Or.inl ⟨entry, List.mem_append_right _ hentry, hnode⟩
      · exact Or.inr hhouse

/-! ## Steps and their containers -/

theorem forall₂_of_carries {c place : NodeId} {steps : List Step}
    (h : tree.Carries place (steps.map (·.toNode c))) :
    List.Forall₂ (fun step node => tree.get? node = some (step.toNode c)) steps
      (List.range' place steps.length) := by
  induction steps generalizing place with
  | nil => exact .nil
  | cons step rest ih =>
    rw [List.length_cons, List.range'_succ]
    exact .cons h.1 (ih h.2)

theorem standing_steps {c place : NodeId} (scope : Scope) {name : Option String}
    {steps : List Step} (h : tree.Carries place (steps.map (·.toNode c)))
    (hcontent : tree.content c = List.range' place steps.length)
    (hfilled : Filled tree (entriesFrom c scope place steps) c scope steps)
    (hcode : code name steps) :
    Standing tree place steps.length (entriesFrom c scope place steps) code := by
  have hcovered : ∀ i, place ≤ i → i < place + steps.length →
      ∃ entry ∈ entriesFrom c scope place steps, entry.node = i := by
    intro i hle hlt
    have hmem : i ∈ (entriesFrom c scope place steps).map Entry.node := by
      rw [map_node_entriesFrom, List.mem_range'_1]
      exact ⟨hle, hlt⟩
    exact List.mem_map.mp hmem
  have hfound : ∀ entry ∈ entriesFrom c scope place steps,
      tree.get? entry.node = some (entry.step.toNode entry.holder) := by
    intro entry hentry
    obtain ⟨hholder, -, k, hstep, hnode⟩ := exists_step_of_mem hentry
    rw [hholder, hnode]
    apply h.get?_eq
    rw [List.getElem?_map, hstep, Option.map_some]
  refine ⟨(map_node_entriesFrom c scope place steps).symm ▸ List.Sublist.refl _, hfound, ?_, ?_,
    fun i hle hlt => Or.inl (hcovered i hle hlt)⟩
  · intro entry hentry
    obtain ⟨hholder, hscope, k, hstep, -⟩ := exists_step_of_mem hentry
    have hnode := node_mem_range' hentry
    rw [← hcontent] at hnode
    rw [Entry.Coded, hholder, hscope]
    exact ⟨hnode, name, steps, hcode, List.mem_of_getElem? hstep, hfilled⟩
  · intro i hle hlt
    obtain ⟨entry, hentry, rfl⟩ := hcovered i hle hlt
    rw [Tree.parent?, hfound entry hentry]
    exact Option.some_ne_none _

/-- The content of a container are steps that follow each other. -/
theorem filled_entriesFrom {c place : NodeId} {container : Container} (scope : Scope)
    {steps : List Step} (hc : tree.container? c = some container)
    (hcontent : container.content = List.range' place steps.length) :
    Filled tree (entriesFrom c scope place steps) c scope steps :=
  ⟨container, hc, hcontent ▸ forall₂_entriesFrom c scope place steps⟩

section Housing

variable {parent place : NodeId} {name : String} {range : Option SourceRange} {flags : CountFlags}
  {steps : List Step} {table : List NamedEntry}
  (h : tree.get? place = some (housing parent place name range flags steps table))
include h

theorem container?_housing : tree.container? place =
    some { content := List.range' (place + 1) steps.length, table, flags, name := some name } :=
  tree.container?_eq_some_iff.mpr ⟨_, h, rfl⟩

theorem filled_housing (scope : Scope) :
    Filled tree (entriesFrom place scope (place + 1) steps) place scope steps :=
  filled_entriesFrom scope (container?_housing h) rfl

theorem standing_housing (scope : Scope) (hbody : tree.Carries (place + 1)
    (steps.map (·.toNode place))) (hcode : code (some name) steps) :
    Standing tree place (1 + steps.length) (entriesFrom place scope (place + 1) steps) code := by
  have hcontainer := container?_housing h
  have htop : Standing tree place 1 [] code := by
    refine ⟨List.nil_sublist _, fun _ hentry => (nomatch hentry), fun _ hentry => (nomatch hentry),
      ?_, ?_⟩
    · intro i hle hlt
      obtain rfl : i = place := by omega
      rw [Tree.parent?, h]
      exact Option.some_ne_none parent
    · intro i hle hlt
      obtain rfl : i = place := by omega
      exact Or.inr ⟨some name, steps, hcode, _, hcontainer, rfl, forall₂_of_carries hbody⟩
  have hcontent : tree.content place = List.range' (place + 1) steps.length := by
    rw [Tree.content, hcontainer]
  exact htop.append (standing_steps scope hbody hcontent (filled_housing h scope) hcode)

end Housing

namespace FlowPlan

mutual

/-- The nodes of a flow hold its code and that of its stitches. -/
theorem standing : ∀ (flow : FlowPlan) {flags : CountFlags} {parent place : NodeId}
    (knot : Option NodeId), tree.Carries place (flow.nodes flags parent place) →
    (∀ part ∈ flow.parts, code (some part.name) part.steps) →
    Standing tree place flow.size (flow.entries knot place) code
  | .mk name range parameters locals steps stitches, flags, parent, place, knot, h, hcode => by
    rw [nodes, ← List.cons_append] at h
    obtain ⟨hown, hbelow⟩ := Tree.carries_append.mp h
    rw [List.length_cons, List.length_map, Nat.add_comm steps.length, ← Nat.add_assoc] at hbelow
    rw [parts] at hcode
    have hhouse := standing_housing hown.1 ⟨place, knot <|> some place, locals⟩ hown.2
      (hcode _ List.mem_cons_self)
    have hstitches := standingEach stitches (some place) hbelow
      fun part hpart => hcode part (List.mem_cons_of_mem _ hpart)
    rw [Nat.add_assoc] at hstitches
    rw [size, entries, Nat.add_assoc place 1 steps.length]
    exact hhouse.append hstitches

theorem standingEach : ∀ (flows : List FlowPlan) {flags : CountFlags} {parent place : NodeId}
    (knot : Option NodeId), tree.Carries place (nodesEach flags parent place flows) →
    (∀ part ∈ partsEach flows, code (some part.name) part.steps) →
    Standing tree place (sizeEach flows) (entriesEach knot place flows) code
  | [], _, _, place, _, _, _ => standing_nil tree place code
  | flow :: rest, flags, parent, place, knot, h, hcode => by
    obtain ⟨hfirst, hrest⟩ := Tree.carries_append.mp h
    rw [length_nodes] at hrest
    exact (standing flow knot hfirst fun part hpart =>
      hcode part (List.mem_append_left _ hpart)).append
        (standingEach rest knot hrest fun part hpart =>
          hcode part (List.mem_append_right _ hpart))

end

end FlowPlan

/-! ## Where flows stand -/

namespace FlowPlan

/-- Where one of neighbouring flows stands that are placed one after the other. -/
inductive LocatedIn : (place : NodeId) → List FlowPlan → FlowPlan → (spot : NodeId) → Prop where
  | head {place : NodeId} {flow : FlowPlan} {rest : List FlowPlan} :
      LocatedIn place (flow :: rest) flow place
  | tail {place spot : NodeId} {first flow : FlowPlan} {rest : List FlowPlan} :
      LocatedIn (place + first.size) rest flow spot → LocatedIn place (first :: rest) flow spot

theorem exists_locatedIn {flows : List FlowPlan} {flow : FlowPlan} (h : flow ∈ flows)
    (place : NodeId) : ∃ spot, LocatedIn place flows flow spot := by
  induction flows generalizing place with
  | nil => cases h
  | cons first rest ih =>
    rcases List.mem_cons.mp h with rfl | h
    · exact ⟨place, .head⟩
    · obtain ⟨spot, hspot⟩ := ih h (place + first.size)
      exact ⟨spot, .tail hspot⟩

namespace LocatedIn

variable {place spot : NodeId} {flows : List FlowPlan} {flow : FlowPlan}

theorem mem (h : LocatedIn place flows flow spot) : flow ∈ flows := by
  induction h with
  | head => exact List.mem_cons_self
  | tail _ ih => exact List.mem_cons_of_mem _ ih

theorem find?_tableFrom (h : LocatedIn place flows flow spot)
    (hdistinct : (flows.map FlowPlan.name).Nodup) :
    (tableFrom place flows).find? (fun entry => entry.name == flow.name) =
      some ⟨flow.name, spot, false⟩ := by
  induction h with
  | head => simp [tableFrom]
  | @tail _ _ first flow _ h ih =>
    obtain ⟨hnew, hrest⟩ := List.nodup_cons.mp hdistinct
    have hne : first.name ≠ flow.name := fun hsame => hnew (hsame ▸ List.mem_map_of_mem h.mem)
    rw [tableFrom, List.find?_cons, beq_eq_false_iff_ne.mpr hne]
    exact ih hrest

/-- A container that lists flows lists each where it stands. -/
theorem namedChild? (h : LocatedIn place flows flow spot)
    (hdistinct : (flows.map FlowPlan.name).Nodup) {container : Container}
    {more : List NamedEntry} (htable : container.table = tableFrom place flows ++ more) :
    container.namedChild? flow.name = some spot := by
  rw [Container.namedChild?, htable, List.find?_append, h.find?_tableFrom hdistinct]
  rfl

theorem carries (h : LocatedIn place flows flow spot) {tree : Tree} {flags : CountFlags}
    {parent : NodeId} (hall : tree.Carries place (nodesEach flags parent place flows)) :
    tree.Carries spot (flow.nodes flags parent spot) := by
  induction h with
  | head => exact (Tree.carries_append.mp hall).1
  | tail _ ih =>
    refine ih ?_
    have hrest := (Tree.carries_append.mp hall).2
    rwa [length_nodes] at hrest

end LocatedIn

/-- What neighbouring flows contribute, each at its place. -/
def spread {α : Type} (f : FlowPlan → NodeId → List α) : (place : NodeId) → List FlowPlan → List α
  | _, [] => []
  | place, flow :: rest => f flow place ++ spread f (place + flow.size) rest

theorem mem_spread {α : Type} {f : FlowPlan → NodeId → List α} {place : NodeId}
    {flows : List FlowPlan} {a : α} : a ∈ spread f place flows ↔
      ∃ flow spot, LocatedIn place flows flow spot ∧ a ∈ f flow spot := by
  induction flows generalizing place with
  | nil =>
    constructor
    · exact fun h => nomatch h
    · rintro ⟨flow, spot, hlocated, -⟩
      cases hlocated
  | cons first rest ih =>
    rw [spread, List.mem_append, ih]
    constructor
    · rintro (h | ⟨flow, spot, hlocated, h⟩)
      · exact ⟨first, place, .head, h⟩
      · exact ⟨flow, spot, .tail hlocated, h⟩
    · rintro ⟨flow, spot, hlocated, h⟩
      cases hlocated with
      | head => exact Or.inl h
      | tail hlocated => exact Or.inr ⟨flow, spot, hlocated, h⟩

theorem entriesEach_eq (knot : Option NodeId) (place : NodeId) (flows : List FlowPlan) :
    entriesEach knot place flows = spread (fun flow => flow.entries knot) place flows := by
  induction flows generalizing place with
  | nil => rfl
  | cons flow rest ih => rw [entriesEach, spread, ih]

theorem aritiesEach_eq (place : NodeId) (flows : List FlowPlan) :
    aritiesEach place flows = spread (fun flow spot => flow.arities spot) place flows := by
  induction flows generalizing place with
  | nil => rfl
  | cons flow rest ih => rw [aritiesEach, spread, ih]

theorem tableFrom_eq (place : NodeId) (flows : List FlowPlan) :
    tableFrom place flows = spread (fun flow spot => [⟨flow.name, spot, false⟩]) place flows := by
  induction flows generalizing place with
  | nil => rfl
  | cons flow rest ih =>
    rw [tableFrom, spread, ih]
    rfl

theorem mem_entriesEach {knot : Option NodeId} {place : NodeId} {flows : List FlowPlan}
    {entry : Entry} : entry ∈ entriesEach knot place flows ↔
      ∃ flow spot, LocatedIn place flows flow spot ∧ entry ∈ flow.entries knot spot := by
  rw [entriesEach_eq, mem_spread]

theorem mem_aritiesEach {place : NodeId} {flows : List FlowPlan} {pair : NodeId × Nat} :
    pair ∈ aritiesEach place flows ↔
      ∃ flow spot, LocatedIn place flows flow spot ∧ pair ∈ flow.arities spot := by
  rw [aritiesEach_eq, mem_spread]

mutual

theorem keys_arities : ∀ (flow : FlowPlan) (place : NodeId),
    ((flow.arities place).map Prod.fst).Sublist (List.range' place flow.size)
  | .mk name range parameters locals steps stitches, place => by
    have hstitches := keys_aritiesEach stitches (place + 1 + steps.length)
    have hown : [place].Sublist (List.range' place (1 + steps.length)) := by
      rw [Nat.add_comm, List.range'_succ]
      exact (List.nil_sublist _).cons_cons place
    rw [arities, size, ← List.range'_append_1, ← Nat.add_assoc]
    exact hown.append hstitches

theorem keys_aritiesEach : ∀ (flows : List FlowPlan) (place : NodeId),
    ((aritiesEach place flows).map Prod.fst).Sublist (List.range' place (sizeEach flows))
  | [], _ => .slnil
  | flow :: rest, place => by
    rw [aritiesEach, sizeEach, List.map_append, ← List.range'_append_1]
    exact (keys_arities flow place).append (keys_aritiesEach rest (place + flow.size))

end

end FlowPlan

/-! ## Whole stories -/

namespace Plan

variable (plan : Plan) (flags : CountFlags)

theorem size_tree :
    (plan.tree flags).size = 3 + (plan.main.length + FlowPlan.sizeEach plan.flows
      + plan.globalNodes.length) := by
  have hempty : Tree.empty.size = 0 := rfl
  rw [tree, Tree.size_extend, hempty, nodes, List.length_append, List.length_append, length_frame,
    FlowPlan.length_nodesEach, firstFlow]
  omega

/-- The parts of the tree: the root, the main container, the command of the root, the main content,
the flows, and the declarations of variables. -/
theorem carries_tree :
    (plan.tree flags).Carries 0 [⟨none, none, .container { content := [1, 2], table := plan.table }⟩,
        ⟨some 0, none, .container { content := List.range' 3 plan.main.length }⟩,
        ⟨some 0, none, .leaf (.command .done)⟩] ∧
      (plan.tree flags).Carries 3 (plan.main.map (·.toNode 1)) ∧
      (plan.tree flags).Carries plan.firstFlow
        (FlowPlan.nodesEach flags 0 plan.firstFlow plan.flows) ∧
      (plan.tree flags).Carries plan.globalsPlace plan.globalNodes := by
  have hall : (plan.tree flags).Carries 0 (plan.nodes flags) :=
    Tree.carries_extend [] (plan.nodes flags)
  obtain ⟨hbefore, hglobals⟩ := Tree.carries_append.mp hall
  obtain ⟨hframe, hflows⟩ := Tree.carries_append.mp hbefore
  obtain ⟨hstart, hmain⟩ := Tree.carries_append.mp hframe
  rw [List.length_append, length_frame, FlowPlan.length_nodesEach, Nat.zero_add] at hglobals
  rw [length_frame, Nat.zero_add] at hflows
  exact ⟨hstart, hmain, hflows, hglobals⟩

theorem container?_root :
    (plan.tree flags).container? 0 = some { content := [1, 2], table := plan.table } :=
  (Tree.container?_eq_some_iff _).mpr ⟨_, (plan.carries_tree flags).1.1, rfl⟩

/-- The nodes after the first three are steps with entries, or containers that hold code. -/
theorem standing : Standing (plan.tree flags) 3
    (plan.main.length + FlowPlan.sizeEach plan.flows + plan.globalNodes.length) plan.entries
    plan.Code := by
  obtain ⟨hframe, hmain, hflows, hglobals⟩ := plan.carries_tree flags
  have hcontainer := (Tree.container?_eq_some_iff _).mpr ⟨_, hframe.2.1, rfl⟩
  have hcontent : (plan.tree flags).content 1 = List.range' 3 plan.main.length := by
    rw [Tree.content, hcontainer]
  have hbody : Standing (plan.tree flags) 3 plan.main.length
      (entriesFrom 1 { container := 1, locals := plan.mainLocals } 3 plan.main) plan.Code :=
    standing_steps _ hmain hcontent (filled_entriesFrom _ hcontainer rfl) .main
  have hparts := FlowPlan.standingEach plan.flows none hflows fun part hpart => Code.flow hpart
  have hlast : Standing (plan.tree flags) plan.globalsPlace plan.globalNodes.length
      plan.globalEntries plan.Code := by
    unfold globalNodes at hglobals ⊢
    unfold globalEntries
    split
    · exact standing_nil _ _ _
    · next fragment hfragment =>
      rw [hfragment] at hglobals
      have hhouse := standing_housing hglobals.1 { container := 0 } hglobals.2
        (Code.globals hfragment)
      rwa [List.length_cons, List.length_map, Nat.add_comm]
  have hboth := hbody.append hparts
  have hend : plan.globalsPlace = 3 + (plan.main.length + FlowPlan.sizeEach plan.flows) :=
    Nat.add_assoc 3 _ _
  rw [hend] at hlast
  exact hboth.append hlast

/-- No container is listed with two numbers of parameters. -/
theorem lookup_arities {plan : Plan} {c : NodeId} {n : Nat} :
    plan.arities.lookup c = some n ↔ (c, n) ∈ plan.arities := by
  have hkeys : (plan.arities.map Prod.fst).Nodup :=
    List.Nodup.sublist (FlowPlan.keys_aritiesEach plan.flows plan.firstFlow) List.nodup_range'
  constructor
  · intro hlookup
    obtain ⟨before, after, hsplit, -⟩ := List.lookup_eq_some_iff.mp hlookup
    rw [hsplit]
    exact List.mem_append_right _ List.mem_cons_self
  · intro hmem
    obtain ⟨before, after, hsplit⟩ := List.append_of_mem hmem
    refine List.lookup_eq_some_iff.mpr ⟨before, after, hsplit, fun pair hpair => ?_⟩
    rw [hsplit, List.map_append, List.map_cons] at hkeys
    have hdisjoint := (List.nodup_append.mp hkeys).2.2
    have hne := hdisjoint pair.1 (List.mem_map_of_mem hpair) c List.mem_cons_self
    simpa using hne.symm

theorem nodup_entries : (plan.entries.map Entry.node).Nodup :=
  List.Nodup.sublist (plan.standing {}).nodes List.nodup_range'

theorem leaf?_of_entry {entry : Entry} (hentry : entry ∈ plan.entries) :
    (plan.tree flags).leaf? entry.node = some entry.step.leaf := by
  rw [Tree.leaf?, Tree.payload?, (plan.standing flags).found entry hentry]
  rfl

variable {plan flags}

/-- The nodes after the first three. -/
theorem covered_of_get? {i : NodeId} {node : Node} (hnode : (plan.tree flags).get? i = some node)
    (hi : 3 ≤ i) : (∃ entry ∈ plan.entries, entry.node = i) ∨
      ∃ name steps, plan.Code name steps ∧ Houses (plan.tree flags) i name steps := by
  have hlt := Tree.lt_size_of_get? _ hnode
  rw [plan.size_tree] at hlt
  exact (plan.standing flags).covered i hi hlt

/-- Every container but the root holds the code of a passage. -/
theorem exists_houses {c : Nat} {container : Container}
    (hc : (plan.tree flags).container? c = some container) (hroot : c ≠ 0) :
    ∃ name steps, plan.Code name steps ∧ Houses (plan.tree flags) c name steps := by
  obtain ⟨hframe, hmain, -, -⟩ := plan.carries_tree flags
  obtain ⟨node, hnode, -⟩ := ((plan.tree flags).container?_eq_some_iff).mp hc
  rcases Nat.lt_or_ge c 3 with hlt | hge
  · obtain rfl | rfl : c = 1 ∨ c = 2 := by omega
    · have hcontainer := ((plan.tree flags).container?_eq_some_iff).mpr ⟨_, hframe.2.1, rfl⟩
      exact ⟨none, plan.main, .main, _, hcontainer, rfl, forall₂_of_carries hmain⟩
    · rw [Tree.container?, Tree.payload?, hframe.2.2.1] at hc
      cases hc
  · rcases covered_of_get? hnode hge with ⟨entry, hentry, rfl⟩ | hhouse
    · rw [Tree.container?_of_leaf? _ (plan.leaf?_of_entry flags hentry)] at hc
      cases hc
    · exact hhouse

/-- What stands in the content of a container is a leaf, that of the root apart. -/
theorem container?_of_mem_content {p c : NodeId} {parent : Container}
    (hp : (plan.tree flags).container? p = some parent) (hroot : p ≠ 0) (hc : c ∈ parent.content) :
    (plan.tree flags).container? c = none := by
  obtain ⟨_, steps, -, other, hother, -, hsteps⟩ := exists_houses hp hroot
  cases hp.symm.trans hother
  obtain ⟨step, -, hnode⟩ := exists_of_forall₂_right hsteps hc
  rw [Tree.container?, Tree.payload?, hnode]
  rfl

/-- Every leaf but the command of the root has an entry. -/
theorem exists_entry {i : Nat} {leaf : Leaf} (hleaf : (plan.tree flags).leaf? i = some leaf) :
    i = 2 ∧ leaf = .command .done ∨ ∃ entry ∈ plan.entries, entry.node = i := by
  obtain ⟨hframe, -, -, -⟩ := plan.carries_tree flags
  obtain ⟨node, -, hnode, -⟩ := (Tree.SameShape.refl (plan.tree flags)).exists_leaf hleaf
  rcases Nat.lt_or_ge i 3 with hlt | hge
  · obtain rfl | rfl | rfl : i = 0 ∨ i = 1 ∨ i = 2 := by omega
    · rw [Tree.leaf?, Tree.payload?, hframe.1] at hleaf
      cases hleaf
    · rw [Tree.leaf?, Tree.payload?, hframe.2.1] at hleaf
      cases hleaf
    · rw [Tree.leaf?, Tree.payload?, hframe.2.2.1] at hleaf
      cases hleaf
      exact Or.inl ⟨rfl, rfl⟩
  · rcases covered_of_get? hnode hge with hentry | ⟨_, _, _, container, hc, _⟩
    · exact Or.inr hentry
    · rw [Tree.container?_of_leaf? _ hleaf] at hc
      cases hc

end Plan

end Compiler

end Narrative
