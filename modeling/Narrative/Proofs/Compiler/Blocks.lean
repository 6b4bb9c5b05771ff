import Narrative.Proofs.Compiler.Entries
import Narrative.Proofs.Compiler.Plans
import Narrative.Proofs.Tree.Growth
import Narrative.Proofs.Tree.Planted

/-!
# Placed code, node by node

Where each node of a placed story stands. The nodes of a flow follow each other: first
its container, then its steps, then its stitches one after the other. So does the code of
a whole story: the root, the main content, the flows and the declarations of variables.

Flows that have names, no two neighbours the same one, can always be placed. The flows of
a plan are like that; a story has no tree only when one of them has the name that is kept
for the declarations of variables.
-/

namespace Narrative

namespace Tree

variable {tree : Tree} {c : NodeId}

/-- The tree with new nodes at its end, some of which a container lists by name. -/
def hung (tree : Tree) (c : NodeId) (table : List NamedEntry) (nodes : List Node) : Tree :=
  (tree.modifyContainer c fun container =>
    { container with table := container.table ++ table }).extend nodes

@[simp] theorem size_hung (tree : Tree) (c : NodeId) (table : List NamedEntry)
    (nodes : List Node) : (tree.hung c table nodes).size = tree.size + nodes.length := by
  simp [hung]

theorem hung_nil (tree : Tree) (c : NodeId) : tree.hung c [] [] = tree := by
  rw [hung, extend_nil]
  exact tree.modifyContainer_of_eq c fun container => by simp

theorem hung_hung (hc : c < tree.size) (first second : List NamedEntry)
    (before after : List Node) :
    (tree.hung c first before).hung c second after =
      tree.hung c (first ++ second) (before ++ after) := by
  rw [hung, hung, modifyContainer_extend _ (by simpa using hc), modifyContainer_modifyContainer,
    extend_extend, hung]
  simp only [List.append_assoc]

theorem container?_hung {container : Container} (hc : tree.container? c = some container)
    (table : List NamedEntry) (nodes : List Node) :
    (tree.hung c table nodes).container? c =
      some { container with table := container.table ++ table } := by
  rw [hung, container?_extend_old _ (by simpa using tree.lt_size_of_container? hc),
    container?_modifyContainer, if_pos rfl, hc]
  rfl

theorem namedChild?_hung {container : Container} (hc : tree.container? c = some container)
    (table : List NamedEntry) (nodes : List Node) (name : String) :
    (tree.hung c table nodes).namedChild? c name =
      (tree.namedChild? c name).or
        ((table.find? fun entry => entry.name == name).map NamedEntry.id) := by
  rw [namedChild?, container?_hung hc, namedChild?, hc, Option.bind_some, Option.bind_some,
    Container.namedChild?, Container.namedChild?, List.find?_append, Option.map_or]

/-- A change of the first new node. -/
theorem modifyContainer_extend_head (tree : Tree) (f : Container → Container)
    (parent : Option NodeId) (range : Option SourceRange) (container : Container)
    (nodes : List Node) :
    (tree.extend (⟨parent, range, .container container⟩ :: nodes)).modifyContainer tree.size f =
      tree.extend (⟨parent, range, .container (f container)⟩ :: nodes) :=
  tree.modify_extend_head _ _ nodes

/-! ## New nodes are never refused -/

/-- A new node does not stand above an old one. -/
theorem attachFault?_push (hwf : tree.WellFormed) {container : Container}
    (hc : tree.container? c = some container) (payload : Payload) (range : Option SourceRange) :
    (tree.push payload range).attachFault? c tree.size = none := by
  have hlt := tree.lt_size_of_container? hc
  refine attachFault?_eq_none_iff.mpr ⟨⟨container, ?_⟩, fun hmem => ?_⟩
  · rw [container?_push, if_neg (Nat.ne_of_lt hlt), hc]
  · have habove : ∀ a, Relation.ReflTransGen (tree.push payload range).Up c a → a < tree.size := by
      intro a hup
      induction hup with
      | refl => exact hlt
      | tail _ hstep _ =>
        rw [Up, parent?_push] at hstep
        exact hwf.parent_lt_size hstep
    exact Nat.lt_irrefl _ (habove _ (mem_lineageWithin hmem))

theorem addContent_leaf (hwf : tree.WellFormed) {container : Container}
    (hc : tree.container? c = some container) (leaf : Leaf) (range : Option SourceRange) :
    Edit.addContent c tree.size (tree.push (.leaf leaf) range) =
      .ok () (tree.withContent c [⟨some c, range, .leaf leaf⟩]) := by
  have hlt := tree.lt_size_of_container? hc
  have hafter : ((tree.push (.leaf leaf) range).detached tree.size).appended c tree.size none =
      tree.withContent c [⟨some c, range, .leaf leaf⟩] := by
    rw [detached_push, appended, linked_push hlt]
    rfl
  rw [Edit.addContent_eq, attachFault?_push hwf hc, validName?_push_leaf]
  simp only [nameFault?, hafter]
  rw [if_pos (by simp)]

theorem validName?_push_named (tree : Tree) {name : String} (hname : name.isEmpty = false)
    (range : Option SourceRange) (flags : CountFlags) :
    (tree.push (.container { name := some name, flags }) range).validName? tree.size =
      some name := by
  rw [validName?, container?_push, if_pos rfl]
  change (some name).filter (fun name => !name.isEmpty) = _
  rw [Option.filter_some, hname]
  rfl

/-- The tree with a new container that another one lists by name. -/
def withFlow (tree : Tree) (parent : NodeId) (name : String) (range : Option SourceRange)
    (flags : CountFlags) : Tree :=
  tree.withNamed parent name ⟨some parent, range, .container { name := some name, flags }⟩

theorem container?_withFlow (tree : Tree) (parent : NodeId) (name : String)
    (range : Option SourceRange) (flags : CountFlags) :
    (tree.withFlow parent name range flags).container? tree.size =
      some { name := some name, flags } := by
  have hnode := tree.get?_withNamed_new parent name
    ⟨some parent, range, .container { name := some name, flags }⟩ 0
  exact (container?_eq_some_iff _).mpr ⟨_, hnode, rfl⟩

theorem addNamed_flow (hwf : tree.WellFormed) {container : Container}
    (hc : tree.container? c = some container) {name : String} (hname : name.isEmpty = false)
    (hfree : tree.namedChild? c name = none) (range : Option SourceRange) (flags : CountFlags) :
    Edit.addNamed c tree.size (tree.push (.container { name := some name, flags }) range) =
      .ok () (tree.withFlow c name range flags) := by
  have hlt := tree.lt_size_of_container? hc
  have hfault : (tree.push (.container { name := some name, flags }) range).nameFault? c
      (some name) [tree.size] = none := by
    have hnone : (tree.push (.container { name := some name, flags }) range).namedChild? c name =
        none := by
      rw [namedChild?, container?_push, if_neg (Nat.ne_of_lt hlt)]
      exact hfree
    simp [nameFault?, hnone]
  rw [Edit.addNamed_eq, attachFault?_push hwf hc, tree.validName?_push_named hname]
  simp only [hfault]
  rw [detached_push, enteredByName, linked_push hlt]
  rfl

end Tree

namespace Compiler

open Narrative.Tree (Carries)

/-! ## Blocks -/

/-- A container with a name and steps, as its node. -/
def housing (parent place : NodeId) (name : String) (range : Option SourceRange)
    (flags : CountFlags) (steps : List Step) (table : List NamedEntry) : Node :=
  { parent := some parent
    range
    payload := .container
      { content := List.range' (place + 1) steps.length, table, flags, name := some name } }

namespace FlowPlan

mutual

/-- The number of nodes of a flow. -/
def size : FlowPlan → Nat
  | .mk _ _ _ _ steps stitches => 1 + steps.length + sizeEach stitches

def sizeEach : List FlowPlan → Nat
  | [] => 0
  | flow :: rest => flow.size + sizeEach rest

end

/-- The entries of neighbouring flows in the table of their container. -/
def tableFrom (place : NodeId) : List FlowPlan → List NamedEntry
  | [] => []
  | flow :: rest => ⟨flow.name, place, false⟩ :: tableFrom (place + flow.size) rest

theorem namedOnly_tableFrom (place : NodeId) (flows : List FlowPlan) :
    (tableFrom place flows).filter (fun entry => !entry.positional) = tableFrom place flows := by
  induction flows generalizing place with
  | nil => rfl
  | cons flow rest ih => rw [tableFrom, List.filter_cons_of_pos rfl, ih]

theorem names_tableFrom (place : NodeId) (flows : List FlowPlan) :
    (tableFrom place flows).map NamedEntry.name = flows.map FlowPlan.name := by
  induction flows generalizing place with
  | nil => rfl
  | cons flow rest ih => rw [tableFrom, List.map_cons, List.map_cons, ih]

mutual

/-- The nodes of a flow whose container stands at a place. -/
def nodes (flags : CountFlags) (parent place : NodeId) : FlowPlan → List Node
  | .mk name range _ _ steps stitches =>
    housing parent place name range flags steps (tableFrom (place + 1 + steps.length) stitches)
      :: (steps.map (·.toNode place)
        ++ nodesEach flags place (place + 1 + steps.length) stitches)

def nodesEach (flags : CountFlags) (parent place : NodeId) : List FlowPlan → List Node
  | [] => []
  | flow :: rest =>
    flow.nodes flags parent place ++ nodesEach flags parent (place + flow.size) rest

end

mutual

/-- The entries of a flow whose container stands at a place. -/
def entries (knot : Option NodeId) (place : NodeId) : FlowPlan → List Entry
  | .mk _ _ _ locals steps stitches =>
    entriesFrom place ⟨place, knot <|> some place, locals⟩ (place + 1) steps
      ++ entriesEach (some place) (place + 1 + steps.length) stitches

def entriesEach (knot : Option NodeId) (place : NodeId) : List FlowPlan → List Entry
  | [] => []
  | flow :: rest => flow.entries knot place ++ entriesEach knot (place + flow.size) rest

end

mutual

/-- The containers of a flow and of the stitches in it, with their numbers of parameters. -/
def arities (place : NodeId) : FlowPlan → List (NodeId × Nat)
  | .mk _ _ parameters _ steps stitches =>
    (place, parameters) :: aritiesEach (place + 1 + steps.length) stitches

def aritiesEach (place : NodeId) : List FlowPlan → List (NodeId × Nat)
  | [] => []
  | flow :: rest => flow.arities place ++ aritiesEach (place + flow.size) rest

end

mutual

theorem length_nodes : ∀ (flow : FlowPlan) (flags : CountFlags) (parent place : NodeId),
    (flow.nodes flags parent place).length = flow.size
  | .mk name range parameters locals steps stitches, flags, parent, place => by
    have hstitches := length_nodesEach stitches flags place (place + 1 + steps.length)
    simp only [nodes, size, List.length_cons, List.length_append, List.length_map, hstitches]
    omega

theorem length_nodesEach : ∀ (flows : List FlowPlan) (flags : CountFlags) (parent place : NodeId),
    (nodesEach flags parent place flows).length = sizeEach flows
  | [], _, _, _ => rfl
  | flow :: rest, flags, parent, place => by
    rw [nodesEach, sizeEach, List.length_append, length_nodes flow,
      length_nodesEach rest]

end

end FlowPlan

/-! ## Placing flows -/

section Placing

variable {tree : Tree} {c : NodeId} {container : Container}

/-- Steps are appended to the content of their container. -/
theorem placeSteps_eq_ok (hwf : tree.WellFormed) (hc : tree.container? c = some container)
    (scope : Scope) (steps : List Step) :
    placeSteps c scope steps tree =
        .ok ((entriesFrom c scope tree.size steps).filterMap Entry.reference?)
          (tree.withContent c (steps.map (·.toNode c))) ∧
      (tree.withContent c (steps.map (·.toNode c))).WellFormed := by
  induction steps generalizing tree container with
  | nil =>
    rw [List.map_nil, tree.withContent_nil]
    exact ⟨rfl, hwf⟩
  | cons step rest ih =>
    have hadd := Tree.addContent_leaf hwf hc step.leaf step.range
    obtain ⟨hrest, hafter⟩ := ih (Tree.wellFormed_addContent_new hwf hadd)
      (Tree.container?_withContent hc _)
    rw [Tree.withContent_cons (tree.lt_size_of_container? hc)] at hrest hafter
    refine ⟨?_, hafter⟩
    rw [placeSteps, Step.bind_ok (Edit.add_eq _ _ _), Step.bind_ok hadd, Step.bind_ok hrest,
      Tree.size_withContent, entriesFrom, List.filterMap_cons, Entry.reference?]
    cases step.lookup <;> rfl

/-- A container with a name is placed, and then its steps. -/
theorem exists_shell (hwf : tree.WellFormed) (hc : tree.container? c = some container)
    {name : String} (hname : name.isEmpty = false) (hfree : tree.namedChild? c name = none)
    (range : Option SourceRange) (flags : CountFlags) (scope : Scope) (steps : List Step) :
    ∃ shell, Edit.addNamed c tree.size
          (tree.push (.container { name := some name, flags }) range) = .ok () shell ∧
      placeSteps tree.size scope steps shell =
        .ok ((entriesFrom tree.size scope (tree.size + 1) steps).filterMap Entry.reference?)
          (tree.hung c [⟨name, tree.size, false⟩]
            (housing c tree.size name range flags steps [] :: steps.map (·.toNode tree.size))) ∧
      (tree.hung c [⟨name, tree.size, false⟩]
        (housing c tree.size name range flags steps [] ::
          steps.map (·.toNode tree.size))).WellFormed := by
  have hnamed := Tree.addNamed_flow hwf hc hname hfree range flags
  have hnew := tree.container?_withFlow c name range flags
  have hshell := Tree.wellFormed_addNamed_new hwf hnamed
  obtain ⟨hsteps, hbody⟩ := placeSteps_eq_ok hshell hnew scope steps
  have hsize : (tree.withFlow c name range flags).size = tree.size + 1 := by
    simp [Tree.withFlow, Tree.withNamed]
  have htree : (tree.withFlow c name range flags).withContent tree.size
        (steps.map (·.toNode tree.size)) =
      tree.hung c [⟨name, tree.size, false⟩]
        (housing c tree.size name range flags steps [] :: steps.map (·.toNode tree.size)) := by
    have hhead := (tree.modifyContainer c
      (·.enter (some name) tree.size false)).modifyContainer_extend_head
        (fun container =>
          { container with
            content := container.content ++ List.range' (tree.size + 1) steps.length })
        (some c) range { name := some name, flags } []
    rw [Tree.size_modifyContainer] at hhead
    rw [Tree.withContent, hsize, List.length_map, Tree.withFlow, Tree.withNamed, hhead,
      Tree.extend_extend]
    rfl
  rw [htree, hsize] at hsteps
  exact ⟨_, hnamed, hsteps, htree ▸ hbody⟩

/-- Flows that are hung on the last container. -/
theorem hung_hung_head (tree : Tree) (c : NodeId) (name : String) (range : Option SourceRange)
    (flags : CountFlags) (steps : List Step) (table : List NamedEntry) (nodes : List Node) :
    (tree.hung c [⟨name, tree.size, false⟩] (housing c tree.size name range flags steps [] ::
        steps.map (·.toNode tree.size))).hung tree.size table nodes =
      tree.hung c [⟨name, tree.size, false⟩] (housing c tree.size name range flags steps table ::
        (steps.map (·.toNode tree.size) ++ nodes)) := by
  have hhead := (tree.modifyContainer c fun container =>
      { container with
        table := container.table ++ [⟨name, tree.size, false⟩] }).modifyContainer_extend_head
    (fun container => { container with table := container.table ++ table })
    (some c) range
    { content := List.range' (tree.size + 1) steps.length, flags, name := some name }
    (steps.map (·.toNode tree.size))
  rw [Tree.size_modifyContainer] at hhead
  rw [Tree.hung, Tree.hung, housing, hhead, Tree.extend_extend]
  rfl

theorem container?_hung_head (tree : Tree) (c : NodeId) (name : String)
    (range : Option SourceRange) (flags : CountFlags) (steps : List Step) (nodes : List Node) :
    (tree.hung c [⟨name, tree.size, false⟩]
        (housing c tree.size name range flags steps [] :: nodes)).container? tree.size =
      some { content := List.range' (tree.size + 1) steps.length, flags, name := some name } := by
  have hnew := (tree.modifyContainer c fun container =>
    { container with table := container.table ++ [⟨name, tree.size, false⟩] }).get?_extend_new
      (housing c tree.size name range flags steps [] :: nodes) 0
  rw [Tree.size_modifyContainer] at hnew
  exact (Tree.container?_eq_some_iff _).mpr ⟨_, hnew, rfl⟩

mutual

/-- A flow is placed node after node. -/
theorem placeFlow_eq_ok : ∀ (flow : FlowPlan) (flags : CountFlags) {parent : NodeId}
    (knot : Option NodeId) {tree : Tree} {container : Container}, flow.Sound → tree.WellFormed →
    tree.container? parent = some container → tree.namedChild? parent flow.name = none →
    placeFlow flags parent knot flow tree =
        .ok ⟨(flow.entries knot tree.size).filterMap Entry.reference?, flow.arities tree.size⟩
          (tree.hung parent [⟨flow.name, tree.size, false⟩] (flow.nodes flags parent tree.size)) ∧
      (tree.hung parent [⟨flow.name, tree.size, false⟩]
        (flow.nodes flags parent tree.size)).WellFormed
  | .mk name range parameters locals steps stitches, flags, parent, knot, tree, container, hsound,
      hwf, hparent, hfree => by
    cases hsound with
    | mk hname hdistinct hstitches =>
      obtain ⟨shell, hnamed, hsteps, hbody⟩ := exists_shell hwf hparent hname hfree range flags
        ⟨tree.size, knot <|> some tree.size, locals⟩ steps
      have hbase := container?_hung_head tree parent name range flags steps
        (steps.map (·.toNode tree.size))
      obtain ⟨hplaced, hafter⟩ := placeFlows_eq_ok stitches flags (some tree.size) hstitches
        hdistinct hbody hbase fun stitch _ => by rw [Tree.namedChild?, hbase]; rfl
      rw [hung_hung_head, Tree.size_hung, List.length_cons, List.length_map,
        Nat.add_comm steps.length 1, ← Nat.add_assoc] at hplaced hafter
      refine ⟨?_, hafter⟩
      rw [placeFlow, Step.bind_ok (Edit.add_eq _ _ _), Step.bind_ok hnamed, Step.bind_ok hsteps,
        Step.bind_ok hplaced, FlowPlan.entries, List.filterMap_append]
      rfl

/-- Neighbouring flows are placed one after the other. -/
theorem placeFlows_eq_ok : ∀ (flows : List FlowPlan) (flags : CountFlags) {parent : NodeId}
    (knot : Option NodeId) {tree : Tree} {container : Container},
    (∀ flow ∈ flows, flow.Sound) → (flows.map FlowPlan.name).Nodup → tree.WellFormed →
    tree.container? parent = some container →
    (∀ flow ∈ flows, tree.namedChild? parent flow.name = none) →
    placeFlows flags parent knot flows tree =
        .ok ⟨(FlowPlan.entriesEach knot tree.size flows).filterMap Entry.reference?,
            FlowPlan.aritiesEach tree.size flows⟩
          (tree.hung parent (FlowPlan.tableFrom tree.size flows)
            (FlowPlan.nodesEach flags parent tree.size flows)) ∧
      (tree.hung parent (FlowPlan.tableFrom tree.size flows)
        (FlowPlan.nodesEach flags parent tree.size flows)).WellFormed
  | [], flags, parent, knot, tree, container, _, _, hwf, _, _ => by
    rw [FlowPlan.tableFrom, FlowPlan.nodesEach, Tree.hung_nil]
    exact ⟨rfl, hwf⟩
  | flow :: rest, flags, parent, knot, tree, container, hsound, hdistinct, hwf, hparent, hfree => by
    obtain ⟨hfirst, hmid⟩ := placeFlow_eq_ok flow flags knot (hsound flow List.mem_cons_self) hwf
      hparent (hfree flow List.mem_cons_self)
    obtain ⟨hnew, hothers⟩ := List.nodup_cons.mp hdistinct
    have hcontainer := Tree.container?_hung hparent [⟨flow.name, tree.size, false⟩]
      (flow.nodes flags parent tree.size)
    have hstill : ∀ other ∈ rest, (tree.hung parent [⟨flow.name, tree.size, false⟩]
        (flow.nodes flags parent tree.size)).namedChild? parent other.name = none := by
      intro other hother
      have hne : flow.name ≠ other.name := fun heq =>
        hnew (heq ▸ List.mem_map_of_mem hother)
      rw [Tree.namedChild?_hung hparent, hfree other (List.mem_cons_of_mem _ hother)]
      simp [hne]
    obtain ⟨hrest, hlast⟩ := placeFlows_eq_ok rest flags knot
      (fun other hother => hsound other (List.mem_cons_of_mem _ hother)) hothers hmid hcontainer
      hstill
    rw [Tree.hung_hung (tree.lt_size_of_container? hparent), Tree.size_hung,
      FlowPlan.length_nodes] at hrest hlast
    refine ⟨?_, hlast⟩
    rw [placeFlows, Step.bind_ok hfirst, Step.bind_ok hrest, FlowPlan.entriesEach,
      List.filterMap_append]
    rfl

end

end Placing

/-! ## Whole stories -/

namespace Plan

variable (plan : Plan)

/-- Where the first flow is placed. -/
def firstFlow : Nat := 3 + plan.main.length

/-- Where the declarations of variables are placed. -/
def globalsPlace : Nat := plan.firstFlow + FlowPlan.sizeEach plan.flows

/-- The declarations of variables as nodes. -/
def globalNodes : List Node :=
  match plan.globals with
  | none => []
  | some fragment =>
    housing 0 plan.globalsPlace globalsName none {} fragment.steps []
      :: fragment.steps.map (·.toNode plan.globalsPlace)

/-- What the root lists by name. -/
def table : List NamedEntry :=
  FlowPlan.tableFrom plan.firstFlow plan.flows
    ++ (plan.globals.map fun _ => ⟨globalsName, plan.globalsPlace, false⟩).toList

/-- Nothing in the content of the root has a name. -/
theorem namedOnly_table : plan.table.filter (fun entry => !entry.positional) = plan.table := by
  rw [table, List.filter_append, FlowPlan.namedOnly_tableFrom]
  cases plan.globals <;> rfl

/-- The root with what it lists by name, the container of the main content, the command of the root,
and the main content. -/
def frame (table : List NamedEntry) : List Node :=
  [⟨none, none, .container { content := [1, 2], table }⟩,
    ⟨some 0, none, .container { content := List.range' 3 plan.main.length }⟩,
    ⟨some 0, none, .leaf (.command .done)⟩] ++ plan.main.map (·.toNode 1)

/-- The nodes of a story: the frame, the flows, and the declarations of variables. -/
def nodes (flags : CountFlags) : List Node :=
  plan.frame plan.table ++ FlowPlan.nodesEach flags 0 plan.firstFlow plan.flows ++ plan.globalNodes

def tree (flags : CountFlags) : Tree := Tree.empty.extend (plan.nodes flags)

def globalEntries : List Entry :=
  match plan.globals with
  | none => []
  | some fragment =>
    entriesFrom plan.globalsPlace { container := 0 } (plan.globalsPlace + 1) fragment.steps

/-- The code of a story, step by step, at its places. -/
def entries : List Entry :=
  entriesFrom 1 { container := 1, locals := plan.mainLocals } 3 plan.main
    ++ FlowPlan.entriesEach none plan.firstFlow plan.flows ++ plan.globalEntries

def arities : List (NodeId × Nat) := FlowPlan.aritiesEach plan.firstFlow plan.flows

end Plan

/-! ## Placing whole stories -/

theorem find?_tableFrom_eq_none {place : NodeId} {flows : List FlowPlan} {name : String} :
    ((FlowPlan.tableFrom place flows).find? fun entry => entry.name == name) = none ↔
      name ∉ flows.map FlowPlan.name := by
  induction flows generalizing place with
  | nil => simp [FlowPlan.tableFrom]
  | cons flow rest ih =>
    rw [FlowPlan.tableFrom, List.find?_cons, List.map_cons, List.mem_cons]
    cases hsame : flow.name == name with
    | true => simp [beq_iff_eq.mp hsame]
    | false =>
      have hne : name ≠ flow.name := fun heq => beq_eq_false_iff_ne.mp hsame heq.symm
      simp only [hne, false_or]
      exact ih

/-- The tree that placing starts from: the root with its content, still empty. -/
def seedling : Tree :=
  ((Tree.empty.push (.container {}) none).withContent 0
    [⟨some 0, none, .container {}⟩]).withContent 0 [⟨some 0, none, .leaf (.command .done)⟩]

theorem wellFormed_seedling : seedling.WellFormed := by
  have hmain : Edit.addContent 0 1 ((Tree.empty.push (.container {}) none).push (.container {})
      none) = .ok () _ := rfl
  have hdone : Edit.addContent 0 2 (((Tree.empty.push (.container {}) none).withContent 0
      [⟨some 0, none, .container {}⟩]).push (.leaf (.command .done)) none) = .ok () seedling := rfl
  exact Tree.wellFormed_addContent_new
    (Tree.wellFormed_addContent_new (Tree.wellFormed_empty.push _ _) hmain) hdone

namespace Plan

variable {plan : Plan}

theorem length_frame (plan : Plan) (table : List NamedEntry) :
    (plan.frame table).length = plan.firstFlow := by
  simp only [frame, firstFlow, List.length_append, List.length_cons, List.length_nil,
    List.length_map]

theorem seedling_withContent (plan : Plan) :
    seedling.withContent 1 (plan.main.map (·.toNode 1)) = Tree.empty.extend (plan.frame []) := by
  rw [Tree.withContent, List.length_map, frame, ← Tree.extend_extend]
  rfl

theorem container?_frame (plan : Plan) (table : List NamedEntry) (nodes : List Node) :
    (Tree.empty.extend (plan.frame table ++ nodes)).container? 0 =
      some { content := [1, 2], table } := by
  have hroot := Tree.empty.get?_extend_new (plan.frame table ++ nodes) 0
  exact (Tree.container?_eq_some_iff _).mpr ⟨_, hroot, rfl⟩

theorem hung_frame (plan : Plan) (table more : List NamedEntry) (nodes extra : List Node) :
    (Tree.empty.extend (plan.frame table ++ nodes)).hung 0 more extra =
      Tree.empty.extend (plan.frame (table ++ more) ++ nodes ++ extra) := by
  have hroot := Tree.empty.modifyContainer_extend_head
    (fun container => { container with table := container.table ++ more }) none none
    { content := [1, 2], table } (⟨some 0, none, .container
      { content := List.range' 3 plan.main.length }⟩ :: ⟨some 0, none, .leaf (.command .done)⟩ ::
        (plan.main.map (·.toNode 1) ++ nodes))
  have hall := congrArg (fun tree => Tree.extend tree extra) hroot
  simp only [Tree.extend_extend] at hall
  exact hall

/-- The main content is placed, and then the flows. -/
theorem exists_placedFlows (hsound : plan.Sound) (flags : CountFlags) :
    ∃ body, placeSteps 1 { container := 1, locals := plan.mainLocals } plan.main seedling =
        .ok ((entriesFrom 1 { container := 1, locals := plan.mainLocals } 3
          plan.main).filterMap Entry.reference?) body ∧
      placeFlows flags 0 none plan.flows body =
        .ok ⟨(FlowPlan.entriesEach none plan.firstFlow plan.flows).filterMap Entry.reference?,
          plan.arities⟩
          (Tree.empty.extend (plan.frame (FlowPlan.tableFrom plan.firstFlow plan.flows)
            ++ FlowPlan.nodesEach flags 0 plan.firstFlow plan.flows)) ∧
      (Tree.empty.extend (plan.frame (FlowPlan.tableFrom plan.firstFlow plan.flows)
        ++ FlowPlan.nodesEach flags 0 plan.firstFlow plan.flows)).WellFormed := by
  have hempty : seedling.container? 1 = some {} := rfl
  obtain ⟨hmain, hwf⟩ := placeSteps_eq_ok wellFormed_seedling hempty
    { container := 1, locals := plan.mainLocals } plan.main
  rw [plan.seedling_withContent] at hmain hwf
  have hroot := plan.container?_frame [] []
  rw [List.append_nil] at hroot
  obtain ⟨hflows, hafter⟩ := placeFlows_eq_ok plan.flows flags none hsound.flows hsound.distinct
    hwf hroot fun flow _ => by rw [Tree.namedChild?, hroot]; rfl
  have hsize : (Tree.empty.extend (plan.frame [])).size = plan.firstFlow := by
    rw [Tree.size_extend, plan.length_frame]
    exact Nat.zero_add _
  have hhung := plan.hung_frame [] (FlowPlan.tableFrom plan.firstFlow plan.flows) []
    (FlowPlan.nodesEach flags 0 plan.firstFlow plan.flows)
  rw [List.append_nil, List.nil_append, List.append_nil] at hhung
  rw [hsize, hhung] at hflows hafter
  exact ⟨_, hmain, hflows, hafter⟩

theorem place_eq_bind (plan : Plan) (flags : CountFlags) :
    (plan.place flags) Tree.empty =
      (do
        let main ← placeSteps 1 { container := 1, locals := plan.mainLocals } plan.main
        let flows ← placeFlows flags 0 none plan.flows
        let globals ← placeGlobals 0 plan.globals
        pure ⟨0, (Site.append ⟨main, []⟩ flows).append ⟨globals, []⟩⟩ : Edit Placed) seedling :=
  rfl

/-- The declarations of variables are hung on the root last. -/
theorem placeGlobals_eq_ok (hfree : plan.Free) {nodes : List Node}
    (hwf : (Tree.empty.extend (plan.frame (FlowPlan.tableFrom plan.firstFlow plan.flows)
      ++ nodes)).WellFormed) (hlength : nodes.length = FlowPlan.sizeEach plan.flows) :
    placeGlobals 0 plan.globals (Tree.empty.extend
        (plan.frame (FlowPlan.tableFrom plan.firstFlow plan.flows) ++ nodes)) =
      .ok (plan.globalEntries.filterMap Entry.reference?)
        (Tree.empty.extend (plan.frame plan.table ++ nodes ++ plan.globalNodes)) ∧
      (Tree.empty.extend (plan.frame plan.table ++ nodes ++ plan.globalNodes)).WellFormed := by
  cases hglobals : plan.globals with
  | none =>
    simp only [globalEntries, globalNodes, table, hglobals, Option.map_none, Option.toList_none,
      List.append_nil]
    exact ⟨rfl, hwf⟩
  | some fragment =>
    have hroot := plan.container?_frame (FlowPlan.tableFrom plan.firstFlow plan.flows) nodes
    have hname : (Tree.empty.extend (plan.frame (FlowPlan.tableFrom plan.firstFlow plan.flows)
        ++ nodes)).namedChild? 0 globalsName = none := by
      have hnew := hfree (by rw [hglobals]; rfl)
      rw [Tree.namedChild?, hroot, Option.bind_some, Container.namedChild?,
        find?_tableFrom_eq_none.mpr hnew]
      rfl
    have hsize : (Tree.empty.extend (plan.frame (FlowPlan.tableFrom plan.firstFlow plan.flows)
        ++ nodes)).size = plan.globalsPlace := by
      rw [Tree.size_extend, List.length_append, length_frame, hlength]
      exact Nat.zero_add _
    obtain ⟨shell, hnamed, hsteps, hafter⟩ := exists_shell hwf hroot (by decide) hname none {}
      { container := 0 } fragment.steps
    rw [hsize, hung_frame] at hsteps hafter
    rw [hsize] at hnamed
    simp only [globalEntries, globalNodes, table, hglobals, Option.map_some, Option.toList_some]
    refine ⟨?_, hafter⟩
    rw [placeGlobals, Step.bind_ok (Edit.add_eq _ _ _), hsize, Step.bind_ok hnamed, hsteps]

/-- A story whose flows leave the name for the declarations free has its tree. -/
theorem place_eq_ok (hsound : plan.Sound) (hfree : plan.Free) (flags : CountFlags) :
    (plan.place flags) Tree.empty =
        .ok ⟨0, plan.entries.filterMap Entry.reference?, plan.arities⟩ (plan.tree flags) ∧
      (plan.tree flags).WellFormed := by
  obtain ⟨body, hmain, hflows, hwf⟩ := exists_placedFlows hsound flags
  obtain ⟨hglobals, hafter⟩ := placeGlobals_eq_ok hfree hwf (FlowPlan.length_nodesEach _ _ _ _)
  refine ⟨?_, hafter⟩
  rw [place_eq_bind, Step.bind_ok hmain, Step.bind_ok hflows, Step.bind_ok hglobals, entries,
    List.filterMap_append, List.filterMap_append]
  simp only [Site.append, List.nil_append, List.append_nil]
  rfl

/-- A story has a tree only when its flows leave that name free. -/
theorem free_of_place (hsound : plan.Sound) {flags : CountFlags} {placed : Placed} {after : Tree}
    (h : (plan.place flags) Tree.empty = .ok placed after) : plan.Free := by
  obtain ⟨body, hmain, hflows, hwf⟩ := exists_placedFlows hsound flags
  rw [place_eq_bind, Step.bind_ok hmain, Step.bind_ok hflows] at h
  obtain ⟨globals, last, hglobals, -⟩ := Step.exists_of_bind_ok h
  intro hsome hmem
  obtain ⟨fragment, hfragment⟩ := Option.isSome_iff_exists.mp hsome
  rw [hfragment, placeGlobals, Step.bind_ok (Edit.add_eq _ _ _)] at hglobals
  obtain ⟨_, shell, hnamed, -⟩ := Step.exists_of_bind_ok hglobals
  obtain ⟨-, -, hother⟩ := Tree.addNamed_new
    (Tree.validName?_push_named _ (by decide) none {}) hnamed
  have hroot := plan.container?_frame (FlowPlan.tableFrom plan.firstFlow plan.flows)
    (FlowPlan.nodesEach flags 0 plan.firstFlow plan.flows)
  cases hfind : (FlowPlan.tableFrom plan.firstFlow plan.flows).find?
      fun entry => entry.name == globalsName with
  | none => exact find?_tableFrom_eq_none.mp hfind hmem
  | some entry =>
    -- The flow of that name is in the tree already, so it is not the new container.
    have hlisted := (hwf.tidy 0 _ hroot).mem_children_of_entry (List.mem_of_find?_eq_some hfind)
    have hlt := hwf.listed_exists 0 _ hroot _ hlisted
    have hchild := hother entry.id
      (by rw [Tree.namedChild?, hroot, Option.bind_some, Container.namedChild?, hfind]; rfl)
    exact Nat.ne_of_lt hlt hchild

end Plan

end Compiler

end Narrative
