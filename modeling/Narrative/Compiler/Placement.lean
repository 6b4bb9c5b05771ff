import Narrative.Compiler.Plan
import Narrative.Tree.Edit

/-!
# Placing code in a tree

Steps become leaves of a container, flows become containers that are reachable by
name. Placing hands back the references: the leaves whose names are still to be
looked up, each with the scope it stands in, in the order they were placed.
-/

namespace Narrative.Compiler

/-- Where names are looked up from. -/
structure Scope where
  container : NodeId
  /-- The enclosing knot, if there is one. -/
  knot : Option NodeId := none
  locals : List String := []

/-- A leaf whose name is still to be looked up. -/
structure Reference where
  node : NodeId
  scope : Scope
  lookup : Lookup

/-- What is known of the flows that were placed. -/
structure Site where
  references : List Reference := []
  /-- The containers of flows with their numbers of parameters. -/
  parameters : List (NodeId × Nat) := []

namespace Site

def append (a b : Site) : Site :=
  ⟨a.references ++ b.references, a.parameters ++ b.parameters⟩

end Site

/-- The name of the container that declares the variables of a story. -/
def globalsName : String := "global decl"

/-- Adds steps to the content of a container; their names are looked up in a scope. -/
def placeSteps (container : NodeId) (scope : Scope) : List Step → Edit (List Reference)
  | [] => pure []
  | step :: rest => do
    let node ← Edit.add (.leaf step.leaf) step.range
    Edit.addContent container node
    let references ← placeSteps container scope rest
    pure (match step.lookup with
      | some lookup => { node, scope, lookup } :: references
      | none => references)

mutual

/-- Adds a flow to a container, inside a knot unless it is one itself. -/
def placeFlow (flags : CountFlags) (parent : NodeId) (knot : Option NodeId) :
    FlowPlan → Edit Site
  | .mk name range parameters locals steps stitches => do
    let container ← Edit.add (.container { name := some name, flags }) range
    Edit.addNamed parent container
    let references ←
      placeSteps container { container, knot := knot <|> some container, locals } steps
    let site ← placeFlows flags container (some container) stitches
    pure (Site.append ⟨references, [(container, parameters)]⟩ site)

def placeFlows (flags : CountFlags) (parent : NodeId) (knot : Option NodeId) :
    List FlowPlan → Edit Site
  | [] => pure {}
  | flow :: rest => do
    let first ← placeFlow flags parent knot flow
    let site ← placeFlows flags parent knot rest
    pure (first.append site)

end

/-- Adds the declarations of variables to the root; first values are looked up from there. -/
def placeGlobals (root : NodeId) (globals : Option Fragment) : Edit (List Reference) :=
  match globals with
  | none => pure []
  | some fragment => do
    let container ← Edit.add (.container { name := some globalsName })
    Edit.addNamed root container
    placeSteps container { container := root } fragment.steps

/-- A story in a tree, with what is still to be looked up. -/
structure Placed where
  root : NodeId
  site : Site

/-- Builds the tree of a story: the root holds the main content and the command that ends the turn,
and lists the flows and the declarations of variables by name. -/
def Plan.place (plan : Plan) (flowFlags : CountFlags) : Edit Placed := do
  let root ← Edit.add (.container {})
  let main ← Edit.add (.container {})
  Edit.addContent root main
  let done ← Edit.add (.leaf (.command .done))
  Edit.addContent root done
  let mainReferences ←
    placeSteps main { container := main, locals := plan.mainLocals } plan.main
  let flows ← placeFlows flowFlags root none plan.flows
  let globals ← placeGlobals root plan.globals
  pure { root, site := (Site.append ⟨mainReferences, []⟩ flows).append ⟨globals, []⟩ }

end Narrative.Compiler
