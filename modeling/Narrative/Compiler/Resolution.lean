import Narrative.Compiler.Placement

/-!
# Looking names up

When all flows are in the tree, every reference is looked up: a name is a
variable of its flow or of the story, or else an address that leads to a
container from the flow, from its knot or from the root, whichever finds one
first. The leaf is given the address found, and what is counted about a
container is noted on it. A name that leads nowhere is reported. Both changes are
edits of the tree, which may be refused; the first refusal ends the look-ups.
-/

namespace Narrative.Compiler

/-- What names are looked up against. -/
structure World where
  root : NodeId
  globals : List String := []
  /-- The containers of flows with their numbers of parameters. -/
  parameters : List (NodeId × Nat) := []

namespace World

/-- Whether a name is a variable in a scope. -/
def isVariable (world : World) (scope : Scope) (name : String) : Bool :=
  scope.locals.contains name || world.globals.contains name

/-- The container that a path leads to from a node. -/
def containerAt? (tree : Tree) (path : Path) (start : NodeId) : Option NodeId :=
  (tree.contentAt? start path).filter fun found => (tree.container? found).isSome

/-- Where addresses start in a scope, in the order they are tried. -/
def starts (world : World) (scope : Scope) : List NodeId :=
  scope.container :: (scope.knot.toList ++ [world.root])

/-- The first container that an address leads to in a scope; the empty address leads nowhere. -/
def findFlow? (world : World) (tree : Tree) (scope : Scope) (target : String) : Option NodeId :=
  let path := Path.parse target
  if path.isEmpty then none else (world.starts scope).findSome? (containerAt? tree path)

/-- The number of parameters of a flow's container. -/
def parametersOf? (world : World) (container : NodeId) : Option Nat :=
  world.parameters.lookup container

end World

namespace Reference

/-- Where a complaint about a reference is reported: at the leaf's own range, at that of its
statement, or at that of an ancestor. -/
def range? (tree : Tree) (reference : Reference) : Option SourceRange :=
  ((tree.get? reference.node).bind Node.range) <|> reference.lookup.location
    <|> tree.range? reference.node

def complain (tree : Tree) (reference : Reference) (complaint : Complaint) : List Diagnostic :=
  [complaint.toDiagnostic (reference.range? tree)]

/-- Changes the leaf of a reference. -/
def replaceLeaf (reference : Reference) (leaf : Leaf) : Edit Unit := do
  let _ ← Edit.replace reference.node (.leaf leaf)

/-- Looks up what a variable reads: the number of visits when the name is that of a flow. -/
def lookUpReading (world : World) (reference : Reference) (name : String)
    (countedBy : Option CountQuery) : Edit (List Diagnostic) := do
  let tree ← get
  if world.isVariable reference.scope name then pure []
  else match world.findFlow? tree reference.scope name with
    | none => pure (reference.complain tree (.variableUnknown name))
    | some found => do
      reference.replaceLeaf (.reference (.readCount (tree.path found)))
      Edit.insertFlags found .visits
      pure (match countedBy with
        | some query => reference.complain tree (.countedWithoutArrow query.functionName name)
        | none => [])

/-- Looks up an address that is used as a value. -/
def lookUpTarget (world : World) (reference : Reference) (name : String)
    (countedBy : Option CountQuery) : Edit (List Diagnostic) := do
  let tree ← get
  if world.isVariable reference.scope name then
    pure (reference.complain tree (match countedBy with
      | some query => .countedVariableWithArrow query.functionName name
      | none => .variableWithArrow name))
  else match world.findFlow? tree reference.scope name with
    | none =>
      pure (reference.complain tree (match countedBy with
        | some query => .countedTargetUnknown query.functionName name
        | none => .targetUnknown name))
    | some found => do
      reference.replaceLeaf (.value (.divertTarget (tree.path found)))
      match countedBy with
      | some query => Edit.insertFlags found query.requiredFlags
      | none => pure ()
      pure []

/-- Complains when a jump that passes arguments passes the wrong number. -/
def arityComplaints (world : World) (tree : Tree) (reference : Reference) (name : String)
    (found : NodeId) (arguments : Nat) : List Diagnostic :=
  match world.parametersOf? found with
  | some expected =>
    if expected = arguments then [] else reference.complain tree (.flowArity name expected)
  | none => []

/-- Looks up where a jump goes; only a plain one may go where a variable points. -/
def lookUpJump (world : World) (reference : Reference) (name : String) (mode : JumpMode)
    (arguments : Nat) : Edit (List Diagnostic) := do
  let tree ← get
  if mode = .plain ∧ world.isVariable reference.scope name then do
    reference.replaceLeaf (.divert (.toVariable name))
    pure []
  else match world.findFlow? tree reference.scope name with
    | none =>
      pure (reference.complain tree
        (if mode = .function then .functionUnknown name else .targetUnknown name))
    | some found => do
      reference.replaceLeaf (.divert (mode.divert (tree.path found)))
      pure (if mode = .plain then []
        else reference.arityComplaints world tree name found arguments)

/-- Looks up a reference; a refused edit reports nothing. -/
def lookUp (world : World) (reference : Reference) : Edit (List Diagnostic) :=
  match reference.lookup.subject with
  | .reading name countedBy => reference.lookUpReading world name countedBy
  | .target name countedBy => reference.lookUpTarget world name countedBy
  | .jump name mode arguments => reference.lookUpJump world name mode arguments

end Reference

/-- What came of looking names up, and what was reported on the way. -/
structure LookedUp where
  result : Except TreeError Tree
  diagnostics : List Diagnostic

/-- Looks up references one after the other, up to the first refused edit. -/
def lookUpAll (world : World) : Tree → List Reference → LookedUp
  | tree, [] => { result := .ok tree, diagnostics := [] }
  | tree, reference :: rest =>
    match (reference.lookUp world).run tree with
    | .error error _ => { result := .error error, diagnostics := [] }
    | .ok diagnostics tree =>
      let others := lookUpAll world tree rest
      { others with diagnostics := diagnostics ++ others.diagnostics }

end Narrative.Compiler
