import Narrative.Compiler.Resolution

/-!
# Looking names up without refusals

What each look-up makes of a tree as long as no edit is refused. These functions
are for reasoning: the look-ups themselves edit the tree, and every edit they make
is accepted where a reference stands at a leaf.
-/

namespace Narrative.Compiler

namespace Reference

/-- Changes the leaf of a reference. -/
def setLeaf (tree : Tree) (reference : Reference) (leaf : Leaf) : Tree :=
  tree.setPayload reference.node (.leaf leaf)

/-- Notes on a container what is counted about it. -/
def markCounted (tree : Tree) (target : NodeId) (flags : CountFlags) : Tree :=
  tree.modifyContainer target (·.insertFlags flags)

/-- Looks up what a variable reads: the number of visits when the name is that of a flow. -/
def resolveReading (world : World) (tree : Tree) (reference : Reference) (name : String)
    (countedBy : Option CountQuery) : Tree × List Diagnostic :=
  if world.isVariable reference.scope name then (tree, [])
  else match world.findFlow? tree reference.scope name with
    | none => (tree, reference.complain tree (.variableUnknown name))
    | some found =>
      (markCounted (reference.setLeaf tree (.reference (.readCount (tree.path found)))) found
          .visits,
        match countedBy with
        | some query => reference.complain tree (.countedWithoutArrow query.functionName name)
        | none => [])

/-- Looks up an address that is used as a value. -/
def resolveTarget (world : World) (tree : Tree) (reference : Reference) (name : String)
    (countedBy : Option CountQuery) : Tree × List Diagnostic :=
  if world.isVariable reference.scope name then
    (tree, reference.complain tree (match countedBy with
      | some query => .countedVariableWithArrow query.functionName name
      | none => .variableWithArrow name))
  else match world.findFlow? tree reference.scope name with
    | none =>
      (tree, reference.complain tree (match countedBy with
        | some query => .countedTargetUnknown query.functionName name
        | none => .targetUnknown name))
    | some found =>
      let addressed := reference.setLeaf tree (.value (.divertTarget (tree.path found)))
      (match countedBy with
        | some query => markCounted addressed found query.requiredFlags
        | none => addressed, [])

/-- Looks up where a jump goes; only a plain one may go where a variable points. -/
def resolveJump (world : World) (tree : Tree) (reference : Reference) (name : String)
    (mode : JumpMode) (arguments : Nat) : Tree × List Diagnostic :=
  if mode = .plain ∧ world.isVariable reference.scope name then
    (reference.setLeaf tree (.divert (.toVariable name)), [])
  else match world.findFlow? tree reference.scope name with
    | none =>
      (tree, reference.complain tree
        (if mode = .function then .functionUnknown name else .targetUnknown name))
    | some found =>
      (reference.setLeaf tree (.divert (mode.divert (tree.path found))),
        if mode = .plain then []
        else reference.arityComplaints world tree name found arguments)

/-- A look-up: the tree after it, and what is reported. -/
def resolve (world : World) (tree : Tree) (reference : Reference) : Tree × List Diagnostic :=
  match reference.lookup.subject with
  | .reading name countedBy => reference.resolveReading world tree name countedBy
  | .target name countedBy => reference.resolveTarget world tree name countedBy
  | .jump name mode arguments => reference.resolveJump world tree name mode arguments

end Reference

/-- All look-ups one after the other. -/
def resolveAll (world : World) : Tree → List Reference → Tree × List Diagnostic
  | tree, [] => (tree, [])
  | tree, reference :: rest =>
    let first := reference.resolve world tree
    let others := resolveAll world first.1 rest
    (others.1, first.2 ++ others.2)

end Narrative.Compiler
