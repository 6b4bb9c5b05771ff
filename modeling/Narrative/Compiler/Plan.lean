import Narrative.Compiler.Lowering

/-!
# Plans

A plan is a story with every statement lowered, still without a tree: the code
of the main content, of each flow with its stitches, and of the declarations of
the story's variables. A flow without a name or with the name of an earlier
neighbour is reported and left out.
-/

namespace Narrative.Compiler

/-- A flow with its statements lowered. -/
inductive FlowPlan where
  | mk (name : String) (range : Option SourceRange) (parameters : Nat) (locals : List String)
      (steps : List Step) (stitches : List FlowPlan)

/-- The code at the head of a flow: parameters are taken off the stack, the last one first. -/
def lowerParameters (parameters : List String) : Fragment :=
  .concat (parameters.reverse.map fun name => .leaf (.assignment ⟨name, false, true⟩))

/-- The code that leads from a flow without a body into its first stitch. -/
def lowerEntry (context : Context) (body : List Statement) (stitches : List Flow) : Fragment :=
  match body, stitches with
  | [], first :: _ => .ofStep (context.jump first.name .plain 0)
  | _, _ => .empty

/-- Whether statements end with leaving the function. -/
def endsWithReturn (body : List Statement) : Bool :=
  match body.getLast? with
  | some statement =>
    match statement.action with
    | .giveBack _ => true
    | _ => false
  | none => false

/-- The code of a flow itself, without its stitches. -/
def lowerBody (context : Context) (parameters : List String) (body : List Statement)
    (stitches : List Flow) : Fragment :=
  lowerParameters parameters ++ lowerEntry context body stitches ++ lowerStatements context body
    ++ (if context.isFunction && !endsWithReturn body then lowerReturn context none else .empty)

/-- What lowering knows inside a flow. -/
def Context.inFlow (context : Context) (kind : FlowKind) (parameters : List String)
    (body : List Statement) : Context :=
  { context with
    locals := declared body ++ parameters
    isFunction := decide (kind = .function)
    location := none }

/-- Why a flow is left out after neighbours of the given names. -/
def flowComplaint? (seen : List String) (name : String) : Option Complaint :=
  if name.isEmpty then some .unnamedFlow
  else if seen.contains name then some (.duplicateFlow name)
  else none

mutual

/-- The plan of a flow. -/
def planFlow (context : Context) : Flow → FlowPlan × List Diagnostic
  | .mk name kind parameters body stitches range =>
    let inner := context.inFlow kind parameters body
    let fragment := lowerBody inner parameters body stitches
    let planned := planFlows context [] stitches
    (.mk name (context.complete range) parameters.length inner.locals fragment.steps planned.1,
      fragment.diagnostics ++ planned.2)

/-- The plans of neighbouring flows, after others of the given names. -/
def planFlows (context : Context) (seen : List String) :
    List Flow → List FlowPlan × List Diagnostic
  | [] => ([], [])
  | flow :: rest =>
    match flowComplaint? seen flow.name with
    | some complaint =>
      let planned := planFlows context seen rest
      (planned.1, complaint.toDiagnostic (context.complete flow.range) :: planned.2)
    | none =>
      let first := planFlow context flow
      let planned := planFlows context (flow.name :: seen) rest
      (first.1 :: planned.1, first.2 ++ planned.2)

end

/-! ## Variables of the story -/

/-- Whether a value may be the first value of a variable. -/
def isConstant : Expression → Bool
  | .int _ => true
  | .float _ => true
  | .bool _ => true
  | .string _ => true
  | .target _ => true
  | .unary .negate operand => operand.isNumberLiteral
  | _ => false

/-- Reports variables that are declared again. -/
def redeclared (context : Context) (seen : List String) : List GlobalDeclaration → List Diagnostic
  | [] => []
  | declaration :: rest =>
    if seen.contains declaration.name then
      (Complaint.duplicateVariable declaration.name).toDiagnostic
          (context.complete declaration.range)
        :: redeclared context seen rest
    else redeclared context (declaration.name :: seen) rest

/-- The code that gives a variable its first value. -/
def lowerGlobal (context : Context) (declaration : GlobalDeclaration) : Fragment :=
  context.complainIf (!isConstant declaration.value) (.initialValueNotConstant declaration.name)
      (context.complete declaration.range)
    ++ lower context declaration.value ++ .leaf (.assignment ⟨declaration.name, true, true⟩)

/-- The code that declares the variables of a story. -/
def lowerGlobals (context : Context) (declarations : List GlobalDeclaration) : Fragment :=
  .evaluated (.concat (declarations.map (lowerGlobal context))) ++ .command .finish

/-! ## Whole stories -/

/-- A story with its statements lowered. -/
structure Plan where
  mainLocals : List String
  main : List Step
  flows : List FlowPlan
  /-- The declarations of variables, if there are any. -/
  globals : Option Fragment
  globalNames : List String
  /-- What was reported, the declarations of variables apart. -/
  diagnostics : List Diagnostic

/-- What lowering knows of a story. -/
def Context.ofStory (file : Option String) (story : Story) : Context :=
  { file
    externals := Dict.ofList (story.externals.map fun e => (e.name, e.parameters.length))
    globals := story.globals.map GlobalDeclaration.name }

/-- The plan of a story. -/
def Plan.ofStory (file : Option String) (story : Story) : Plan :=
  let context := Context.ofStory file story
  let mainLocals := declared story.root
  let main := lowerStatements { context with locals := mainLocals } story.root
  let flows := planFlows context [] story.flows
  { mainLocals
    main := main.steps
    flows := flows.1
    globals := if story.globals.isEmpty then none else some (lowerGlobals context story.globals)
    globalNames := context.globals
    diagnostics := redeclared context [] story.globals ++ main.diagnostics ++ flows.2 }

end Narrative.Compiler
