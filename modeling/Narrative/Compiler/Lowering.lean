import Narrative.Compiler.Fragment
import Narrative.Dict
import Narrative.Story

/-!
# Lowering statements and expressions

Expressions become code for a stack machine: operands first, then the operator.
A call is lowered by the first rule that knows its name: functions without
arguments, questions about visits, random numbers, built-in operators, functions
of the host, and last the functions of the story. A call with a wrong argument is
reported; whether it still leaves code depends on the rule.
-/

namespace Narrative.Compiler

/-- What lowering knows of the place a statement stands in. -/
structure Context where
  /-- The file to name where a range names none. -/
  file : Option String := none
  /-- Functions of the host with their numbers of parameters. -/
  externals : Dict Nat := []
  globals : List String := []
  /-- Parameters and temporary variables of the enclosing flow. -/
  locals : List String := []
  isFunction : Bool := false
  /-- The range of the enclosing statement. -/
  location : Option SourceRange := none

namespace Context

/-- A range as it is stored and reported. -/
def complete (context : Context) (range : Option SourceRange) : Option SourceRange :=
  range.map (·.withFile context.file)

/-- Reports a complaint at a range, or at the enclosing statement. -/
def complain (context : Context) (complaint : Complaint) (range : Option SourceRange) : Fragment :=
  .diagnostic (complaint.toDiagnostic (range <|> context.location))

/-- Reports a complaint if a condition holds. -/
def complainIf (context : Context) (condition : Bool) (complaint : Complaint)
    (range : Option SourceRange) : Fragment :=
  if condition then context.complain complaint range else .empty

/-- A step whose name is looked up later. -/
def pending (context : Context) (leaf : Leaf) (subject : Subject) : Step :=
  { leaf, lookup := some { subject, location := context.location } }

/-- Reading a variable. -/
def reading (context : Context) (name : String) (countedBy : Option CountQuery) : Step :=
  context.pending (.reference (.named name)) (.reading name countedBy)

/-- An address as a value. -/
def target (context : Context) (name : String) (countedBy : Option CountQuery) : Step :=
  context.pending (.value (.divertTarget (.parse name))) (.target name countedBy)

/-- A jump with arguments on the stack. -/
def jump (context : Context) (name : String) (mode : JumpMode) (arguments : Nat) : Step :=
  context.pending (.divert (mode.divert (.parse name))) (.jump name mode arguments)

end Context

/-! ## Calls -/

/-- The rule that a call is lowered by. -/
inductive CallRule where
  /-- A command without arguments. -/
  | constant (command : Command)
  | query (query : CountQuery)
  | random
  | seed
  | operator (operator : Operator)
  | external (parameters : Nat)
  | function

namespace CallRule

/-- The rules for names that are commands rather than operators. -/
def ofName? (name : String) : Option CallRule :=
  if name = "CHOICE_COUNT" then some (constant .choiceCount)
  else if name = "TURNS" then some (constant .turns)
  else if name = "TURNS_SINCE" then some (query .turnsSince)
  else if name = "READ_COUNT" then some (query .readCount)
  else if name = "RANDOM" then some random
  else if name = "SEED_RANDOM" then some seed
  else none

/-- The rule for a name in a story that may call the given functions of its host. -/
def ofName (externals : Dict Nat) (name : String) : CallRule :=
  match ofName? name with
  | some rule => rule
  | none =>
    match Operator.ofSymbol? name with
    | some o => operator o
    | none =>
      match Dict.get? externals name with
      | some parameters => external parameters
      | none => function

end CallRule

/-- Whether a call of this name never reaches a function of the story or its host. -/
def isBuiltIn (name : String) : Bool :=
  (Operator.ofSymbol? name).isSome || (CallRule.ofName? name).isSome

/-- Whether an expression is written as a number with a fraction. -/
def isFloatLiteral : Expression → Bool
  | .float _ => true
  | .unary .negate (.float _) => true
  | _ => false

/-- The code before a call, and the step that makes it unless the call cannot be made. -/
structure CallCode where
  before : Fragment
  step : Option Step

namespace CallCode

/-- A call that cannot be made. -/
def refused (diagnostics : Fragment) : CallCode := ⟨diagnostics, none⟩

def ofLeaf (before : Fragment) (leaf : Leaf) : CallCode := ⟨before, some { leaf }⟩

/-- The code of a question about visits. -/
def ofQuery (context : Context) (call : Call) (range : Option SourceRange) (query : CountQuery) :
    CallCode :=
  match call.arguments with
  | [.target name] => ofLeaf (.ofStep (context.target name (some query))) (.command query.command)
  | [.name name] => ofLeaf (.ofStep (context.reading name (some query))) (.command query.command)
  | _ => refused (context.complain (.countedTargetExpected call.name) range)

/-- The code of a random number between two bounds. -/
def ofRandom (context : Context) (call : Call) (lowered : List Fragment)
    (range : Option SourceRange) : CallCode :=
  match call.arguments, lowered with
  | [least, greatest], [first, second] =>
    ofLeaf
      (context.complainIf (isFloatLiteral least) (.randomBoundNotInteger "minimum") range ++ first
        ++ context.complainIf (isFloatLiteral greatest) (.randomBoundNotInteger "maximum") range
        ++ second)
      (.command .random)
  | _, _ => refused (context.complain .randomArity range)

/-- The code that sets the seed of random numbers. -/
def ofSeed (context : Context) (call : Call) (lowered : List Fragment)
    (range : Option SourceRange) : CallCode :=
  match call.arguments with
  | [seed] =>
    ofLeaf (context.complainIf (isFloatLiteral seed) .seedNotInteger range ++ .concat lowered)
      (.command .seedRandom)
  | _ => refused (context.complain .seedArity range)

/-- The code of a call whose arguments have been lowered. -/
def ofRule (context : Context) (call : Call) (lowered : List Fragment)
    (range : Option SourceRange) : CallRule → CallCode
  | .constant command =>
    ofLeaf (context.complainIf (!call.arguments.isEmpty) (.argumentsNotExpected call.name) range)
      (.command command)
  | .query query => ofQuery context call range query
  | .random => ofRandom context call lowered range
  | .seed => ofSeed context call lowered range
  | .operator o =>
    ofLeaf
      (context.complainIf (o.arity != call.arguments.length) (.operatorArity call.name o.arity) range
        ++ .concat lowered)
      (.operator o)
  | .external parameters =>
    ofLeaf
      (context.complainIf (parameters != call.arguments.length)
          (.externalArity call.name parameters) range
        ++ .concat lowered)
      (.divert (.external call.name (UInt32.ofNat call.arguments.length)))
  | .function =>
    ⟨.concat lowered, some (context.jump call.name .function call.arguments.length)⟩

/-- The code as a fragment: the step that makes the call carries its range, and a value that nobody
uses is taken off the stack. -/
def toFragment (code : CallCode) (range : Option SourceRange) (dropValue : Bool) : Fragment :=
  match code.step with
  | none => code.before
  | some step =>
    code.before ++ .ofStep { step with range }
      ++ (if dropValue then .command .popEvaluatedValue else .empty)

end CallCode

/-- A call whose arguments have been lowered. -/
def lowerCall (context : Context) (call : Call) (lowered : List Fragment) (dropValue : Bool) :
    Fragment :=
  let range := context.complete call.sourceRange?
  (CallCode.ofRule context call lowered range
    (CallRule.ofName context.externals call.name)).toFragment range dropValue

/-! ## Expressions -/

mutual

/-- Code that leaves the value of an expression on the stack. -/
def lower (context : Context) : Expression → Fragment
  | .int n => .value (.int n)
  | .float x => .value (.float x)
  | .bool b => .value (.bool b)
  | .string text => .command .beginString ++ .value (.string text) ++ .command .endString
  | .name name => .ofStep (context.reading name none)
  | .target name => .ofStep (context.target name none)
  | .binary op left right =>
    lower context left ++ lower context right ++ .leaf (.operator op.operator)
  | .unary .negate (.int n) => .value (.int (-n))
  | .unary .negate (.float x) => .value (.float x.negate)
  | .unary op operand => lower context operand ++ .leaf (.operator op.operator)
  | .call name arguments range =>
    lowerCall context { name, arguments, range } (lowerEach context arguments) false

/-- The code of each of several expressions. -/
def lowerEach (context : Context) : List Expression → List Fragment
  | [] => []
  | expression :: rest => lower context expression :: lowerEach context rest

end

/-! ## Statements -/

/-- Code that leaves a function with a value. -/
def lowerReturn (context : Context) (value : Option Expression) : Fragment :=
  .evaluated
    (match value with
      | some expression => lower context expression
      | none => .leaf .void)
    ++ .command .popFunction

/-- The variable that an assignment changes: one of the flow before one of the story. -/
def assignment? (context : Context) (name : String) (isNew : Bool) : Option Assignment :=
  if isNew then some ⟨name, false, true⟩
  else if context.locals.contains name then some ⟨name, false, false⟩
  else if context.globals.contains name then some ⟨name, true, false⟩
  else none

/-- The code of a divert statement; two targets are commands. -/
def lowerDivert (context : Context) (target : String) : Fragment :=
  if target = "DONE" then .command .done
  else if target = "END" then .command .finish
  else .ofStep (context.jump target .plain 0)

/-- The code of a statement, before its first step is given a range. -/
def lowerAction (context : Context) : Action → Fragment
  | .text text => .value (.string text)
  | .newline => .value (.string "\n")
  | .glue => .leaf .glue
  | .tag text => .leaf (.tag text)
  | .output expression =>
    .evaluated (lower context expression ++ .command .evalOutput)
  | .call call =>
    .evaluated (lowerCall context call (lowerEach context call.arguments) true)
  | .divert target => lowerDivert context target
  | .tunnel target arguments =>
    (if arguments.isEmpty then .empty else .evaluated (.concat (lowerEach context arguments)))
      ++ .ofStep (context.jump target .tunnel arguments.length)
  | .tunnelReturn => .evaluated (.leaf .void) ++ .command .popTunnel
  | .giveBack value =>
    if context.isFunction then lowerReturn context value
    else context.complain .returnOutsideFunction none
  | .assign name value isNew =>
    match assignment? context name isNew with
    | some assignment => .evaluated (lower context value) ++ .leaf (.assignment assignment)
    | none => context.complain (.assignedVariableUnknown name) none
  | .note text => .diagnostic { message := text, severity := .author, range := context.location }
  | .done => .command .done
  | .finish => .command .finish

/-- The code of a statement. -/
def lowerStatement (context : Context) (statement : Statement) : Fragment :=
  let range := context.complete statement.range
  (lowerAction { context with location := range } statement.action).located range

def lowerStatements (context : Context) (statements : List Statement) : Fragment :=
  .concat (statements.map (lowerStatement context))

/-- The temporary variables that statements declare. -/
def declared (statements : List Statement) : List String :=
  statements.filterMap fun statement =>
    match statement.action with
    | .assign name _ true => some name
    | _ => none

end Narrative.Compiler
