import Narrative.Diagnostic

/-!
# What can be wrong with a story

Every error that compiling a story reports, by its cause, with its wording.
-/

namespace Narrative.Compiler

/-- An error in a story. -/
inductive Complaint where
  | duplicateVariable (name : String)
  | unnamedFlow
  | duplicateFlow (name : String)
  | initialValueNotConstant (name : String)
  | returnOutsideFunction
  | assignedVariableUnknown (name : String)
  | argumentsNotExpected (function : String)
  | countedTargetExpected (function : String)
  | randomArity
  | randomBoundNotInteger (bound : String)
  | seedArity
  | seedNotInteger
  | operatorArity (name : String) (expected : Nat)
  | externalArity (name : String) (expected : Nat)
  | variableUnknown (name : String)
  /-- A flow is counted by its name, without the arrow. -/
  | countedWithoutArrow (function name : String)
  /-- A variable is counted with the arrow. -/
  | countedVariableWithArrow (function name : String)
  | variableWithArrow (name : String)
  | countedTargetUnknown (function name : String)
  | targetUnknown (name : String)
  | functionUnknown (name : String)
  | flowArity (name : String) (expected : Nat)
deriving DecidableEq

namespace Complaint

/-- A number of parameters in words. -/
def parameters (count : Nat) : String :=
  if 1 < count then count.repr ++ " parameters" else count.repr ++ " parameter"

def message : Complaint → String
  | duplicateVariable name => "Variable '" ++ name ++ "' has already been declared"
  | unnamedFlow => "Flows must have a name"
  | duplicateFlow name => "Duplicate flow name: '" ++ name ++ "'"
  | initialValueNotConstant name =>
    "Initial value for variable '" ++ name ++ "' must be a number, constant or divert target"
  | returnOutsideFunction =>
    "Return statements can only be used in knots that are declared as functions"
  | assignedVariableUnknown name => "Variable could not be found to assign to: '" ++ name ++ "'"
  | argumentsNotExpected function =>
    "The " ++ function ++ "() function shouldn't take any arguments"
  | countedTargetExpected function =>
    "The " ++ function ++ "() function should take one argument: a divert target to the target "
      ++ "knot, stitch, gather or choice you want to check. e.g. TURNS_SINCE(-> myKnot)"
  | randomArity => "RANDOM should take 2 parameters: a minimum and a maximum integer"
  | randomBoundNotInteger bound => "RANDOM's " ++ bound ++ " parameter should be an integer"
  | seedArity => "SEED_RANDOM should take 1 parameter - an integer seed"
  | seedNotInteger => "SEED_RANDOM's parameter should be an integer seed"
  | operatorArity name expected => name ++ " should take " ++ parameters expected
  | externalArity name expected =>
    "Wrong number of arguments were passed to external function '" ++ name ++ "', which expects "
      ++ parameters expected
  | variableUnknown name => "Unresolved variable: " ++ name
  | countedWithoutArrow function name =>
    "Should be " ++ function ++ "(-> " ++ name
      ++ "). Usage without the '->' only makes sense for variable targets."
  | countedVariableWithArrow function name =>
    "When getting the " ++ function ++ "() of a variable target, remove the '->' - i.e. it should "
      ++ "just be " ++ function ++ "(" ++ name ++ ")"
  | variableWithArrow name =>
    "Since '" ++ name ++ "' is a variable, it shouldn't be preceded by '->' here."
  | countedTargetUnknown function name =>
    "Failed to find target for " ++ function ++ ": '" ++ name ++ "'"
  | targetUnknown name => "Divert target not found: '-> " ++ name ++ "'"
  | functionUnknown name => "Function not found: '" ++ name ++ "'"
  | flowArity name expected =>
    "Wrong number of arguments were passed to '" ++ name ++ "', which expects "
      ++ parameters expected

/-- A complaint as a diagnostic. -/
def toDiagnostic (complaint : Complaint) (range : Option SourceRange) : Diagnostic :=
  { message := complaint.message, severity := .error, range }

end Complaint

end Narrative.Compiler
