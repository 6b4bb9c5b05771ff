import Narrative.Content.Operator
import Narrative.Number.Single
import Narrative.SourceRange

/-!
# Parsed stories

What a parser of story sources hands on: statements and expressions, in flows
that can be jumped to. Names and addresses are still plain text.
-/

namespace Narrative

/-- An operator between two expressions. -/
inductive BinaryOperator where
  | add
  | subtract
  | multiply
  | divide
  | modulo
  | equal
  | notEqual
  | less
  | greater
  | lessOrEqual
  | greaterOrEqual
  | and
  | or
  | has
  | hasnt
  | intersect
deriving DecidableEq

/-- The built-in operator that a binary operator is evaluated by. -/
def BinaryOperator.operator : BinaryOperator → Operator
  | add => .add
  | subtract => .subtract
  | multiply => .multiply
  | divide => .divide
  | modulo => .modulo
  | equal => .equal
  | notEqual => .notEqual
  | less => .less
  | greater => .greater
  | lessOrEqual => .lessOrEqual
  | greaterOrEqual => .greaterOrEqual
  | and => .and
  | or => .or
  | has => .has
  | hasnt => .hasnt
  | intersect => .intersect

/-- An operator before an expression. -/
inductive UnaryOperator where
  | negate
  | not
deriving DecidableEq

/-- The built-in operator that a unary operator is evaluated by. -/
def UnaryOperator.operator : UnaryOperator → Operator
  | negate => .negate
  | not => .not

/-- What has a value. -/
inductive Expression where
  | int (value : Int32)
  | float (value : Single)
  | bool (value : Bool)
  | string (text : String)
  | name (name : String)
  /-- An address that can be jumped to. -/
  | target (target : String)
  | binary (operator : BinaryOperator) (left right : Expression)
  | unary (operator : UnaryOperator) (operand : Expression)
  | call (name : String) (arguments : List Expression) (range : Option SourceRange)

/-- A call of a function. -/
structure Call where
  name : String
  arguments : List Expression
  range : Option SourceRange := none

namespace Expression

def isNumberLiteral : Expression → Bool
  | int _ => true
  | float _ => true
  | _ => false

/-- Joins the range of a call with that of a call in its arguments. -/
def joinRanges : Option SourceRange → Option SourceRange → Option SourceRange
  | some outer, some inner => some (outer.merge inner)
  | outer, inner => outer <|> inner

mutual

/-- The source range of an expression that is a call, the calls that are its arguments included. -/
def callRange? : Expression → Option SourceRange
  | call _ arguments range => argumentsRange? range arguments
  | _ => none

/-- A range widened by those arguments that are calls themselves. -/
def argumentsRange? (range : Option SourceRange) : List Expression → Option SourceRange
  | [] => range
  | argument :: rest => argumentsRange? (joinRanges range (callRange? argument)) rest

end

end Expression

namespace Call

def toExpression (call : Call) : Expression := .call call.name call.arguments call.range

/-- The source range of a call, the calls that are its arguments included. -/
def sourceRange? (call : Call) : Option SourceRange := call.toExpression.callRange?

end Call

/-- What a statement does. -/
inductive Action where
  | text (text : String)
  | newline
  | glue
  | tag (text : String)
  | output (expression : Expression)
  | call (call : Call)
  | divert (target : String)
  | tunnel (target : String) (arguments : List Expression)
  | tunnelReturn
  | giveBack (value : Option Expression)
  | assign (name : String) (value : Expression) (isNew : Bool)
  | note (text : String)
  | done
  | finish

/-- A statement of a story. -/
structure Statement where
  action : Action
  range : Option SourceRange := none

inductive FlowKind where
  | knot
  | function
  | stitch
deriving DecidableEq

/-- A named part of a story that can be jumped to, with the stitches in it. -/
inductive Flow where
  | mk (name : String) (kind : FlowKind) (parameters : List String) (body : List Statement)
      (stitches : List Flow) (range : Option SourceRange)

namespace Flow

def name : Flow → String
  | mk name .. => name

def kind : Flow → FlowKind
  | mk _ kind .. => kind

def parameters : Flow → List String
  | mk _ _ parameters .. => parameters

def body : Flow → List Statement
  | mk _ _ _ body .. => body

def stitches : Flow → List Flow
  | mk _ _ _ _ stitches _ => stitches

def range : Flow → Option SourceRange
  | mk _ _ _ _ _ range => range

end Flow

/-- A variable of the whole story, with its first value. -/
structure GlobalDeclaration where
  name : String
  value : Expression
  range : Option SourceRange := none

/-- A function that the host of the story supplies. -/
structure ExternalDeclaration where
  name : String
  parameters : List String

/-- A parsed story. -/
structure Story where
  root : List Statement := []
  flows : List Flow := []
  globals : List GlobalDeclaration := []
  externals : List ExternalDeclaration := []

end Narrative
