/-!
# Built-in operators

The operators that evaluation knows, in a fixed order, with the symbol and the
number of operands of each. In a document the intersection operator is written
`L^`, because a string token starts with `^`.
-/

namespace Narrative

/-- A built-in operator. -/
inductive Operator where
  | add
  | subtract
  | divide
  | multiply
  | modulo
  | negate
  | equal
  | greater
  | less
  | greaterOrEqual
  | lessOrEqual
  | notEqual
  | not
  | and
  | or
  | min
  | max
  | power
  | floor
  | ceiling
  | int
  | float
  | has
  | hasnt
  | intersect
deriving DecidableEq

namespace Operator

/-- Every operator, in order. -/
def all : List Operator :=
  [add, subtract, divide, multiply, modulo, negate, equal, greater, less, greaterOrEqual,
    lessOrEqual, notEqual, not, and, or, min, max, power, floor, ceiling, int, float, has, hasnt,
    intersect]

def symbol : Operator → String
  | add => "+"
  | subtract => "-"
  | divide => "/"
  | multiply => "*"
  | modulo => "%"
  | negate => "~"
  | equal => "=="
  | greater => ">"
  | less => "<"
  | greaterOrEqual => ">="
  | lessOrEqual => "<="
  | notEqual => "!="
  | not => "!"
  | and => "&&"
  | or => "||"
  | min => "MIN"
  | max => "MAX"
  | power => "POW"
  | floor => "FLOOR"
  | ceiling => "CEILING"
  | int => "INT"
  | float => "FLOAT"
  | has => "?"
  | hasnt => "!?"
  | intersect => "^"

/-- The number of operands. -/
def arity : Operator → Nat
  | negate | not | floor | ceiling | int | float => 1
  | _ => 2

/-- The operator with a symbol. -/
def ofSymbol? (symbol : String) : Option Operator :=
  all.find? fun operator => operator.symbol == symbol

/-- The operator with a symbol and a number of operands. -/
def ofSymbolAndArity? (symbol : String) (arity : Nat) : Option Operator :=
  (ofSymbol? symbol).filter fun operator => operator.arity == arity

/-- The token of an operator in a document. -/
def token : Operator → String
  | intersect => "L^"
  | operator => operator.symbol

/-- The operator that a token stands for. -/
def ofToken? (token : String) : Option Operator :=
  ofSymbol? (if token = "L^" then "^" else token)

/-- How an operator is named in a message. -/
def describe (operator : Operator) : String := "Native '" ++ operator.symbol ++ "'"

end Operator

end Narrative
