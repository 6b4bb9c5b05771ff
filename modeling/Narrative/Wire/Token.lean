import Narrative.Content.Leaf
import Narrative.Wire.Field

/-!
# Tokens of leaves

How each leaf is stored. Strings start with `^`, except the newline; commands,
operators, glue and void are bare words; all else is an object whose keys tell
what it is. `Leaf.ofString` and `Leaf.ofFields` read the tokens back, the first
key in a fixed order deciding what an object is.
-/

namespace Narrative

namespace Divert

/-- The key that tells the kind of a divert. -/
def key (divert : Divert) : String :=
  if divert.isExternal then "x()"
  else match divert.push with
    | some .function => "f()"
    | some .tunnel => "->t->"
    | none => "->"

/-- The token of a divert; marks are written only when they are set. -/
def token (divert : Divert) : Json :=
  .obj ([(divert.key, .str divert.targetText)]
    ++ (if divert.hasVariableTarget then [("var", .bool true)] else [])
    ++ (if divert.isConditional then [("c", .bool true)] else [])
    ++ (if 0 < divert.externalArguments then [("exArgs", .int divert.externalArguments.toInt32)]
        else []))

/-- The keys of diverts in the order they are looked for. -/
def kinds : List (String × Option StackPush × Bool) :=
  [("->", none, false), ("f()", some .function, false), ("->t->", some .tunnel, false),
    ("x()", none, true)]

/-- The divert that an object stands for, once its key is known. -/
def ofFields (fields : Dict Json) (key : String) (target : Json) (push : Option StackPush)
    (isExternal : Bool) : Except DecodeError Divert := do
  let text ← Wire.asStr fields key target
  let isVariable ← Wire.flag fields "var"
  let externalArguments ← if isExternal then Wire.optionalWord fields "exArgs" else .ok 0
  let isConditional ← Wire.flag fields "c"
  .ok { target := if isVariable then .named text else .path (.parse text)
        push, isExternal, externalArguments, isConditional }

end Divert

namespace Choice

def token (choice : Choice) : Json :=
  .obj [("text", .str choice.text), ("index", .int choice.index),
    ("originalChoicePath", .str choice.source), ("originalThreadIndex", .int choice.thread),
    ("targetPath", .str choice.target.text)]

def ofFields (fields : Dict Json) : Except DecodeError Choice := do
  let text ← Wire.requiredStr fields "text"
  let index ← Wire.requiredInt fields "index"
  let source ← Wire.requiredStr fields "originalChoicePath"
  let thread ← Wire.requiredInt fields "originalThreadIndex"
  let target ← Wire.requiredStr fields "targetPath"
  .ok { text, index, source, thread, target := .parse target }

/-- The choice that a token stands for. -/
def ofToken : Json → Except DecodeError Choice
  | .obj fields => ofFields fields
  | token => .error (.unrecognizedToken token.text)

/-- The choices of a list of tokens, up to the first that is none. -/
def ofTokens : List Json → Except DecodeError (List Choice)
  | [] => .ok []
  | token :: rest => do
    let choice ← ofToken token
    let choices ← ofTokens rest
    .ok (choice :: choices)

end Choice

namespace Value

def token : Value → Json
  | bool value => .bool value
  | int value => .int value
  | float value => .float value
  | string text => if StoryText.isNewline text then .str "\n" else .str ("^" ++ text)
  | divertTarget path => .obj [("^->", .str path.text)]
  | variablePointer name context => .obj [("^var", .str name), ("ci", .int context)]

end Value

namespace Assignment

def token (assignment : Assignment) : Json :=
  .obj ([(if assignment.isGlobal then "VAR=" else "temp=", .str assignment.name)]
    ++ (if assignment.isNew then [] else [("re", .bool true)]))

/-- The keys of assignments in the order they are looked for. -/
def kinds : List (String × Bool) := [("VAR=", true), ("temp=", false)]

end Assignment

namespace Leaf

def token : Leaf → Json
  | value v => v.token
  | command c => .str c.token
  | divert d => d.token
  | choicePoint point =>
    .obj [("*", .str point.path.text), ("flg", .int point.flags.toInt32)]
  | reference (.named name) => .obj [("VAR?", .str name)]
  | reference (.readCount path) => .obj [("CNT?", .str path.text)]
  | assignment a => a.token
  | operator o => .str o.token
  | glue => .str "<>"
  | tag text => .obj [("#", .str text)]
  | void => .str "void"
  | choice c => c.token

/-- The leaf that a bare word stands for: glue, a command, an operator or void. -/
def ofWord? (word : String) : Option Leaf :=
  if word = "<>" then some glue
  else match Command.ofToken? word with
    | some c => some (command c)
    | none =>
      match Operator.ofToken? word with
      | some o => some (operator o)
      | none => if word = "void" then some void else none

/-- The leaf that a string token stands for. -/
def ofString (text : String) : Except DecodeError Leaf :=
  if text = "\n" then .ok (value (.string text))
  else match text.toList with
    | '^' :: rest => .ok (value (.string (String.ofList rest)))
    | _ =>
      match ofWord? text with
      | some leaf => .ok leaf
      | none => .error (.unrecognizedToken (Json.str text).text)

/-- The first of some keys that an object has, with its value. -/
def firstKey? {α : Type} (fields : Dict Json) : List (String × α) → Option (String × Json × α)
  | [] => none
  | (key, kind) :: rest =>
    match Dict.get? fields key with
    | some found => some (key, found, kind)
    | none => firstKey? fields rest

/-- The kinds of object tokens that one key decides. -/
inductive ObjectKind where
  | divertTarget
  | variablePointer
  | divert (push : Option StackPush) (isExternal : Bool)
  | choicePoint
  | reference
  | readCount
  | assignment (isGlobal : Bool)
  | tag

/-- The keys that decide what an object is, in the order they are looked for. -/
def objectKeys : List (String × ObjectKind) :=
  [("^->", .divertTarget), ("^var", .variablePointer)]
    ++ Divert.kinds.map (fun kind => (kind.1, .divert kind.2.1 kind.2.2))
    ++ [("*", .choicePoint), ("VAR?", .reference), ("CNT?", .readCount)]
    ++ Assignment.kinds.map (fun kind => (kind.1, .assignment kind.2))
    ++ [("#", .tag)]

/-- The leaf that an object of a known kind stands for. -/
def ofKind (fields : Dict Json) (key : String) (found : Json) :
    ObjectKind → Except DecodeError Leaf
  | .divertTarget => do
    let text ← Wire.asStr fields key found
    .ok (value (.divertTarget (.parse text)))
  | .variablePointer => do
    let name ← Wire.asStr fields key found
    let context ← Wire.optionalInt fields "ci" (-1)
    .ok (value (.variablePointer name context))
  | .divert push isExternal => do
    let d ← Divert.ofFields fields key found push isExternal
    .ok (divert d)
  | .choicePoint => do
    let text ← Wire.asStr fields key found
    let flags ← Wire.optionalWord fields "flg"
    .ok (choicePoint ⟨.parse text, flags⟩)
  | .reference => do
    let name ← Wire.asStr fields key found
    .ok (reference (.named name))
  | .readCount => do
    let text ← Wire.asStr fields key found
    .ok (reference (.readCount (.parse text)))
  | .assignment isGlobal => do
    let name ← Wire.asStr fields key found
    .ok (assignment ⟨name, isGlobal, !Dict.contains fields "re"⟩)
  | .tag => do
    let text ← Wire.asStr fields key found
    .ok (tag text)

/-- The leaf that an object token stands for. -/
def ofFields (fields : Dict Json) : Except DecodeError Leaf :=
  match firstKey? fields objectKeys with
  | some (key, found, kind) => ofKind fields key found kind
  | none =>
    if Dict.contains fields "originalChoicePath" then do
      let c ← Choice.ofFields fields
      .ok (choice c)
    else .error (.unrecognizedToken (Json.obj fields).text)

end Leaf

end Narrative
