import Narrative.Wire.Decoding

/-!
# Save states

What is kept of a story that is being played: the turn, the seed, the choices on
offer, the evaluation stack, the variables, and how often and when containers
were visited. The values live in a tree of the save state's own.
-/

namespace Narrative

/-- A story in the middle of being played. -/
structure SaveState where
  tree : Tree := {}
  turn : Int32 := 0
  seed : Int32 := 0
  choices : List Choice := []
  stack : List NodeId := []
  bindings : List (String × NodeId) := []
  visits : List (String × Int32) := []
  turns : List (String × Int32) := []

namespace SaveState

def turnKey : String := "turnIdx"

def seedKey : String := "storySeed"

def choicesKey : String := "currentChoices"

def stackKey : String := "evalStack"

def variablesKey : String := "variablesState"

def visitsKey : String := "visitCounts"

def turnsKey : String := "turnIndices"

/-- The token of a save state; `none` when its tree lacks a node it names. -/
def encode? (state : SaveState) : Option Json := do
  let stack ← state.tree.encodeList? state.stack
  let bindings ← state.tree.encodeDict? state.bindings
  some (.obj [(turnKey, .int state.turn), (seedKey, .int state.seed),
    (choicesKey, .arr (state.choices.map Choice.token)), (stackKey, stack),
    (variablesKey, bindings), (visitsKey, Wire.encodeInts state.visits),
    (turnsKey, Wire.encodeInts state.turns)])

/-- Writing a save state; `none` when its tree lacks a node it names. -/
def stream? (state : SaveState) : Option (Json.Writing Unit) := do
  let stack ← state.tree.streamList? state.stack
  let bindings ← state.tree.streamDict? state.bindings
  some (Json.Writing.object do
    Json.Writing.intProperty turnKey state.turn
    Json.Writing.intProperty seedKey state.seed
    Json.Writing.property choicesKey
      (Json.Writing.array (Json.Writing.values (state.choices.map Choice.token)))
    Json.Writing.property stackKey stack
    Json.Writing.property variablesKey bindings
    Json.Writing.property visitsKey (Wire.streamInts state.visits)
    Json.Writing.property turnsKey (Wire.streamInts state.turns))

/-- The text of a save state, written piece by piece. -/
def streamed? (state : SaveState) : Option String := state.stream?.map Json.Writing.text

/-! ## Reading -/

/-- A field that has to be there. -/
def field (fields : Dict Json) (key : String) : Except DecodeError Json :=
  match Dict.get? fields key with
  | some value => .ok value
  | none => .error (.missingField key key)

/-- A field of one type; an error quotes the field. -/
def typed {α : Type} (view : Json → Option α) (fields : Dict Json) (key : String) :
    Except DecodeError α := do
  let value ← field fields key
  match view value with
  | some a => .ok a
  | none => .error (.invalidField key value.text)

/-- Named integers that may be left out. -/
def counts (fields : Dict Json) (key : String) : Except DecodeError (List (String × Int32)) :=
  if Dict.contains fields key then do
    let entries ← typed Json.obj? fields key
    Wire.decodeInts entries
  else .ok []

/-- The save state that the fields of an object describe, in an empty tree to begin with. -/
def ofFields (fields : Dict Json) : Decoding SaveState := do
  let turn ← Decoding.ofExcept (typed Json.int? fields turnKey)
  let seed ← Decoding.ofExcept (typed Json.int? fields seedKey)
  let choiceTokens ← Decoding.ofExcept (typed Json.arr? fields choicesKey)
  let choices ← Decoding.ofExcept (Choice.ofTokens choiceTokens)
  let stackTokens ← Decoding.ofExcept (typed Json.arr? fields stackKey)
  let stack ← Decoding.readList stackTokens
  let variableTokens ← Decoding.ofExcept (typed Json.obj? fields variablesKey)
  let bindings ← Decoding.readDict variableTokens
  let visits ← Decoding.ofExcept (counts fields visitsKey)
  let turns ← Decoding.ofExcept (counts fields turnsKey)
  let tree ← get
  pure { tree, turn, seed, choices, stack, bindings, visits, turns }

/-- The save state that a token stands for. -/
def ofToken (token : Json) : Except DecodeError SaveState :=
  match token.obj? with
  | none => .error (.expectedObject token.typeName)
  | some fields =>
    match (ofFields fields).run .empty with
    | .ok state _ => .ok state
    | .error error _ => .error error

/-- The save state that a text stands for. -/
def ofText (text : String) : Except DecodeError SaveState :=
  match Json.parse text with
  | .ok token => ofToken token
  | .error error => .error (.json error)

end SaveState

end Narrative
