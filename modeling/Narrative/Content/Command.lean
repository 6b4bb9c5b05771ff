/-!
# Control commands

The commands that drive evaluation, in a fixed order, each with the token that
stands for it in a document.
-/

namespace Narrative

/-- A command of a story's evaluation. -/
inductive Command where
  | evalStart
  | evalOutput
  | evalEnd
  | duplicate
  | popEvaluatedValue
  | popFunction
  | popTunnel
  | beginString
  | endString
  | noOp
  | choiceCount
  | turns
  | turnsSince
  | readCount
  | random
  | seedRandom
  | visitIndex
  | sequenceShuffleIndex
  | startThread
  | done
  | finish
deriving DecidableEq

namespace Command

/-- Every command, in order. -/
def all : List Command :=
  [evalStart, evalOutput, evalEnd, duplicate, popEvaluatedValue, popFunction, popTunnel,
    beginString, endString, noOp, choiceCount, turns, turnsSince, readCount, random, seedRandom,
    visitIndex, sequenceShuffleIndex, startThread, done, finish]

/-- The place of a command in the order. -/
def index (command : Command) : Nat := command.ctorIdx

/-- The token of a command. -/
def token : Command → String
  | evalStart => "ev"
  | evalOutput => "out"
  | evalEnd => "/ev"
  | duplicate => "du"
  | popEvaluatedValue => "pop"
  | popFunction => "~ret"
  | popTunnel => "->->"
  | beginString => "str"
  | endString => "/str"
  | noOp => "nop"
  | choiceCount => "choiceCnt"
  | turns => "turn"
  | turnsSince => "turns"
  | readCount => "readc"
  | random => "rnd"
  | seedRandom => "srnd"
  | visitIndex => "visit"
  | sequenceShuffleIndex => "seq"
  | startThread => "thread"
  | done => "done"
  | finish => "end"

/-- The command that a token stands for. -/
def ofToken? (token : String) : Option Command :=
  all.find? fun command => command.token == token

/-- The name of a command in reports. -/
def label : Command → String
  | evalStart => "EvalStart"
  | evalOutput => "EvalOutput"
  | evalEnd => "EvalEnd"
  | duplicate => "Duplicate"
  | popEvaluatedValue => "PopEvaluatedValue"
  | popFunction => "PopFunction"
  | popTunnel => "PopTunnel"
  | beginString => "BeginString"
  | endString => "EndString"
  | noOp => "NoOp"
  | choiceCount => "ChoiceCount"
  | turns => "Turns"
  | turnsSince => "TurnsSince"
  | readCount => "ReadCount"
  | random => "Random"
  | seedRandom => "SeedRandom"
  | visitIndex => "VisitIndex"
  | sequenceShuffleIndex => "SequenceShuffleIndex"
  | startThread => "StartThread"
  | done => "Done"
  | finish => "End"

end Command

end Narrative
