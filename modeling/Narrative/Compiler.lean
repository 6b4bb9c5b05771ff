import Narrative.Compiler.Resolution
import Narrative.Document

/-!
# Compiling stories

`Story.generate` makes a document of a story whatever there is to complain about;
the only thing that stops it is a flow with the name that is kept for the
declarations of variables. `Story.compile` gives the document only when there is
no error. A `Compiler` keeps a journal from one story to the next.
-/

namespace Narrative

/-- How stories are compiled. -/
structure CompilerOptions where
  /-- The file to name where a range names none. -/
  file : Option String := none
  /-- Whether visits of every flow are counted. -/
  countAllVisits : Bool := false

/-- Why a story has no document. -/
inductive CompileError where
  | tree (error : TreeError)
  | diagnostics (errors : Nat)
deriving DecidableEq

namespace CompileError

def message : CompileError → String
  | tree error => "tree construction failed: " ++ error.message
  | diagnostics errors => "story had " ++ errors.repr ++ " error(s)"

end CompileError

/-- What came of compiling, and what was reported on the way. -/
structure Outcome (α : Type) where
  result : Except CompileError α
  diagnostics : List Diagnostic

namespace Outcome

def errorCount {α : Type} (outcome : Outcome α) : Nat :=
  outcome.diagnostics.countP Diagnostic.isError

/-- The outcome with the result withheld when there were errors. -/
def strict {α : Type} (outcome : Outcome α) : Outcome α :=
  { outcome with
    result :=
      match outcome.result with
      | .error error => .error error
      | .ok value =>
        if 0 < outcome.errorCount then .error (.diagnostics outcome.errorCount) else .ok value }

end Outcome

namespace Story

open Compiler

/-- The document of a story, with whatever errors it has. -/
def generate (options : CompilerOptions) (story : Story) : Outcome Document :=
  let plan := Plan.ofStory options.file story
  let flowFlags := if options.countAllVisits then CountFlags.visits else CountFlags.empty
  match (plan.place flowFlags).run .empty with
  | .error error _ => { result := .error (.tree error), diagnostics := plan.diagnostics }
  | .ok placed tree =>
    let world : World :=
      { root := placed.root
        globals := plan.globalNames
        parameters := placed.site.parameters }
    let lookedUp := lookUpAll world tree placed.site.references
    let globalDiagnostics := match plan.globals with
      | some fragment => fragment.diagnostics
      | none => []
    { result :=
        match lookedUp.result with
        | .error error => .error (.tree error)
        | .ok tree => .ok { tree, root := placed.root }
      diagnostics := plan.diagnostics ++ globalDiagnostics ++ lookedUp.diagnostics }

/-- The document of a story without errors. -/
def compile (options : CompilerOptions) (story : Story) : Outcome Document :=
  (story.generate options).strict

end Story

namespace Expression

open Compiler

/-- The code of an expression in a container of its own, outside any story. -/
def generate (options : CompilerOptions) (expression : Expression) : Outcome Subtree :=
  let fragment := lower { file := options.file } expression
  let place : Edit (List Reference) := do
    let root ← Edit.add (.container {})
    placeSteps root { container := root } fragment.steps
  match place.run .empty with
  | .error error _ => { result := .error (.tree error), diagnostics := fragment.diagnostics }
  | .ok references tree =>
    let lookedUp := lookUpAll { root := 0 } tree references
    { result :=
        match lookedUp.result with
        | .error error => .error (.tree error)
        | .ok tree => .ok { tree, id := 0 }
      diagnostics := fragment.diagnostics ++ lookedUp.diagnostics }

end Expression

/-- A compiler that keeps a journal. -/
structure Compiler where
  options : CompilerOptions := {}
  journal : Journal := {}

namespace Compiler

/-- Starts the journal afresh with what an outcome reports. -/
def conclude {α : Type} (compiler : Compiler) (outcome : Outcome α) :
    Except CompileError α × Compiler :=
  (outcome.result,
    { compiler with journal := compiler.journal.clear.reportAll outcome.diagnostics })

def generate (compiler : Compiler) (story : Story) : Except CompileError Document × Compiler :=
  compiler.conclude (story.generate compiler.options)

def compile (compiler : Compiler) (story : Story) : Except CompileError Document × Compiler :=
  compiler.conclude (story.compile compiler.options)

def generateExpression (compiler : Compiler) (expression : Expression) :
    Except CompileError Subtree × Compiler :=
  compiler.conclude (expression.generate compiler.options)

end Compiler

end Narrative
