import Narrative.Proofs.Compiler.Balance
import Narrative.Proofs.Compiler.Documents

/-!
# Where evaluation starts and ends

Expressions are evaluated between two commands. No expression has such a command in its
own code, every statement closes what it opens, and looking names up neither adds nor
takes away a command. So in every container of every document evaluation starts and ends
in turns. Code is placed at the end of a container, step by step, so what the code does to
the stack is what the leaves there do.
-/

namespace Narrative

open Compiler

/-- The command of a leaf that starts or ends evaluation. -/
def Leaf.mark? : Leaf → Option Command
  | .command .evalStart => some .evalStart
  | .command .evalEnd => some .evalEnd
  | _ => none

theorem Word.mark? {w : Wording} {externals : Dict Nat} {leaf : Leaf}
    (h : Word w externals leaf) : leaf.mark? = none := by
  cases h with
  | @command c hplain =>
    cases c with
    | evalStart | evalEnd => cases hplain
    | _ => rfl
  | _ => rfl

theorem Leaf.SameKind.mark? {l m : Leaf} (h : l.SameKind m) : m.mark? = none := by
  cases h <;> rfl

/-- Evaluation starts and ends in turns. -/
def Paired (marks : List Command) : Prop :=
  ∃ pairs, marks = (List.replicate pairs [Command.evalStart, .evalEnd]).flatten

theorem paired_nil : Paired [] := ⟨0, rfl⟩

theorem Paired.append {first second : List Command} (hfirst : Paired first)
    (hsecond : Paired second) : Paired (first ++ second) := by
  obtain ⟨m, rfl⟩ := hfirst
  obtain ⟨n, rfl⟩ := hsecond
  refine ⟨m + n, ?_⟩
  rw [List.replicate_add, List.flatten_append]

/-- Where the content of a container starts and ends evaluation. -/
def Tree.marks (tree : Tree) (c : NodeId) : List Command :=
  (tree.content c).filterMap fun id => (tree.leaf? id).bind Leaf.mark?

namespace Compiler

/-- Where steps start and end evaluation. -/
def marksOf (steps : List Step) : List Command := steps.filterMap fun step => step.leaf.mark?

theorem marksOf_append (first second : List Step) :
    marksOf (first ++ second) = marksOf first ++ marksOf second :=
  List.filterMap_append

/-! ## Code -/

theorem mark?_placeholder (subject : Subject) : subject.placeholder.mark? = none := by
  cases subject <;> rfl

/-- A fragment neither starts nor ends evaluation. -/
def Fragment.Unmarked (fragment : Fragment) : Prop := marksOf fragment.steps = []

/-- A fragment starts and ends evaluation in turns. -/
def Fragment.Paired (fragment : Fragment) : Prop := Narrative.Paired (marksOf fragment.steps)

namespace Fragment

theorem Unmarked.append {first second : Fragment} (hfirst : first.Unmarked)
    (hsecond : second.Unmarked) : (first ++ second).Unmarked := by
  have hboth := marksOf_append first.steps second.steps
  rw [hfirst, hsecond] at hboth
  exact hboth

theorem unmarked_ofStep {step : Step} (h : step.leaf.mark? = none) : (ofStep step).Unmarked :=
  List.filterMap_eq_nil_iff.mpr fun other hother => by rwa [List.mem_singleton.mp hother]

theorem Unmarked.paired {fragment : Fragment} (h : fragment.Unmarked) : fragment.Paired := by
  rw [Fragment.Paired, h]
  exact paired_nil

theorem Paired.append {first second : Fragment} (hfirst : first.Paired)
    (hsecond : second.Paired) : (first ++ second).Paired := by
  have hboth := Narrative.Paired.append hfirst hsecond
  rw [← marksOf_append] at hboth
  exact hboth

/-- What is evaluated has a start before it and an end after it. -/
theorem paired_evaluated {body : Fragment} (h : body.Unmarked) : body.evaluated.Paired := by
  refine ⟨1, ?_⟩
  have hmarks : marksOf body.evaluated.steps = [.evalStart] ++ marksOf body.steps ++ [.evalEnd] := by
    rw [show body.evaluated.steps = (command .evalStart).steps ++ body.steps
      ++ (command .evalEnd).steps from rfl, marksOf_append, marksOf_append]
    rfl
  rw [hmarks, h]
  rfl

/-- A range on the first step changes nothing about the commands. -/
theorem Paired.located {fragment : Fragment} (h : fragment.Paired) (range : Option SourceRange) :
    (fragment.located range).Paired := by
  obtain ⟨steps, diagnostics⟩ := fragment
  cases steps with
  | nil => exact h
  | cons first rest => exact h

end Fragment

/-- Neither commands that start nor commands that end evaluation are in the code of expressions. -/
theorem closed_unmarked (w : Wording) (externals : Dict Nat) :
    Closed w externals fun fragment _ => fragment.Unmarked where
  silent := fun _ => rfl
  complaint := fun _ _ _ => rfl
  append := Fragment.Unmarked.append
  word := fun hword _ => Fragment.unmarked_ofStep hword.mark?
  name := fun subject _ _ _ _ => Fragment.unmarked_ofStep (mark?_placeholder subject)
  question := by
    intro subject query _ _ location range
    have hcommand : (Leaf.command query.command).mark? = none := by cases query <;> rfl
    exact (Fragment.unmarked_ofStep (mark?_placeholder subject)).append
      (Fragment.unmarked_ofStep hcommand)

/-- A statement ends the evaluation that it starts. -/
theorem composes_paired (w : Wording) (externals : Dict Nat) :
    Composes w externals (fun fragment _ => fragment.Unmarked)
      fun fragment _ => fragment.Paired where
  inside := closed_unmarked w externals
  outside :=
    { silent := fun _ => paired_nil
      complaint := fun _ _ _ => paired_nil
      append := Fragment.Paired.append
      word := fun hword range => ((closed_unmarked w externals).word hword range).paired
      name := fun subject hname hcounted location range =>
        ((closed_unmarked w externals).name subject hname hcounted location range).paired
      question := fun subject _ hname hcounted location range =>
        ((closed_unmarked w externals).question subject hname hcounted location range).paired }
  evaluated := Fragment.paired_evaluated
  located := Fragment.Paired.located

theorem unmarked_lower (context : Context) (expression : Expression) :
    (lower context expression).Unmarked :=
  (closed_unmarked {} context.externals).lower (fun _ => rfl) expression.keeps_anything

theorem paired_of_code {file : Option String} {story : Story} {name : Option String}
    {steps : List Step} (h : (Plan.ofStory file story).Code name steps) :
    Paired (marksOf steps) := by
  obtain ⟨_, _, hpaired⟩ := (composes_paired {} _).exists_of_code story.keeps_anything h
  exact hpaired

/-! ## Code in containers -/

/-- Wherever the steps are placed, the content of the container goes on with one leaf for each of
them, in order, and every name to look up has its reference. -/
def Placeable (steps : List Step) : Prop :=
  ∀ (tree : Tree) (c : NodeId) (container : Container) (scope : Scope), tree.WellFormed →
    tree.container? c = some container → ∃ references after nodes,
      placeSteps c scope steps tree = .ok references after ∧
        after.content c = tree.content c ++ nodes ∧
        List.Forall₂ (fun step node => after.leaf? node = some step.leaf ∧
          ∀ lookup, step.lookup = some lookup → ⟨node, scope, lookup⟩ ∈ references) steps nodes

theorem placeable (steps : List Step) : Placeable steps := by
  intro tree c container scope hwf hc
  obtain ⟨hplaced, -⟩ := placeSteps_eq_ok hwf hc scope steps
  refine ⟨_, _, List.range' tree.size steps.length, hplaced, ?_, ?_⟩
  · rw [Tree.content, Tree.container?_withContent hc, Tree.content, hc, List.length_map]
  · have hnodes : (tree.withContent c (steps.map (·.toNode c))).Carries tree.size
        (steps.map (·.toNode c)) := by
      have hcarries := (tree.modifyContainer c fun container => { container with
        content := container.content ++ List.range' tree.size (steps.map (·.toNode c)).length
        }).carries_extend [] (steps.map (·.toNode c))
      rwa [Tree.size_modifyContainer] at hcarries
    refine List.Forall₂.mp (fun step node hnode hentry => ⟨?_, ?_⟩) (forall₂_of_carries hnodes)
      (forall₂_entriesFrom c scope tree.size steps)
    · rw [Tree.leaf?, Tree.payload?, hnode]
      rfl
    · exact fun lookup hlookup => mem_references.mpr ⟨_, hentry, lookup, hlookup, rfl⟩

/-! ## Documents -/

theorem Houses.marks {tree : Tree} {c : NodeId} {name : Option String} {steps : List Step}
    (h : Houses tree c name steps) : tree.marks c = marksOf steps := by
  obtain ⟨container, hcontainer, -, hsteps⟩ := h
  rw [Tree.marks, Tree.content, hcontainer]
  refine (filterMap_eq_filterMap_of_forall₂ hsteps fun step node hnode => ?_).symm
  rw [Tree.leaf?, Tree.payload?, hnode]
  rfl

end Compiler

namespace Story

variable {options : CompilerOptions} {story : Story} {document : Document}

/-- Looking names up changes nothing about where evaluation starts and ends. -/
theorem Yields.marks (h : story.Yields options document) (c : NodeId) :
    document.tree.marks c = ((story.plan options).tree options.flowFlags).marks c := by
  rw [Tree.marks, Tree.marks, h.decided.shape.content]
  refine List.filterMap_congr fun id _ => ?_
  by_cases hid : id ∈ (story.plan options).references.map Reference.node
  · obtain ⟨reference, hreference, rfl⟩ := List.mem_map.mp hid
    rw [h.decided.leaf? reference hreference,
      story.placeholder_of_reference options hreference, Option.bind_some, Option.bind_some,
      mark?_placeholder]
    exact (Subject.sameKind_verdict _ _ _ _).mark?
  · rw [h.decided.others id hid]

theorem Yields.paired (h : story.Yields options document) (c : NodeId) :
    Paired (document.tree.marks c) := by
  rw [h.marks]
  cases hc : ((story.plan options).tree options.flowFlags).container? c with
  | none =>
    rw [Tree.marks, Tree.content, hc]
    exact paired_nil
  | some container =>
    by_cases hroot : c = 0
    · -- The root holds the main container and the command that ends the turn.
      obtain ⟨⟨-, hmain, hdone, -⟩, -⟩ := (story.plan options).carries_tree options.flowFlags
      have hcontent : ((story.plan options).tree options.flowFlags).content 0 = [1, 2] := by
        rw [Tree.content, Plan.container?_root]
      subst hroot
      simp only [Tree.marks, hcontent, List.filterMap_cons, Tree.leaf?, Tree.payload?, hmain, hdone]
      exact paired_nil
    · obtain ⟨name, steps, hcode, hhouse⟩ := Plan.exists_houses hc hroot
      rw [hhouse.marks]
      exact paired_of_code hcode

end Story

namespace Compiler

/-- The code of an expression without errors leaves one value above whatever is on the stack and
neither starts nor ends evaluation, and the code of a call statement without errors leaves the stack
as it was and drops the value last; in a container stand exactly the leaves of this code. In every
document, with errors or without, evaluation starts and ends in turns in every container. -/
theorem evaluation_balanced (context : Context) :
    (∀ expression : Expression, expression.Keeps context.wording →
      Clean (lower context expression).diagnostics →
      (∀ height, StackState.performAll? ⟨height, .outside⟩ (lower context expression).steps =
          some ⟨height + 1, .outside⟩) ∧
        marksOf (lower context expression).steps = [] ∧
        Placeable (lower context expression).steps) ∧
    (∀ call : Call, call.toExpression.Keeps context.wording →
      Clean (lowerCall context call (lowerEach context call.arguments) true).diagnostics →
      (∀ height, StackState.performAll? ⟨height, .outside⟩
          (lowerCall context call (lowerEach context call.arguments) true).steps =
            some ⟨height, .outside⟩) ∧
        (lowerCall context call (lowerEach context call.arguments) true).steps.getLast? =
          some { leaf := .command .popEvaluatedValue } ∧
        Placeable (lowerCall context call (lowerEach context call.arguments) true).steps) ∧
    ∀ (options : CompilerOptions) (story : Story) (document : Document),
      (story.generate options).result = .ok document → ∀ c, Paired (document.tree.marks c) := by
  refine ⟨?_, ?_, ?_⟩
  · intro expression hkeeps hclean
    exact ⟨pushes_lower hkeeps hclean, unmarked_lower context expression, placeable _⟩
  · intro call hkeeps hclean
    exact ⟨pushes_lowerCall hkeeps hclean, getLast?_lowerCall hclean, placeable _⟩
  · intro options story document hresult c
    exact (Story.yields_of_generate hresult).paired c

/-- A house that rolls dice with the help of its host. -/
def tavernContext : Context where
  externals := [("bet", 2)]
  globals := ["gold"]

def tavernCall : Call where
  name := "bet"
  arguments := [.string "odd", .call "RANDOM" [.int 1, .unary .negate (.int 6)] none]

/-- Its tunnel leads nowhere, which is an error, and still there is a document. -/
def tavernStory : Story where
  root := [⟨.call tavernCall, none⟩, ⟨.tunnel "cellar" [.name "gold"], none⟩]
  globals := [⟨"gold", .int 7, none⟩]
  externals := [⟨"bet", ["side", "dice"]⟩]

/-- A container with nothing in it. -/
def taproom : Tree := Tree.empty.push (.container {}) none

theorem evaluation_balanced_tavern :
    (StackState.performAll? ⟨0, .outside⟩ (lower tavernContext
        (.binary .add (.name "gold") tavernCall.toExpression)).steps = some ⟨1, .outside⟩ ∧
      marksOf (lower tavernContext
        (.binary .add (.name "gold") tavernCall.toExpression)).steps = [] ∧
      ∃ references after, placeSteps 0 { container := 0 } (lower tavernContext
          (.binary .add (.name "gold") tavernCall.toExpression)).steps taproom =
            .ok references after ∧
        List.Forall₂ (fun (step : Step) node => after.leaf? node = some step.leaf ∧
            ∀ lookup, step.lookup = some lookup → ⟨node, { container := 0 }, lookup⟩ ∈ references)
          (lower tavernContext (.binary .add (.name "gold") tavernCall.toExpression)).steps
          (after.content 0)) ∧
    (StackState.performAll? ⟨3, .outside⟩ (lowerCall tavernContext tavernCall
        (lowerEach tavernContext tavernCall.arguments) true).steps = some ⟨3, .outside⟩ ∧
      (lowerCall tavernContext tavernCall
        (lowerEach tavernContext tavernCall.arguments) true).steps.getLast? =
          some { leaf := .command .popEvaluatedValue } ∧
      Placeable (lowerCall tavernContext tavernCall
        (lowerEach tavernContext tavernCall.arguments) true).steps) ∧
    ∃ document, (tavernStory.generate {}).result = .ok document ∧
      Paired (document.tree.marks 1) := by
  obtain ⟨hexpressions, hcalls, hstories⟩ := evaluation_balanced tavernContext
  have hkeeps : tavernCall.toExpression.Keeps tavernContext.wording := by
    simp [tavernCall, Call.toExpression, Expression.Keeps, Expression.KeepsEach, Context.wording]
  have hsum : (Expression.binary .add (.name "gold") tavernCall.toExpression).Keeps
      tavernContext.wording := ⟨trivial, hkeeps⟩
  have hnone : (lower tavernContext
      (.binary .add (.name "gold") tavernCall.toExpression)).diagnostics = [] := by cbv
  have hsilent : (lowerCall tavernContext tavernCall
      (lowerEach tavernContext tavernCall.arguments) true).diagnostics = [] := by cbv
  obtain ⟨hruns, hmarks, hplace⟩ := hexpressions _ hsum (hnone ▸ clean_nil)
  obtain ⟨hcall, hlast, hcallPlace⟩ := hcalls tavernCall hkeeps (hsilent ▸ clean_nil)
  obtain ⟨references, after, nodes, hplaced, hcontent, hleaves⟩ :=
    hplace taproom 0 {} { container := 0 } (Tree.wellFormed_empty.push _ _) rfl
  obtain rfl : after.content 0 = nodes := hcontent
  have hfree : (tavernStory.plan {}).Free := by
    intro _
    decide +kernel
  have hresult := congrArg Outcome.result (Story.generate_of_free hfree)
  exact ⟨⟨hruns 0, hmarks, references, after, hplaced, hleaves⟩, ⟨hcall 3, hlast, hcallPlace⟩,
    _, hresult, hstories {} tavernStory _ hresult 1⟩

end Compiler

end Narrative
