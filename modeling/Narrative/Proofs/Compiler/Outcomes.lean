import Narrative.Proofs.Compiler.Documents
import Narrative.Proofs.Tree.Comparison

/-!
# What comes of a story

A story has no document for one reason only: it declares variables, and one of its
flows has the name that is kept for their declarations. This is the one repeated
name that is not reported beforehand. Every other story has a document, whatever is
wrong with it; it is withheld when an error was reported, and the refusal counts
the errors.
-/

namespace Narrative

open Compiler

/-! ## The name of the declarations -/

/-- A flow takes the name that the declarations of variables need. -/
def Story.Clashes (story : Story) : Prop :=
  story.globals ≠ [] ∧ ∃ flow ∈ story.flows, flow.name = "global decl"

/-- A container is refused where another one is listed under its name. -/
theorem Tree.addNamed_taken {tree : Tree} {c : NodeId} (hwf : tree.WellFormed)
    {container : Container} (hc : tree.container? c = some container) {name : String}
    (hname : name.isEmpty = false)
    {other : NodeId} (htaken : tree.namedChild? c name = some other) (range : Option SourceRange)
    (flags : CountFlags) :
    Edit.addNamed c tree.size (tree.push (.container { name := some name, flags }) range) =
      .error (.duplicateName name) (tree.push (.container { name := some name, flags }) range) := by
  have hlt := tree.lt_size_of_container? hc
  have hold : other < tree.size := by
    rw [namedChild?, hc, Option.bind_some] at htaken
    obtain ⟨e, he, -, rfl⟩ := Container.exists_of_namedChild? htaken
    exact hwf.listed_exists c _ hc _ ((hwf.tidy c _ hc).mem_children_of_entry he)
  have hsome : (tree.push (.container { name := some name, flags }) range).namedChild? c name =
      some other := by
    rw [namedChild?, container?_push, if_neg (Nat.ne_of_lt hlt)]
    exact htaken
  rw [Edit.addNamed_eq, attachFault?_push hwf hc, tree.validName?_push_named hname]
  simp [nameFault?, hsome, Nat.ne_of_lt hold]

namespace Compiler

theorem flowComplaint?_eq_none_iff {seen : List String} {name : String} :
    flowComplaint? seen name = none ↔ name.isEmpty = false ∧ name ∉ seen := by
  rw [flowComplaint?]
  split_ifs with hempty hseen
  · simp [hempty]
  · simpa [hempty] using hseen
  · simpa [hempty] using hseen

/-- Neighbouring flows are planned in their order, each name where it comes first. -/
theorem names_planFlows (context : Context) (seen : List String) (flows : List Flow) :
    (planFlows context seen flows).1.map FlowPlan.name =
      ((flows.map Flow.name).filter fun name => (flowComplaint? seen name).isNone).eraseDups := by
  induction flows generalizing seen with
  | nil => rfl
  | cons flow rest ih =>
    rw [planFlows, List.map_cons]
    cases hcomplaint : flowComplaint? seen flow.name with
    | some complaint =>
      rw [List.filter_cons_of_neg (by simp [hcomplaint])]
      exact ih seen
    | none =>
      have hlater : ∀ name, (flowComplaint? (flow.name :: seen) name).isNone =
          (!name == flow.name && (flowComplaint? seen name).isNone) := by
        intro name
        rw [Bool.eq_iff_iff]
        simp only [Option.isNone_iff_eq_none, flowComplaint?_eq_none_iff, List.mem_cons, not_or,
          Bool.and_eq_true, Bool.not_eq_true', beq_eq_false_iff_ne, ne_eq]
        tauto
      rw [List.filter_cons_of_pos (by simp [hcomplaint]), List.eraseDups_cons, List.filter_filter]
      simp only [List.map_cons, name_planFlow, ih, hlater]

/-- Every name among neighbours is that of a flow that is planned, if there is anything to it. -/
theorem mem_names_planFlows {context : Context} {seen : List String} {flows : List Flow}
    {name : String} (hname : name.isEmpty = false) (hseen : name ∉ seen) :
    name ∈ (planFlows context seen flows).1.map FlowPlan.name ↔
      ∃ flow ∈ flows, flow.name = name := by
  have hkept := flowComplaint?_eq_none_iff.mpr ⟨hname, hseen⟩
  rw [names_planFlows, List.mem_eraseDups, List.mem_filter, List.mem_map, hkept]
  exact and_iff_left rfl

namespace Plan

theorem free_ofStory_iff {file : Option String} {story : Story} :
    (ofStory file story).Free ↔ ¬ story.Clashes := by
  have hflows : globalsName ∈ (ofStory file story).flows.map FlowPlan.name ↔
      ∃ flow ∈ story.flows, flow.name = "global decl" :=
    mem_names_planFlows (by decide) List.not_mem_nil
  have hglobals : (ofStory file story).globals.isSome = true ↔ story.globals ≠ [] := by
    rw [ofStory]
    cases story.globals <;> simp
  rw [Free, hflows, hglobals, Story.Clashes, not_and]

/-- The declarations of variables are refused where a flow has their name. -/
theorem place_eq_error {plan : Plan} (hsound : plan.Sound) (hclash : ¬ plan.Free)
    (flags : CountFlags) :
    ∃ after, (plan.place flags) Tree.empty = .error (.duplicateName globalsName) after := by
  obtain ⟨body, hmain, hflows, hwf⟩ := exists_placedFlows hsound flags
  rw [Free, Classical.not_imp, not_not] at hclash
  obtain ⟨hsome, hmem⟩ := hclash
  obtain ⟨fragment, hfragment⟩ := Option.isSome_iff_exists.mp hsome
  have hroot := plan.container?_frame (FlowPlan.tableFrom plan.firstFlow plan.flows)
    (FlowPlan.nodesEach flags 0 plan.firstFlow plan.flows)
  obtain ⟨other, hother⟩ : ∃ other, (Tree.empty.extend
      (plan.frame (FlowPlan.tableFrom plan.firstFlow plan.flows)
        ++ FlowPlan.nodesEach flags 0 plan.firstFlow plan.flows)).namedChild? 0 globalsName =
      some other := by
    rw [Tree.namedChild?, hroot, Option.bind_some, Container.namedChild?]
    cases hfind : (FlowPlan.tableFrom plan.firstFlow plan.flows).find?
        fun entry => entry.name == globalsName with
    | none => exact absurd hmem (find?_tableFrom_eq_none.mp hfind)
    | some entry => exact ⟨entry.id, rfl⟩
  have hrefused := Tree.addNamed_taken hwf hroot (by decide) hother none {}
  rw [place_eq_bind, Step.bind_ok hmain, Step.bind_ok hflows, hfragment, placeGlobals]
  simp only [Step.bind_eq, Edit.add_eq, hrefused]
  exact ⟨_, rfl⟩

end Plan

end Compiler

/-! ## Journals -/

theorem Journal.reported_reportAll (journal : Journal) (diagnostics : List Diagnostic) :
    (journal.reportAll diagnostics).reported = journal.reported ++ diagnostics := by
  induction diagnostics generalizing journal with
  | nil => simp [reportAll]
  | cons diagnostic rest ih =>
    have hstep : journal.reportAll (diagnostic :: rest) =
        (journal.report diagnostic).reportAll rest := rfl
    rw [hstep, ih, report, List.append_assoc, List.singleton_append]

namespace Compiler

/-- A compiler keeps nothing of what it reported about other stories. -/
theorem reported_conclude {α : Type} (compiler : Compiler) (outcome : Outcome α) :
    (compiler.conclude outcome).2.journal.reported = outcome.diagnostics := by
  rw [conclude, Journal.reported_reportAll]
  rfl

/-- The diagnostics that say that something is wrong. -/
def errorsOf (diagnostics : List Diagnostic) : List Diagnostic :=
  diagnostics.filter fun diagnostic => decide (diagnostic.severity = .error)

theorem errorCount_eq {α : Type} (outcome : Outcome α) :
    outcome.errorCount = (errorsOf outcome.diagnostics).length := by
  rw [Outcome.errorCount, errorsOf, ← List.countP_eq_length_filter]
  refine List.countP_congr fun diagnostic _ => ?_
  rw [Diagnostic.isError]
  cases diagnostic.severity <;> simp [Severity.isError]

end Compiler

/-! ## Results -/

namespace Story

variable {options : CompilerOptions} {story : Story}

theorem generate_of_clashes (h : story.Clashes) :
    (story.generate options).result = .error (.tree (.duplicateName "global decl")) := by
  have hclash : ¬ (Plan.ofStory options.file story).Free :=
    fun hfree => Plan.free_ofStory_iff.mp hfree h
  obtain ⟨after, hplace⟩ := Plan.place_eq_error (Plan.sound_ofStory options.file story) hclash
    options.flowFlags
  have hrun : ((Plan.ofStory options.file story).place
      (if options.countAllVisits then CountFlags.visits else CountFlags.empty)).run .empty =
      .error (.duplicateName globalsName) after := hplace
  rw [generate, hrun]
  rfl

end Story

namespace Compiler

theorem exists_generate (compiler : Compiler) {story : Story} (h : ¬ story.Clashes) :
    ∃ document, (compiler.generate story).1 = .ok document :=
  ⟨_, congrArg Outcome.result (Story.generate_of_free (Plan.free_ofStory_iff.mpr h))⟩

/-- A story has no document just when a flow clashes with the declarations of its variables. Any
other story has one, which is withheld when there are errors. -/
theorem only_clash_has_no_document (compiler : Compiler) (story : Story) :
    (∀ error, (compiler.generate story).1 = .error error ↔
        story.Clashes ∧ error = .tree (.duplicateName "global decl")) ∧
      (∀ error, (compiler.generate story).1 = .error error →
        (compiler.compile story).1 = .error error) ∧
      ∀ document, (compiler.generate story).1 = .ok document →
        (compiler.compile story).1 =
          let errors := errorsOf (compiler.compile story).2.journal.reported
          if errors = [] then .ok document else .error (.diagnostics errors.length) := by
  refine ⟨fun error => ?_, fun error h => ?_, fun document h => ?_⟩
  · by_cases hclash : story.Clashes
    · have herror : (compiler.generate story).1 = .error (.tree (.duplicateName "global decl")) :=
        Story.generate_of_clashes hclash
      rw [herror]
      simp [hclash, eq_comm]
    · obtain ⟨document, hok⟩ := compiler.exists_generate hclash
      simp [hok, hclash]
  · have herror : (story.generate compiler.options).result = .error error := h
    have hstrict : (compiler.compile story).1 = (story.generate compiler.options).strict.result :=
      rfl
    rw [hstrict, Outcome.strict, herror]
  · have hok : (story.generate compiler.options).result = .ok document := h
    have hstrict : (compiler.compile story).1 = (story.generate compiler.options).strict.result :=
      rfl
    have hreported : (compiler.compile story).2.journal.reported =
        (story.generate compiler.options).diagnostics := compiler.reported_conclude _
    rw [hstrict, Outcome.strict, hok]
    simp only [hreported, errorCount_eq]
    by_cases hnone : errorsOf (story.generate compiler.options).diagnostics = []
    · rw [if_pos hnone, hnone]
      rfl
    · rw [if_neg hnone, if_pos (List.length_pos_iff.mpr hnone)]

/-- A story with a variable and a knot, which may have any name and is to lead to two flows that are
not there. -/
def ledgerStory (name : String) : Story where
  root := [⟨.divert name, none⟩]
  flows := [.mk name .knot [] [⟨.divert "attic", none⟩, ⟨.output (.name "ghost"), none⟩] [] none]
  globals := [⟨"gold", .int 7, none⟩]

theorem only_clash_has_no_document_ledger :
    (({} : Compiler).generate (ledgerStory "global decl")).1 =
        .error (.tree (.duplicateName "global decl")) ∧
      ∃ document, (({} : Compiler).generate (ledgerStory "ledger")).1 = .ok document ∧
        (({} : Compiler).compile (ledgerStory "ledger")).1 = .error (.diagnostics 2) := by
  have hclash : (ledgerStory "global decl").Clashes :=
    ⟨List.cons_ne_nil _ _, _, List.mem_singleton_self _, rfl⟩
  refine ⟨((only_clash_has_no_document {} _).1 _).mpr ⟨hclash, rfl⟩, ?_⟩
  have hfree : ¬ (ledgerStory "ledger").Clashes := by
    rintro ⟨-, flow, hflow, hname⟩
    obtain rfl := List.mem_singleton.mp hflow
    exact absurd hname (by decide)
  obtain ⟨document, hok⟩ := exists_generate {} hfree
  have hcompile := (only_clash_has_no_document {} _).2.2 document hok
  have hcount : (errorsOf (({} : Compiler).compile
      (ledgerStory "ledger")).2.journal.reported).length = 2 := by decide +kernel
  generalize errorsOf (({} : Compiler).compile
    (ledgerStory "ledger")).2.journal.reported = errors at hcompile hcount
  have hsome : errors ≠ [] := List.ne_nil_of_length_pos (by omega)
  rw [if_neg hsome, hcount] at hcompile
  exact ⟨document, hok, hcompile⟩

end Compiler

end Narrative
