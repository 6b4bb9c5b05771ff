import Narrative.Proofs.Compiler.Questions
import Narrative.Proofs.Compiler.References
import Narrative.Proofs.Correspondence

/-!
# What is counted about containers

Whether visits of a container are counted, and whether the turn of the last one is kept,
is noted on the container while names are looked up, long after the code that asks was
lowered. In the document of a story without errors the notes are exactly what the code
needs: nothing is asked about a container that is not counted, and nothing is counted
that nobody asks about, unless the visits of all flows are.
-/

namespace Narrative

open Compiler

/-! ## What is asked in a tree -/

namespace Tree

variable (tree : Tree) (root c : NodeId)

/-- Somewhere an address that leads to a container is followed by a command. -/
def Asks (command : Command) : Prop :=
  ∃ holder position value question path,
    (tree.content holder)[position]? = some value ∧
    (tree.content holder)[position + 1]? = some question ∧
    tree.leaf? value = some (.value (.divertTarget path)) ∧
    tree.contentAt? root path = some c ∧
    tree.leaf? question = some (.command command)

/-- Somewhere the number of visits is read at an address that leads to a container. -/
def ReadsCount : Prop :=
  ∃ id path, tree.leaf? id = some (.reference (.readCount path)) ∧
    tree.contentAt? root path = some c

theorem WellFormed.namedChild?_of_mem {tree : Tree} (h : tree.WellFormed) {p : NodeId}
    {parent : Container} (hp : tree.container? p = some parent) {entry : NamedEntry}
    (hentry : entry ∈ parent.table) : tree.namedChild? p entry.name = some entry.id := by
  rw [namedChild?, hp, Option.bind_some]
  exact (h.tidy p parent hp).namedChild?_of_mem hentry

end Tree

namespace Compiler

/-! ## The code around a question -/

/-- What stands in the content of a container has it as its holder. -/
theorem Plan.holder_eq {plan : Plan} {flags : CountFlags} (h : (plan.tree flags).WellFormed)
    {entry : Entry} (hentry : entry ∈ plan.entries) {c : NodeId}
    (hmem : entry.node ∈ (plan.tree flags).content c) : entry.holder = c := by
  have hparent : (plan.tree flags).parent? entry.node = some entry.holder := by
    rw [Tree.parent?, (plan.standing flags).found entry hentry]
    rfl
  rw [Tree.content] at hmem
  cases hc : (plan.tree flags).container? c with
  | none =>
    rw [hc] at hmem
    cases hmem
  | some container =>
    rw [hc] at hmem
    have habove := h.parent_of_mem hc (container.mem_children.mpr (Or.inl hmem))
    exact Option.some.inj (hparent.symm.trans habove)

end Compiler

namespace Story.Derived

variable {options : CompilerOptions} {story : Story} {document : Document}
  (h : story.Derived options document)
include h

/-- Looking names up neither adds nor takes away a question. -/
theorem leaf?_eq_command_iff {entry : Entry} (hentry : entry ∈ (story.plan options).entries)
    {query : CountQuery} :
    document.tree.leaf? entry.node = some (.command query.command) ↔
      entry.step.asks? = some query := by
  rw [Step.asks?, Leaf.asks?_eq_some_iff]
  cases hlookup : entry.step.lookup with
  | none => rw [h.leaf?_of_plain hentry hlookup, Option.some_inj]
  | some lookup =>
    have hpending := story.placeholder_of_reference options
      (mem_references.mpr ⟨entry, hentry, lookup, hlookup, rfl⟩)
    rw [Plan.leaf?_of_entry _ _ hentry] at hpending
    obtain ⟨leaf, hanswer, hleaf⟩ := h.answered hentry hlookup
    refine iff_of_false ?_ ?_
    · intro hcommand
      cases hleaf.symm.trans hcommand
      cases hanswer.refers
    · rw [Option.some.inj hpending]
      cases lookup.subject <;> nofun

/-- The question that a name is looked up for is asked right after it. -/
theorem exists_question {entry : Entry} (hentry : entry ∈ (story.plan options).entries)
    {query : CountQuery} (hcounted : entry.step.countedBy? = some query) :
    ∃ position question, (document.tree.content entry.holder)[position]? = some entry.node ∧
      (document.tree.content entry.holder)[position + 1]? = some question ∧
      document.tree.leaf? question = some (.command query.command) := by
  obtain ⟨hnode, _, steps, hcode, -, container, hcontainer, hsteps⟩ :=
    ((story.plan options).standing options.flowFlags).coded entry hentry
  rw [h.decided.shape.content]
  rw [Tree.content, hcontainer] at hnode ⊢
  obtain ⟨position, hposition⟩ := List.mem_iff_getElem?.mp hnode
  obtain ⟨step, hstep, hother⟩ := exists_of_getElem? hsteps hposition
  have hsame : step = entry.step :=
    congrArg Entry.step (List.inj_on_of_nodup_map (Plan.nodup_entries _) hother hentry rfl)
  have hnext := (matched_of_code hcode).countedBy?_eq position
  rw [hstep, Option.bind_some, hsame, hcounted] at hnext
  obtain ⟨asking, hasking, hasks⟩ := Option.bind_eq_some_iff.mp hnext.symm
  obtain ⟨question, hquestion, hlast⟩ := exists_of_getElem? hsteps.flip hasking
  exact ⟨position, question, hposition, hquestion, (h.leaf?_eq_command_iff hlast).mpr hasks⟩

/-- Right before a question is a name that is looked up for it. -/
theorem exists_counted {holder position value question : NodeId} {query : CountQuery}
    (hvalue : (document.tree.content holder)[position]? = some value)
    (hquestion : (document.tree.content holder)[position + 1]? = some question)
    (hleaf : document.tree.leaf? question = some (.command query.command)) :
    ∃ entry ∈ (story.plan options).entries, entry.node = value ∧
      entry.step.countedBy? = some query := by
  obtain ⟨asking, hasking, rfl, -⟩ : ∃ entry ∈ (story.plan options).entries,
      entry.node = question ∧ _ := by
    refine (h.exists_entry hleaf).resolve_left ?_
    cases query <;> nofun
  rw [h.decided.shape.content] at hvalue hquestion
  obtain rfl := Plan.holder_eq (h.decided.shape.symm.wellFormed h.wellFormed) hasking
    (List.mem_of_getElem? hquestion)
  obtain ⟨-, _, steps, hcode, -, container, hcontainer, hsteps⟩ :=
    ((story.plan options).standing options.flowFlags).coded asking hasking
  rw [Tree.content, hcontainer] at hvalue hquestion
  obtain ⟨step, hstep, hentry⟩ := exists_of_getElem? hsteps hvalue
  obtain ⟨next, hnext, hother⟩ := exists_of_getElem? hsteps hquestion
  have hcounted := (matched_of_code hcode).countedBy?_eq position
  rw [hstep, hnext, Option.bind_some, Option.bind_some] at hcounted
  exact ⟨_, hentry, rfl, hcounted.trans ((h.leaf?_eq_command_iff hother).mp hleaf)⟩

end Story.Derived

namespace Compiler

/-! ## What looking names up notes -/

namespace Subject

variable {world : World} {tree : Tree} {scope : Scope} {name : String} {found : NodeId}

theorem mark_reading_of_isVariable (hname : world.isVariable scope name = true)
    (countedBy : Option CountQuery) :
    (verdict world tree scope (.reading name countedBy)).mark = none := by
  rw [verdict, if_pos hname]

theorem mark_reading (hname : world.isVariable scope name = false)
    (hfound : world.findFlow? tree scope name = some found) (countedBy : Option CountQuery) :
    (verdict world tree scope (.reading name countedBy)).mark = some (found, .visits) := by
  rw [verdict, if_neg (ne_true_of_eq_false hname), hfound]

theorem mark_target (hname : world.isVariable scope name = false)
    (hfound : world.findFlow? tree scope name = some found) (countedBy : Option CountQuery) :
    (verdict world tree scope (.target name countedBy)).mark =
      countedBy.map fun query => (found, query.requiredFlags) := by
  simp only [verdict, if_neg (ne_true_of_eq_false hname), hfound]

theorem mark_jump (mode : JumpMode) (arguments : Nat) :
    (verdict world tree scope (.jump name mode arguments)).mark = none := by
  rw [verdict]
  split
  · rfl
  · split <;> rfl

end Subject

end Compiler

namespace Story.Derived

variable {options : CompilerOptions} {story : Story} {document : Document}
  (h : story.Derived options document)
include h

/-- What is noted on a container is what some code asks about it. -/
theorem asked_of_mark {reference : Reference}
    (hreference : reference ∈ (story.plan options).references) {c : NodeId} {more : CountFlags}
    (hmark : (reference.verdict (story.plan options).world
      ((story.plan options).tree options.flowFlags)).mark = some (c, more)) :
    more = .visits ∧ document.tree.ReadsCount document.root c ∨
      ∃ query : CountQuery, more = query.requiredFlags ∧
        document.tree.Asks document.root c query.command := by
  obtain ⟨entry, hentry, ⟨subject, location⟩, hlookup, rfl⟩ := mem_references.mp hreference
  obtain ⟨leaf, hanswer, hleaf⟩ := h.answered hentry hlookup
  rw [Reference.verdict] at hmark
  cases hanswer with
  | @ofVariable name countedBy hname =>
    cases (Subject.mark_reading_of_isVariable hname countedBy).symm.trans hmark
  | @readCount name countedBy found hname hfound =>
    cases (Subject.mark_reading hname hfound countedBy).symm.trans hmark
    exact Or.inl ⟨rfl, entry.node, _, hleaf, h.contentAt?_of_findFlow? hfound⟩
  | @target name countedBy found hname hfound =>
    have hnoted := (Subject.mark_target hname hfound countedBy).symm.trans hmark
    obtain ⟨query, rfl, hpair⟩ := Option.map_eq_some_iff.mp hnoted
    cases hpair
    have hcounted : entry.step.countedBy? = some query := by
      rw [Step.countedBy?, hlookup]
      rfl
    obtain ⟨position, question, hposition, hnext, hasks⟩ := h.exists_question hentry hcounted
    exact Or.inr ⟨query, rfl, entry.holder, position, entry.node, question, _, hposition, hnext,
      hleaf, h.contentAt?_of_findFlow? hfound, hasks⟩
  | toVariable _ => cases (Subject.mark_jump _ _).symm.trans hmark
  | jump _ _ => cases (Subject.mark_jump _ _).symm.trans hmark

/-- Where the number of visits is read, visits are noted. -/
theorem exists_mark_of_readsCount {c : NodeId}
    (hreads : document.tree.ReadsCount document.root c) :
    ∃ reference ∈ (story.plan options).references, (reference.verdict (story.plan options).world
      ((story.plan options).tree options.flowFlags)).mark = some (c, .visits) := by
  obtain ⟨id, path, hreads, hleads⟩ := hreads
  obtain ⟨entry, hentry, rfl, -⟩ := (h.exists_entry hreads).resolve_left nofun
  cases hlookup : entry.step.lookup with
  | none =>
    -- What is not looked up refers to nothing.
    have hrefers := h.not_refers_of_plain hentry hlookup
    rw [Option.some.inj ((h.leaf?_of_plain hentry hlookup).symm.trans hreads)] at hrefers
    cases hrefers
  | some lookup =>
    obtain ⟨subject, location⟩ := lookup
    obtain ⟨leaf, hanswer, hleaf⟩ := h.answered hentry hlookup
    cases hleaf.symm.trans hreads
    cases hanswer with
    | @readCount name countedBy found hname hfound =>
      cases (h.contentAt?_of_findFlow? hfound).symm.trans hleads
      exact ⟨_, mem_references.mpr ⟨entry, hentry, _, hlookup, rfl⟩,
        Subject.mark_reading hname hfound countedBy⟩

/-- Where a question is asked, what it needs is noted. -/
theorem exists_mark_of_asks {c : NodeId} {query : CountQuery}
    (hasks : document.tree.Asks document.root c query.command) :
    ∃ reference ∈ (story.plan options).references, (reference.verdict (story.plan options).world
      ((story.plan options).tree options.flowFlags)).mark = some (c, query.requiredFlags) := by
  obtain ⟨holder, position, value, question, path, hvalue, hquestion, haddress, hleads, hcommand⟩ :=
    hasks
  obtain ⟨entry, hentry, rfl, hcounted⟩ := h.exists_counted hvalue hquestion hcommand
  obtain ⟨⟨subject, location⟩, hlookup, hquery⟩ := Option.bind_eq_some_iff.mp hcounted
  obtain ⟨leaf, hanswer, hleaf⟩ := h.answered hentry hlookup
  cases hleaf.symm.trans haddress
  cases hanswer with
  | @target name countedBy found hname hfound =>
    cases (h.contentAt?_of_findFlow? hfound).symm.trans hleads
    cases hquery
    exact ⟨_, mem_references.mpr ⟨entry, hentry, _, hlookup, rfl⟩,
      Subject.mark_target hname hfound (some query)⟩

end Story.Derived

namespace Compiler

/-! ## What is counted from the start -/

theorem FlowPlan.exists_of_mem_tableFrom {place : NodeId} {flows : List FlowPlan}
    {entry : NamedEntry} (h : entry ∈ tableFrom place flows) :
    ∃ flow ∈ flows, flow.name = entry.name := by
  induction flows generalizing place with
  | nil => cases h
  | cons flow rest ih =>
    rcases List.mem_cons.mp h with rfl | h
    · exact ⟨flow, List.mem_cons_self, rfl⟩
    · obtain ⟨other, hother, hname⟩ := ih h
      exact ⟨other, List.mem_cons_of_mem _ hother, hname⟩

section Flows

variable {options : CompilerOptions} {story : Story} (hfaultless : Faultless options.file story)
  (hform : ((story.plan options).tree options.flowFlags).WellFormed)
include hfaultless hform

/-- What the root holds besides flows lists nothing and counts nothing. -/
theorem flowAt_or_bare_of_root {c : NodeId} {container : Container}
    (hc : ((story.plan options).tree options.flowFlags).container? c = some container)
    (hup : ((story.plan options).tree options.flowFlags).parent? c = some 0) :
    (∃ flow knot, story.FlowAt ((story.plan options).tree options.flowFlags) 0 flow c knot) ∨
      container.flags = {} ∧ container.table = [] := by
  obtain ⟨⟨-, hmain, hdone, -⟩, -, -, hglobals⟩ :=
    (story.plan options).carries_tree options.flowFlags
  have hroot := (story.plan options).container?_root options.flowFlags
  have hmem := hform.mem_children hup hroot
  rcases (Container.mem_children _).mp hmem with hin | ⟨entry, hentry, -, rfl⟩
  · obtain rfl | rfl : c = 1 ∨ c = 2 := by simpa using hin
    · cases hc.symm.trans ((Tree.container?_eq_some_iff _).mpr ⟨_, hmain, rfl⟩)
      exact Or.inr ⟨rfl, rfl⟩
    · rw [Tree.container?, Tree.payload?, hdone] at hc
      cases hc
  · have hchild := hform.namedChild?_of_mem hroot hentry
    rcases List.mem_append.mp hentry with hlisted | hlast
    · obtain ⟨plan, hplan, hname⟩ := FlowPlan.exists_of_mem_tableFrom hlisted
      rw [Story.plan, Plan.ofStory, (planFlows_of_clean hfaultless.flows).1] at hplan
      obtain ⟨flow, hflow, rfl⟩ := List.mem_map.mp hplan
      rw [← hname, name_planFlow] at hchild
      exact Or.inl ⟨flow, _, .knot hflow hchild⟩
    · obtain ⟨fragment, hfragment, rfl⟩ :=
        Option.map_eq_some_iff.mp (Option.mem_toList.mp hlast)
      rw [Plan.globalNodes, hfragment] at hglobals
      cases hc.symm.trans ((Tree.container?_eq_some_iff _).mpr ⟨_, hglobals.1, rfl⟩)
      exact Or.inr ⟨rfl, rfl⟩

/-- The containers in that of a flow are those of its stitches. -/
theorem exists_stitch {outer : Flow} {p above c : NodeId} {container : Container} (hp : p ≠ 0)
    (houter : story.FlowAt ((story.plan options).tree options.flowFlags) 0 outer p above)
    (hc : ((story.plan options).tree options.flowFlags).container? c = some container)
    (hup : ((story.plan options).tree options.flowFlags).parent? c = some p) :
    ∃ flow, story.FlowAt ((story.plan options).tree options.flowFlags) 0 flow c p := by
  obtain ⟨hclean, _, -, hlays⟩ := lays_of_flowAt hfaultless houter
  obtain ⟨parent, place, hparent, -, htable⟩ := hlays.container?
  have hmem := hform.mem_children hup hparent
  rcases parent.mem_children.mp hmem with hin | ⟨entry, hentry, -, rfl⟩
  · cases (Plan.container?_of_mem_content hparent hp hin).symm.trans hc
  · have hchild := hform.namedChild?_of_mem hparent hentry
    rw [htable] at hentry
    obtain ⟨plan, hplan, hname⟩ := FlowPlan.exists_of_mem_tableFrom hentry
    rw [(stitches_planFlow hclean).1] at hplan
    obtain ⟨flow, hflow, rfl⟩ := List.mem_map.mp hplan
    rw [← hname, name_planFlow] at hchild
    exact ⟨flow, .stitch houter hflow hchild⟩

/-- A container is the root or that of a flow, or else it lists nothing and counts nothing. -/
theorem flowAt_or_bare {c : NodeId} {container : Container}
    (hc : ((story.plan options).tree options.flowFlags).container? c = some container) :
    c = 0 ∨ (∃ flow knot,
        story.FlowAt ((story.plan options).tree options.flowFlags) 0 flow c knot) ∨
      container.flags = {} ∧ container.table = [] := by
  -- Down from the topmost ancestor, which is the root.
  obtain ⟨top, hwithin, htop⟩ := hform.exists_root_above c
  induction hwithin using Relation.ReflTransGen.head_induction_on generalizing container with
  | refl =>
    exact Or.inl ((Plan.parent?_eq_none_iff (Tree.lt_size_of_container? _ hc)).mp htop)
  | @head c p hup _ ih =>
    obtain ⟨parent, hparent, hchild⟩ := (hform.parent_iff c p).mp hup
    by_cases hp : p = 0
    · subst hp
      exact Or.inr (flowAt_or_bare_of_root hfaultless hform hc hup)
    · rcases (ih hparent).resolve_left hp with ⟨outer, above, houter⟩ | ⟨-, htable⟩
      · obtain ⟨flow, hflow⟩ := exists_stitch hfaultless hform hp houter hc hup
        exact Or.inr (Or.inl ⟨flow, p, hflow⟩)
      · rcases parent.mem_children.mp hchild with hin | ⟨entry, hentry, -⟩
        · cases (Plan.container?_of_mem_content hparent hp hin).symm.trans hc
        · rw [htable] at hentry
          cases hentry

/-- Before names are looked up only flows count anything. -/
theorem has_flags_iff_flowAt {c : NodeId} {container : Container}
    (hc : ((story.plan options).tree options.flowFlags).container? c = some container) {i : Nat} :
    container.flags.Has i ↔ options.flowFlags.Has i ∧ ∃ flow knot,
      story.FlowAt ((story.plan options).tree options.flowFlags) 0 flow c knot := by
  have hflow : ∀ {flow knot},
      story.FlowAt ((story.plan options).tree options.flowFlags) 0 flow c knot →
      container.flags = options.flowFlags := by
    intro flow knot hflow
    obtain ⟨-, _, -, hlays⟩ := lays_of_flowAt hfaultless hflow
    obtain ⟨own, _, hown, hflags, -⟩ := hlays.container?
    cases hc.symm.trans hown
    exact hflags
  constructor
  · intro hhas
    rcases flowAt_or_bare hfaultless hform hc with rfl | ⟨flow, knot, hat⟩ | ⟨hflags, -⟩
    · cases hc.symm.trans ((story.plan options).container?_root options.flowFlags)
      exact absurd hhas (CountFlags.not_has_empty i)
    · exact ⟨hflow hat ▸ hhas, flow, knot, hat⟩
    · rw [hflags] at hhas
      exact absurd hhas (CountFlags.not_has_empty i)
  · rintro ⟨hhas, flow, knot, hat⟩
    rwa [hflow hat]

end Flows

end Compiler

/-! ## Documents without errors -/

theorem CompilerOptions.has_flowFlags {options : CompilerOptions} {i : Nat} :
    options.flowFlags.Has i ↔ options.countAllVisits = true ∧ i = 0 := by
  rw [CompilerOptions.flowFlags]
  split
  · next hall => rw [CountFlags.has_visits, and_iff_right hall]
  · next hnone => exact iff_of_false (CountFlags.not_has_empty i) fun h => hnone h.1

theorem Compiler.CountQuery.exists_requiredFlags_iff {P : Command → Prop} {i : Nat} :
    (∃ query : CountQuery, query.requiredFlags.Has i ∧ P query.command) ↔
      i = 1 ∧ P .turnsSince ∨ (i = 1 ∨ i = 0) ∧ P .readCount := by
  constructor
  · rintro ⟨query, hhas, hasks⟩
    cases query with
    | turnsSince => exact Or.inl ⟨CountFlags.has_turns.mp hhas, hasks⟩
    | readCount =>
      rw [CountQuery.requiredFlags, CountFlags.has_union, CountFlags.has_turns,
        CountFlags.has_visits] at hhas
      exact Or.inr ⟨hhas, hasks⟩
  · rintro (⟨hi, hasks⟩ | ⟨hi, hasks⟩)
    · exact ⟨.turnsSince, CountFlags.has_turns.mpr hi, hasks⟩
    · refine ⟨.readCount, ?_, hasks⟩
      rwa [CountQuery.requiredFlags, CountFlags.has_union, CountFlags.has_turns,
        CountFlags.has_visits]

namespace Story

variable {options : CompilerOptions} {story : Story} {document : Document}

/-- What is counted about a container, one thing at a time. -/
theorem has_flags_iff (h : (story.compile options).result = .ok document) {c : NodeId}
    {container : Container} (hc : document.tree.container? c = some container) {i : Nat} :
    container.flags.Has i ↔
      (options.flowFlags.Has i ∧
          ∃ flow knot, story.FlowAt document.tree document.root flow c knot) ∨
        (CountFlags.visits.Has i ∧ document.tree.ReadsCount document.root c) ∨
        ∃ query : CountQuery, query.requiredFlags.Has i ∧
          document.tree.Asks document.root c query.command := by
  have hderived := derived_of_compile h
  have hshape := hderived.decided.shape
  obtain ⟨before, hbefore, -⟩ := hshape.exists_container hc
  have hflags := hderived.decided.flags? c
  rw [Tree.flags?, Tree.flags?, hc, hbefore] at hflags
  have hflow : (∃ flow knot, story.FlowAt document.tree document.root flow c knot) ↔
      ∃ flow knot,
        story.FlowAt ((story.plan options).tree options.flowFlags) 0 flow c knot := by
    rw [hderived.root]
    constructor
    · rintro ⟨flow, knot, hat⟩
      exact ⟨flow, knot, hat.of_sameShape hshape⟩
    · rintro ⟨flow, knot, hat⟩
      exact ⟨flow, knot, hat.of_sameShape hshape.symm⟩
  rw [Option.some.inj hflags, has_foldl_raise, has_flags_iff_flowAt hderived.faultless
    (hshape.symm.wellFormed hderived.wellFormed) hbefore, hflow]
  refine or_congr_right ⟨?_, ?_⟩
  · rintro ⟨reference, hreference, more, hmark, hmore⟩
    rcases hderived.asked_of_mark hreference hmark with ⟨rfl, hreads⟩ | ⟨query, rfl, hasks⟩
    · exact Or.inl ⟨hmore, hreads⟩
    · exact Or.inr ⟨query, hmore, hasks⟩
  · rintro (⟨hmore, hreads⟩ | ⟨query, hmore, hasks⟩)
    · obtain ⟨reference, hreference, hmark⟩ := hderived.exists_mark_of_readsCount hreads
      exact ⟨reference, hreference, _, hmark, hmore⟩
    · obtain ⟨reference, hreference, hmark⟩ := hderived.exists_mark_of_asks hasks
      exact ⟨reference, hreference, _, hmark, hmore⟩

/-- In the document of a story without errors the turn of the last visit is kept for a container
exactly when some code asks when it was visited or how often, and visits are counted exactly when
some code asks or reads how often, or when all flows are counted and the container is that of a
flow. Nothing else is noted. -/
theorem flags_are_asked_for (h : (story.compile options).result = .ok document) {c : NodeId}
    {container : Container} (hc : document.tree.container? c = some container) :
    (container.flags.contains .turns = true ↔
        document.tree.Asks document.root c .turnsSince ∨
          document.tree.Asks document.root c .readCount) ∧
      (container.flags.contains .visits = true ↔
        document.tree.ReadsCount document.root c ∨
          document.tree.Asks document.root c .readCount ∨
          options.countAllVisits = true ∧
            ∃ flow knot, story.FlowAt document.tree document.root flow c knot) ∧
      (container.flags.remove (CountFlags.turns.union .visits)).isEmpty = true := by
  have hhas : ∀ i, container.flags.Has i ↔ _ := fun i => has_flags_iff h hc
  simp only [CompilerOptions.has_flowFlags, CountFlags.has_visits,
    CountQuery.exists_requiredFlags_iff] at hhas
  refine ⟨?_, ?_, ?_⟩
  · rw [CountFlags.contains_turns, hhas]
    simp
  · rw [CountFlags.contains_visits, hhas, or_comm, or_assoc]
    simp
  · rw [CountFlags.isEmpty_iff]
    intro i hmore
    rw [CountFlags.has_remove, CountFlags.has_union, CountFlags.has_turns, CountFlags.has_visits,
      hhas] at hmore
    omega

/-- A guard who wants to know when the gate was passed, and how often its arch and the tower were;
nobody asks about the moat. -/
def patrolStory : Story where
  root := [⟨.output (.call "TURNS_SINCE" [.target "gate"] none), none⟩,
    ⟨.output (.binary .add (.name "tower") (.call "READ_COUNT" [.target "gate.arch"] none)), none⟩,
    ⟨.divert "moat", none⟩]
  flows := [
    .mk "gate" .knot [] [] [.mk "arch" .stitch [] [⟨.done, none⟩] [] none] none,
    .mk "tower" .knot [] [⟨.done, none⟩] [] none,
    .mk "moat" .knot [] [⟨.done, none⟩] [] none]

theorem flags_are_asked_for_patrol :
    ∃ document, (patrolStory.compile {}).result = .ok document ∧
      document.tree.Asks 0 16 .turnsSince ∧ document.tree.ReadsCount 0 20 ∧
      ¬ document.tree.ReadsCount 0 22 := by
  have hcompiled : ((patrolStory.compile {}).result.toOption.any fun document =>
      document.root = 0 ∧ document.tree.flags? 16 = some .turns ∧
        document.tree.flags? 20 = some .visits ∧ document.tree.flags? 22 = some .empty) = true := by
    decide +kernel
  cases hresult : (patrolStory.compile {}).result with
  | error error =>
    rw [hresult] at hcompiled
    cases hcompiled
  | ok document =>
    rw [hresult] at hcompiled
    obtain ⟨hroot, hgate, htower, hmoat⟩ := of_decide_eq_true hcompiled
    obtain ⟨gate, hgate, hgateFlags⟩ := Option.map_eq_some_iff.mp hgate
    obtain ⟨tower, htower, htowerFlags⟩ := Option.map_eq_some_iff.mp htower
    obtain ⟨moat, hmoat, hmoatFlags⟩ := Option.map_eq_some_iff.mp hmoat
    obtain ⟨hgateTurns, hgateVisits, -⟩ := flags_are_asked_for hresult hgate
    obtain ⟨htowerTurns, htowerVisits, -⟩ := flags_are_asked_for hresult htower
    obtain ⟨-, hmoatVisits, -⟩ := flags_are_asked_for hresult hmoat
    rw [hgateFlags, hroot] at hgateTurns hgateVisits
    rw [htowerFlags, hroot] at htowerTurns htowerVisits
    rw [hmoatFlags, hroot] at hmoatVisits
    have hnever : ¬ document.tree.Asks 0 16 .readCount := fun hasks =>
      absurd (hgateVisits.mpr (Or.inr (Or.inl hasks))) (by decide)
    refine ⟨document, rfl, (hgateTurns.mp (by decide)).resolve_right hnever, ?_, fun hreads =>
      absurd (hmoatVisits.mpr (Or.inl hreads)) (by decide)⟩
    rcases htowerVisits.mp (by decide) with hreads | hasks | ⟨hall, -⟩
    · exact hreads
    · exact absurd (htowerTurns.mpr (Or.inr hasks)) (by decide)
    · cases hall

end Story

end Narrative
