import Narrative.Proofs.Compiler.Jumps
import Narrative.Proofs.Compiler.References
import Narrative.Proofs.Correspondence

/-!
# Arguments and parameters

A call of a function and a jump into a tunnel pass as many arguments as the flow that
they lead to has parameters, and the flow begins by taking exactly these off the stack.
A plain divert passes nothing and is not checked, so it may lead into a flow that takes
what is not there.
-/

namespace Narrative

open Compiler

/-! ## Documents without errors -/

/-- Whether a leaf jumps inside of the story. -/
def Leaf.jumps : Leaf → Bool
  | .divert d => !d.isExternal
  | _ => false

/-- The temporary variables that a container takes off the stack before anything else. -/
def Tree.takenFirst (tree : Tree) (c : NodeId) : List String :=
  leadingNames ((tree.content c).map fun id => (tree.leaf? id).bind Leaf.taken?)

namespace Story

variable (story : Story) (tree : Tree) (root : NodeId)

/-- The jumps of the part of a story that stands in a container. -/
inductive JumpsAt : (container : NodeId) → List Jump → Prop where
  | main {c : NodeId} : (tree.content root).head? = some c →
      JumpsAt c (Statement.jumpsEach story.callsOwn story.root)
  | flow {flow : Flow} {c knot : NodeId} : FlowAt story tree root flow c knot →
      JumpsAt c (flow.jumps story.callsOwn)
  | globals {c : NodeId} : story.globals ≠ [] → tree.namedChild? root globalsName = some c →
      JumpsAt c (GlobalDeclaration.jumpsEach story.callsOwn story.globals)

/-- A divert makes a jump and passes what it has to. A plain one passes nothing, wherever it
goes; the others pass the parameters of the flow that they lead to. -/
inductive Passes : Jump → Divert → Prop where
  | toVariable {name : String} : Passes ⟨name, .plain, 0⟩ (.toVariable name)
  | plain {name : String} {path : Path} {c : NodeId} : tree.contentAt? root path = some c →
      (tree.container? c).isSome = true → Passes ⟨name, .plain, 0⟩ (.toPath path)
  | call {name : String} {mode : JumpMode} {arguments : Nat} {path : Path} {c : NodeId} :
      mode ≠ .plain → tree.contentAt? root path = some c → (tree.container? c).isSome = true →
      (∀ flow knot, FlowAt story tree root flow c knot → arguments = flow.parameters.length) →
      Passes ⟨name, mode, arguments⟩ (mode.divert path)

end Story

theorem Leaf.SameKind.taken? {l m : Leaf} (h : l.SameKind m) :
    l.taken? = none ∧ m.taken? = none := by
  cases h <;> exact ⟨rfl, rfl⟩

theorem Compiler.JumpMode.isExternal_divert (mode : JumpMode) (path : Path) :
    (mode.divert path).isExternal = false := by
  cases mode <;> rfl

namespace Compiler

/-- A leaf that refers to nothing does not jump. -/
theorem jumps_of_not_refers {leaf : Leaf} (h : leaf.refers = false) : leaf.jumps = false := by
  cases leaf with
  | divert d => exact h
  | _ => rfl

end Compiler

namespace Story

section Entries

variable {options : CompilerOptions} {story : Story} {document : Document}
  (h : story.Derived options document)
include h

/-- The containers of a story's flows have the numbers of their parameters. -/
theorem Derived.parametersOf?_of_flowAt {flow : Flow} {c knot : NodeId}
    (hflow : story.FlowAt document.tree document.root flow c knot) :
    (story.plan options).world.parametersOf? c = some flow.parameters.length := by
  have hbefore := hflow.of_sameShape h.decided.shape
  rw [h.root] at hbefore
  obtain ⟨-, _, -, hlays⟩ := lays_of_flowAt h.faultless hbefore
  have hlookup := hlays.lookup
  rwa [parameters_planFlow] at hlookup

/-- Looking names up changes nothing about what is taken off the stack. -/
theorem Derived.taken?_of_entry {entry : Entry} (hentry : entry ∈ (story.plan options).entries) :
    (document.tree.leaf? entry.node).bind Leaf.taken? = entry.step.leaf.taken? := by
  cases hlookup : entry.step.lookup with
  | none => rw [h.leaf?_of_plain hentry hlookup, Option.bind_some]
  | some lookup =>
    have hpending := story.placeholder_of_reference options
      (mem_references.mpr ⟨entry, hentry, lookup, hlookup, rfl⟩)
    rw [Plan.leaf?_of_entry _ _ hentry] at hpending
    obtain ⟨hbefore, hafter⟩ := (lookup.subject.sameKind_verdict (story.plan options).world
      ((story.plan options).tree options.flowFlags) entry.scope).taken?
    rw [h.leaf?_of_entry hentry, Entry.leaf, hlookup, Option.bind_some, hafter,
      Option.some.inj hpending, hbefore]

theorem Derived.not_jumps_of_entry {entry : Entry} (hentry : entry ∈ (story.plan options).entries)
    (hnone : entry.step.jump? = none) :
    (document.tree.leaf? entry.node).any Leaf.jumps = false := by
  cases hlookup : entry.step.lookup with
  | none =>
    rw [h.leaf?_of_plain hentry hlookup, Option.any_some]
    exact jumps_of_not_refers (h.not_refers_of_plain hentry hlookup)
  | some lookup =>
    obtain ⟨leaf, hanswer, hleaf⟩ := h.answered hentry hlookup
    rw [hleaf, Option.any_some]
    rw [Step.jump?, hlookup, Option.map_some] at hnone
    cases hsubject : lookup.subject with
    | reading name countedBy =>
      rw [hsubject] at hanswer
      cases hanswer <;> rfl
    | target name countedBy =>
      rw [hsubject] at hanswer
      cases hanswer
      rfl
    | jump name mode arguments =>
      rw [hsubject] at hnone
      cases hnone

/-- A jump of the code is made by a divert that passes what it has to. -/
theorem Derived.exists_divert_of_entry {entry : Entry}
    (hentry : entry ∈ (story.plan options).entries) {jump : Jump}
    (hjump : entry.step.jump? = some jump) (hbare : jump.Bare) :
    ∃ divert, document.tree.leaf? entry.node = some (.divert divert) ∧
      divert.isExternal = false ∧ story.Passes document.tree document.root jump divert := by
  obtain ⟨name, mode, arguments⟩ := jump
  obtain ⟨lookup, hlookup, hsubject⟩ := Step.exists_of_jump? hjump
  have hsilent := h.verdicts _ (mem_references.mpr ⟨entry, hentry, lookup, hlookup, rfl⟩)
  obtain ⟨leaf, hanswer, hleaf⟩ := h.answered hentry hlookup
  rw [hsubject] at hanswer
  rw [hleaf]
  cases hanswer with
  | toVariable hname =>
    obtain rfl : arguments = 0 := hbare rfl
    exact ⟨_, rfl, rfl, .toVariable⟩
  | @jump _ _ _ found hname hfound =>
    have hcontainer := (leadsFirst_of_findFlow? hfound fun _ => rfl).isSome_container?
    have hleads := h.contentAt?_of_findFlow? hfound
    rw [← h.decided.shape.isSome_container?] at hcontainer
    refine ⟨_, rfl, mode.isExternal_divert _, ?_⟩
    by_cases hplain : mode = .plain
    · subst hplain
      obtain rfl : arguments = 0 := hbare rfl
      exact .plain hleads hcontainer
    · refine .call hplain hleads hcontainer fun flow knot hflow => ?_
      simp only [Reference.verdict, hsubject, Subject.verdict, if_neg hname, hfound,
        if_neg hplain, h.parametersOf?_of_flowAt hflow] at hsilent
      by_contra hdiffer
      rw [Option.filter_some_pos (by simpa using Ne.symm hdiffer)] at hsilent
      cases hsilent

end Entries

variable {story : Story} {tree : Tree} {root : NodeId}

/-- The jumps of a container are those that its passage mentions. -/
theorem JumpsAt.exists_passageAt {c : NodeId} {jumps : List Jump}
    (h : story.JumpsAt tree root c jumps) :
    ∃ passage, story.PassageAt tree root passage ∧ passage.container = c ∧
      passage.mentions.filterMap Mention.jump? = jumps := by
  cases h with
  | main hhead => exact ⟨_, .main hhead, rfl, rfl⟩
  | flow hflow => exact ⟨_, .flow hflow, rfl, rfl⟩
  | globals hsome hchild => exact ⟨_, .globals hsome hchild, rfl, rfl⟩

theorem PassageAt.bare_mentions {passage : Passage} (h : story.PassageAt tree root passage) :
    ∀ mention ∈ passage.mentions, mention.Bare := by
  cases h with
  | main => exact Statement.bare_mentionsEach _ _
  | flow => exact Flow.bare_mentions _ _
  | globals => exact GlobalDeclaration.bare_mentionsEach _ _

namespace Derived

variable {options : CompilerOptions} {document : Document} (h : story.Derived options document)
include h

/-- The diverts of a passage are the jumps that it mentions, in order. -/
theorem forall₂_passes {passage : Passage}
    (hpassage : story.PassageAt document.tree document.root passage) :
    List.Forall₂ (fun jump id => ∃ divert, document.tree.leaf? id = some (.divert divert) ∧
        story.Passes document.tree document.root jump divert)
      (passage.mentions.filterMap Mention.jump?)
      ((document.tree.content passage.container).filter fun id =>
        (document.tree.leaf? id).any Leaf.jumps) := by
  obtain ⟨scope, steps, hcoded⟩ := h.exists_coded hpassage
  obtain ⟨container, hcontainer, hsteps⟩ := hcoded.filled
  have hmade := hcoded.written.jumps
  rw [h.decided.shape.content, Tree.content, hcontainer, ← hmade]
  refine forall₂_filterMap_filter hsteps ?_ fun step node hentry hnone =>
    h.not_jumps_of_entry hentry hnone
  intro step hstep node jump hentry hjump
  have hmention : jump ∈ passage.mentions.filterMap Mention.jump? :=
    hmade ▸ List.mem_filterMap.mpr ⟨step, hstep, hjump⟩
  obtain ⟨divert, hleaf, hinternal, hpasses⟩ := h.exists_divert_of_entry hentry hjump
    (Jump.bare_of_mentions hpassage.bare_mentions hmention)
  have hjumps : (document.tree.leaf? node).any Leaf.jumps = true := by
    rw [hleaf, Option.any_some, Leaf.jumps, hinternal]
    rfl
  exact ⟨hjumps, divert, hleaf, hpasses⟩

/-- The container of a flow takes what the code of the flow takes. -/
theorem takenFirst_eq {flow : Flow} {c knot : NodeId}
    (hflow : story.FlowAt document.tree document.root flow c knot) :
    document.tree.takenFirst c = flow.parameters.reverse := by
  have hbefore := hflow.of_sameShape h.decided.shape
  rw [h.root] at hbefore
  obtain ⟨container, hcontainer, hsteps⟩ := filled_of_flowAt h.faultless hbefore
  have htaken : (planFlow (Context.ofStory options.file story) flow).1.steps.map
      (fun step => step.leaf.taken?) =
        container.content.map fun id => (document.tree.leaf? id).bind Leaf.taken? :=
    map_eq_map_of_forall₂ hsteps fun step node hentry => (h.taken?_of_entry hentry).symm
  rw [Tree.takenFirst, h.decided.shape.content, Tree.content, Story.plan, hcontainer]
  simp only
  rw [← htaken]
  obtain ⟨name, kind, parameters, body, stitches, range⟩ := flow
  rw [planFlow]
  exact leadingNames_lowerBody _ parameters body stitches

end Derived

/-- In the document of a story without errors, the diverts of each container are its jumps, in
order, and pass what they have to; and the container of each flow begins by taking the parameters of
the flow off the stack, the last one first, and nothing else. -/
theorem calls_pass_parameters {options : CompilerOptions} {story : Story} {document : Document}
    (h : (story.compile options).result = .ok document) :
    (∀ c jumps, story.JumpsAt document.tree document.root c jumps →
      List.Forall₂ (fun jump id => ∃ divert, document.tree.leaf? id = some (.divert divert) ∧
          story.Passes document.tree document.root jump divert)
        jumps ((document.tree.content c).filter fun id =>
          (document.tree.leaf? id).any Leaf.jumps)) ∧
      ∀ flow c knot, story.FlowAt document.tree document.root flow c knot →
        document.tree.takenFirst c = flow.parameters.reverse := by
  have hderived := derived_of_compile h
  refine ⟨?_, fun flow c knot hflow => hderived.takenFirst_eq hflow⟩
  intro c jumps hjumps
  obtain ⟨passage, hpassage, rfl, rfl⟩ := hjumps.exists_passageAt
  exact hderived.forall₂_passes hpassage

/-- A tunnel that is passed what a function gives back, and a call whose value nobody uses. -/
def errandStory : Story where
  root := [⟨.tunnel "visit" [.int 1, .call "double" [.int 2] none], none⟩,
    ⟨.call ⟨"double", [.int 3], none⟩, none⟩]
  flows := [
    .mk "visit" .knot ["who", "gift"] [⟨.tunnelReturn, none⟩] [] none,
    .mk "double" .function ["n"]
      [⟨.giveBack (some (.binary .add (.name "n") (.name "n"))), none⟩] [] none]

theorem calls_pass_parameters_errand :
    ∃ document, (errandStory.compile {}).result = .ok document ∧
      List.Forall₂ (fun jump id => ∃ divert, document.tree.leaf? id = some (.divert divert) ∧
          errandStory.Passes document.tree 0 jump divert)
        [⟨"double", .function, 1⟩, ⟨"visit", .tunnel, 2⟩, ⟨"double", .function, 1⟩] [6, 8, 11] ∧
      document.tree.takenFirst 14 = ["gift", "who"] := by
  have hcompiled : ((errandStory.compile {}).result.toOption.any fun document =>
      document.root = 0 ∧ (document.tree.content 0).head? = some 1 ∧
        document.tree.namedChild? 0 "visit" = some 14 ∧
        (document.tree.content 1).filter
          (fun id => (document.tree.leaf? id).any Leaf.jumps) = [6, 8, 11]) = true := by
    decide +kernel
  cases hresult : (errandStory.compile {}).result with
  | error error =>
    rw [hresult] at hcompiled
    cases hcompiled
  | ok document =>
    rw [hresult] at hcompiled
    obtain ⟨hroot, hmain, hvisit, hnodes⟩ := of_decide_eq_true hcompiled
    obtain ⟨hjumps, htaken⟩ := calls_pass_parameters hresult
    rw [hroot] at hjumps htaken
    have hpasses := hjumps 1 _ (.main hmain)
    rw [hnodes] at hpasses
    exact ⟨document, rfl, hpasses, htaken _ 14 14 (.knot List.mem_cons_self hvisit)⟩

/-- A divert into a knot that takes a key, and a knot that enters a stitch that takes a lamp. -/
def lockedStory : Story where
  root := [⟨.divert "cellar", none⟩]
  flows := [.mk "cellar" .knot ["key"] [⟨.done, none⟩] [] none,
    .mk "tower" .knot [] [] [.mk "stair" .stitch ["lamp"] [⟨.done, none⟩] [] none] none]

/-- The divert passes nothing and neither does the way into the stitch, the knot and the stitch each
take a value, and nobody complains. -/
theorem divert_passes_too_little :
    ∃ document, (lockedStory.compile {}).result = .ok document ∧
      (lockedStory.JumpsAt document.tree 0 1 [⟨"cellar", .plain, 0⟩] ∧
        document.tree.leaf? 3 = some (.divert (.toPath (.absolute [.name "cellar"]))) ∧
        document.tree.contentAt? 0 (.absolute [.name "cellar"]) = some 4 ∧
        lockedStory.FlowAt document.tree 0
          (.mk "cellar" .knot ["key"] [⟨.done, none⟩] [] none) 4 4 ∧
        document.tree.takenFirst 4 = ["key"]) ∧
      lockedStory.JumpsAt document.tree 0 7 [⟨"stair", .plain, 0⟩] ∧
        document.tree.leaf? 8 =
          some (.divert (.toPath (.absolute [.name "tower", .name "stair"]))) ∧
        document.tree.contentAt? 0 (.absolute [.name "tower", .name "stair"]) = some 9 ∧
        lockedStory.FlowAt document.tree 0
          (.mk "stair" .stitch ["lamp"] [⟨.done, none⟩] [] none) 9 7 ∧
        document.tree.takenFirst 9 = ["lamp"] := by
  have hcompiled : ((lockedStory.compile {}).result.toOption.any fun document =>
      ((document.tree.content 0).head? = some 1 ∧ document.tree.namedChild? 0 "cellar" = some 4 ∧
        document.tree.leaf? 3 = some (.divert (.toPath (.absolute [.name "cellar"]))) ∧
        document.tree.contentAt? 0 (.absolute [.name "cellar"]) = some 4 ∧
        document.tree.takenFirst 4 = ["key"]) ∧
      document.tree.namedChild? 0 "tower" = some 7 ∧ document.tree.namedChild? 7 "stair" = some 9 ∧
        document.tree.leaf? 8 =
          some (.divert (.toPath (.absolute [.name "tower", .name "stair"]))) ∧
        document.tree.contentAt? 0 (.absolute [.name "tower", .name "stair"]) = some 9 ∧
        document.tree.takenFirst 9 = ["lamp"]) = true := by
    decide +kernel
  cases hresult : (lockedStory.compile {}).result with
  | error error =>
    rw [hresult] at hcompiled
    cases hcompiled
  | ok document =>
    rw [hresult] at hcompiled
    obtain ⟨⟨hmain, hcellar, hleaf, hleads, htaken⟩, htower, hstair, hrest⟩ :=
      of_decide_eq_true hcompiled
    obtain ⟨hentry, hfirst, hlamp⟩ := hrest
    have hknot : lockedStory.FlowAt document.tree 0 _ 7 7 :=
      .knot (List.mem_cons_of_mem _ List.mem_cons_self) htower
    exact ⟨document, rfl,
      ⟨.main hmain, hleaf, hleads, .knot List.mem_cons_self hcellar, htaken⟩,
      .flow hknot, hentry, hfirst, .stitch hknot List.mem_cons_self hstair, hlamp⟩

end Story

end Narrative
