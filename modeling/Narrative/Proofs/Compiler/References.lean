import Narrative.Proofs.Compiler.Documents
import Narrative.Proofs.Compiler.Passages
import Narrative.Proofs.Tree.Addresses

/-!
# Where the names of a compiled story lead

A document without errors says of every name that its story mentions what the name
means there: a variable of the story or of the flow, or the address of the first
container that the name leads to, tried from the flow, from its knot and from the
root. Nothing else in the document refers to anything, and no mention is lost.
-/

namespace Narrative

open Compiler

/-! ## What a name means -/

/-- A path leads to a container from the first start from which it leads to any. -/
def Tree.LeadsFirst (tree : Tree) (starts : List NodeId) (path : Path) (found : NodeId) : Prop :=
  ∃ before start after, starts = before ++ start :: after ∧
    tree.contentAt? start path = some found ∧ (tree.container? found).isSome = true ∧
    ∀ earlier ∈ before, ∀ other, tree.contentAt? earlier path = some other →
      tree.container? other = none

namespace Story

variable (story : Story) (tree : Tree) (root : NodeId) (passage : Passage)

/-- A name is that of a variable of the story, or of one that the passage has itself. -/
def IsVariable (name : String) : Prop :=
  name ∈ story.globals.map GlobalDeclaration.name ∨ name ∈ passage.locals

/-- From the root, the address leads to the container that the name leads to from the passage. -/
def AddressOf (name : String) (address : Path) : Prop :=
  ∃ found, tree.LeadsFirst passage.starts (.parse name) found ∧
    tree.contentAt? root address = some found

/-- The leaf that a mention stands for. -/
inductive Means : Mention → Leaf → Prop where
  | readVariable {name : String} : IsVariable story passage name →
      Means (.reading name) (.reference (.named name))
  | readCount {name : String} {address : Path} : ¬ IsVariable story passage name →
      AddressOf tree root passage name address →
      Means (.reading name) (.reference (.readCount address))
  | target {name : String} {address : Path} : ¬ IsVariable story passage name →
      AddressOf tree root passage name address →
      Means (.target name) (.value (.divertTarget address))
  | jumpToVariable {name : String} {arguments : Nat} : IsVariable story passage name →
      Means (.jump name .plain arguments) (.divert (.toVariable name))
  | jump {name : String} {mode : JumpMode} {arguments : Nat} {address : Path} :
      ¬ (mode = .plain ∧ IsVariable story passage name) →
      AddressOf tree root passage name address →
      Means (.jump name mode arguments) (.divert (mode.divert address))

end Story

theorem Tree.LeadsFirst.of_sameShape {before after : Tree} (hshape : before.SameShape after)
    {starts : List NodeId} {path : Path} {found : NodeId}
    (h : after.LeadsFirst starts path found) : before.LeadsFirst starts path found := by
  obtain ⟨first, start, rest, rfl, hfound, hcontainer, hearlier⟩ := h
  refine ⟨first, start, rest, rfl, hshape.contentAt? .. ▸ hfound,
    hshape.isSome_container? _ ▸ hcontainer, ?_⟩
  intro earlier hmem other hother
  have hnone := hearlier earlier hmem other (hshape.contentAt? .. ▸ hother)
  have hsame := hshape.isSome_container? other
  rw [hnone] at hsame
  simpa using hsame.symm

theorem Tree.LeadsFirst.isSome_container? {tree : Tree} {starts : List NodeId} {path : Path}
    {found : NodeId} (h : tree.LeadsFirst starts path found) :
    (tree.container? found).isSome = true := by
  obtain ⟨_, _, _, _, _, hcontainer, _⟩ := h
  exact hcontainer

namespace Compiler

/-! ## Looking up in a scope -/

variable {tree : Tree}

theorem leadsFirst_of_findSome? {starts : List NodeId} {path : Path} {found : NodeId}
    (h : starts.findSome? (World.containerAt? tree path) = some found) :
    tree.LeadsFirst starts path found := by
  obtain ⟨before, start, after, rfl, hfound, hearlier⟩ := List.findSome?_eq_some_iff.mp h
  obtain ⟨hleads, hcontainer⟩ := Option.filter_eq_some_iff.mp hfound
  refine ⟨before, start, after, rfl, hleads, hcontainer, ?_⟩
  intro earlier hmem other hother
  have hnone := hearlier earlier hmem
  rw [World.containerAt?, hother, Option.filter_some] at hnone
  simpa using hnone

theorem leadsFirst_of_findFlow? {world : World} {scope : Scope} {name : String} {found : NodeId}
    {starts : List NodeId} (h : world.findFlow? tree scope name = some found)
    (hstarts : ∀ f : NodeId → Option NodeId,
      (world.starts scope).findSome? f = starts.findSome? f) :
    tree.LeadsFirst starts (.parse name) found := by
  rw [World.findFlow?] at h
  split at h
  · cases h
  · rw [hstarts] at h
    exact leadsFirst_of_findSome? h

/-- The root of a plan's tree is its only one, so addresses count from there. -/
theorem Plan.contentAt?_path {plan : Plan} {flags : CountFlags}
    (h : (plan.tree flags).WellFormed) {found : NodeId} (hfound : found < (plan.tree flags).size) :
    (plan.tree flags).contentAt? 0 ((plan.tree flags).path found) = some found := by
  have hwithin := h.within_only_root (fun _ hlt => (parent?_eq_none_iff hlt).mp) hfound
  exact h.contentAt?_path hwithin ((parent?_eq_none_iff (Nat.zero_lt_of_lt hfound)).mpr rfl)

section Answers

variable {story : Story} {root : NodeId} {passage : Passage} {world : World} {scope : Scope}

theorem isVariable_iff (hglobals : world.globals = story.globals.map GlobalDeclaration.name)
    (hlocals : scope.locals = passage.locals) (name : String) :
    world.isVariable scope name = true ↔ story.IsVariable passage name := by
  rw [World.isVariable, hglobals, hlocals, Story.IsVariable, Bool.or_eq_true, or_comm]
  simp

theorem Answered.refers {subject : Subject} {leaf : Leaf}
    (h : Answered world tree scope subject leaf) : leaf.refers = true := by
  cases h with
  | ofVariable _ => rfl
  | readCount _ _ => rfl
  | target _ _ => rfl
  | toVariable _ => rfl
  | @jump _ mode _ _ _ _ => cases mode <;> rfl

/-- What looking a name up gives is what the name means in its passage. -/
theorem Answered.means {document : Document} (hshape : tree.SameShape document.tree)
    (hpath : ∀ {found}, found < tree.size →
      tree.contentAt? document.root (tree.path found) = some found)
    (hglobals : world.globals = story.globals.map GlobalDeclaration.name)
    (hlocals : scope.locals = passage.locals)
    (hstarts : ∀ f : NodeId → Option NodeId,
      (world.starts scope).findSome? f = passage.starts.findSome? f)
    {subject : Subject} {leaf : Leaf} (h : Answered world tree scope subject leaf) :
    story.Means document.tree document.root passage subject.mention leaf := by
  have hvariable := isVariable_iff hglobals hlocals
  have hother : ∀ {name}, world.isVariable scope name = false → ¬ story.IsVariable passage name :=
    fun hname h => Bool.false_ne_true (hname.symm.trans ((hvariable _).mpr h))
  have haddress : ∀ {name found}, world.findFlow? tree scope name = some found →
      Story.AddressOf document.tree document.root passage name (tree.path found) := by
    intro name found hfound
    have hleads := leadsFirst_of_findFlow? hfound hstarts
    refine ⟨found, hleads.of_sameShape hshape.symm, ?_⟩
    obtain ⟨container, hcontainer⟩ := Option.isSome_iff_exists.mp hleads.isSome_container?
    rw [hshape.contentAt?]
    exact hpath (tree.lt_size_of_container? hcontainer)
  cases h with
  | ofVariable hname => exact .readVariable ((hvariable _).mp hname)
  | readCount hname hfound =>
    exact .readCount (hother hname) (haddress hfound)
  | target hname hfound =>
    exact .target (hother hname) (haddress hfound)
  | toVariable hname => exact .jumpToVariable ((hvariable _).mp hname)
  | jump hname hfound =>
    exact .jump (fun h => hname ⟨h.1, (hvariable _).mpr h.2⟩) (haddress hfound)

end Answers

/-! ## Documents without errors -/

/-- The leaf at a node is what the step there stands for. -/
structure Settles (story : Story) (document : Document) (passage : Passage) (step : Step)
    (node : NodeId) : Prop where
  means : ∀ lookup, step.lookup = some lookup → ∃ leaf, document.tree.leaf? node = some leaf ∧
    leaf.refers = true ∧
    story.Means document.tree document.root passage lookup.subject.mention leaf
  kept : step.lookup = none → document.tree.leaf? node = some step.leaf

/-- The referring leaves of a passage are what its mentions stand for, in order. -/
theorem Written.forall₂_means {story : Story} {document : Document} {passage : Passage}
    {steps : List Step} {mentions : List Mention} {nodes : List NodeId}
    (h : Written steps mentions)
    (hsettled : List.Forall₂ (Settles story document passage) steps nodes) :
    List.Forall₂ (fun mention node => ∃ leaf, document.tree.leaf? node = some leaf ∧
        story.Means document.tree document.root passage mention leaf)
      mentions (nodes.filter fun node => (document.tree.leaf? node).any Leaf.refers) := by
  induction h generalizing nodes with
  | nil =>
    cases hsettled
    exact .nil
  | plain hlookup hrefers _ ih =>
    cases hsettled with
    | cons hfirst hrest =>
      rw [List.filter_cons_of_neg (by simp [hfirst.kept hlookup, hrefers])]
      exact ih hrest
  | pending hlookup _ _ ih =>
    cases hsettled with
    | cons hfirst hrest =>
      obtain ⟨leaf, hleaf, hrefers, hmeans⟩ := hfirst.means _ hlookup
      rw [List.filter_cons_of_pos (by simp [hleaf, hrefers])]
      exact .cons ⟨leaf, hleaf, hmeans⟩ (ih hrest)

end Compiler

namespace Story

/-- The document of a story with which nothing is wrong. -/
structure Derived (options : CompilerOptions) (story : Story) (document : Document) : Prop
    extends story.Yields options document, story.Flawless options

variable {options : CompilerOptions} {story : Story} {document : Document}

theorem derived_of_compile (h : (story.compile options).result = .ok document) :
    story.Derived options document :=
  ⟨yields_of_compile h, flawless_of_compile h⟩

theorem Flawless.faultless (h : story.Flawless options) : Faultless options.file story := by
  obtain ⟨hplan, hglobals⟩ := clean_append.mp h.reports
  refine faultless_of_clean hplan fun fragment hfragment => ?_
  have hsome : (story.plan options).globals = some fragment := hfragment
  rwa [hsome] at hglobals

namespace Yields

variable (h : story.Yields options document)
include h

theorem contentAt?_path {found : NodeId}
    (hfound : found < ((story.plan options).tree options.flowFlags).size) :
    ((story.plan options).tree options.flowFlags).contentAt? document.root
      (((story.plan options).tree options.flowFlags).path found) = some found := by
  rw [h.root]
  exact Plan.contentAt?_path (h.decided.shape.symm.wellFormed h.wellFormed) hfound

/-- The address of a container that a name leads to leads there from the root of the document. -/
theorem contentAt?_of_findFlow? {scope : Scope} {name : String} {found : NodeId}
    (hfound : (story.plan options).world.findFlow?
      ((story.plan options).tree options.flowFlags) scope name = some found) :
    document.tree.contentAt? document.root
      (((story.plan options).tree options.flowFlags).path found) = some found := by
  have hcontainer := (leadsFirst_of_findFlow? hfound fun _ => rfl).isSome_container?
  obtain ⟨container, hsome⟩ := Option.isSome_iff_exists.mp hcontainer
  rw [h.decided.shape.contentAt?]
  exact h.contentAt?_path (Tree.lt_size_of_container? _ hsome)

/-- A step without a name to look up has its own leaf. -/
theorem leaf?_of_plain {entry : Entry} (hentry : entry ∈ (story.plan options).entries)
    (hnone : entry.step.lookup = none) :
    document.tree.leaf? entry.node = some entry.step.leaf := by
  rw [h.leaf?_of_entry hentry, Entry.leaf, hnone]

end Yields

namespace Derived

variable (h : story.Derived options document)
include h

/-- A name that is looked up ends with the leaf that it calls for. -/
theorem answered {entry : Entry} (hentry : entry ∈ (story.plan options).entries) {lookup : Lookup}
    (hlookup : entry.step.lookup = some lookup) :
    ∃ leaf, Answered (story.plan options).world ((story.plan options).tree options.flowFlags)
        entry.scope lookup.subject leaf ∧ document.tree.leaf? entry.node = some leaf := by
  have hreference := mem_references.mpr ⟨entry, hentry, lookup, hlookup, rfl⟩
  exact ⟨_, answered_verdict (h.verdicts _ hreference), h.decided.leaf? _ hreference⟩

/-- A step without a name to look up refers to nothing. -/
theorem not_refers_of_plain {entry : Entry} (hentry : entry ∈ (story.plan options).entries)
    (hnone : entry.step.lookup = none) : entry.step.leaf.refers = false := by
  obtain ⟨_, _, _, hcoded, hstep⟩ :=
    @exists_coded_of_mem _ _ options.flowFlags h.faultless h.free _ hentry
  exact hcoded.written.not_refers_of_mem hstep hnone

/-- Every passage has its code. -/
theorem exists_coded {passage : Passage}
    (hpassage : story.PassageAt document.tree document.root passage) :
    ∃ scope steps, Coded ((story.plan options).tree options.flowFlags) 0
      (story.plan options).entries passage scope steps := by
  have hbefore := hpassage.of_sameShape h.decided.shape
  rw [h.root] at hbefore
  exact Compiler.exists_coded h.faultless h.free hbefore

theorem settles {passage : Passage} {scope : Scope} {steps : List Step}
    (hcoded : Coded ((story.plan options).tree options.flowFlags) 0 (story.plan options).entries
      passage scope steps) :
    List.Forall₂ (Settles story document passage) steps
      (document.tree.content passage.container) := by
  obtain ⟨container, hcontainer, hsteps⟩ := hcoded.filled
  rw [h.decided.shape.content, Tree.content, hcontainer]
  refine hsteps.imp fun step node hentry => ⟨?_, fun hlookup => h.leaf?_of_plain hentry hlookup⟩
  intro lookup hlookup
  obtain ⟨leaf, hanswer, hleaf⟩ := h.answered hentry hlookup
  exact ⟨leaf, hleaf, hanswer.refers, hanswer.means h.decided.shape h.contentAt?_path rfl
    hcoded.locals (hcoded.starts _ rfl)⟩

/-- The referring leaves of a passage are what its mentions stand for, in order. -/
theorem forall₂_means {passage : Passage}
    (hpassage : story.PassageAt document.tree document.root passage) :
    List.Forall₂ (fun mention node => ∃ leaf, document.tree.leaf? node = some leaf ∧
        story.Means document.tree document.root passage mention leaf)
      passage.mentions ((document.tree.content passage.container).filter fun node =>
        (document.tree.leaf? node).any Leaf.refers) := by
  obtain ⟨scope, steps, hcoded⟩ := h.exists_coded hpassage
  exact hcoded.written.forall₂_means (h.settles hcoded)

/-- A leaf that refers to something stands in a passage. -/
theorem exists_passageAt_of_refers {id : NodeId} {leaf : Leaf}
    (hleaf : document.tree.leaf? id = some leaf) (hrefers : leaf.refers = true) :
    ∃ passage, story.PassageAt document.tree document.root passage ∧
      id ∈ document.tree.content passage.container := by
  rcases h.exists_entry hleaf with rfl | ⟨entry, hentry, rfl, -⟩
  · cases hrefers
  · obtain ⟨passage, hpassage, hmem⟩ := exists_passageAt h.faultless h.free hentry
    refine ⟨passage, ?_, (h.decided.shape.content _).symm ▸ hmem⟩
    rw [h.root]
    exact hpassage.of_sameShape h.decided.shape.symm

end Derived

/-- In the document of a story without errors, every leaf that refers to something stands for a
mention in the passage around it, and every passage has exactly the leaves that its mentions stand
for. -/
theorem references_lead_as_written {options : CompilerOptions} {story : Story}
    {document : Document} (h : (story.compile options).result = .ok document) :
    (∀ id leaf, document.tree.leaf? id = some leaf → leaf.refers = true →
      ∃ passage mention, story.PassageAt document.tree document.root passage ∧
        id ∈ document.tree.content passage.container ∧ mention ∈ passage.mentions ∧
        story.Means document.tree document.root passage mention leaf) ∧
      ∀ passage, story.PassageAt document.tree document.root passage →
        List.Forall₂ (fun mention id => ∃ leaf, document.tree.leaf? id = some leaf ∧
            story.Means document.tree document.root passage mention leaf)
          passage.mentions ((document.tree.content passage.container).filter fun id =>
            (document.tree.leaf? id).any Leaf.refers) := by
  have hderived := derived_of_compile h
  refine ⟨?_, fun passage hpassage => hderived.forall₂_means hpassage⟩
  intro id leaf hleaf hrefers
  obtain ⟨passage, hpassage, hid⟩ := hderived.exists_passageAt_of_refers hleaf hrefers
  have hkept : id ∈ (document.tree.content passage.container).filter fun node =>
      (document.tree.leaf? node).any Leaf.refers :=
    List.mem_filter.mpr ⟨hid, by simp [hleaf, hrefers]⟩
  obtain ⟨mention, hmention, other, hother, hmeans⟩ :=
    exists_of_forall₂_right (hderived.forall₂_means hpassage) hkept
  cases hleaf.symm.trans hother
  exact ⟨passage, mention, hpassage, hid, hmention, hmeans⟩

/-- A knot that enters its first stitch. From there a name that a stitch and a function share leads
to the stitch, and a variable of the story leads back. -/
def cellarStory : Story where
  root := [⟨.assign "seen" (.name "cellar") true, none⟩, ⟨.output (.name "seen"), none⟩,
    ⟨.divert "cellar", none⟩]
  flows := [
    .mk "cellar" .knot [] [] [
      .mk "deep" .stitch [] [⟨.divert "loud", none⟩, ⟨.divert "exit", none⟩] [] none,
      .mk "loud" .stitch [] [⟨.done, none⟩] [] none] none,
    .mk "loud" .function ["word"] [⟨.giveBack (some (.name "word")), none⟩] [] none]
  globals := [⟨"exit", .target "cellar.deep", none⟩]

theorem references_lead_as_written_cellar :
    ∃ document, (cellarStory.compile {}).result = .ok document ∧
      (∃ passage mention, cellarStory.PassageAt document.tree 0 passage ∧
        27 ∈ document.tree.content passage.container ∧ mention ∈ passage.mentions ∧
        cellarStory.Means document.tree 0 passage mention
          (.value (.divertTarget (.absolute [.name "cellar", .name "deep"])))) ∧
      List.Forall₂ (fun mention id => ∃ leaf, document.tree.leaf? id = some leaf ∧
          cellarStory.Means document.tree 0 ⟨14, [14, 12, 0], [],
            [.jump "loud" .plain 0, .jump "exit" .plain 0]⟩ mention leaf)
        [.jump "loud" .plain 0, .jump "exit" .plain 0] [15, 16] := by
  have hcompiled : ((cellarStory.compile {}).result.toOption.any fun document =>
      document.root = 0 ∧ document.tree.leaf? 27 =
          some (.value (.divertTarget (.absolute [.name "cellar", .name "deep"]))) ∧
        document.tree.namedChild? 0 "cellar" = some 12 ∧
        document.tree.namedChild? 12 "deep" = some 14 ∧
        (document.tree.content 14).filter
          (fun id => (document.tree.leaf? id).any Leaf.refers) = [15, 16]) = true := by
    decide +kernel
  cases hresult : (cellarStory.compile {}).result with
  | error error =>
    rw [hresult] at hcompiled
    cases hcompiled
  | ok document =>
    rw [hresult] at hcompiled
    obtain ⟨hroot, hleaf, hknot, hstitch, hnodes⟩ := of_decide_eq_true hcompiled
    obtain ⟨hleaves, hpassages⟩ := references_lead_as_written hresult
    rw [hroot] at hleaves hpassages
    refine ⟨document, rfl, hleaves 27 _ hleaf rfl, ?_⟩
    have hdeep : cellarStory.FlowAt document.tree 0
        (.mk "deep" .stitch [] [⟨.divert "loud", none⟩, ⟨.divert "exit", none⟩] [] none) 14 12 :=
      .stitch (.knot List.mem_cons_self hknot) List.mem_cons_self hstitch
    have hmeans := hpassages _ (.flow hdeep)
    rw [hnodes] at hmeans
    exact hmeans

end Story

end Narrative
