import Narrative.Proofs.Compiler.Documents

/-!
# Looking names up in any order

A look-up reads the links and names of a tree and the source ranges of its nodes. It
changes one leaf and the flags of one container, and no look-up reads either. So
looking up references in another order leaves the same tree and reports the same,
in another order. All that is different after the look-ups are leaves that stood in
for names, which are still of their kind, and flags, which have not been taken away.
-/

namespace Narrative

namespace Tree

/-! ## What a node says of itself -/

/-- The source range of a node, if it says so itself. -/
def ownRange? (tree : Tree) (id : NodeId) : Option SourceRange := (tree.get? id).bind Node.range

theorem ownRange?_setPayload (tree : Tree) (id i : NodeId) (payload : Payload) :
    (tree.setPayload id payload).ownRange? i = tree.ownRange? i := by
  rw [ownRange?, ownRange?, setPayload, get?_modify]
  split
  · cases tree.get? i <;> rfl
  · rfl

theorem ownRange?_modifyContainer (tree : Tree) (id i : NodeId) (f : Container → Container) :
    (tree.modifyContainer id f).ownRange? i = tree.ownRange? i := by
  rw [ownRange?, ownRange?, modifyContainer, get?_modify]
  split
  · cases tree.get? i with
    | none => rfl
    | some node => cases hpayload : node.payload <;> simp [hpayload]
  · rfl

theorem payload?_eq_of_views {a b : Tree} {id : NodeId} (hc : a.container? id = b.container? id)
    (hl : a.leaf? id = b.leaf? id) : a.payload? id = b.payload? id := by
  rw [container?, container?] at hc
  rw [leaf?, leaf?] at hl
  cases hp : a.payload? id with
  | none =>
    cases hq : b.payload? id with
    | none => rfl
    | some q => cases q <;> simp [hp, hq, Payload.container?, Payload.leaf?] at hc hl
  | some p =>
    cases hq : b.payload? id with
    | none => cases p <;> simp [hp, hq, Payload.container?, Payload.leaf?] at hc hl
    | some q => cases p <;> cases q <;> simp_all [Payload.container?, Payload.leaf?]

/-- Two trees have the same shape, and their nodes the same source ranges. -/
structure SameFrame (before after : Tree) : Prop extends SameShape before after where
  ownRange? : ∀ i, after.ownRange? i = before.ownRange? i

namespace SameFrame

theorem refl (tree : Tree) : SameFrame tree tree := ⟨.refl tree, fun _ => rfl⟩

theorem trans {first second third : Tree} (h₁ : SameFrame first second)
    (h₂ : SameFrame second third) : SameFrame first third :=
  ⟨h₁.toSameShape.trans h₂.toSameShape, fun i => (h₂.ownRange? i).trans (h₁.ownRange? i)⟩

variable {before after : Tree} (h : SameFrame before after)
include h

theorem range? (id : NodeId) : after.range? id = before.range? id := by
  rw [Tree.range?, Tree.range?, h.lineage]
  congr 1
  exact funext h.ownRange?

/-- Only the payload of a node may be different. -/
theorem exists_get? {id : NodeId} {node : Node} (hnode : before.get? id = some node) :
    ∃ payload, after.get? id = some { node with payload } := by
  have hlt : id < after.size := h.size ▸ before.lt_size_of_get? hnode
  obtain ⟨other, hother⟩ := after.exists_get? hlt
  have hparent := h.parent? id
  have hrange := h.ownRange? id
  rw [Tree.parent?, Tree.parent?, hother, hnode] at hparent
  rw [Tree.ownRange?, Tree.ownRange?, hother, hnode] at hrange
  obtain ⟨parent, range, payload⟩ := other
  cases hparent
  cases hrange
  exact ⟨payload, hother⟩

theorem exists_flags {id : NodeId} {c : Container} (hc : before.container? id = some c) :
    ∃ flags, after.container? id = some { c with flags } := by
  obtain ⟨d, hd, hcontent, htable, hname⟩ := h.symm.exists_container hc
  refine ⟨d.flags, hd.trans ?_⟩
  rw [← hcontent, ← htable, ← hname]

end SameFrame

/-- Names have been filled in at some nodes; apart from this only flags have been added. -/
structure FilledIn (before after : Tree) (nodes : List NodeId) : Prop where
  size : after.size = before.size
  at_leaves : ∀ id ∈ nodes, ∃ l, before.leaf? id = some l
  leaf : ∀ {id : NodeId} {parent : Option NodeId} {range : Option SourceRange} {l : Leaf},
    before.get? id = some ⟨parent, range, .leaf l⟩ →
    ∃ m, after.get? id = some ⟨parent, range, .leaf m⟩ ∧ (id ∈ nodes → l.SameKind m) ∧
      (id ∉ nodes → m = l)
  container : ∀ {id : NodeId} {parent : Option NodeId} {range : Option SourceRange}
    {c : Container}, before.get? id = some ⟨parent, range, .container c⟩ →
    ∃ flags, after.get? id = some ⟨parent, range, .container { c with flags }⟩ ∧
      flags.contains c.flags = true

end Tree

namespace Compiler

open Narrative.Tree (SameFrame FilledIn)

variable {world : World} {tree : Tree} {references others : List Reference}

namespace Reference

variable {reference : Reference}

/-! ## One reference -/

/-- What exchanging leaves and raising flags keep, a look-up keeps. -/
theorem resolve_induction {P : Tree → Prop} (hstart : P tree)
    (hleaf : ∀ {tree} leaf, P tree → P (reference.setLeaf tree leaf))
    (hmark : ∀ {tree} target flags, P tree → P (markCounted tree target flags)) :
    P (reference.resolve world tree).1 := by
  rw [resolve]
  cases reference.lookup.subject with
  | reading name countedBy =>
    simp only [resolveReading]
    split
    · exact hstart
    · split
      · exact hstart
      · exact hmark _ _ (hleaf _ hstart)
  | target name countedBy =>
    simp only [resolveTarget]
    split
    · exact hstart
    · split
      · exact hstart
      · cases countedBy with
        | none => exact hleaf _ hstart
        | some query => exact hmark _ _ (hleaf _ hstart)
  | jump name mode arguments =>
    simp only [resolveJump]
    split
    · exact hleaf _ hstart
    · split
      · exact hstart
      · exact hleaf _ hstart

theorem sameFrame_resolve {old : Leaf} (h : tree.leaf? reference.node = some old) :
    SameFrame tree (reference.resolve world tree).1 := by
  obtain ⟨leaf, hexchanged⟩ : ∃ leaf, tree.Exchanged (reference.resolve world tree).1
    reference.node leaf := exists_exchanged h
  refine ⟨hexchanged.shape, fun i => ?_⟩
  refine resolve_induction (P := fun other => other.ownRange? i = tree.ownRange? i) rfl ?_ ?_
  · intro other leaf hother
    rw [setLeaf, Tree.ownRange?_setPayload, hother]
  · intro other target flags hother
    rw [markCounted, Tree.ownRange?_modifyContainer, hother]

/-- Links and source ranges decide what is reported. -/
theorem reports_of_sameFrame {before after : Tree} (h : SameFrame before after) (world : World)
    (reference : Reference) : reference.reports world after = reference.reports world before := by
  have hrange : reference.range? after = reference.range? before := by
    have hown := h.ownRange? reference.node
    rw [Tree.ownRange?, Tree.ownRange?] at hown
    rw [range?, range?, hown, h.range?]
  rw [reports, reports, hrange, verdict, verdict, Subject.verdict_of_sameShape h.toSameShape]

end Reference

/-! ## All references -/

theorem sameFrame_resolveAll (world : World)
    (h : ∀ reference ∈ references, (tree.leaf? reference.node).isSome) :
    SameFrame tree (resolveAll world tree references).1 ∧
      (resolveAll world tree references).2 = references.flatMap (·.reports world tree) := by
  induction references generalizing tree with
  | nil => exact ⟨.refl tree, rfl⟩
  | cons reference rest ih =>
    obtain ⟨hfirst, hrest⟩ := List.forall_mem_cons.mp h
    obtain ⟨old, hold⟩ := Option.isSome_iff_exists.mp hfirst
    have hframe : SameFrame tree (reference.resolve world tree).1 :=
      Reference.sameFrame_resolve hold
    have hleaves : ∀ other ∈ rest,
        ((reference.resolve world tree).1.leaf? other.node).isSome := by
      intro other hother
      obtain ⟨leaf, hleaf⟩ := Option.isSome_iff_exists.mp (hrest other hother)
      obtain ⟨node, l, hnode, hpayload⟩ := hframe.symm.exists_leaf hleaf
      rw [Tree.leaf?, Tree.payload?, hnode, Option.map_some, hpayload]
      rfl
    obtain ⟨hothers, hreports⟩ := ih hleaves
    refine ⟨hframe.trans hothers, ?_⟩
    rw [resolveAll, List.flatMap_cons, ← Reference.resolve_reports]
    simp only [hreports, Reference.reports_of_sameFrame hframe]

/-- Nothing is lost when flags are raised by verdicts. -/
theorem contains_foldl_raise (world : World) (tree : Tree) (references : List Reference)
    (c : NodeId) (flags : CountFlags) :
    (references.foldl (fun flags reference => (reference.verdict world tree).raise c flags)
      flags).contains flags = true :=
  CountFlags.contains_iff.mpr fun _ hi => has_foldl_raise.mpr (Or.inl hi)

theorem foldl_raise_of_perm (hperm : references.Perm others) (world : World) (tree : Tree)
    (c : NodeId) (flags : CountFlags) :
    references.foldl (fun flags reference => (reference.verdict world tree).raise c flags) flags =
      others.foldl (fun flags reference => (reference.verdict world tree).raise c flags) flags :=
  CountFlags.ext_has fun i => by simp only [has_foldl_raise, hperm.mem_iff]

namespace Decided

variable {after : Tree}

theorem filledIn (h : Decided world tree after references) (hframe : SameFrame tree after)
    (hleaves : ∀ reference ∈ references,
      tree.leaf? reference.node = some reference.lookup.subject.placeholder) :
    FilledIn tree after (references.map Reference.node) where
  size := hframe.size
  at_leaves := by
    intro id hid
    obtain ⟨reference, hreference, rfl⟩ := List.mem_map.mp hid
    exact ⟨_, hleaves reference hreference⟩
  leaf := by
    intro id parent range l hnode
    have hold : tree.leaf? id = some l := by rw [Tree.leaf?, Tree.payload?, hnode]; rfl
    have hchanged : ∃ m, after.leaf? id = some m ∧
        (id ∈ references.map Reference.node → l.SameKind m) ∧
        (id ∉ references.map Reference.node → m = l) := by
      by_cases hid : id ∈ references.map Reference.node
      · obtain ⟨reference, hreference, rfl⟩ := List.mem_map.mp hid
        cases (hleaves reference hreference).symm.trans hold
        exact ⟨_, h.leaf? reference hreference,
          fun _ => Subject.sameKind_verdict _ world tree reference.scope,
          fun hnot => absurd hid hnot⟩
      · exact ⟨l, (h.others id hid).trans hold, fun hin => absurd hin hid, fun _ => rfl⟩
    obtain ⟨m, hm, hkind⟩ := hchanged
    obtain ⟨payload, hafter⟩ := hframe.exists_get? hnode
    rw [Tree.leaf?, Tree.payload?, hafter] at hm
    cases payload with
    | container c => cases hm
    | leaf m' =>
      cases hm
      exact ⟨m, hafter, hkind⟩
  container := by
    intro id parent range c hnode
    have hold := tree.container?_eq_some_iff.mpr ⟨_, hnode, rfl⟩
    obtain ⟨flags, hnew⟩ := hframe.exists_flags hold
    obtain ⟨payload, hafter⟩ := hframe.exists_get? hnode
    have hflags := h.flags? id
    rw [Tree.flags?, Tree.flags?, hnew, hold] at hflags
    cases hflags
    rw [Tree.container?, Tree.payload?, hafter] at hnew
    cases payload with
    | leaf l => cases hnew
    | container d =>
      cases hnew
      exact ⟨_, hafter, contains_foldl_raise world tree references id c.flags⟩

/-- The verdicts decide what the look-ups leave, in whatever order they are carried out. -/
theorem unique {other : Tree} (hperm : references.Perm others)
    (h₁ : Decided world tree after references) (h₂ : Decided world tree other others)
    (hframe₁ : SameFrame tree after) (hframe₂ : SameFrame tree other) : after = other := by
  have hleaf : ∀ id, after.leaf? id = other.leaf? id := by
    intro id
    by_cases hid : id ∈ references.map Reference.node
    · obtain ⟨reference, hreference, rfl⟩ := List.mem_map.mp hid
      rw [h₁.leaf? reference hreference, h₂.leaf? reference (hperm.mem_iff.mp hreference)]
    · rw [h₁.others id hid, h₂.others id fun hmem =>
        hid ((hperm.map Reference.node).mem_iff.mpr hmem)]
  have hcontainer : ∀ id, after.container? id = other.container? id := by
    intro id
    cases hc : tree.container? id with
    | none =>
      have hnone : ∀ {final : Tree}, SameFrame tree final → final.container? id = none := by
        intro final hframe
        have hsome := hframe.isSome_container? id
        rwa [hc, Option.isSome_none, Option.isSome_eq_false_iff, Option.isNone_iff_eq_none] at hsome
      rw [hnone hframe₁, hnone hframe₂]
    | some c =>
      obtain ⟨flags₁, hnew₁⟩ := hframe₁.exists_flags hc
      obtain ⟨flags₂, hnew₂⟩ := hframe₂.exists_flags hc
      have hflags₁ := h₁.flags? id
      have hflags₂ := h₂.flags? id
      rw [Tree.flags?, Tree.flags?, hnew₁, hc] at hflags₁
      rw [Tree.flags?, Tree.flags?, hnew₂, hc] at hflags₂
      cases hflags₁
      cases hflags₂
      rw [hnew₁, hnew₂, foldl_raise_of_perm hperm]
  refine Tree.ext_get? fun id => ?_
  cases hnode : tree.get? id with
  | none =>
    have hle := (tree.get?_eq_none_iff id).mp hnode
    rw [(after.get?_eq_none_iff id).mpr (hframe₁.size ▸ hle),
      (other.get?_eq_none_iff id).mpr (hframe₂.size ▸ hle)]
  | some node =>
    obtain ⟨payload, hafter⟩ := hframe₁.exists_get? hnode
    obtain ⟨payload', hother⟩ := hframe₂.exists_get? hnode
    have hpayload := Tree.payload?_eq_of_views (hcontainer id) (hleaf id)
    rw [Tree.payload?, Tree.payload?, hafter, hother] at hpayload
    cases hpayload
    rw [hafter, hother]

end Decided

/-- References at different leaves that stand in for their names may be looked up in any order. -/
theorem lookUpAll_of_perm (world : World) (hdistinct : (references.map Reference.node).Nodup)
    (hleaves : ∀ reference ∈ references,
      tree.leaf? reference.node = some reference.lookup.subject.placeholder)
    (hperm : references.Perm others) :
    ∃ final, (lookUpAll world tree references).result = .ok final ∧
      (lookUpAll world tree others).result = .ok final ∧
      (lookUpAll world tree references).diagnostics.Perm
        (lookUpAll world tree others).diagnostics ∧
      FilledIn tree final (references.map Reference.node) := by
  have hleaves' : ∀ reference ∈ others,
      tree.leaf? reference.node = some reference.lookup.subject.placeholder :=
    fun reference hreference => hleaves reference (hperm.mem_iff.mpr hreference)
  have hsome : ∀ {list : List Reference}, (∀ reference ∈ list,
      tree.leaf? reference.node = some reference.lookup.subject.placeholder) →
      ∀ reference ∈ list, (tree.leaf? reference.node).isSome :=
    fun hall reference hreference => by rw [hall reference hreference]; rfl
  obtain ⟨hframe, hreports⟩ := sameFrame_resolveAll world (hsome hleaves)
  obtain ⟨hframe', hreports'⟩ := sameFrame_resolveAll world (hsome hleaves')
  have hdecided : Decided world tree (resolveAll world tree references).1 references :=
    (decided_resolveAll hdistinct hleaves).1
  have hdecided' : Decided world tree (resolveAll world tree others).1 others :=
    (decided_resolveAll ((hperm.map Reference.node).nodup_iff.mp hdistinct) hleaves').1
  rw [lookUpAll_eq (hsome hleaves), lookUpAll_eq (hsome hleaves')]
  refine ⟨_, rfl, ?_, ?_, hdecided.filledIn hframe hleaves⟩
  · rw [hdecided.unique hperm hdecided' hframe hframe']
  · change (resolveAll world tree references).2.Perm (resolveAll world tree others).2
    rw [hreports, hreports']
    exact hperm.flatMap_right _

end Compiler

open Compiler

/-- What the names of a placed story are looked up against. -/
def Compiler.Placed.world (placed : Placed) (plan : Plan) : World :=
  ⟨placed.root, plan.globalNames, placed.site.parameters⟩

namespace Story

variable {options : CompilerOptions} {story : Story} {placed : Placed} {tree : Tree}

/-- Placing a story records references at different leaves, which stand in for their names. -/
theorem references_of_placed
    (h : ((story.plan options).place options.flowFlags).run .empty = .ok placed tree) :
    (placed.site.references.map Reference.node).Nodup ∧
      ∀ reference ∈ placed.site.references,
        tree.leaf? reference.node = some reference.lookup.subject.placeholder := by
  have hsound := Plan.sound_ofStory options.file story
  have hfree : (story.plan options).Free := Plan.free_of_place hsound h
  cases h.symm.trans (Plan.place_eq_ok hsound hfree options.flowFlags).1
  exact ⟨(story.plan options).nodup_entries.sublist (sublist_references _),
    fun _ => story.placeholder_of_reference options⟩

/-- When a story has been placed, its references may be looked up in any order: the tree in the end
is that of its document, and the reports are the same, in another order. Names have been filled in
where references stand, and apart from this only flags have been added. -/
theorem references_in_any_order {references : List Reference}
    (hplaced : ((story.plan options).place options.flowFlags).run .empty = .ok placed tree)
    (hperm : placed.site.references.Perm references) :
    ∃ final,
      (lookUpAll (placed.world (story.plan options)) tree placed.site.references).result =
          .ok final ∧
        (lookUpAll (placed.world (story.plan options)) tree references).result = .ok final ∧
        (lookUpAll (placed.world (story.plan options)) tree
          placed.site.references).diagnostics.Perm
            (lookUpAll (placed.world (story.plan options)) tree references).diagnostics ∧
        tree.FilledIn final (placed.site.references.map Reference.node) ∧
        (story.generate options).result = .ok { tree := final, root := placed.root } := by
  obtain ⟨hdistinct, hleaves⟩ := references_of_placed hplaced
  obtain ⟨final, hfinal, hother, hreports, hfilled⟩ :=
    lookUpAll_of_perm (placed.world (story.plan options)) hdistinct hleaves hperm
  refine ⟨final, hfinal, hother, hreports, hfilled, ?_⟩
  have hrun : ((Plan.ofStory options.file story).place
      (if options.countAllVisits then CountFlags.visits else CountFlags.empty)).run .empty =
      .ok placed tree := hplaced
  have hresult : (lookUpAll ⟨placed.root, (Plan.ofStory options.file story).globalNames,
      placed.site.parameters⟩ tree placed.site.references).result = .ok final := hfinal
  rw [generate, hrun]
  simp only [hresult]

/-- A knot that counts its own stitch and leads to two places that are not there. -/
def harbourStory : Story where
  root := [⟨.divert "harbour.pier", none⟩]
  flows := [
    .mk "harbour" .knot [] [⟨.divert "island", none⟩]
      [.mk "pier" .stitch []
        [⟨.output (.call "READ_COUNT" [.target "pier"] none), none⟩, ⟨.output (.name "tide"), none⟩]
          [] none] none]

theorem references_in_any_order_harbour :
    ∃ placed tree final,
      ((harbourStory.plan {}).place (CompilerOptions.flowFlags {})).run .empty = .ok placed tree ∧
        placed.site.references.map Reference.node = [3, 5, 8, 13] ∧
        (lookUpAll (placed.world (harbourStory.plan {})) tree
          placed.site.references.reverse).result = .ok final ∧
        tree.FilledIn final [3, 5, 8, 13] ∧
        (harbourStory.generate {}).result = .ok { tree := final, root := placed.root } := by
  have hfree : (harbourStory.plan {}).Free := fun h => by cases h
  have hplaced := (Plan.place_eq_ok (Plan.sound_ofStory _ harbourStory) hfree
    (CompilerOptions.flowFlags {})).1
  have hnodes : (harbourStory.plan {}).references.map Reference.node = [3, 5, 8, 13] := by
    decide +kernel
  obtain ⟨final, -, hother, -, hfilled, hdocument⟩ :=
    references_in_any_order hplaced (List.reverse_perm _).symm
  exact ⟨_, _, final, hplaced, hnodes, hother, hnodes ▸ hfilled, hdocument⟩

end Story

end Narrative
