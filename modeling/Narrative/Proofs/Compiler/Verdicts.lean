import Narrative.Proofs.Compiler.Composition
import Narrative.Proofs.Compiler.Resolving
import Narrative.Proofs.Tree.SameShape

/-!
# What looking names up comes to

A verdict says what looking up one name comes to, with or without an error: the leaf
that the reference ends with, what is noted on a container, and what there is to
complain about. Verdicts depend on where addresses lead only, and no look-up changes
that, so the order of look-ups does not matter: each reference ends with the leaf of its
verdict in the tree as it was before all of them. Where there is nothing to complain
about, that is the leaf that the name calls for.
-/

namespace Narrative

/-- What is counted about the container at a place; a leaf has no flags. -/
def Tree.flags? (tree : Tree) (id : NodeId) : Option CountFlags :=
  (tree.container? id).map Container.flags

/-- Two leaves are jumps, addresses as values, or readings of variables, both of them. -/
inductive Leaf.SameKind : Leaf → Leaf → Prop where
  | divert (a b : Divert) : SameKind (.divert a) (.divert b)
  | target (p q : Path) : SameKind (.value (.divertTarget p)) (.value (.divertTarget q))
  | reference (r s : VariableReference) : SameKind (.reference r) (.reference s)

/-! ## Flags as sets -/

namespace CountFlags

/-- One of the things that can be counted is counted. -/
def Has (flags : CountFlags) (i : Nat) : Prop := flags.bits.toBitVec.getLsbD i = true

theorem has_union {a b : CountFlags} {i : Nat} : (a.union b).Has i ↔ a.Has i ∨ b.Has i := by
  rw [Has, union, UInt32.toBitVec_or, BitVec.getLsbD_or, Bool.or_eq_true]
  rfl

theorem ext_has {a b : CountFlags} (h : ∀ i, a.Has i ↔ b.Has i) : a = b := by
  obtain ⟨⟨a⟩⟩ := a
  obtain ⟨⟨b⟩⟩ := b
  have hbits : a = b := BitVec.eq_of_getLsbD_eq fun i _ => Bool.eq_iff_iff.mpr (h i)
  rw [hbits]

theorem not_has_empty (i : Nat) : ¬ empty.Has i := by
  change ¬ Nat.testBit 0 i = true
  rw [Nat.zero_testBit]
  exact Bool.false_ne_true

theorem has_visits {i : Nat} : visits.Has i ↔ i = 0 := by
  change Nat.testBit (2 ^ 0) i = true ↔ _
  rw [Nat.testBit_two_pow, decide_eq_true_iff, eq_comm]

theorem has_turns {i : Nat} : turns.Has i ↔ i = 1 := by
  change Nat.testBit (2 ^ 1) i = true ↔ _
  rw [Nat.testBit_two_pow, decide_eq_true_iff, eq_comm]

theorem has_remove {a b : CountFlags} {i : Nat} : (a.remove b).Has i ↔ a.Has i ∧ ¬ b.Has i := by
  have hsmall : a.Has i → i < 32 := BitVec.lt_of_getLsbD
  rw [remove, Has, UInt32.toBitVec_and, UInt32.toBitVec_not, BitVec.getLsbD_and, BitVec.getLsbD_not,
    Bool.and_eq_true, Bool.and_eq_true, Bool.not_eq_true', decide_eq_true_iff, ← Bool.not_eq_true]
  exact ⟨fun h => ⟨h.1, h.2.2⟩, fun h => ⟨h.1, hsmall h.1, h.2⟩⟩

theorem contains_iff {a b : CountFlags} : a.contains b = true ↔ ∀ i, b.Has i → a.Has i := by
  have hboth : ∀ i, (CountFlags.mk (a.bits &&& b.bits)).Has i ↔ a.Has i ∧ b.Has i := by
    intro i
    rw [Has, UInt32.toBitVec_and, BitVec.getLsbD_and, Bool.and_eq_true]
    rfl
  rw [contains, beq_iff_eq]
  constructor
  · intro hbits i hi
    have hsame : CountFlags.mk (a.bits &&& b.bits) = b := congrArg mk hbits
    rw [← hsame] at hi
    exact ((hboth i).mp hi).1
  · intro hall
    have hsame : CountFlags.mk (a.bits &&& b.bits) = b :=
      ext_has fun i => (hboth i).trans (and_iff_right_of_imp (hall i))
    exact congrArg bits hsame

theorem contains_visits {flags : CountFlags} : flags.contains visits = true ↔ flags.Has 0 := by
  rw [contains_iff]
  simp only [has_visits, forall_eq]

theorem contains_turns {flags : CountFlags} : flags.contains turns = true ↔ flags.Has 1 := by
  rw [contains_iff]
  simp only [has_turns, forall_eq]

theorem isEmpty_iff {flags : CountFlags} : flags.isEmpty = true ↔ ∀ i, ¬ flags.Has i := by
  rw [isEmpty, beq_iff_eq]
  constructor
  · intro hbits i
    have hsame : flags = empty := congrArg mk hbits
    rw [hsame]
    exact not_has_empty i
  · intro hnone
    have hsame : flags = empty := ext_has fun i => iff_of_false (hnone i) (not_has_empty i)
    exact congrArg bits hsame

end CountFlags

namespace Compiler

/-- What looking up a name comes to. -/
structure Verdict where
  leaf : Leaf
  /-- A container, and what is to be counted about it. -/
  mark : Option (NodeId × CountFlags) := none
  complaint : Option Complaint := none

/-- The flags of a container after a verdict. -/
def Verdict.raise (verdict : Verdict) (c : NodeId) (flags : CountFlags) : CountFlags :=
  match verdict.mark with
  | some (target, more) => if target = c then flags.union more else flags
  | none => flags

theorem findFlow?_of_sameShape {before after : Tree} (h : before.SameShape after) (world : World)
    (scope : Scope) (target : String) :
    world.findFlow? after scope target = world.findFlow? before scope target := by
  have hcontainer : ∀ path start,
      World.containerAt? after path start = World.containerAt? before path start := by
    intro path start
    rw [World.containerAt?, World.containerAt?, h.contentAt?]
    congr 1
    funext found
    exact h.isSome_container? found
  rw [World.findFlow?, World.findFlow?]
  simp only [funext (hcontainer (Path.parse target))]

namespace Subject

/-- What looking up a name comes to in a scope. -/
def verdict (world : World) (tree : Tree) (scope : Scope) : Subject → Verdict
  | .reading name countedBy =>
    if world.isVariable scope name then { leaf := .reference (.named name) }
    else match world.findFlow? tree scope name with
      | none => { leaf := .reference (.named name), complaint := some (.variableUnknown name) }
      | some found =>
        { leaf := .reference (.readCount (tree.path found))
          mark := some (found, .visits)
          complaint := countedBy.map fun query => .countedWithoutArrow query.functionName name }
  | .target name countedBy =>
    if world.isVariable scope name then
      { leaf := .value (.divertTarget (.parse name))
        complaint := some (match countedBy with
          | some query => .countedVariableWithArrow query.functionName name
          | none => .variableWithArrow name) }
    else match world.findFlow? tree scope name with
      | none =>
        { leaf := .value (.divertTarget (.parse name))
          complaint := some (match countedBy with
            | some query => .countedTargetUnknown query.functionName name
            | none => .targetUnknown name) }
      | some found =>
        { leaf := .value (.divertTarget (tree.path found))
          mark := countedBy.map fun query => (found, query.requiredFlags) }
  | .jump name mode arguments =>
    if mode = .plain ∧ world.isVariable scope name then { leaf := .divert (.toVariable name) }
    else match world.findFlow? tree scope name with
      | none =>
        { leaf := .divert (mode.divert (.parse name))
          complaint := some (if mode = .function then .functionUnknown name
            else .targetUnknown name) }
      | some found =>
        { leaf := .divert (mode.divert (tree.path found))
          complaint :=
            if mode = .plain then none
            else ((world.parametersOf? found).filter (· ≠ arguments)).map (.flowArity name) }

theorem verdict_of_sameShape {before after : Tree} (h : before.SameShape after) (world : World)
    (scope : Scope) (subject : Subject) :
    subject.verdict world after scope = subject.verdict world before scope := by
  cases subject with
  | reading name countedBy =>
    simp only [verdict, findFlow?_of_sameShape h, h.path]
  | target name countedBy =>
    simp only [verdict, findFlow?_of_sameShape h, h.path]
  | jump name mode arguments =>
    simp only [verdict, findFlow?_of_sameShape h, h.path]

/-- The leaf of a verdict is of the kind of the one that stood in for the name. -/
theorem sameKind_verdict (subject : Subject) (world : World) (tree : Tree) (scope : Scope) :
    subject.placeholder.SameKind (subject.verdict world tree scope).leaf := by
  cases subject with
  | reading name countedBy =>
    simp only [verdict]
    split
    · exact .reference _ _
    · split <;> exact .reference _ _
  | target name countedBy =>
    simp only [verdict]
    split
    · exact .target _ _
    · split <;> exact .target _ _
  | jump name mode arguments =>
    simp only [verdict]
    split
    · exact .divert _ _
    · split <;> exact .divert _ _

end Subject

/-- The leaf that a name calls for in a scope. -/
inductive Answered (world : World) (tree : Tree) (scope : Scope) : Subject → Leaf → Prop where
  | ofVariable {name : String} {countedBy : Option CountQuery} :
      world.isVariable scope name = true →
      Answered world tree scope (.reading name countedBy) (.reference (.named name))
  | readCount {name : String} {countedBy : Option CountQuery} {found : NodeId} :
      world.isVariable scope name = false → world.findFlow? tree scope name = some found →
      Answered world tree scope (.reading name countedBy)
        (.reference (.readCount (tree.path found)))
  | target {name : String} {countedBy : Option CountQuery} {found : NodeId} :
      world.isVariable scope name = false → world.findFlow? tree scope name = some found →
      Answered world tree scope (.target name countedBy)
        (.value (.divertTarget (tree.path found)))
  | toVariable {name : String} {arguments : Nat} : world.isVariable scope name = true →
      Answered world tree scope (.jump name .plain arguments) (.divert (.toVariable name))
  | jump {name : String} {mode : JumpMode} {arguments : Nat} {found : NodeId} :
      ¬ (mode = .plain ∧ world.isVariable scope name = true) →
      world.findFlow? tree scope name = some found →
      Answered world tree scope (.jump name mode arguments)
        (.divert (mode.divert (tree.path found)))

/-- A verdict that nothing is complained about gives the leaf that the name calls for. -/
theorem answered_verdict {world : World} {tree : Tree} {scope : Scope} {subject : Subject}
    (h : (subject.verdict world tree scope).complaint = none) :
    Answered world tree scope subject (subject.verdict world tree scope).leaf := by
  cases subject with
  | reading name countedBy =>
    cases hname : world.isVariable scope name with
    | true =>
      rw [Subject.verdict, if_pos hname]
      exact .ofVariable hname
    | false =>
      cases hfound : world.findFlow? tree scope name with
      | none => simp [Subject.verdict, hname, hfound] at h
      | some found =>
        simp only [Subject.verdict, hname, hfound, Bool.false_eq_true, if_false]
        exact .readCount hname hfound
  | target name countedBy =>
    cases hname : world.isVariable scope name with
    | true => simp [Subject.verdict, hname] at h
    | false =>
      cases hfound : world.findFlow? tree scope name with
      | none => simp [Subject.verdict, hname, hfound] at h
      | some found =>
        simp only [Subject.verdict, hname, hfound, Bool.false_eq_true, if_false]
        exact .target hname hfound
  | jump name mode arguments =>
    by_cases hname : mode = .plain ∧ world.isVariable scope name = true
    · obtain ⟨rfl, hvariable⟩ := hname
      rw [Subject.verdict, if_pos ⟨rfl, hvariable⟩]
      exact .toVariable hvariable
    · cases hfound : world.findFlow? tree scope name with
      | none => simp [Subject.verdict, hname, hfound] at h
      | some found =>
        simp only [Subject.verdict, if_neg hname, hfound]
        exact .jump hname hfound

namespace Reference

/-- What looking up a reference comes to. -/
def verdict (world : World) (tree : Tree) (reference : Reference) : Verdict :=
  reference.lookup.subject.verdict world tree reference.scope

/-- What a look-up reports, by its verdict. -/
def reports (world : World) (tree : Tree) (reference : Reference) : List Diagnostic :=
  ((reference.verdict world tree).complaint.map (·.toDiagnostic (reference.range? tree))).toList

theorem arityComplaints_eq {world : World} {tree : Tree} {reference : Reference} {name : String}
    {found : NodeId} {arguments : Nat} :
    reference.arityComplaints world tree name found arguments =
      ((((world.parametersOf? found).filter (· ≠ arguments)).map (Complaint.flowArity name)).map
        (·.toDiagnostic (reference.range? tree))).toList := by
  rw [arityComplaints]
  cases world.parametersOf? found with
  | none => rfl
  | some expected => by_cases hsame : expected = arguments <;> simp [hsame, complain, Option.filter]

theorem resolve_reports (world : World) (tree : Tree) (reference : Reference) :
    (reference.resolve world tree).2 = reference.reports world tree := by
  rw [resolve, reports, verdict]
  cases reference.lookup.subject with
  | reading name countedBy =>
    simp only [resolveReading, Subject.verdict]
    split
    · rfl
    · cases world.findFlow? tree reference.scope name with
      | none => rfl
      | some found => cases countedBy <;> rfl
  | target name countedBy =>
    simp only [resolveTarget, Subject.verdict]
    split
    · cases countedBy <;> rfl
    · cases world.findFlow? tree reference.scope name with
      | none => cases countedBy <;> rfl
      | some found => rfl
  | jump name mode arguments =>
    simp only [resolveJump, Subject.verdict]
    split
    · rfl
    · cases world.findFlow? tree reference.scope name with
      | none => rfl
      | some found =>
        by_cases hplain : mode = .plain
        · simp [hplain]
        · simp only [if_neg hplain, arityComplaints_eq]

/-- A look-up reports errors only. -/
theorem clean_reports {world : World} {tree : Tree} {reference : Reference} :
    Clean (reference.reports world tree) ↔ (reference.verdict world tree).complaint = none := by
  rw [reports]
  cases (reference.verdict world tree).complaint with
  | none => exact iff_of_true clean_nil rfl
  | some complaint => exact iff_of_false (complaint.not_clean _ []) (Option.some_ne_none _)

end Reference

/-! ## One reference -/

/-- A leaf has been exchanged as a verdict says, and something is noted on a container. -/
structure Carried (before after : Tree) (id : NodeId) (verdict : Verdict) : Prop where
  exchanged : before.Exchanged after id verdict.leaf
  flags? : ∀ c, after.flags? c = (before.flags? c).map (verdict.raise c)

section One

variable {world : World} {tree : Tree} {reference : Reference} {old : Leaf} {name : String}

theorem flags?_setPayload {id : NodeId} (h : tree.leaf? id = some old) (leaf : Leaf) (c : NodeId) :
    (tree.setPayload id (.leaf leaf)).flags? c = tree.flags? c := by
  rw [Tree.flags?, Tree.flags?, tree.container?_setPayload (tree.container?_of_leaf? h) rfl]

theorem flags?_insertFlags (tree : Tree) (target c : NodeId) (more : CountFlags) :
    (tree.modifyContainer target (·.insertFlags more)).flags? c =
      (tree.flags? c).map fun flags => if target = c then flags.union more else flags := by
  rw [Tree.flags?, Tree.flags?, tree.container?_modifyContainer]
  split
  · cases tree.container? c <;> rfl
  · cases tree.container? c <;> rfl

theorem carried_self (h : tree.leaf? reference.node = some old) (complaint : Option Complaint) :
    Carried tree tree reference.node { leaf := old, complaint } where
  exchanged := tree.exchanged_self h
  flags? := fun c => by cases hflags : tree.flags? c <;> rfl

theorem carried_setLeaf (h : tree.leaf? reference.node = some old) (leaf : Leaf)
    (complaint : Option Complaint) :
    Carried tree (reference.setLeaf tree leaf) reference.node { leaf, complaint } where
  exchanged := tree.exchanged_setPayload h leaf
  flags? := fun c => by
    rw [Reference.setLeaf, flags?_setPayload h]
    cases hflags : tree.flags? c <;> rfl

theorem carried_markCounted (h : tree.leaf? reference.node = some old) (leaf : Leaf)
    (target : NodeId) (more : CountFlags) (complaint : Option Complaint) :
    Carried tree (Reference.markCounted (reference.setLeaf tree leaf) target more) reference.node
      { leaf, mark := some (target, more), complaint } where
  exchanged := (tree.exchanged_setPayload h leaf).insertFlags target more
  flags? := fun c => by
    rw [Reference.markCounted, flags?_insertFlags, Reference.setLeaf, flags?_setPayload h]
    rfl

theorem carried_resolveReading {countedBy : Option CountQuery}
    (h : tree.leaf? reference.node = some (.reference (.named name))) :
    Carried tree (reference.resolveReading world tree name countedBy).1 reference.node
      (Subject.verdict world tree reference.scope (.reading name countedBy)) := by
  simp only [Reference.resolveReading, Subject.verdict]
  split
  · exact carried_self h none
  · cases world.findFlow? tree reference.scope name with
    | none => exact carried_self h _
    | some found => exact carried_markCounted h _ _ _ _

theorem carried_resolveTarget {countedBy : Option CountQuery}
    (h : tree.leaf? reference.node = some (.value (.divertTarget (.parse name)))) :
    Carried tree (reference.resolveTarget world tree name countedBy).1 reference.node
      (Subject.verdict world tree reference.scope (.target name countedBy)) := by
  simp only [Reference.resolveTarget, Subject.verdict]
  split
  · exact carried_self h _
  · cases world.findFlow? tree reference.scope name with
    | none => exact carried_self h _
    | some found =>
      cases countedBy with
      | none => exact carried_setLeaf h _ _
      | some query => exact carried_markCounted h _ _ _ _

theorem carried_resolveJump {mode : JumpMode} {arguments : Nat}
    (h : tree.leaf? reference.node = some (.divert (mode.divert (.parse name)))) :
    Carried tree (reference.resolveJump world tree name mode arguments).1 reference.node
      (Subject.verdict world tree reference.scope (.jump name mode arguments)) := by
  simp only [Reference.resolveJump, Subject.verdict]
  split
  · exact carried_setLeaf h _ none
  · cases world.findFlow? tree reference.scope name with
    | none => exact carried_self h _
    | some found => exact carried_setLeaf h _ _

/-- Looking up a reference does what its verdict says. -/
theorem carried_resolve
    (h : tree.leaf? reference.node = some reference.lookup.subject.placeholder) :
    Carried tree (reference.resolve world tree).1 reference.node
      (reference.verdict world tree) := by
  rw [Reference.resolve, Reference.verdict]
  cases hsubject : reference.lookup.subject with
  | reading name countedBy =>
    rw [hsubject] at h
    exact carried_resolveReading h
  | target name countedBy =>
    rw [hsubject] at h
    exact carried_resolveTarget h
  | jump name mode arguments =>
    rw [hsubject] at h
    exact carried_resolveJump h

end One

/-! ## All references -/

/-- Looking up references one after the other does what all their verdicts say. -/
structure Decided (world : World) (before after : Tree) (references : List Reference) : Prop where
  shape : before.SameShape after
  leaf? : ∀ reference ∈ references,
    after.leaf? reference.node = some (reference.verdict world before).leaf
  others : ∀ i, i ∉ references.map Reference.node → after.leaf? i = before.leaf? i
  flags? : ∀ c, after.flags? c = (before.flags? c).map fun flags =>
    references.foldl (fun flags reference => (reference.verdict world before).raise c flags) flags

/-- After all verdicts a container counts what it did before and what some verdict asks for. -/
theorem has_foldl_raise {world : World} {tree : Tree} {references : List Reference} {c : NodeId}
    {flags : CountFlags} {i : Nat} :
    (references.foldl (fun flags reference => (reference.verdict world tree).raise c flags)
        flags).Has i ↔
      flags.Has i ∨ ∃ reference ∈ references, ∃ more,
        (reference.verdict world tree).mark = some (c, more) ∧ more.Has i := by
  induction references generalizing flags with
  | nil => simp
  | cons reference rest ih =>
    have hraise : ((reference.verdict world tree).raise c flags).Has i ↔
        flags.Has i ∨ ∃ more, (reference.verdict world tree).mark = some (c, more) ∧
          more.Has i := by
      rw [Verdict.raise]
      cases (reference.verdict world tree).mark with
      | none => simp
      | some pair =>
        obtain ⟨target, more⟩ := pair
        by_cases htarget : target = c
        · simp [htarget, CountFlags.has_union]
        · simp [htarget]
    rw [List.foldl_cons, ih, hraise, List.exists_mem_cons_iff, or_assoc]

theorem decided_resolveAll {world : World} {tree : Tree} {references : List Reference}
    (hdistinct : (references.map Reference.node).Nodup)
    (hleaves : ∀ reference ∈ references,
      tree.leaf? reference.node = some reference.lookup.subject.placeholder) :
    Decided world tree (resolveAll world tree references).1 references ∧
      (Clean (resolveAll world tree references).2 ↔
        ∀ reference ∈ references, (reference.verdict world tree).complaint = none) := by
  induction references generalizing tree with
  | nil =>
    refine ⟨⟨.refl tree, fun _ h => (nomatch h), fun _ _ => rfl, fun c => ?_⟩, ?_⟩
    · simp only [List.foldl_nil, Option.map_id_fun', id]
      rfl
    · exact iff_of_true clean_nil fun _ h => (nomatch h)
  | cons reference rest ih =>
    rw [resolveAll]
    obtain ⟨hnew, hdistinct⟩ := List.nodup_cons.mp hdistinct
    have hhead : Carried tree (reference.resolve world tree).1 reference.node
        (reference.verdict world tree) := carried_resolve (hleaves reference List.mem_cons_self)
    obtain ⟨hexchanged, hflags⟩ := hhead
    have hne : ∀ other ∈ rest, other.node ≠ reference.node := fun other hother heq =>
      hnew (heq ▸ List.mem_map_of_mem hother)
    obtain ⟨hrest, hothers⟩ := ih hdistinct fun other hother => by
      rw [hexchanged.others _ (hne other hother)]
      exact hleaves other (List.mem_cons_of_mem _ hother)
    -- The verdicts on the others are those in the tree before.
    have hsame : ∀ other : Reference,
        other.verdict world (reference.resolve world tree).1 = other.verdict world tree :=
      fun other => Subject.verdict_of_sameShape hexchanged.shape world other.scope _
    refine ⟨⟨hexchanged.shape.trans hrest.shape, ?_, ?_, ?_⟩, ?_⟩
    · intro other hother
      rcases List.mem_cons.mp hother with rfl | hother
      · exact (hrest.others _ hnew).trans hexchanged.new
      · rw [hrest.leaf? other hother, hsame]
    · intro i hi
      rw [List.map_cons, List.mem_cons, not_or] at hi
      exact (hrest.others i hi.2).trans (hexchanged.others i hi.1)
    · intro c
      rw [hrest.flags?, hflags, Option.map_map]
      simp only [hsame]
      rfl
    · rw [clean_append, Reference.resolve_reports, Reference.clean_reports, hothers,
        List.forall_mem_cons]
      simp only [hsame]

end Compiler

end Narrative
