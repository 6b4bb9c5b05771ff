import Narrative.Proofs.Compiler.Documents
import Narrative.Proofs.Wire.Reloading

/-!
# Plain stories

In a plain story no name looks like a piece of an address or like a key of a stored
container, and no string has a character in it that writing leaves out. Every address
in the document of such a story consists of the names of flows and of small positions,
so it is read back from its text, and every node of the document lasts.
-/

namespace Narrative

open Compiler Json

/-! ## What plain stories are written with -/

/-- A name that an address may consist of and that a container may be listed under. -/
structure PlainTitle (name : String) : Prop where
  ne_empty : name ≠ ""
  no_dot : '.' ∉ name.toList
  ne_parent : name ≠ "^"
  ne_flagsKey : name ≠ Wire.flagsKey
  ne_nameKey : name ≠ Wire.nameKey
  ne_number : ∀ n < Component.indexBound, name ≠ n.repr

theorem Component.name_ne_parent (name : String) : Component.name name ≠ .parent := nofun

theorem PlainTitle.plain_name {name : String} (h : PlainTitle name) :
    (Component.name name).Plain where
  toReadable := Component.readable_name_iff.mpr ⟨h.no_dot, h.ne_parent, h.ne_number⟩
  text_ne := h.ne_empty

theorem plainTitle_of_mem {name : String} {c : Char} (hc : c ∈ name.toList)
    (hdigit : c.isDigit = false) (hdot : '.' ∉ name.toList)
    (hne : name ≠ "^" ∧ name ≠ Wire.flagsKey ∧ name ≠ Wire.nameKey) : PlainTitle name where
  ne_empty := by
    rintro rfl
    cases hc
  no_dot := hdot
  ne_parent := hne.1
  ne_flagsKey := hne.2.1
  ne_nameKey := hne.2.2
  ne_number := fun n _ => ne_repr_of_mem hc hdigit n

theorem plainTitle_globalsName : PlainTitle globalsName :=
  plainTitle_of_mem (c := 'g') (by decide) (by decide) (by decide) (by decide)

/-- Texts that writing keeps, names that addresses may consist of, no float, and calls of the host
whose arguments are counted below half the range of the word that counts them. -/
def Story.plainWording (story : Story) : Wording where
  text := Printable
  float _ := False
  call name arguments := (∃ external ∈ story.externals, external.name = name) →
    (UInt32.ofNat arguments).toNat < 2 ^ 31
  title := PlainTitle

/-- A story that has only plain texts and names in it. -/
def Story.Plain (story : Story) : Prop := story.Keeps story.plainWording

/-! ## Containers of a plan -/

namespace Compiler

mutual

theorem FlowPlan.flags_of_mem_nodes : ∀ {flow : FlowPlan} {flags : CountFlags}
    {parent place : NodeId} {node : Node} {container : Container},
    node ∈ flow.nodes flags parent place → node.payload = .container container →
    container.flags = flags
  | .mk _ _ _ _ steps stitches, flags, parent, place, node, container, hnode, hpayload => by
    rw [nodes] at hnode
    rcases List.mem_cons.mp hnode with rfl | hnode
    · cases hpayload
      rfl
    · rcases List.mem_append.mp hnode with hnode | hnode
      · obtain ⟨step, -, rfl⟩ := List.mem_map.mp hnode
        cases hpayload
      · exact flags_of_mem_nodesEach hnode hpayload

theorem FlowPlan.flags_of_mem_nodesEach : ∀ {flows : List FlowPlan} {flags : CountFlags}
    {parent place : NodeId} {node : Node} {container : Container},
    node ∈ nodesEach flags parent place flows → node.payload = .container container →
    container.flags = flags
  | [], _, _, _, _, _, hnode, _ => nomatch hnode
  | flow :: rest, flags, parent, place, node, container, hnode, hpayload => by
    rw [nodesEach] at hnode
    rcases List.mem_append.mp hnode with hnode | hnode
    · exact flow.flags_of_mem_nodes hnode hpayload
    · exact flags_of_mem_nodesEach hnode hpayload

end

variable {plan : Plan} {flags : CountFlags}

theorem Plan.flags_of_container {i : NodeId} {container : Container}
    (hc : (plan.tree flags).container? i = some container) :
    container.flags = {} ∨ container.flags = flags := by
  obtain ⟨node, hnode, hpayload⟩ := ((plan.tree flags).container?_eq_some_iff).mp hc
  have hget := Tree.empty.get?_extend_new (plan.nodes flags) i
  have hzero : Tree.empty.size = 0 := rfl
  rw [hzero, Nat.zero_add] at hget
  have hmem : node ∈ plan.nodes flags := List.mem_of_getElem? (hget.symm.trans hnode)
  rw [nodes, frame] at hmem
  rcases List.mem_append.mp hmem with hmem | hmem
  · rcases List.mem_append.mp hmem with hmem | hmem
    · rcases List.mem_append.mp hmem with hmem | hmem
      · simp only [List.mem_cons, List.not_mem_nil, or_false] at hmem
        rcases hmem with rfl | rfl | rfl <;> cases hpayload
        · exact Or.inl rfl
        · exact Or.inl rfl
      · obtain ⟨step, -, rfl⟩ := List.mem_map.mp hmem
        cases hpayload
    · exact Or.inr (FlowPlan.flags_of_mem_nodesEach hmem hpayload)
  · rw [globalNodes] at hmem
    cases hglobals : plan.globals with
    | none =>
      rw [hglobals] at hmem
      cases hmem
    | some fragment =>
      rw [hglobals] at hmem
      rcases List.mem_cons.mp hmem with rfl | hmem
      · cases hpayload
        exact Or.inl rfl
      · obtain ⟨step, -, rfl⟩ := List.mem_map.mp hmem
        cases hpayload

end Compiler

/-! ## Count flags -/

theorem CountFlags.bits_lt_iff {flags : CountFlags} {n : Nat} :
    flags.bits.toNat < 2 ^ n ↔ ∀ i, flags.Has i → i < n := by
  constructor
  · intro hlt i hhas
    by_contra hge
    have hsmall := Nat.lt_of_lt_of_le hlt (Nat.pow_le_pow_right (by decide) (Nat.not_lt.mp hge))
    exact Bool.false_ne_true ((Nat.testBit_lt_two_pow hsmall).symm.trans hhas)
  · intro h
    refine Nat.lt_pow_two_of_testBit _ fun i hi => Bool.not_eq_true _ ▸ fun hhas => ?_
    exact Nat.not_lt.mpr hi (h i hhas)

namespace Compiler

theorem flags_of_mark {subject : Subject} {world : World} {tree : Tree} {scope : Scope}
    {target : NodeId} {more : CountFlags}
    (h : (subject.verdict world tree scope).mark = some (target, more)) :
    more = .visits ∨ ∃ query : CountQuery, more = query.requiredFlags := by
  cases subject with
  | reading name countedBy =>
    rw [Subject.verdict] at h
    split at h
    · cases h
    · split at h <;> cases h
      exact Or.inl rfl
  | target name countedBy =>
    simp only [Subject.verdict] at h
    split at h
    · cases h
    · split at h
      · cases h
      · obtain ⟨query, -, heq⟩ := Option.map_eq_some_iff.mp h
        cases heq
        exact Or.inr ⟨query, rfl⟩
  | jump name mode arguments =>
    rw [Subject.verdict] at h
    split at h
    · cases h
    · split at h <;> cases h

end Compiler

namespace Story

variable {options : CompilerOptions} {story : Story} {document : Document}

/-- What is counted about containers leaves most flags unused. -/
theorem Yields.flags_lt (h : story.Yields options document) {i : NodeId} {container : Container}
    (hc : document.tree.container? i = some container) : container.flags.bits.toNat < 2 ^ 31 := by
  obtain ⟨before, hbefore, -⟩ := h.decided.shape.exists_container hc
  have hflags := h.decided.flags? i
  rw [Tree.flags?, Tree.flags?, hc, hbefore] at hflags
  rw [Option.some.inj hflags]
  refine CountFlags.bits_lt_iff.mpr fun bit hhas => ?_
  rcases has_foldl_raise.mp hhas with hstart | ⟨reference, -, more, hmark, hmore⟩
  · refine CountFlags.bits_lt_iff.mp ?_ bit hstart
    rcases Plan.flags_of_container hbefore with heq | heq
    · rw [heq]
      decide
    · rw [heq, CompilerOptions.flowFlags]
      split <;> decide
  · refine CountFlags.bits_lt_iff.mp ?_ bit hmore
    rcases flags_of_mark hmark with rfl | ⟨query, rfl⟩
    · decide
    · cases query <;> decide

end Story

/-! ## Names and addresses -/

/-- A component that leads downward and that the text of an address keeps. -/
structure Component.Lasting (component : Component) : Prop where
  plain : component.Plain
  printable : Printable component.text
  ne_parent : component ≠ .parent

theorem Component.lasting_index {position : Nat} (h : position < 2) :
    (Component.index position).Lasting := by
  obtain rfl | rfl : position = 0 ∨ position = 1 := by omega
  · exact ⟨⟨Component.readable_index_iff.mpr (by decide), by decide⟩, by decide, nofun⟩
  · exact ⟨⟨Component.readable_index_iff.mpr (by decide), by decide⟩, by decide, nofun⟩

/-- The components of a container's address are those of the containers above it. -/
theorem Tree.WellFormed.forall_components {tree : Tree} (h : tree.WellFormed)
    {C : Component → Prop}
    (hC : ∀ id p component, (tree.container? id).isSome = true → tree.parent? id = some p →
      tree.component? p id = some component → C component)
    {id : NodeId} (hid : (tree.container? id).isSome = true) :
    ∀ component ∈ (tree.path id).components, C component := by
  obtain ⟨top, hwithin, htop⟩ := h.exists_root_above id
  induction hwithin using Relation.ReflTransGen.head_induction_on with
  | refl =>
    rw [components_path_of_root htop]
    exact fun _ hmem => nomatch hmem
  | @head child parent hup _ ih =>
    obtain ⟨component, hcomponent, -⟩ := h.exists_step hup
    obtain ⟨c, hc, -⟩ := (h.parent_iff child parent).mp hup
    rw [h.components_path_of_parent hup hcomponent]
    intro other hother
    rcases List.mem_append.mp hother with hother | hother
    · exact ih (by rw [hc]; rfl) other hother
    · obtain rfl := List.mem_singleton.mp hother
      exact hC child parent _ hid hup hcomponent

namespace Story

variable {options : CompilerOptions} {story : Story} {document : Document} (hplain : story.Plain)
include hplain

theorem name_of_container {i : NodeId} {container : Container} {name : String}
    (hc : ((story.plan options).tree options.flowFlags).container? i = some container)
    (hname : container.name = some name) : Printable name ∧ PlainTitle name := by
  by_cases hroot : i = 0
  · subst hroot
    cases hc.symm.trans ((story.plan options).container?_root options.flowFlags)
    cases hname
  · obtain ⟨own, steps, hcode, other, hother, rfl, -⟩ := Plan.exists_houses hc hroot
    cases hc.symm.trans hother
    rw [hname] at hcode
    rcases title_of_code hplain hcode with htitle | rfl
    · exact htitle
    · exact ⟨by decide, plainTitle_globalsName⟩

/-- Containers are addressed by their names, that of the main content by its position. -/
theorem lasting_component {id p : NodeId} {component : Component}
    (hid : (((story.plan options).tree options.flowFlags).container? id).isSome = true)
    (hcomponent : ((story.plan options).tree options.flowFlags).component? p id = some component) :
    component.Lasting := by
  obtain ⟨container, hc⟩ := Option.isSome_iff_exists.mp hid
  rw [Tree.component?] at hcomponent
  split at hcomponent
  · next name hname =>
    cases hcomponent
    rw [Tree.validName?, hc] at hname
    obtain ⟨hown, -⟩ := Option.filter_eq_some_iff.mp hname
    obtain ⟨hprintable, htitle⟩ := name_of_container hplain hc hown
    exact ⟨htitle.plain_name, hprintable, Component.name_ne_parent name⟩
  · obtain ⟨position, hposition, rfl⟩ := Option.map_eq_some_iff.mp hcomponent
    obtain ⟨parent, hparent, hfound⟩ := Option.bind_eq_some_iff.mp hposition
    obtain ⟨hlt, hat, -⟩ := List.findIdx?_eq_some_iff_getElem.mp hfound
    refine Component.lasting_index ?_
    by_cases hroot : p = 0
    · subst hroot
      cases hparent.symm.trans ((story.plan options).container?_root options.flowFlags)
      exact hlt
    · have hmem : id ∈ parent.content := by
        rw [← beq_iff_eq.mp hat]
        exact List.getElem_mem hlt
      rw [Plan.container?_of_mem_content hparent hroot hmem] at hc
      cases hc

end Story

end Narrative
