import Narrative.Proofs.Compiler.Plain
import Narrative.Proofs.Compiler.References

/-!
# Plain stories, read back from their texts

Every leaf in the document of a plain story without errors lasts, and where it leads to
a fixed place of the story, its address leads downward from the root to a container. So
the document is read back from its text with the same outline, and what its addresses
lead to is found in the copy as well.
-/

namespace Narrative

open Compiler Json

/-! ## Addresses in leaves -/

/-- The leaf leads to a fixed place of the story, or counts what happens there. -/
inductive Leaf.Addresses : Leaf → Path → Prop where
  | divert {d : Divert} {path : Path} : d.isExternal = false → d.target = .path path →
      Addresses (.divert d) path
  | target {path : Path} : Addresses (.value (.divertTarget path)) path
  | readCount {path : Path} : Addresses (.reference (.readCount path)) path

namespace Tree

/-- A path leads to a container, never upward on the way. -/
def LeadsDown (tree : Tree) (start : NodeId) (path : Path) : Prop :=
  (∀ component ∈ path.components, component ≠ .parent) ∧
    ∃ found, tree.contentAt? start path = some found ∧ (tree.container? found).isSome = true

theorem path_eq_absolute (tree : Tree) (id : NodeId) :
    tree.path id = .absolute (tree.path id).components := rfl

theorem payload?_of_leaf? {tree : Tree} {id : NodeId} {leaf : Leaf}
    (h : tree.leaf? id = some leaf) : tree.payload? id = some (.leaf leaf) := by
  obtain ⟨payload, hpayload, hleaf⟩ := Option.bind_eq_some_iff.mp h
  cases payload with
  | container c => cases hleaf
  | leaf l =>
    cases hleaf
    exact hpayload

theorem SameShape.leadsDown {before after : Tree} (h : before.SameShape after) {start : NodeId}
    {path : Path} (hleads : before.LeadsDown start path) : after.LeadsDown start path := by
  obtain ⟨hdown, found, hfound, hcontainer⟩ := hleads
  exact ⟨hdown, found, h.contentAt? _ _ ▸ hfound, h.isSome_container? _ ▸ hcontainer⟩

theorem SameOutline.leadsDown {a b : Tree} (ha : a.WellFormed) (hb : b.WellFormed) {x y : NodeId}
    (h : SameOutline a b x y) {path : Path} (hleads : a.LeadsDown x path) : b.LeadsDown y path := by
  obtain ⟨hdown, found, hfound, hcontainer⟩ := hleads
  obtain ⟨other, hother, hsame⟩ := h.exists_follow ha hb hdown hfound
  obtain ⟨c, hc⟩ := Option.isSome_iff_exists.mp hcontainer
  obtain ⟨d, _, _, hd, -, -⟩ := hsame.exists_container hc
  exact ⟨hdown, other, hother, Option.isSome_iff_exists.mpr ⟨d, hd⟩⟩

end Tree

/-- What the addresses of a document lead to is found in a copy with the same outline. -/
theorem Document.Reloaded.leadsDown {document reloaded : Document} {text : String}
    (hcopy : document.Reloaded text reloaded) (h : document.tree.WellFormed)
    (hleads : ∀ {id leaf path}, document.tree.leaf? id = some leaf → leaf.Addresses path →
      document.tree.LeadsDown document.root path)
    {id : NodeId} {leaf : Leaf} {path : Path} (hleaf : reloaded.tree.leaf? id = some leaf)
    (haddress : leaf.Addresses path) : reloaded.tree.LeadsDown reloaded.root path := by
  obtain ⟨outline, hout, hout'⟩ := hcopy.outline
  have hall : outline.Everywhere fun inner => ∀ l p, inner = .leaf l → l.Addresses p →
      document.tree.LeadsDown document.root p := by
    refine (h.everywhere_iff hout).mpr ?_
    rintro d - inner hinner l p rfl hl
    rcases Tree.payload_cases_of_outline? hinner with ⟨m, hp, heq⟩ | ⟨_, _, _, _, -, heq⟩
    · cases heq
      exact hleads (by rw [Tree.leaf?, hp]; rfl) hl
    · cases heq
  have hpayload := Tree.payload?_of_leaf? hleaf
  have hlt := Tree.lt_size_of_outline? (Tree.outline?_leaf hpayload)
  exact hcopy.outline.leadsDown h hcopy.wellFormed ((hcopy.wellFormed.everywhere_iff hout').mp hall
    id (hcopy.within id hlt) _ (Tree.outline?_leaf hpayload) leaf path rfl haddress)

/-- An address that lasts and leads from a place to a container. -/
structure Path.Settled (tree : Tree) (start : NodeId) (path : Path) : Prop where
  readable : path.Readable
  printable : Printable path.text
  leads : tree.LeadsDown start path

/-- A leaf that lasts, and whose address, if it has one, leads from a place to a container. -/
structure Leaf.Settled (tree : Tree) (start : NodeId) (leaf : Leaf) : Prop where
  faithful : leaf.Faithful
  kept : leaf.token.Kept
  leads : ∀ path, leaf.Addresses path → tree.LeadsDown start path

/-! ## Leaves -/

theorem Divert.faithful_external {name : String} (hname : (Component.name name).Plain)
    {arguments : UInt32} (harguments : arguments.toNat < 2 ^ 31) :
    (Divert.external name arguments).Faithful where
  path := by
    rintro path ⟨⟩
    exact Path.readable_absolute (List.forall_mem_singleton.mpr hname)
  arguments_lt := harguments
  push_eq_none _ := rfl
  isExternal _ := rfl

namespace Path.Settled

variable {tree : Tree} {start : NodeId} {path : Path} (h : path.Settled tree start)
include h

theorem readCount : (Leaf.reference (.readCount path)).Settled tree start where
  faithful := h.readable
  kept := kept_single (by decide) (kept_str h.printable)
  leads := by
    rintro other ⟨⟩
    exact h.leads

theorem target : (Leaf.value (.divertTarget path)).Settled tree start where
  faithful := h.readable
  kept := kept_single (by decide) (kept_str h.printable)
  leads := by
    rintro other ⟨⟩
    exact h.leads

theorem jump (mode : JumpMode) : (Leaf.divert (mode.divert path)).Settled tree start := by
  have htarget : (mode.divert path).target = .path path := by cases mode <;> rfl
  have htext : (mode.divert path).targetText = path.text := by cases mode <;> rfl
  have hfixed : ∀ other, (mode.divert path).target = .path other → other = path := by
    intro other hother
    cases htarget.symm.trans hother
    rfl
  have hfaithful : (mode.divert path).Faithful := by
    have hreadable : ∀ other, (mode.divert path).target = .path other → other.Readable :=
      fun other hother => hfixed other hother ▸ h.readable
    cases mode <;> exact ⟨hreadable, Nat.two_pow_pos 31, nofun, nofun⟩
  refine ⟨hfaithful, Leaf.kept_divert (htext ▸ h.printable), ?_⟩
  rintro other (⟨-, hother⟩ | _ | _)
  exact hfixed other hother ▸ h.leads

end Path.Settled

namespace Story

variable {options : CompilerOptions} {story : Story} {document : Document}

theorem exists_external {name : String}
    (h : (Dict.get? (Context.ofStory options.file story).externals name).isSome = true) :
    ∃ external ∈ story.externals, external.name = name := by
  have hmem : name ∈ Dict.keys (Context.ofStory options.file story).externals := by
    by_contra hnot
    rw [Dict.get?_eq_none_iff.mpr hnot] at h
    cases h
  rw [Context.ofStory, Dict.mem_keys_ofList, Dict.keys, List.map_map] at hmem
  exact List.mem_map.mp hmem

section Plain

variable (hplain : story.Plain)
include hplain

/-- The words of a plain story last, and lead nowhere. -/
theorem settled_word (tree : Tree) (start : NodeId) {leaf : Leaf}
    (h : Word story.plainWording (Context.ofStory options.file story).externals leaf) :
    leaf.Settled tree start := by
  cases h with
  | @command c _ => exact ⟨trivial, Leaf.kept_command c, nofun⟩
  | operator o => exact ⟨trivial, Leaf.kept_operator o, nofun⟩
  | int n => exact ⟨trivial, kept_int n, nofun⟩
  | bool b => exact ⟨trivial, kept_bool b, nofun⟩
  | float hx | negated hx => exact hx.elim
  | string htext => exact ⟨trivial, Leaf.kept_string htext, nofun⟩
  | newline => exact ⟨trivial, Leaf.kept_string (by decide), nofun⟩
  | glue => exact ⟨trivial, kept_str (by decide), nofun⟩
  | void => exact ⟨trivial, kept_str (by decide), nofun⟩
  | tag htext => exact ⟨trivial, kept_single (by decide) (kept_str htext), nofun⟩
  | assignment hname => exact ⟨trivial, Leaf.kept_assignment hname, nofun⟩
  | external hexternal hcall =>
    obtain ⟨external, hmem, rfl⟩ := exists_external hexternal
    obtain ⟨hprintable, htitle, -⟩ := hplain.externals external hmem
    have harguments := hcall ⟨external, hmem, rfl⟩
    refine ⟨Divert.faithful_external htitle.plain_name harguments, ?_, ?_⟩
    · exact Leaf.kept_divert (Path.printable_absolute (List.forall_mem_singleton.mpr hprintable))
    · -- A function of the host is no place of the story.
      rintro path (⟨hinternal, -⟩ | _ | _)
      cases hinternal

theorem admits_settled (tree : Tree) (start : NodeId) :
    Admits story.plainWording (Context.ofStory options.file story).externals
      (Leaf.Settled tree start) (fun subject => Printable subject.name) where
  word _ hword := settled_word hplain tree start hword
  command c := ⟨trivial, Leaf.kept_command c, nofun⟩
  subject _ hname := hname

/-- The address of a container of a plain story lasts and leads back to it. -/
theorem settled_path (h : (story.compile options).result = .ok document) {found : NodeId}
    (hfound : (((story.plan options).tree options.flowFlags).container? found).isSome = true) :
    (((story.plan options).tree options.flowFlags).path found).Settled
      ((story.plan options).tree options.flowFlags) document.root := by
  have hyields := yields_of_compile h
  have hcomponents := (hyields.decided.shape.symm.wellFormed hyields.wellFormed).forall_components
    (fun id p component hid _ hcomponent => lasting_component hplain hid hcomponent) hfound
  obtain ⟨container, hc⟩ := Option.isSome_iff_exists.mp hfound
  refine ⟨?_, ?_, ?_, found, ?_, hfound⟩
  · rw [Tree.path_eq_absolute]
    exact Path.readable_absolute fun component hmem => (hcomponents component hmem).plain
  · rw [Tree.path_eq_absolute]
    exact Path.printable_absolute fun component hmem => (hcomponents component hmem).printable
  · exact fun component hmem => (hcomponents component hmem).ne_parent
  · exact hyields.contentAt?_path (Tree.lt_size_of_container? _ hc)

/-- What looking up a name gives lasts and leads to a container. -/
theorem settled_of_answered (h : (story.compile options).result = .ok document) {scope : Scope}
    {subject : Subject} {leaf : Leaf} (hname : Printable subject.name)
    (hanswered : Answered (story.plan options).world
      ((story.plan options).tree options.flowFlags) scope subject leaf) :
    leaf.Settled ((story.plan options).tree options.flowFlags) document.root := by
  have hpath : ∀ {name found}, (story.plan options).world.findFlow?
      ((story.plan options).tree options.flowFlags) scope name = some found →
      (((story.plan options).tree options.flowFlags).path found).Settled
        ((story.plan options).tree options.flowFlags) document.root :=
    fun hfound => settled_path hplain h
      (leadsFirst_of_findFlow? hfound fun _ => rfl).isSome_container?
  cases hanswered with
  | ofVariable _ => exact ⟨trivial, kept_single (by decide) (kept_str hname), nofun⟩
  | readCount _ hfound => exact (hpath hfound).readCount
  | target _ hfound => exact (hpath hfound).target
  | toVariable _ =>
    refine ⟨⟨nofun, Nat.two_pow_pos 31, nofun, nofun⟩, Leaf.kept_divert hname, ?_⟩
    rintro path (⟨-, htarget⟩ | _ | _)
    cases htarget
  | @jump _ mode _ found _ hfound => exact (hpath hfound).jump mode

theorem settled_leaf (h : (story.compile options).result = .ok document) {id : NodeId} {leaf : Leaf}
    (hleaf : document.tree.leaf? id = some leaf) :
    leaf.Settled ((story.plan options).tree options.flowFlags) document.root := by
  refine (yields_of_compile h).admitted (admits_settled hplain _ _) hplain ?_ hleaf
  intro entry hentry lookup hlookup hname
  have hsilent := (flawless_of_compile h).verdicts _
    (mem_references.mpr ⟨entry, hentry, lookup, hlookup, rfl⟩)
  exact settled_of_answered hplain h hname (answered_verdict hsilent)

/-- Every node in the document of a plain story lasts. -/
theorem lasting (h : (story.compile options).result = .ok document) : document.tree.Lasting := by
  have hyields := yields_of_compile h
  intro id payload hpayload
  cases payload with
  | leaf l =>
    have hleaf : document.tree.leaf? id = some l := by
      rw [Tree.leaf?, hpayload]
      rfl
    have hsettled := settled_leaf hplain h hleaf
    exact ⟨hsettled.faithful, hsettled.kept⟩
  | container c =>
    have hc : document.tree.container? id = some c := by
      rw [Tree.container?, hpayload]
      rfl
    refine ⟨hyields.flags_lt hc, fun name hname => ?_⟩
    obtain ⟨before, hbefore, -, -, hsame⟩ := hyields.decided.shape.exists_container hc
    obtain ⟨hprintable, htitle⟩ := name_of_container hplain hbefore (hsame.trans hname)
    exact ⟨hprintable, htitle.ne_flagsKey, htitle.ne_nameKey⟩

end Plain

/-! ## Documents -/

/-- The text of a plain story without errors is read as a document of the same structure, unless it
nests too deep. The copy is written as the same text, and every fixed address in it leads from its
root to a container. -/
theorem text_reloads (hplain : story.Plain) (h : (story.compile options).result = .ok document) :
    ∃ token, document.encode? = some token ∧ document.streamed? = some token.text ∧
      (token.nesting ≤ 127 → ∃ reloaded, Document.ofText token.text = .ok reloaded ∧
        document.tree.sameStructure document.root reloaded.tree reloaded.root = true ∧
        reloaded.streamed? = some token.text ∧
        ∀ id leaf path, reloaded.tree.leaf? id = some leaf → leaf.Addresses path →
          ∃ found, reloaded.tree.contentAt? reloaded.root path = some found ∧
            (reloaded.tree.container? found).isSome = true) := by
  have hyields := yields_of_compile h
  obtain ⟨root, hroot, -⟩ := hyields.decided.shape.symm.exists_container
    (Plan.container?_root _ options.flowFlags)
  rw [← hyields.root] at hroot
  obtain ⟨token, hencode, hstream, hreload⟩ := Document.exists_reloaded (lasting hplain h)
    hyields.wellFormed hyields.version hroot
  refine ⟨token, hencode, hstream, fun hdepth => ?_⟩
  obtain ⟨reloaded, hcopy⟩ := hreload hdepth
  refine ⟨reloaded, hcopy.read, hcopy.same, hcopy.written, fun id leaf path hleaf haddress => ?_⟩
  refine (hcopy.leadsDown hyields.wellFormed ?_ hleaf haddress).2
  intro _ _ _ hleaf haddress
  exact hyields.decided.shape.leadsDown ((settled_leaf hplain h hleaf).leads _ haddress)

/-- A knot with a stitch that is counted, jumped to and kept in a variable, and a signal of the host. -/
def voyageStory : Story where
  root := [⟨.text "All \"aboard\"\tnow", none⟩,
    ⟨.call ⟨"signal", [.int 2, .string "go\n"], none⟩, none⟩, ⟨.divert "island", none⟩]
  flows := [
    .mk "island" .knot [] [] [
      .mk "cave" .stitch [] [⟨.output (.name "island.cave"), none⟩, ⟨.divert "goal", none⟩] []
        none] none]
  globals := [⟨"goal", .target "island.cave", none⟩]
  externals := [⟨"signal", ["times", "word"]⟩]

theorem plain_voyageStory : voyageStory.Plain := by
  have htexts : Printable "All \"aboard\"\tnow" ∧ Printable "go\n" ∧ Printable "island.cave" ∧
      Printable "goal" := by
    decide
  have hnames : Printable "island" ∧ Printable "cave" ∧ Printable "signal" ∧ Printable "times" ∧
      Printable "word" := by
    decide
  have hisland : PlainTitle "island" :=
    plainTitle_of_mem (c := 'i') (by decide) (by decide) (by decide) (by decide)
  have hcave : PlainTitle "cave" :=
    plainTitle_of_mem (c := 'c') (by decide) (by decide) (by decide) (by decide)
  have hsignal : PlainTitle "signal" :=
    plainTitle_of_mem (c := 's') (by decide) (by decide) (by decide) (by decide)
  constructor
  · simp [voyageStory, plainWording, Action.Keeps, Call.toExpression, Expression.Keeps,
      Expression.KeepsEach, htexts, hnames]
  · simp [voyageStory, plainWording, Flow.KeepsEach, Flow.Keeps, Action.Keeps, Expression.Keeps,
      htexts, hnames, hisland, hcave]
  · simp [voyageStory, plainWording, Expression.Keeps, htexts]
  · simp [voyageStory, plainWording, hnames, hsignal]

theorem text_reloads_voyage : voyageStory.Plain ∧
    ∃ document token, (voyageStory.compile {}).result = .ok document ∧
      document.encode? = some token ∧ document.streamed? = some token.text ∧ token.nesting ≤ 127 ∧
      ∃ reloaded, Document.ofText token.text = .ok reloaded ∧
        document.tree.sameStructure document.root reloaded.tree reloaded.root = true ∧
        reloaded.streamed? = some token.text ∧
        ∀ id leaf path, reloaded.tree.leaf? id = some leaf → leaf.Addresses path →
          ∃ found, reloaded.tree.contentAt? reloaded.root path = some found ∧
            (reloaded.tree.container? found).isSome = true := by
  have hshallow : ((voyageStory.compile {}).result.toOption.any fun document =>
      document.encode?.any fun token => decide (token.nesting ≤ 127)) = true := by
    decide +kernel
  cases hresult : (voyageStory.compile {}).result with
  | error error =>
    rw [hresult] at hshallow
    cases hshallow
  | ok document =>
    obtain ⟨token, hencode, hstream, hreload⟩ := text_reloads plain_voyageStory hresult
    have hnesting : token.nesting ≤ 127 := by
      rw [hresult] at hshallow
      simpa [Except.toOption, hencode] using hshallow
    exact ⟨plain_voyageStory, document, token, rfl, hencode, hstream, hnesting, hreload hnesting⟩

end Story

end Narrative
