import Narrative.Proofs.Tree.Editing
import Narrative.Proofs.Tree.Layout

/-!
# Growing a container at the end of a tree

A container that nobody lists yet is given children one after the other: each is
added at the end of the tree, and then put into the container. Here is what the
edits that put it there do, and what the tree is after all of them.
-/

namespace Narrative

namespace Outline

/-- The names of the children in the table of a container, in order. -/
def childNames (content : List Outline) (named : List (String × Outline)) : List String :=
  content.filterMap validName? ++ named.map Prod.fst

theorem validName?_container_some {name : String} (hne : ¬ name.isEmpty) (flags : CountFlags)
    (content : List Outline) (named : List (String × Outline)) :
    (container (some name) flags content named).validName? = some name := by
  simpa [Outline.validName?, Container.validName?] using hne

end Outline

namespace Container

/-- The container with more children, laid out from a place on. -/
def withChildren (c : Container) (n : Nat) (content : List Outline)
    (named : List (String × Outline)) : Container :=
  { c with
    content := c.content ++ Outline.places n content
    table := c.table ++ Outline.entries n content
      ++ Outline.namedEntries (n + Outline.sizeItems content) named }

theorem withChildren_nil (c : Container) (n : Nat) : c.withChildren n [] [] = c := by
  simp [withChildren, Outline.places, Outline.entries, Outline.namedEntries]

end Container

namespace Tree

/-- The tree with children added to a container. -/
def grown (tree : Tree) (id : NodeId) (content : List Outline) (named : List (String × Outline)) :
    Tree :=
  (tree.modifyContainer id (·.withChildren tree.size content named)).extend
    (Outline.layoutItems (some id) tree.size content
      ++ Outline.layoutNamed (some id) (tree.size + Outline.sizeItems content) named)

end Tree

/-! ## Putting a new subtree into a container

Throughout, a container without parent stands somewhere in the tree, and a new subtree has been
added at the end. -/

section Attaching

open Outline

variable {tree : Tree} {id : NodeId} {c : Container}

theorem Tree.attachFault?_planted (hroot : tree.parent? id = none)
    (hc : tree.container? id = some c) (outline : Outline) :
    (tree.extend (outline.layout none tree.size)).attachFault? id tree.size = none := by
  have hlt := tree.lt_size_of_container? hc
  have hparent : (tree.extend (outline.layout none tree.size)).parent? id = none :=
    (tree.parent?_extend_old hlt).trans hroot
  have hne : ¬ tree.size = id := Nat.ne_of_gt hlt
  simp [Tree.attachFault?, tree.container?_extend_old hlt, hc, Tree.lineage_of_root hparent, hne]

theorem Tree.nameFault?_planted (hc : tree.container? id = some c)
    (hids : ∀ e ∈ c.table, e.id < tree.size) (nodes : List Node) (name : String) :
    (tree.extend nodes).nameFault? id (some name) [tree.size] =
      if name ∈ c.table.map NamedEntry.name then some (.duplicateName name) else none := by
  have hlt := tree.lt_size_of_container? hc
  have hchild : (tree.extend nodes).namedChild? id name =
      (c.table.find? fun e => e.name == name).map NamedEntry.id := by
    simp [Tree.namedChild?, tree.container?_extend_old hlt, hc, Container.namedChild?]
  cases hf : c.table.find? fun e => e.name == name with
  | none =>
    have hout : name ∉ c.table.map NamedEntry.name := by
      simpa using List.find?_eq_none.mp hf
    simp [Tree.nameFault?, hchild, hf, hout]
  | some e =>
    have he := List.mem_of_find?_eq_some hf
    have hname : e.name = name := by simpa using List.find?_some hf
    have hin : name ∈ c.table.map NamedEntry.name := List.mem_map.mpr ⟨e, he, hname⟩
    have hne : ¬ e.id = tree.size := Nat.ne_of_lt (hids e he)
    simp [Tree.nameFault?, hchild, hf, hin, hne]

theorem Tree.detached_planted (outline : Outline) :
    (tree.extend (outline.layout none tree.size)).detached tree.size =
      tree.extend (outline.layout none tree.size) :=
  Tree.detached_of_root _ (tree.parent?_extend_layout none outline)

/-- Linking a new subtree to a container. -/
theorem Tree.linked_planted (hc : tree.container? id = some c) (f : Container → Container)
    (outline : Outline) :
    ((tree.extend (outline.layout none tree.size)).modifyContainer id f).setParent tree.size
        (some id) =
      (tree.modifyContainer id f).extend (outline.layout (some id) tree.size) := by
  rw [tree.modifyContainer_extend (tree.lt_size_of_container? hc), Tree.setParent]
  have hhead := (tree.modifyContainer id f).modify_extend_head
    (fun node => { node with parent := some id })
    { parent := none, payload := outline.payloadAt tree.size } (outline.lower tree.size)
  rw [Tree.size_modifyContainer] at hhead
  exact hhead

theorem Edit.addContent_planted (hroot : tree.parent? id = none) (hc : tree.container? id = some c)
    (hids : ∀ e ∈ c.table, e.id < tree.size) (outline : Outline)
    (hfree : ∀ name, outline.validName? = some name → name ∉ c.table.map NamedEntry.name) :
    Edit.addContent id tree.size (tree.extend (outline.layout none tree.size)) =
      .ok () (tree.grown id [outline] []) := by
  have hname : (tree.extend (outline.layout none tree.size)).nameFault? id outline.validName?
      [tree.size] = none := by
    cases hv : outline.validName? with
    | none => rfl
    | some name => rw [tree.nameFault?_planted hc hids, if_neg (hfree name hv)]
  have hafter : (tree.extend (outline.layout none tree.size)).appended id tree.size
      outline.validName? = tree.grown id [outline] [] := by
    have hf : (fun c : Container => (c.append tree.size).enter outline.validName? tree.size true) =
        (·.withChildren tree.size [outline] []) := by
      funext c
      cases hv : outline.validName? <;>
        simp [Container.append, Container.enter, Container.withChildren, places, entries,
          namedEntries, hv]
    rw [Tree.appended, Tree.linked_planted hc, hf, Tree.grown]
    simp [layoutItems, layoutNamed, layout]
  have hin : tree.size < (tree.grown id [outline] []).size := by
    have hpos := outline.size_pos
    simp only [Tree.grown, Tree.size_extend, Tree.size_modifyContainer, List.length_append,
      length_layoutItems, sizeItems]
    omega
  rw [Edit.addContent_eq, tree.attachFault?_planted hroot hc, tree.validName?_extend_layout]
  simp only [hname, Tree.detached_planted, hafter, if_pos hin]

theorem Edit.addContent_clash (hroot : tree.parent? id = none) (hc : tree.container? id = some c)
    (hids : ∀ e ∈ c.table, e.id < tree.size) {outline : Outline} {name : String}
    (hname : outline.validName? = some name) (hclash : name ∈ c.table.map NamedEntry.name) :
    Edit.addContent id tree.size (tree.extend (outline.layout none tree.size)) =
      .error (.duplicateName name) (tree.extend (outline.layout none tree.size)) := by
  rw [Edit.addContent_eq, tree.attachFault?_planted hroot hc, tree.validName?_extend_layout]
  simp only [hname, tree.nameFault?_planted hc hids, if_pos hclash]

/-- Renaming the new subtree's top, which nobody lists yet. -/
theorem Edit.setName_planted (name own : Option String) (flags : CountFlags)
    (content : List Outline) (named : List (String × Outline)) :
    Edit.setName tree.size name
        (tree.extend ((container own flags content named).layout none tree.size)) =
      .ok () (tree.extend ((container name flags content named).layout none tree.size)) := by
  have hget := tree.get?_extend_layout none (container own flags content named)
  have hafter : (tree.extend ((container own flags content named).layout none tree.size)).renamed
      tree.size name =
        tree.extend ((container name flags content named).layout none tree.size) := by
    rw [Tree.renamed_of_root _ (tree.parent?_extend_layout none _)]
    exact tree.modify_extend_head _ _ _
  rw [Edit.setName_eq _ _ _ (by simp [tree.parent?_extend_layout]), hafter]
  simp [Tree.container?, Tree.payload?, hget, payloadAt, Payload.container?,
    tree.parent?_extend_layout]

theorem Edit.addNamed_planted (hroot : tree.parent? id = none) (hc : tree.container? id = some c)
    (hids : ∀ e ∈ c.table, e.id < tree.size) {outline : Outline} {name : String}
    (hname : outline.validName? = some name) (hfree : name ∉ c.table.map NamedEntry.name) :
    Edit.addNamed id tree.size (tree.extend (outline.layout none tree.size)) =
      .ok () (tree.grown id [] [(name, outline)]) := by
  have hafter : (tree.extend (outline.layout none tree.size)).enteredByName id tree.size name =
      tree.grown id [] [(name, outline)] := by
    have hf : (fun c : Container => c.enter (some name) tree.size false) =
        (·.withChildren tree.size [] [(name, outline)]) := by
      funext c
      simp [Container.enter, Container.withChildren, places, entries, namedEntries, sizeItems]
    rw [Tree.enteredByName, Tree.linked_planted hc, hf, Tree.grown]
    simp [layoutItems, layoutNamed, layout, sizeItems]
  rw [Edit.addNamed_eq, tree.attachFault?_planted hroot hc, tree.validName?_extend_layout]
  simp only [hname, tree.nameFault?_planted hc hids, if_neg hfree, Tree.detached_planted, hafter]

/-- A new subtree without a name, or with one that is taken, is refused. -/
theorem Edit.addNamed_refused (hroot : tree.parent? id = none) (hc : tree.container? id = some c)
    (hids : ∀ e ∈ c.table, e.id < tree.size) (outline : Outline)
    (hbad : ∀ name, outline.validName? = some name → name ∈ c.table.map NamedEntry.name) :
    ∃ error, Edit.addNamed id tree.size (tree.extend (outline.layout none tree.size)) =
      .error error (tree.extend (outline.layout none tree.size)) := by
  rw [Edit.addNamed_eq, tree.attachFault?_planted hroot hc, tree.validName?_extend_layout]
  cases hv : outline.validName? with
  | none => exact ⟨_, rfl⟩
  | some name =>
    refine ⟨.duplicateName name, ?_⟩
    simp only [tree.nameFault?_planted hc hids, if_pos (hbad name hv)]

end Attaching

/-! ## Growing containers -/

namespace Tree

open Outline

variable {tree : Tree} {id : NodeId} {c : Container}

theorem size_grown (content : List Outline) (named : List (String × Outline)) :
    (tree.grown id content named).size = tree.size + sizeItems content + sizeNamed named := by
  simp [grown, length_layoutItems, length_layoutNamed, Nat.add_assoc]

theorem get?_grown {i : NodeId} (hlt : i < tree.size) (hne : i ≠ id) (content : List Outline)
    (named : List (String × Outline)) : (tree.grown id content named).get? i = tree.get? i := by
  rw [grown, get?_extend_old _ (by simpa using hlt), modifyContainer, get?_modify,
    if_neg (Ne.symm hne)]

theorem parent?_grown (hlt : id < tree.size) (content : List Outline)
    (named : List (String × Outline)) :
    (tree.grown id content named).parent? id = tree.parent? id := by
  rw [grown, parent?_extend_old _ (by simpa using hlt), parent?_modifyContainer]

theorem container?_grown (hc : tree.container? id = some c) (content : List Outline)
    (named : List (String × Outline)) :
    (tree.grown id content named).container? id =
      some (c.withChildren tree.size content named) := by
  rw [grown, container?_extend_old _ (by simpa using tree.lt_size_of_container? hc),
    container?_modifyContainer, if_pos rfl, hc]
  rfl

theorem grown_nil : tree.grown id [] [] = tree := by
  apply ext_get?
  intro i
  simp only [grown, layoutItems, layoutNamed, List.append_nil, extend_nil, modifyContainer,
    get?_modify, Container.withChildren_nil]
  cases hn : tree.get? i with
  | none => simp
  | some node =>
    obtain ⟨parent, range, payload⟩ := node
    cases payload <;> simp

theorem grown_cons (hlt : id < tree.size) (first : Outline) (content : List Outline)
    (named : List (String × Outline)) :
    (tree.grown id [first] []).grown id content named =
      tree.grown id (first :: content) named := by
  have hsize : (tree.grown id [first] []).size = tree.size + first.size := by
    simp [size_grown, sizeItems, sizeNamed]
  rw [grown, hsize]
  simp only [grown]
  rw [modifyContainer_extend _ (by simpa using hlt), modifyContainer_modifyContainer, extend_extend]
  congr 1
  · congr 1
    funext c
    simp [Container.withChildren, places, entries, namedEntries, sizeItems, Nat.add_assoc]
  · simp [layoutItems, layoutNamed, sizeItems, Nat.add_assoc]

theorem grown_named_cons (hlt : id < tree.size) (first : String × Outline)
    (named : List (String × Outline)) :
    (tree.grown id [] [first]).grown id [] named = tree.grown id [] (first :: named) := by
  have hsize : (tree.grown id [] [first]).size = tree.size + first.2.size := by
    simp [size_grown, sizeItems, sizeNamed]
  rw [grown, hsize]
  simp only [grown]
  rw [modifyContainer_extend _ (by simpa using hlt), modifyContainer_modifyContainer, extend_extend]
  congr 1
  · congr 1
    funext c
    simp [Container.withChildren, places, entries, namedEntries, sizeItems]
  · simp [layoutItems, layoutNamed, sizeItems]

end Tree

namespace Tree

open Outline

/-- A new container that is given its children is the layout of its outline. -/
theorem push_grown {tree : Tree} {shell : Container} (hcontent : shell.content = [])
    (htable : shell.table = []) (content : List Outline) (named : List (String × Outline)) :
    (tree.push (.container shell) none).grown tree.size content named =
      tree.extend ((container shell.name shell.flags content named).layout none tree.size) := by
  obtain ⟨own, table, flags, name⟩ := shell
  subst hcontent htable
  rw [push_eq_extend, grown, modifyContainer, modify_extend_head, extend_extend]
  simp [layout, lower, payloadAt, Container.withChildren, Payload.emptied, Container.emptied]

end Tree

namespace Container

open Outline

/-- The names in a container's table, followed by those of children to come, are distinct. -/
def NamesDistinct (c : Container) (content : List Outline) (named : List (String × Outline)) :
    Prop :=
  (c.table.map NamedEntry.name ++ childNames content named).Nodup

theorem namesDistinct_cons (c : Container) (n : Nat) (first : Outline) (content : List Outline)
    (named : List (String × Outline)) :
    NamesDistinct (c.withChildren n [first] []) content named ↔
      NamesDistinct c (first :: content) named := by
  cases hv : first.validName? <;>
    simp [NamesDistinct, Container.withChildren, Outline.entries, namedEntries, childNames, hv]

theorem namesDistinct_named_cons (c : Container) (n : Nat) (first : String × Outline)
    (named : List (String × Outline)) :
    NamesDistinct (c.withChildren n [] [first]) [] named ↔ NamesDistinct c [] (first :: named) := by
  simp [NamesDistinct, Container.withChildren, Outline.entries, namedEntries, childNames]

/-- A child whose name is taken makes the names collide, whatever follows. -/
theorem not_namesDistinct_cons {c : Container} {first : Outline} {name : String}
    (hname : first.validName? = some name) (hin : name ∈ c.table.map NamedEntry.name)
    (content : List Outline) (named : List (String × Outline)) :
    ¬ NamesDistinct c (first :: content) named := by
  intro hdistinct
  have hdisjoint := List.disjoint_of_nodup_append hdistinct
  exact hdisjoint hin (by simp [childNames, hname])

/-- A name that is taken makes the names collide, whatever follows. -/
theorem not_namesDistinct_named_cons {c : Container} {name : String} {first : Outline}
    (hin : name ∈ c.table.map NamedEntry.name) (named : List (String × Outline)) :
    ¬ NamesDistinct c [] ((name, first) :: named) := by
  intro hdistinct
  have hdisjoint := List.disjoint_of_nodup_append hdistinct
  exact hdisjoint hin (by simp [childNames])

end Container

namespace Tree

open Outline Container

/-- What holds of a container while its children are read: it has no parent, and its table lists
nodes of the tree under distinct names. -/
structure Open (tree : Tree) (id : NodeId) (c : Container) : Prop where
  root : tree.parent? id = none
  container : tree.container? id = some c
  ids : ∀ e ∈ c.table, e.id < tree.size
  names : (c.table.map NamedEntry.name).Nodup

/-- A new container is open. -/
theorem Open.push (tree : Tree) {shell : Container} (hcontent : shell.content = [])
    (htable : shell.table = []) : Open (tree.push (.container shell) none) tree.size shell where
  root := by
    rw [parent?_push, parent?, (tree.get?_eq_none_iff tree.size).mpr (Nat.le_refl _)]
    rfl
  container := by
    obtain ⟨own, table, flags, name⟩ := shell
    subst hcontent htable
    simp [container?_push, Payload.emptied, Container.emptied, Payload.container?]
  ids := by simp [htable]
  names := by simp [htable]

namespace Open

variable {tree : Tree} {id : NodeId} {c : Container}

theorem lt_size (h : Open tree id c) : id < tree.size := tree.lt_size_of_container? h.container

theorem namesDistinct_nil (h : Open tree id c) : NamesDistinct c [] [] := by
  simpa [NamesDistinct, childNames] using h.names

theorem grown_content (h : Open tree id c) (first : Outline)
    (hfree : ∀ name, first.validName? = some name → name ∉ c.table.map NamedEntry.name) :
    Open (tree.grown id [first] []) id (c.withChildren tree.size [first] []) where
  root := (parent?_grown h.lt_size _ _).trans h.root
  container := container?_grown h.container _ _
  ids := by
    have hpos := first.size_pos
    intro e he
    simp only [Container.withChildren, Outline.entries, namedEntries, List.append_nil,
      List.mem_append, Option.mem_toList, Option.map_eq_some_iff] at he
    rw [size_grown]
    simp only [sizeItems, sizeNamed]
    have hgrow : tree.size < tree.size + (first.size + 0) + 0 := by omega
    rcases he with he | ⟨name, _, rfl⟩
    · exact Nat.lt_trans (h.ids e he) hgrow
    · exact hgrow
  names := by
    have hnames := h.names
    cases hv : first.validName? with
    | none => simpa [Container.withChildren, Outline.entries, namedEntries, hv] using hnames
    | some name =>
      have hout := hfree name hv
      simp only [Container.withChildren, Outline.entries, namedEntries, hv, Option.map_some,
        Option.toList_some, List.append_nil, List.map_append, List.map_cons, List.map_nil]
      exact hnames.append (by simp) (by simpa using hout)

theorem grown_named (h : Open tree id c) {name : String} (first : Outline)
    (hfree : name ∉ c.table.map NamedEntry.name) :
    Open (tree.grown id [] [(name, first)]) id
      (c.withChildren tree.size [] [(name, first)]) where
  root := (parent?_grown h.lt_size _ _).trans h.root
  container := container?_grown h.container _ _
  ids := by
    have hpos := first.size_pos
    intro e he
    simp only [Container.withChildren, Outline.entries, namedEntries, sizeItems, List.append_nil,
      List.mem_append, List.mem_singleton] at he
    rw [size_grown]
    simp only [sizeItems, sizeNamed]
    have hgrow : tree.size < tree.size + 0 + (first.size + 0) := by omega
    rcases he with he | rfl
    · exact Nat.lt_trans (h.ids e he) hgrow
    · exact hgrow
  names := by
    simp only [Container.withChildren, Outline.entries, namedEntries, List.append_nil,
      List.map_append, List.map_cons, List.map_nil]
    exact h.names.append (by simp) (by simpa using hfree)

end Open

end Tree

end Narrative
