import Mathlib.Data.List.Forall2

/-!
# Lists that correspond item by item

Two lists correspond when they are of the same length and a relation holds between the
items at each position. What is read off one of them, item by item, is then read off the
other. Optional results correspond in the same way: both are there, or neither is.
-/

namespace Narrative

variable {α β γ δ : Type} {R : α → β → Prop}

/-! ## Lists -/

/-- Reading a list succeeds when every reading does. -/
theorem mapM_eq_some_iff {f : α → Option β} {list : List α} {results : List β} :
    list.mapM f = some results ↔ List.Forall₂ (fun a b => f a = some b) list results := by
  induction list generalizing results with
  | nil => simp [List.mapM_nil, pure, eq_comm]
  | cons a rest ih =>
    rw [List.mapM_cons, List.forall₂_cons_left_iff]
    constructor
    · intro h
      obtain ⟨b, hb, h⟩ := Option.bind_eq_some_iff.mp h
      obtain ⟨others, hothers, h⟩ := Option.bind_eq_some_iff.mp h
      cases h
      exact ⟨b, others, hb, ih.mp hothers, rfl⟩
    · rintro ⟨b, others, hb, hothers, rfl⟩
      rw [hb, ih.mpr hothers]
      rfl

theorem exists_forall₂ {list : List α} (h : ∀ a ∈ list, ∃ b, R a b) :
    ∃ results, List.Forall₂ R list results := by
  induction list with
  | nil => exact ⟨[], .nil⟩
  | cons a rest ih =>
    obtain ⟨b, hb⟩ := h a List.mem_cons_self
    obtain ⟨others, hothers⟩ := ih fun c hc => h c (List.mem_cons_of_mem _ hc)
    exact ⟨b :: others, .cons hb hothers⟩

theorem exists_of_forall₂_left {first : List α} {second : List β} (h : List.Forall₂ R first second)
    {a : α} (ha : a ∈ first) : ∃ b ∈ second, R a b := by
  induction h with
  | nil => cases ha
  | cons hab _ ih =>
    rcases List.mem_cons.mp ha with rfl | ha
    · exact ⟨_, List.mem_cons_self, hab⟩
    · obtain ⟨b, hb, hab⟩ := ih ha
      exact ⟨b, List.mem_cons_of_mem _ hb, hab⟩

theorem exists_of_forall₂_right {first : List α} {second : List β} (h : List.Forall₂ R first second)
    {b : β} (hb : b ∈ second) : ∃ a ∈ first, R a b :=
  exists_of_forall₂_left h.flip hb

theorem map_eq_map_of_forall₂ {first : List α} {second : List β} {f : α → γ} {g : β → γ}
    (h : List.Forall₂ R first second) (hR : ∀ a b, R a b → f a = g b) :
    first.map f = second.map g := by
  induction h with
  | nil => rfl
  | cons hab _ ih => rw [List.map_cons, List.map_cons, hR _ _ hab, ih]

theorem filterMap_eq_filterMap_of_forall₂ {first : List α} {second : List β} {f : α → Option γ}
    {g : β → Option γ} (h : List.Forall₂ R first second) (hR : ∀ a b, R a b → f a = g b) :
    first.filterMap f = second.filterMap g := by
  induction h with
  | nil => rfl
  | cons hab _ ih => rw [List.filterMap_cons, List.filterMap_cons, hR _ _ hab, ih]

/-- Two lists that a third one is related to are related to each other. -/
theorem forall₂_of_common {R : α → γ → Prop} {S : β → γ → Prop} {T : α → β → Prop}
    {first : List α} {second : List β} {common : List γ} (hR : List.Forall₂ R first common)
    (hS : List.Forall₂ S second common)
    (h : ∀ p ∈ first, ∀ q, ∀ o ∈ common, R p o → S q o → T p q) : List.Forall₂ T first second := by
  induction hR generalizing second with
  | nil =>
    cases hS
    exact .nil
  | cons hpo _ ih =>
    cases hS with
    | cons hqo hrest =>
      refine .cons (h _ List.mem_cons_self _ _ List.mem_cons_self hpo hqo) (ih hrest ?_)
      exact fun p hp q o ho => h p (List.mem_cons_of_mem _ hp) q o (List.mem_cons_of_mem _ ho)

theorem forall₂_imp_of_mem {R S : α → β → Prop} {first : List α} {second : List β}
    (h : List.Forall₂ R first second) (hRS : ∀ x ∈ first, ∀ y, R x y → S x y) :
    List.Forall₂ S first second := by
  have hboth := (List.forall₂_and_left first second).mpr ⟨fun _ hmem => hmem, h⟩
  exact hboth.imp fun x y hpair => hRS x hpair.1 y hpair.2

/-- Items that give nothing correspond to items that are left out. -/
theorem forall₂_filterMap_filter {S : γ → β → Prop} {f : α → Option γ} {p : β → Bool} {xs : List α}
    {ys : List β} (h : List.Forall₂ R xs ys)
    (hsome : ∀ x ∈ xs, ∀ y z, R x y → f x = some z → p y = true ∧ S z y)
    (hnone : ∀ x y, R x y → f x = none → p y = false) :
    List.Forall₂ S (xs.filterMap f) (ys.filter p) := by
  induction h with
  | nil => exact .nil
  | @cons x y _ _ hxy _ ih =>
    have hrest := ih fun x hx => hsome x (List.mem_cons_of_mem _ hx)
    cases hf : f x with
    | none =>
      rw [List.filterMap_cons_none hf, List.filter_cons_of_neg (by simp [hnone x y hxy hf])]
      exact hrest
    | some z =>
      obtain ⟨hp, hs⟩ := hsome x List.mem_cons_self y z hxy hf
      rw [List.filterMap_cons_some hf, List.filter_cons_of_pos hp]
      exact .cons hs hrest

/-! ## Optional results -/

variable {S : γ → δ → Prop}

theorem rel_cases {x : Option α} {y : Option β} (h : Option.Rel R x y) :
    x = none ∧ y = none ∨ ∃ a b, x = some a ∧ y = some b ∧ R a b := by
  cases h with
  | none => exact Or.inl ⟨rfl, rfl⟩
  | some hab => exact Or.inr ⟨_, _, rfl, rfl, hab⟩

theorem isSome_eq_of_rel {x : Option α} {y : Option β} (h : Option.Rel R x y) :
    x.isSome = y.isSome := by
  cases h <;> rfl

theorem rel_bind {x : Option α} {y : Option β} (h : Option.Rel R x y) {f : α → Option γ}
    {g : β → Option δ} (hfg : ∀ a b, R a b → Option.Rel S (f a) (g b)) :
    Option.Rel S (x.bind f) (y.bind g) := by
  cases h with
  | none => exact .none
  | some hab => exact hfg _ _ hab

theorem rel_getElem? {xs : List α} {ys : List β} (h : List.Forall₂ R xs ys) (i : Nat) :
    Option.Rel R xs[i]? ys[i]? := by
  induction h generalizing i with
  | nil => exact .none
  | cons hab _ ih =>
    cases i with
    | zero => exact .some hab
    | succ i => exact ih i

theorem exists_of_getElem? {xs : List α} {ys : List β} (h : List.Forall₂ R xs ys) {i : Nat} {b : β}
    (hb : ys[i]? = some b) : ∃ a, xs[i]? = some a ∧ R a b := by
  rcases rel_cases (rel_getElem? h i) with ⟨-, hnone⟩ | ⟨a, other, ha, hother, hab⟩
  · cases hnone.symm.trans hb
  · cases hother.symm.trans hb
    exact ⟨a, ha, hab⟩

theorem rel_findSome? {xs : List α} {ys : List β} (h : List.Forall₂ R xs ys) {f : α → Option γ}
    {g : β → Option δ} (hfg : ∀ a b, R a b → Option.Rel S (f a) (g b)) :
    Option.Rel S (xs.findSome? f) (ys.findSome? g) := by
  induction h with
  | nil => exact .none
  | @cons a b _ _ hab _ ih =>
    rw [List.findSome?_cons, List.findSome?_cons]
    rcases rel_cases (hfg a b hab) with ⟨hf, hg⟩ | ⟨c, d, hf, hg, hcd⟩
    · rw [hf, hg]
      exact ih
    · rw [hf, hg]
      exact .some hcd

end Narrative
