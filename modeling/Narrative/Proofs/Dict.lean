import Mathlib.Data.List.Forall2
import Mathlib.Data.List.Induction
import Mathlib.Data.List.Nodup
import Narrative.Dict

/-!
# Looking up entries

Where an entry of a dictionary comes from, what inserting does to a list of
entries whose names are all different, and what is left of a list that repeats
some of them.
-/

namespace Narrative.Dict

variable {α : Type}

theorem get?_append (first second : Dict α) (name : String) :
    get? (first ++ second) name = (get? first name).or (get? second name) := by
  induction first with
  | nil => simp [get?]
  | cons entry rest ih =>
    simp only [List.cons_append, get?]
    split
    · rfl
    · exact ih

theorem get?_eq_none_iff {entries : Dict α} {name : String} :
    get? entries name = none ↔ name ∉ keys entries := by
  induction entries with
  | nil => simp [get?, keys]
  | cons entry rest ih =>
    simp only [keys] at ih
    simp only [get?, keys, List.map_cons, List.mem_cons, not_or]
    split
    · next h => simp [h]
    · next h => simp [ih, Ne.symm h, eq_comm]

theorem mem_of_get? {entries : Dict α} {name : String} {value : α}
    (h : get? entries name = some value) : (name, value) ∈ entries := by
  induction entries with
  | nil => cases h
  | cons entry rest ih =>
    obtain ⟨key, first⟩ := entry
    rw [get?] at h
    split at h
    · next hkey =>
      cases h
      exact hkey ▸ List.mem_cons_self
    · exact List.mem_cons_of_mem _ (ih h)

theorem insert_of_not_mem {entries : Dict α} {name : String} (h : name ∉ keys entries) (value : α) :
    insert entries name value = entries ++ [(name, value)] := by
  induction entries with
  | nil => rfl
  | cons entry rest ih =>
    simp only [keys, List.map_cons, List.mem_cons, not_or] at h
    rw [insert, if_neg (Ne.symm h.1), ih (by simpa [keys] using h.2)]
    rfl

/-- Entries with new names are added at the end. -/
theorem insertAll_of_nodup {entries more : Dict α} (h : (keys (entries ++ more)).Nodup) :
    insertAll entries more = entries ++ more := by
  induction more generalizing entries with
  | nil => simp [insertAll]
  | cons entry rest ih =>
    have hnew : entry.1 ∉ keys entries := by
      simp only [keys, List.map_append, List.map_cons] at h
      exact fun hin => List.disjoint_of_nodup_append h hin List.mem_cons_self
    have hrest : (keys (entries ++ [entry] ++ rest)).Nodup := by
      simpa [keys] using h
    have hstep : insertAll entries (entry :: rest) =
        insertAll (insert entries entry.1 entry.2) rest := rfl
    rw [hstep, insert_of_not_mem hnew, ih hrest]
    simp

theorem ofList_of_nodup {entries : Dict α} (h : (keys entries).Nodup) : ofList entries = entries := by
  have hall : (keys ([] ++ entries)).Nodup := by simpa using h
  simpa [ofList] using insertAll_of_nodup hall

theorem mem_keys_insert {entries : Dict α} {name other : String} {value : α} :
    other ∈ keys (insert entries name value) ↔ other ∈ keys entries ∨ other = name := by
  induction entries with
  | nil => simp [insert, keys]
  | cons entry rest ih =>
    obtain ⟨key, old⟩ := entry
    simp only [keys, List.map_cons, List.mem_cons] at ih ⊢
    by_cases hkey : key = name
    · subst hkey
      simp only [insert, if_true, List.map_cons, List.mem_cons]
      grind
    · simp only [insert, if_neg hkey, List.map_cons, List.mem_cons]
      grind

theorem mem_keys_insertAll {entries more : Dict α} {name : String} :
    name ∈ keys (insertAll entries more) ↔ name ∈ keys entries ∨ name ∈ keys more := by
  induction more generalizing entries with
  | nil => simp [insertAll, keys]
  | cons entry rest ih =>
    rw [insertAll, List.foldl_cons, ← insertAll, ih, mem_keys_insert, keys, keys, keys,
      List.map_cons, List.mem_cons, or_assoc]

/-- Every name of a list is a name of its dictionary. -/
theorem mem_keys_ofList {entries : List (String × α)} {name : String} :
    name ∈ keys (ofList entries) ↔ name ∈ keys entries := by
  rw [ofList, mem_keys_insertAll]
  simp [keys]

theorem get?_insert (entries : Dict α) (name : String) (value : α) (key : String) :
    get? (insert entries name value) key =
      if name = key then some value else get? entries key := by
  induction entries with
  | nil => rfl
  | cons entry rest ih =>
    obtain ⟨first, old⟩ := entry
    by_cases hfirst : first = name
    · subst hfirst
      rw [insert, if_pos rfl, get?, get?]
      split <;> rfl
    · rw [insert, if_neg hfirst, get?, get?, ih]
      by_cases hkey : first = key
      · rw [if_pos hkey, if_pos hkey, if_neg (hkey ▸ Ne.symm hfirst)]
      · rw [if_neg hkey, if_neg hkey]

theorem keys_insert (entries : Dict α) (name : String) (value : α) :
    keys (insert entries name value) =
      if name ∈ keys entries then keys entries else keys entries ++ [name] := by
  split
  · next hmem =>
    induction entries with
    | nil => cases hmem
    | cons entry rest ih =>
      obtain ⟨first, old⟩ := entry
      by_cases hfirst : first = name
      · rw [insert, if_pos hfirst]
        rfl
      · have hrest : name ∈ keys rest := (List.mem_cons.mp hmem).resolve_left (Ne.symm hfirst)
        rw [insert, if_neg hfirst]
        exact congrArg (first :: ·) (ih hrest)
  · next hmem =>
    rw [insert_of_not_mem hmem, keys, keys, List.map_append]
    rfl

/-- Inserting brings in no other entry. -/
theorem mem_of_mem_insert {entries : Dict α} {name : String} {value : α} {entry : String × α}
    (h : entry ∈ insert entries name value) : entry ∈ entries ∨ entry = (name, value) := by
  induction entries with
  | nil => exact Or.inr (List.mem_singleton.mp h)
  | cons first rest ih =>
    obtain ⟨key, old⟩ := first
    rw [insert] at h
    split at h
    · next hkey =>
      rcases List.mem_cons.mp h with rfl | h
      · exact Or.inr (by rw [hkey])
      · exact Or.inl (List.mem_cons_of_mem _ h)
    · rcases List.mem_cons.mp h with rfl | h
      · exact Or.inl List.mem_cons_self
      · exact (ih h).imp_left (List.mem_cons_of_mem _)

theorem mem_of_mem_insertAll {entries : Dict α} {more : List (String × α)} {entry : String × α}
    (h : entry ∈ insertAll entries more) : entry ∈ entries ∨ entry ∈ more := by
  induction more generalizing entries with
  | nil => exact Or.inl h
  | cons first rest ih =>
    rcases ih h with h | h
    · rcases mem_of_mem_insert h with h | rfl
      · exact Or.inl h
      · exact Or.inr List.mem_cons_self
    · exact Or.inr (List.mem_cons_of_mem _ h)

theorem mem_of_mem_ofList {entries : List (String × α)} {entry : String × α}
    (h : entry ∈ ofList entries) : entry ∈ entries :=
  (mem_of_mem_insertAll h).resolve_left (List.not_mem_nil)

/-! ## Repeated names -/

theorem ofList_concat (entries : List (String × α)) (entry : String × α) :
    ofList (entries ++ [entry]) = insert (ofList entries) entry.1 entry.2 := by
  simp [ofList, insertAll]

theorem get?_ofList (entries : List (String × α)) (name : String) :
    get? (ofList entries) name = get? entries.reverse name := by
  induction entries using List.reverseRecOn with
  | nil => rfl
  | append_singleton entries entry ih =>
    rw [ofList_concat, get?_insert, ih, List.reverse_append]
    rfl

theorem keys_ofList (entries : List (String × α)) :
    keys (ofList entries) = (keys entries).eraseDups := by
  induction entries using List.reverseRecOn with
  | nil => rfl
  | append_singleton entries entry ih =>
    have hkeys : keys (entries ++ [entry]) = keys entries ++ [entry.1] := by simp [keys]
    rw [ofList_concat, keys_insert, ih, hkeys, List.eraseDups_append]
    by_cases hmem : entry.1 ∈ keys entries
    · simp [List.removeAll, hmem]
    · simp [List.removeAll, hmem, List.eraseDups_cons]

theorem nodup_keys_insert {entries : Dict α} (h : (keys entries).Nodup) (name : String) (value : α) :
    (keys (insert entries name value)).Nodup := by
  rw [keys_insert]
  split
  · exact h
  · next hmem =>
    rw [List.nodup_append]
    refine ⟨h, List.nodup_singleton name, ?_⟩
    intro key hkey other hother heq
    obtain rfl := List.mem_singleton.mp hother
    exact hmem (heq ▸ hkey)

theorem nodup_keys_ofList (entries : List (String × α)) : (keys (ofList entries)).Nodup := by
  induction entries using List.reverseRecOn with
  | nil => exact List.nodup_nil
  | append_singleton entries entry ih =>
    rw [ofList_concat]
    exact nodup_keys_insert ih _ _

/-- A dictionary is told by its names in order and what is found under them. -/
theorem filterMap_keys_get? {entries : Dict α} (h : (keys entries).Nodup) :
    ((keys entries).filterMap fun name => (get? entries name).map fun value => (name, value)) =
      entries := by
  induction entries with
  | nil => rfl
  | cons entry rest ih =>
    obtain ⟨first, value⟩ := entry
    obtain ⟨hfirst, hrest⟩ := List.nodup_cons.mp h
    have hlater : ∀ name ∈ keys rest,
        (get? ((first, value) :: rest) name).map (fun value => (name, value)) =
          (get? rest name).map fun value => (name, value) := by
      intro name hname
      have hne : first ≠ name := by
        rintro rfl
        exact hfirst hname
      rw [get?, if_neg hne]
    have hkeys : keys ((first, value) :: rest) = first :: keys rest := rfl
    rw [hkeys, List.filterMap_cons, List.filterMap_congr hlater, ih hrest, get?, if_pos rfl]
    rfl

/-- Each name once, where it first occurs, with the last value that is given for it. -/
def collapsed (entries : List (String × α)) : Dict α :=
  (keys entries).eraseDups.filterMap fun name =>
    (get? entries.reverse name).map fun value => (name, value)

theorem ofList_eq_collapsed (entries : List (String × α)) : ofList entries = collapsed entries := by
  have htold := filterMap_keys_get? (nodup_keys_ofList entries)
  simp only [keys_ofList, get?_ofList] at htold
  exact htold.symm

example : collapsed [("gold", 2), ("hat", 1), ("gold", 0)] = [("gold", 0), ("hat", 1)] := by decide

/-! ## Related entries -/

section Related

variable {β : Type} {R : α → β → Prop}

/-- Entries under the same name whose values are related. -/
def Related (R : α → β → Prop) (entry : String × α) (other : String × β) : Prop :=
  entry.1 = other.1 ∧ R entry.2 other.2

/-- Dictionaries are related when they have the same names and related values, in order. -/
theorem forall₂_related_iff {entries : Dict α} {others : Dict β} :
    List.Forall₂ (Related R) entries others ↔
      keys entries = keys others ∧
        List.Forall₂ R (entries.map Prod.snd) (others.map Prod.snd) := by
  induction entries generalizing others with
  | nil => cases others <;> simp [keys]
  | cons entry rest ih =>
    cases others with
    | nil => simp
    | cons other others =>
      simp only [keys, List.map_cons, List.forall₂_cons, List.cons.injEq] at ih ⊢
      rw [ih, Related]
      tauto

theorem forall₂_zip {entries : Dict α} {others : List β}
    (h : List.Forall₂ R (entries.map Prod.snd) others) :
    List.Forall₂ (Related R) entries ((keys entries).zip others) := by
  induction entries generalizing others with
  | nil => exact .nil
  | cons entry rest ih =>
    cases h with
    | cons hfirst hrest => exact .cons ⟨rfl, hfirst⟩ (ih hrest)

theorem forall₂_insert {entries : Dict α} {others : Dict β}
    (h : List.Forall₂ (Related R) entries others) (name : String) {value : α} {image : β}
    (hvalue : R value image) :
    List.Forall₂ (Related R) (insert entries name value) (insert others name image) := by
  induction h with
  | nil => exact .cons ⟨rfl, hvalue⟩ .nil
  | @cons entry other _ _ hentry hrest ih =>
    obtain ⟨hname, -⟩ := id hentry
    rw [insert, insert, ← hname]
    split
    · exact .cons ⟨rfl, hvalue⟩ hrest
    · exact .cons ⟨rfl, hentry.2⟩ ih

/-- Lists that are related entry by entry stay so when repeated names are joined. -/
theorem forall₂_ofList {entries : List (String × α)} {others : List (String × β)}
    (h : List.Forall₂ (Related R) entries others) :
    List.Forall₂ (Related R) (ofList entries) (ofList others) := by
  have hall : ∀ {start : Dict α} {image : Dict β}, List.Forall₂ (Related R) start image →
      List.Forall₂ (Related R) (insertAll start entries) (insertAll image others) := by
    induction h with
    | nil => exact fun hstart => hstart
    | cons hentry _ ih =>
      intro start image hstart
      refine ih ?_
      dsimp only
      rw [← hentry.1]
      exact forall₂_insert hstart _ hentry.2
  exact hall .nil

end Related

end Narrative.Dict
