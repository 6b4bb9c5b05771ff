import Narrative.Proofs.Dict
import Narrative.Wire.Encoding

/-!
# Terminators

A terminator lists the children that are reachable by name only, and after them
what it says about the container itself. When no key is used twice, building the
object key by key gives just these entries in this order.
-/

namespace Narrative

namespace Wire

/-- The entries of a terminator that do not list children. -/
def ownFields (flags : CountFlags) (name : Option String) : Dict Json :=
  (if flags.isEmpty then [] else [(flagsKey, .int flags.bits.toInt32)])
    ++ (match name with
        | some name => [(nameKey, .str name)]
        | none => [])

/-- The entries of a terminator one after the other, or null when there are none. -/
def terminatorOf (named : Dict Json) (flags : CountFlags) (name : Option String) : Json :=
  if (named ++ ownFields flags name).isEmpty then .null else .obj (named ++ ownFields flags name)

variable {named : Dict Json} {flags : CountFlags} {name : Option String}

theorem get?_ownFields_flags : Dict.get? (ownFields flags name) flagsKey =
    if flags.isEmpty then none else some (.int flags.bits.toInt32) := by
  simp only [ownFields]
  split <;> cases name <;> simp [Dict.get?, flagsKey, nameKey]

theorem get?_ownFields_name : Dict.get? (ownFields flags name) nameKey = name.map .str := by
  simp only [ownFields]
  split <;> cases name <;> simp [Dict.get?, flagsKey, nameKey]

theorem keys_ownFields_nodup : (Dict.keys (ownFields flags name)).Nodup := by
  simp only [ownFields]
  split <;> cases name <;> simp [Dict.keys, flagsKey, nameKey]

/-- Flags are told when there are any, and the name when there is one. -/
theorem mem_keys_ownFields {key : String} :
    key ∈ Dict.keys (ownFields flags name) ↔
      key = flagsKey ∧ flags.isEmpty = false ∨ key = nameKey ∧ name.isSome := by
  simp only [ownFields]
  cases flags.isEmpty <;> cases name <;> simp [Dict.keys]

/-- A terminator whose keys are all different lists the children first. -/
theorem terminator_eq (hnodup : (Dict.keys named).Nodup)
    (hkeys : ∀ key ∈ Dict.keys named, key ∉ Dict.keys (ownFields flags name)) :
    terminator named flags name = terminatorOf named flags name := by
  have hall : (Dict.keys (named ++ ownFields flags name)).Nodup := by
    rw [Dict.keys, List.map_append]
    exact hnodup.append keys_ownFields_nodup hkeys
  have hinsert : Dict.insertAll (Dict.ofList named) (ownFields flags name) =
      named ++ ownFields flags name := by
    rw [Dict.ofList_of_nodup hnodup, Dict.insertAll_of_nodup hall]
  simp only [terminator, terminatorOf]
  change (if (Dict.insertAll (Dict.ofList named) (ownFields flags name)).isEmpty then Json.null
    else .obj (Dict.insertAll (Dict.ofList named) (ownFields flags name))) = _
  rw [hinsert]

end Wire

theorem Outline.keys_encodeNamed (named : List (String × Outline)) :
    Dict.keys (encodeNamed named) = named.map Prod.fst := by
  induction named with
  | nil => rfl
  | cons entry rest ih => simpa [encodeNamed, Dict.keys] using ih

end Narrative
