/-!
# Dictionaries in insertion order

A dictionary is a list of named entries. Inserting under a name that is already
there replaces the value in place, so the first insertion of a name fixes its
position and the last one its value.
-/

namespace Narrative

/-- Named entries in the order of their first insertion. -/
abbrev Dict (α : Type) := List (String × α)

namespace Dict

variable {α : Type}

/-- The first value under a name. -/
def get? : Dict α → String → Option α
  | [], _ => none
  | (key, value) :: rest, name => if key = name then some value else get? rest name

def contains (entries : Dict α) (name : String) : Bool := (get? entries name).isSome

/-- Sets a name: in place when it is there, at the end when it is not. -/
def insert : Dict α → String → α → Dict α
  | [], name, value => [(name, value)]
  | (key, old) :: rest, name, value =>
    if key = name then (key, value) :: rest else (key, old) :: insert rest name value

/-- Inserts entries one after the other. -/
def insertAll (entries : Dict α) (more : List (String × α)) : Dict α :=
  more.foldl (fun entries entry => insert entries entry.1 entry.2) entries

/-- The dictionary of a list of entries: a repeated name keeps its first position and its last value. -/
def ofList (entries : List (String × α)) : Dict α := insertAll [] entries

def keys (entries : Dict α) : List String := entries.map Prod.fst

/-- The entries whose names satisfy a test. -/
def filterKeys (keep : String → Bool) (entries : Dict α) : Dict α :=
  entries.filter fun entry => keep entry.1

end Dict

end Narrative
