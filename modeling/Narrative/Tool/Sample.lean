import Narrative.Story

/-!
# A sample story

A small story that has every kind of statement and most kinds of calls.
-/

namespace Narrative.Tool

/-- A function that greets someone by name. -/
def greet : Flow :=
  .mk "greet" .function ["who"]
    [{ action := .text "Welcome, " }, { action := .output (.name "who") }, { action := .newline }]
    [] none

/-- A place below the cellar door. -/
def stairs : Flow :=
  .mk "stairs" .stitch []
    [{ action := .output (.call "TURNS_SINCE" [.target "cellar"] none) },
      { action := .call { name := "play_sound", arguments := [.string "creak"] } },
      { action := .divert "DONE" }]
    [] none

/-- A place where gold is found. -/
def cellar : Flow :=
  .mk "cellar" .knot []
    [{ action := .text "It is dark." }, { action := .newline },
      { action := .assign "gold"
          (.binary .add (.name "gold") (.call "RANDOM" [.int 1, .int 6] none)) false },
      { action := .tag "dark" }, { action := .divert "END" }]
    [stairs] none

def sampleStory : Story :=
  { root :=
      [{ action := .call { name := "greet", arguments := [.string "traveller"] } },
        { action := .text "You stand at the top of the stairs." }, { action := .newline },
        { action := .divert "cellar" }]
    flows := [greet, cellar]
    globals := [{ name := "gold", value := .int 0 }]
    externals := [{ name := "play_sound", parameters := ["name"] }] }

end Narrative.Tool
