import Narrative.Tool.Run

/-!
# The command line tool

Prints what a command reports. Exit codes: 0 on success, 1 when a command fails,
2 when the command line is refused.
-/

namespace Narrative.Tool

/-- The files of the machine. -/
def localFiles : Files IO where
  read file := try some <$> IO.FS.readFile file catch _ => pure none
  write file text := try IO.FS.writeFile file text; pure true catch _ => pure false

end Narrative.Tool

def main (words : List String) : IO UInt32 := do
  match Narrative.Tool.Invocation.ofCommandLine? ("storyc" :: words) with
  | none =>
    IO.eprintln
      "usage: storyc [-v] inspect FILE | check-save FILE | roundtrip FILE [-o OUTPUT] | sample [-o OUTPUT]"
    pure 2
  | some invocation =>
    match ← ExceptT.run (Narrative.Tool.Work.run Narrative.Tool.localFiles invocation.command) with
    | .ok text =>
      IO.println text
      pure 0
    | .error error =>
      IO.eprintln ("Error: " ++ error.message.getD "Could not access file")
      pure 1
