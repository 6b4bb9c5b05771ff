/-!
# Command lines

A command line is a command with its files, and the flag `-v` or `--verbose`
before or after the command. Options may stand anywhere after the command until
`--` ends them; short ones may be written together and may hold their value. A
command line that breaks a rule is refused as a whole.
-/

namespace Narrative.Tool

/-- What the tool is asked to do. -/
inductive Command where
  | inspect (file : String)
  | checkSave (file : String)
  | roundtrip (file : String) (output : Option String)
  | sample (output : Option String)
deriving DecidableEq

/-- A command line. -/
structure Invocation where
  command : Command
  verbose : Bool := false
deriving DecidableEq

/-- Which log messages are shown unless the environment says otherwise. -/
def Invocation.logFilter (invocation : Invocation) : String :=
  if invocation.verbose then "debug" else "warn,story_cli=info"

/-- The commands by name. -/
inductive CommandName where
  | inspect
  | checkSave
  | roundtrip
  | sample
deriving DecidableEq

namespace CommandName

def ofText? (text : String) : Option CommandName :=
  if text = "inspect" then some inspect
  else if text = "check-save" then some checkSave
  else if text = "roundtrip" then some roundtrip
  else if text = "sample" then some sample
  else none

def takesFile : CommandName → Bool
  | sample => false
  | _ => true

def takesOutput : CommandName → Bool
  | roundtrip => true
  | sample => true
  | _ => false

/-- The command with the files it was given. -/
def command? : CommandName → (file output : Option String) → Option Command
  | inspect, some file, _ => some (.inspect file)
  | checkSave, some file, _ => some (.checkSave file)
  | roundtrip, some file, output => some (.roundtrip file output)
  | sample, _, output => some (.sample output)
  | _, none, _ => none

end CommandName

/-- Arguments after the command, as far as they were read. -/
structure Arguments where
  verbose : Bool := false
  file : Option String := none
  output : Option String := none
  /-- Whether the next argument is the value of the output option. -/
  awaitsOutput : Bool := false
  /-- Whether options have ended. -/
  optionsEnded : Bool := false

namespace Arguments

/-- Sets the flag, once. -/
def setVerbose (arguments : Arguments) : Option Arguments :=
  if arguments.verbose then none else some { arguments with verbose := true }

/-- A file that the command works on, if it takes one and has none yet. -/
def setFile (name : CommandName) (arguments : Arguments) (file : String) : Option Arguments :=
  if name.takesFile && arguments.file.isNone && !file.isEmpty then
    some { arguments with file := some file }
  else none

/-- The value of the output option, if the command takes one and has none yet. -/
def setOutput (name : CommandName) (arguments : Arguments) (file : String) : Option Arguments :=
  if name.takesOutput && arguments.output.isNone && !file.isEmpty then
    some { arguments with output := some file, awaitsOutput := false }
  else none

/-- The output option without its value. -/
def awaitOutput (name : CommandName) (arguments : Arguments) : Option Arguments :=
  if name.takesOutput && arguments.output.isNone then
    some { arguments with awaitsOutput := true }
  else none

/-- Short options written together, the value of the last one included. -/
def readShort (name : CommandName) (arguments : Arguments) : List Char → Option Arguments
  | [] => some arguments
  | 'v' :: rest =>
    match arguments.setVerbose with
    | some arguments => readShort name arguments rest
    | none => none
  | 'o' :: [] => arguments.awaitOutput name
  | 'o' :: '=' :: value => arguments.setOutput name (String.ofList value)
  | 'o' :: value => arguments.setOutput name (String.ofList value)
  | _ => none

/-- A long option, without its dashes. -/
def readLong (name : CommandName) (arguments : Arguments) (option : List Char) :
    Option Arguments :=
  if option = "verbose".toList then arguments.setVerbose
  else if option = "output".toList then arguments.awaitOutput name
  else if "output=".toList.isPrefixOf option then
    arguments.setOutput name (String.ofList (option.drop 7))
  else none

/-- One argument after the command. -/
def read (name : CommandName) (arguments : Arguments) (argument : String) : Option Arguments :=
  if arguments.optionsEnded then arguments.setFile name argument
  else if arguments.awaitsOutput then
    match argument.toList with
    | '-' :: _ :: _ => none
    | _ => arguments.setOutput name argument
  else
    match argument.toList with
    | ['-', '-'] => some { arguments with optionsEnded := true }
    | '-' :: '-' :: option => arguments.readLong name option
    | '-' :: option :: options => arguments.readShort name (option :: options)
    | _ => arguments.setFile name argument

/-- All arguments after the command. -/
def readAll (name : CommandName) : Arguments → List String → Option Arguments
  | arguments, [] => if arguments.awaitsOutput then none else some arguments
  | arguments, argument :: rest =>
    match arguments.read name argument with
    | some arguments => readAll name arguments rest
    | none => none

end Arguments

namespace Invocation

/-- The arguments after the name of the tool; the flag may come before the command, once. -/
def ofArguments? (verbose : Bool) : List String → Option Invocation
  | [] => none
  | argument :: rest =>
    if argument = "-v" ∨ argument = "--verbose" then
      if verbose then none else ofArguments? true rest
    else do
      let name ← CommandName.ofText? argument
      let arguments ← Arguments.readAll name {} rest
      let command ← name.command? arguments.file arguments.output
      some { command, verbose := verbose || arguments.verbose }

/-- A command line, the name of the tool first. -/
def ofCommandLine? (words : List String) : Option Invocation := ofArguments? false words.tail

end Invocation

end Narrative.Tool
