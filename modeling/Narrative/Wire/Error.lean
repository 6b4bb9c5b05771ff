import Narrative.Json.Octets
import Narrative.Tree.Edit

/-!
# Why a document is not read

Each cause with the text it is reported by. Tokens are quoted as JSON text.
-/

namespace Narrative

/-- Why tokens do not make content, a document or a save state. -/
inductive DecodeError where
  | json (error : Json.ReadError)
  | tree (error : TreeError)
  | unrecognizedToken (token : String)
  | invalidField (field token : String)
  | missingField (field token : String)
  | missingTerminator
  | invalidTerminator (token : String)
  | namedContentNotContainer (name : String)
  | expectedObject (found : String)
  | rootNotContainer (token : String)
  | versionTooNew (found current : Int)
  | versionTooOld (found minimum : Int)
deriving DecidableEq

namespace DecodeError

/-- The text of an error; errors in the JSON text itself have one only when they name a value. -/
def message : DecodeError → Option String
  | json error => error.message
  | tree error => some error.message
  | unrecognizedToken token => some ("failed to convert token to runtime object: " ++ token)
  | invalidField field token => some ("field '" ++ field ++ "' has the wrong type in " ++ token)
  | missingField field token => some ("missing field '" ++ field ++ "' in " ++ token)
  | missingTerminator => some "container array is missing its terminator"
  | invalidTerminator token => some ("invalid container terminator: " ++ token)
  | namedContentNotContainer name => some ("named content '" ++ name ++ "' is not a container")
  | expectedObject found => some ("expected a JSON object at top level, found " ++ found)
  | rootNotContainer token => some ("root content is not a container: " ++ token)
  | versionTooNew found current =>
    some ("format version " ++ found.repr ++ " is newer than the supported version "
      ++ current.repr)
  | versionTooOld found minimum =>
    some ("format version " ++ found.repr ++ " is older than the minimum compatible version "
      ++ minimum.repr)

end DecodeError

end Narrative
