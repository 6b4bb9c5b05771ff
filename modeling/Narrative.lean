import Narrative.Compiler
import Narrative.Document
import Narrative.Json.Script
import Narrative.Main
import Narrative.SaveState
import Narrative.Tool.Run
import Narrative.Proofs.Correspondence
import Narrative.Proofs.Tree.Lookup
import Narrative.Proofs.Tree.WellFormed
import Narrative.Proofs.Tree.Changes
import Narrative.Proofs.Tree.Editing
import Narrative.Proofs.Tree.Layout
import Narrative.Proofs.Tree.Planting
import Narrative.Proofs.Wire.Reading
import Narrative.Proofs.Tree.Naming
import Narrative.Proofs.Tree.Reachable
import Narrative.Proofs.Path
import Narrative.Proofs.Wire.LeafTokens
import Narrative.Proofs.Tree.Planted
import Narrative.Proofs.Wire.RoundTrip
import Narrative.Proofs.Tree.Comparison
import Narrative.Proofs.Tree.SameShape
import Narrative.Proofs.Wire.Storable
import Narrative.Proofs.Document
import Narrative.Proofs.SaveState
import Narrative.Proofs.Restoring
import Narrative.Proofs.Wire.NormalForm
import Narrative.Proofs.Json.Rendering
import Narrative.Proofs.Wire.Streaming
import Narrative.Proofs.Wire.StreamedText
import Narrative.Proofs.Tree.Addresses
import Narrative.Proofs.Json.Completion
import Narrative.Proofs.Json.Depth
import Narrative.Proofs.Json.ReadingBack
import Narrative.Proofs.Tree.Growth
import Narrative.Proofs.Compiler.Mentions
import Narrative.Proofs.Compiler.Wording
import Narrative.Proofs.Compiler.Composition
import Narrative.Proofs.Compiler.Plans
import Narrative.Proofs.Compiler.Written
import Narrative.Proofs.Compiler.Questions
import Narrative.Proofs.Compiler.Vocabulary
import Narrative.Proofs.Compiler.Balance
import Narrative.Proofs.Compiler.Jumps
import Narrative.Proofs.Compiler.Entries
import Narrative.Proofs.Compiler.Blocks
import Narrative.Proofs.Compiler.Sites
import Narrative.Proofs.Compiler.Placed
import Narrative.Proofs.Compiler.Passages
import Narrative.Proofs.Compiler.Resolving
import Narrative.Proofs.Compiler.Verdicts
import Narrative.Proofs.Compiler.Refusals
import Narrative.Proofs.Compiler.Documents
import Narrative.Proofs.Compiler.References
import Narrative.Proofs.Compiler.Outcomes
import Narrative.Proofs.Compiler.Brackets
import Narrative.Proofs.Compiler.Arity
import Narrative.Proofs.Compiler.Counting
import Narrative.Proofs.Tree.Alike
import Narrative.Proofs.Compiler.Reordering
import Narrative.Proofs.Compiler.Order
import Narrative.Proofs.Json.Kept
import Narrative.Proofs.Tree.SameOutline
import Narrative.Proofs.Wire.Reloading
import Narrative.Proofs.Compiler.Plain
import Narrative.Proofs.Compiler.Reload
import Narrative.Proofs.Wire.Legible
import Narrative.Proofs.Roundtrip
import Narrative.Proofs.Tree.Refusal
import Narrative.Proofs.Tree.Moves
import Narrative.Proofs.Wire.Allocation
import Narrative.Proofs.Wire.Acceptance
import Narrative.Proofs.Tree.Preorder
import Narrative.Proofs.Tree.Meaning
import Narrative.Proofs.Compiler.LookUps
import Narrative.Proofs.Compiler.Rooted
import Narrative.Proofs.Json.Escaping
import Narrative.Proofs.Json.InPieces
import Narrative.Proofs.Tree.ParentSteps
import Narrative.Proofs.CallRanges
