/-!
# Cutting texts

Texts with parts that a separator divides. Cutting keeps empty parts, so there is
one part more than there are separators.
-/

namespace Narrative

/-- Cuts a text at every separator; there is always at least one piece. -/
def segmentsAt (separator : Char) : List Char → List (List Char)
  | [] => [[]]
  | c :: rest =>
    if c = separator then [] :: segmentsAt separator rest
    else match segmentsAt separator rest with
      | [] => [[c]]
      | piece :: pieces => (c :: piece) :: pieces

end Narrative
