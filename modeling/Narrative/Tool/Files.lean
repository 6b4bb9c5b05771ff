/-!
# Access to files

Commands work on files through an interface, so that what they do can be stated
without a file system.
-/

namespace Narrative.Tool

/-- Access to files. -/
structure Files (m : Type → Type) where
  /-- The text of a file; `none` when it cannot be read or is not UTF-8. -/
  read : String → m (Option String)
  /-- Writes a file; `false` when it cannot be created. -/
  write : String → String → m Bool

end Narrative.Tool
