import Std.Data.HashMap
import Changelog.Section.Basic

/-!
# Sections with an index

Collecting changes takes no search for the section of a title if an index beside the sections gives
the position where it stands.  Sections and index are two structures that change together.  A position
at which no section stood would leave a change without a place, so collecting this way can fail.
-/

namespace Changelog.Section

/-- Sections, and for each title the position at which its section stands. -/
structure Indexed where
  /-- The sections, in the order in which they were opened. -/
  sections : List Section := []
  /-- The positions of the sections by their titles. -/
  positions : Std.HashMap String Nat := ∅

namespace Indexed

/-- The position of a title.  A title without one gets an empty section at the end. -/
def place (indexed : Indexed) (title : String) : Nat × Indexed :=
  match indexed.positions[title]? with
  | some position => (position, indexed)
  | none =>
    let position := indexed.sections.length
    (position,
      { sections := indexed.sections ++ [⟨title, []⟩]
        positions := indexed.positions.insert title position })

/-- Add a change at the end of the section at the position of its title, if a section stands there. -/
def add? (indexed : Indexed) (change : Change) : Option Indexed :=
  let (position, placed) := indexed.place change.title
  placed.sections[position]?.map fun s =>
    { placed with
      sections := placed.sections.set position { s with changes := s.changes ++ [change] } }

end Indexed

/-- Collect changes into sections with the help of an index. -/
def collect? (changes : List Change) : Option (List Section) :=
  (changes.foldlM Indexed.add? {}).map Indexed.sections

end Changelog.Section
