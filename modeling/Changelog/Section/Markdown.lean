import Changelog.Section.Basic

/-!
# Sections as Markdown

A section is written as an empty line, its title as a heading of the third level, another empty
line and one list item for each change: `- **scope**: message [hash, #1, #2]`.  Nothing is escaped.
Lines are separated by line feeds, and there is none after the last line.
-/

namespace Changelog

/-- What separates the lines of a document. -/
def lineEnding : String := "\n"

/-- The list item of a change. -/
def Change.line (change : Change) : String :=
  "- " ++ (change.scope?.elim "" fun scope => "**" ++ scope ++ "**: ") ++ change.message ++
    " [" ++ change.hash ++ String.join (change.issues.map (", " ++ ·)) ++ "]"

namespace Section

/-- The lines of one section. -/
def lines (s : Section) : List String :=
  "" :: ("### " ++ s.title) :: "" :: s.changes.map Change.line

/-- The lines of a document. -/
def documentLines (sections : List Section) : List String :=
  sections.flatMap lines

/-- The text of a document. -/
def document (sections : List Section) : String :=
  lineEnding.intercalate (documentLines sections)

/-- A section has three lines of its own and one for each change. -/
@[simp] theorem length_lines (s : Section) : s.lines.length = 3 + s.changes.length := by
  simp [lines]
  omega

end Section

end Changelog
