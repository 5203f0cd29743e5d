import Changelog.Section.Markdown

/-!
# The changelog of a log

The whole way from log entries to the text of a changelog: read the headers, sort the changes,
collect them into sections, write the sections.  A log without entries has no changelog.  A log
without a single change has one, and it is empty.
-/

namespace Changelog

namespace HeadingTable

/-- The sections of a log. -/
def sections (table : HeadingTable) (entries : List LogEntry) : List Section :=
  Section.group (Change.sort (table.changes entries))

/-- The changelog of a log, if the log has entries. -/
def document? (table : HeadingTable) (entries : List LogEntry) : Option String :=
  if entries.isEmpty then none else some (Section.document (table.sections entries))

@[simp] theorem document?_nil (table : HeadingTable) : table.document? [] = none := rfl

/-- There is a changelog exactly when there are entries. -/
theorem document?_isSome_iff
    (table : HeadingTable) (entries : List LogEntry) :
    (table.document? entries).isSome ↔ entries ≠ [] := by
  cases entries <;> simp [document?]

end HeadingTable

end Changelog
