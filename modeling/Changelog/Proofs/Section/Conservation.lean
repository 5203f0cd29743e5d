import Changelog.Document
import Changelog.Proofs.Section.Group

/-!
# From a log to the lines of its changelog

Entries are read, sorted, collected into sections and written.  Reading drops the entries without a
conventional header and nothing else; the other steps only move changes.  So the list items of a
changelog are those of the changes of the log, in some order, and what is not a list item frames a
section.
-/

namespace Changelog

namespace Section

/-- Whether a line of a document is a list item. -/
def isItem (line : String) : Bool := "- ".toList.isPrefixOf line.toList

/-- The lines of a section that are no list items. -/
def frame (s : Section) : List String := ["", "### " ++ s.title, ""]

theorem isItem_line (change : Change) : isItem change.line = true := by
  simp [isItem, Change.line, String.toList_append, List.isPrefixOf]

theorem isItem_of_mem_frame
    {s : Section} {line : String} (h : line ∈ s.frame) : isItem line = false := by
  simp only [frame, List.mem_cons, List.not_mem_nil, or_false] at h
  rcases h with rfl | rfl | rfl
  · rfl
  · simp [isItem, String.toList_append, List.isPrefixOf]
  · rfl

theorem lines_eq (s : Section) : s.lines = s.frame ++ s.changes.map Change.line := rfl

/-- The list items of a section are those of its changes. -/
theorem filter_isItem_lines (s : Section) :
    s.lines.filter isItem = s.changes.map Change.line := by
  have hframe : s.frame.filter isItem = [] := by
    rw [List.filter_eq_nil_iff]
    intro line hline
    simp [isItem_of_mem_frame hline]
  have hitems : (s.changes.map Change.line).filter isItem = s.changes.map Change.line := by
    rw [List.filter_eq_self]
    intro line hline
    obtain ⟨change, -, rfl⟩ := List.mem_map.mp hline
    exact isItem_line change
  rw [lines_eq, List.filter_append, hframe, hitems, List.nil_append]

/-- What is no list item of a section frames it. -/
theorem filter_not_isItem_lines (s : Section) :
    (s.lines.filter fun line => !isItem line) = s.frame := by
  have hframe : (s.frame.filter fun line => !isItem line) = s.frame := by
    rw [List.filter_eq_self]
    intro line hline
    simp [isItem_of_mem_frame hline]
  have hitems : ((s.changes.map Change.line).filter fun line => !isItem line) = [] := by
    rw [List.filter_eq_nil_iff]
    intro line hline
    obtain ⟨change, -, rfl⟩ := List.mem_map.mp hline
    simp [isItem_line change]
  rw [lines_eq, List.filter_append, hframe, hitems, List.append_nil]

/-- The list items of a document are those of the changes in its sections. -/
theorem filter_isItem_documentLines (sections : List Section) :
    (documentLines sections).filter isItem = (flatten sections).map Change.line := by
  simp only [documentLines, flatten, List.filter_flatMap, filter_isItem_lines, List.map_flatMap]

/-- What is no list item of a document frames its sections. -/
theorem filter_not_isItem_documentLines (sections : List Section) :
    ((documentLines sections).filter fun line => !isItem line) = sections.flatMap frame := by
  simp only [documentLines, List.filter_flatMap, filter_not_isItem_lines]

end Section

/-- Whether the header of an entry is conventional. -/
def LogEntry.isConventional (entry : LogEntry) : Bool := (Header.parse? entry.header.toList).isSome

namespace HeadingTable

theorem change?_eq_none_iff {table : HeadingTable} {entry : LogEntry} :
    table.change? entry = none ↔ entry.isConventional = false := by
  simp [change?, LogEntry.isConventional]

/-- The sections of a log hold its changes and no others, each as often as the log has it. -/
theorem flatten_sections_perm
    (table : HeadingTable) (entries : List LogEntry) :
    (Section.flatten (table.sections entries)).Perm (table.changes entries) :=
  (Section.flatten_group_perm _).trans (Change.sort_perm _)

/-- A log has no sections exactly if none of its headers is conventional. -/
theorem sections_eq_nil_iff {table : HeadingTable} {entries : List LogEntry} :
    table.sections entries = [] ↔ ∀ entry ∈ entries, entry.isConventional = false := by
  have hchanges :
      table.changes entries = [] ↔ ∀ entry ∈ entries, entry.isConventional = false := by
    simp only [changes, List.filterMap_eq_nil_iff, change?_eq_none_iff]
  rw [← hchanges]
  constructor
  · intro h
    have hperm := table.flatten_sections_perm entries
    rw [h] at hperm
    exact hperm.symm.eq_nil
  · intro h
    simp [sections, h, Change.sort, Section.group]

/-- Nothing is lost, repeated or altered on the way from a log to the lines of its changelog.  The
sections hold the changes of the log, each as often as the log has it; no section is empty, no two
have one title, and each change stands under its own title.  The list items of the document are
those of the changes, and each section has three further lines. -/
theorem sections_conserve_changes
    (table : HeadingTable) (entries : List LogEntry) :
    (Section.flatten (table.sections entries)).Perm (entries.filterMap table.change?) ∧
      (∀ s ∈ table.sections entries, s.changes ≠ []) ∧
      ((table.sections entries).map Section.title).Nodup ∧
      (∀ s ∈ table.sections entries, ∀ change ∈ s.changes, change.title = s.title) ∧
      ((Section.documentLines (table.sections entries)).filter Section.isItem).Perm
        ((entries.filterMap table.change?).map Change.line) ∧
      ((Section.documentLines (table.sections entries)).filter fun line =>
          !Section.isItem line) =
        (table.sections entries).flatMap fun s => ["", "### " ++ s.title, ""] := by
  have hperm := table.flatten_sections_perm entries
  have hapart : Section.Apart (table.sections entries) := Section.apart_group _
  refine ⟨hperm, hapart.nonempty, hapart.titles, hapart.own, ?_, ?_⟩
  · rw [Section.filter_isItem_documentLines]
    exact hperm.map Change.line
  · exact Section.filter_not_isItem_documentLines _

end HeadingTable

end Changelog
