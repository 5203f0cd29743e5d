import Changelog.Proofs.Header.Grammar
import Changelog.Proofs.Section.Conservation
import Changelog.Proofs.Section.Order
import Mathlib

/-!
# The lines of a written document

The lines that a document is written from and the lines of its text are not the same thing: nothing
is escaped, so a line feed in a title, in a scope or in a hash makes two lines of one.  The lines of
the text are the lines of each line that was written, and a line without a line feed is its own.

Titles have no line feed if labels have none, since a type code cannot contain one.  Then whatever
reads like a list item in the text stems from a list item.
-/

namespace Changelog

/-- Splitting joined parts splits each part. -/
theorem splitOn_intercalate_flatMap
    {α : Type} [BEq α] [LawfulBEq α] {x : α} {parts : List (List α)} (h : parts ≠ []) :
    ([x].intercalate parts).splitOn x = parts.flatMap (·.splitOn x) := by
  induction parts with
  | nil => exact absurd rfl h
  | cons first others ih =>
      cases others with
      | nil => simp
      | cons second others =>
          rw [List.intercalate_cons_cons, List.append_assoc, List.singleton_append,
            List.splitOn_append_cons_self, ih (List.cons_ne_nil _ _)]
          rfl

/-- The texts of a change are on one line each. -/
structure Change.SingleLine (change : Change) : Prop where
  hash : '\n' ∉ change.hash.toList
  scope : ∀ scope ∈ change.scope?, '\n' ∉ scope.toList
  message : '\n' ∉ change.message.toList
  issues : ∀ issue ∈ change.issues, '\n' ∉ issue.toList

/-- If the texts of a change are on one line, so is its list item. -/
theorem Change.SingleLine.lineFeed_not_mem_line {change : Change} (h : change.SingleLine) :
    '\n' ∉ change.line.toList := by
  have hscope :
      '\n' ∉ (change.scope?.elim "" fun scope => "**" ++ scope ++ "**: ").toList := by
    cases hscope : change.scope? with
    | none => simp
    | some scope => simpa [String.toList_append] using h.scope scope hscope
  have hissues : '\n' ∉ (String.join (change.issues.map (", " ++ ·))).toList := by
    simpa [String.toList_join, String.toList_append] using h.issues
  simp only [Change.line, String.toList_append, List.mem_append, not_or]
  exact ⟨⟨⟨⟨⟨⟨by decide, hscope⟩, h.message⟩, by decide⟩, h.hash⟩, hissues⟩, by decide⟩

namespace Section

/-- The lines of a text. -/
def textLines (text : String) : List String := (text.toList.splitOn '\n').map String.ofList

theorem textLines_eq_singleton {line : String} (h : '\n' ∉ line.toList) :
    textLines line = [line] := by
  rw [textLines, List.splitOn_eq_singleton h, List.map_singleton, String.ofList_toList]

/-- A document without sections is empty, and any other one begins with a line feed. -/
theorem document_eq_empty_iff {sections : List Section} :
    document sections = "" ↔ sections = [] := by
  constructor
  · intro h
    cases sections with
    | nil => rfl
    | cons first others =>
        rw [document, documentLines, List.flatMap_cons, lines, List.cons_append, List.cons_append,
          String.intercalate_cons_cons] at h
        simp [lineEnding] at h
  · rintro rfl
    rfl

/-- A document is written from three lines for each section and one for each change. -/
theorem length_documentLines (sections : List Section) :
    (documentLines sections).length = 3 * sections.length + (flatten sections).length := by
  induction sections with
  | nil => rfl
  | cons s sections ih =>
      simp only [documentLines, flatten] at ih
      simp only [documentLines, flatten, List.flatMap_cons, List.length_append, List.length_cons,
        length_lines, ih]
      omega

/-- The lines of the text of a document are those of the lines that it is written from. -/
theorem textLines_document {sections : List Section} (h : sections ≠ []) :
    textLines (document sections) = (documentLines sections).flatMap textLines := by
  have hlines : (documentLines sections).map String.toList ≠ [] := by
    obtain ⟨first, others, rfl⟩ := List.exists_cons_of_ne_nil h
    exact List.cons_ne_nil _ _
  have hending : lineEnding.toList = ['\n'] := by decide
  rw [textLines, document, String.toList_intercalate, hending, splitOn_intercalate_flatMap hlines,
    List.flatMap_map, List.map_flatMap]
  rfl

/-- Where titles and changes are on one line, the lines of the text of a document are those that it is
written from. -/
theorem textLines_document_of_singleLine
    {sections : List Section} (hne : sections ≠ [])
    (htitles : ∀ s ∈ sections, '\n' ∉ s.title.toList)
    (hchanges : ∀ s ∈ sections, ∀ change ∈ s.changes, change.SingleLine) :
    textLines (document sections) = documentLines sections := by
  have hlines : ∀ line ∈ documentLines sections, textLines line = [line] := by
    intro line hline
    obtain ⟨s, hs, hline⟩ := List.mem_flatMap.mp hline
    rw [lines_eq, List.mem_append] at hline
    rcases hline with hframe | hitem
    · simp only [frame, List.mem_cons, List.not_mem_nil, or_false] at hframe
      rcases hframe with rfl | rfl | rfl
      · exact textLines_eq_singleton (by decide)
      · exact textLines_eq_singleton (by simpa [String.toList_append] using htitles s hs)
      · exact textLines_eq_singleton (by decide)
    · obtain ⟨change, hchange, rfl⟩ := List.mem_map.mp hitem
      exact textLines_eq_singleton (hchanges s hs change hchange).lineFeed_not_mem_line
  rw [textLines_document hne, List.flatMap_congr hlines, List.flatMap_singleton']

/-- The frame of a section whose title is on one line has no list items. -/
theorem filter_isItem_textLines_frame {s : Section} (h : '\n' ∉ s.title.toList) :
    (s.frame.flatMap textLines).filter isItem = [] := by
  have hheading : '\n' ∉ ("### " ++ s.title).toList := by
    simpa [String.toList_append] using h
  have hblank : '\n' ∉ "".toList := by decide
  have hlines : s.frame.flatMap textLines = s.frame := by
    simp [frame, textLines_eq_singleton hheading, textLines_eq_singleton hblank]
  rw [hlines, List.filter_eq_nil_iff]
  intro line hline
  simp [isItem_of_mem_frame hline]

/-- Where titles are on one line, the list items in the text of a document stem from its changes. -/
theorem filter_isItem_textLines_document
    {sections : List Section} (h : ∀ s ∈ sections, '\n' ∉ s.title.toList) :
    (textLines (document sections)).filter isItem =
      (flatten sections).flatMap fun change => (textLines change.line).filter isItem := by
  by_cases hempty : sections = []
  · subst hempty
    decide +kernel
  · rw [textLines_document hempty, documentLines, List.flatMap_assoc, List.filter_flatMap, flatten,
      List.flatMap_assoc]
    refine List.flatMap_congr fun s hs => ?_
    rw [lines_eq, List.flatMap_append, List.filter_append, filter_isItem_textLines_frame (h s hs),
      List.nil_append, List.flatMap_map, List.filter_flatMap]

end Section

namespace HeadingTable

variable {table : HeadingTable}

/-- A changelog is empty if there are entries, but none has a conventional header. -/
theorem document?_eq_some_empty_iff {entries : List LogEntry} :
    table.document? entries = some "" ↔
      entries ≠ [] ∧ ∀ entry ∈ entries, entry.isConventional = false := by
  have hsections : table.sections entries = [] ↔ _ := sections_eq_nil_iff
  rw [← hsections, ← Section.document_eq_empty_iff]
  by_cases hempty : entries = []
  · simp [hempty]
  · simp [hempty, document?]

/-- No label has a line feed. -/
def SingleLine (table : HeadingTable) : Prop :=
  ∀ code label : String, table.labels[code]? = some label → '\n' ∉ label.toList

/-- A type code has no line feed. -/
theorem lineFeed_not_mem_code {cs : List Char} {header : Header}
    (h : Header.parse? cs = some header) : '\n' ∉ header.code.toList := by
  obtain ⟨code, _, _, _, hreading, -, rfl⟩ := Header.parse?_eq_some_iff.mp h
  intro hmem
  rw [String.toList_ofList] at hmem
  exact absurd (hreading.isCode.2 _ hmem) (by decide)

/-- A bare code of a change is the code of a header. -/
theorem exists_code_of_mem_changes
    {entries : List LogEntry} {change : Change} (h : change ∈ table.changes entries)
    {code : String} (hcode : change.heading = .unformatted code) :
    ∃ entry ∈ entries, ∃ header, Header.parse? entry.header.toList = some header ∧
      header.code = code := by
  obtain ⟨entry, hmem, hentry⟩ := List.mem_filterMap.mp h
  obtain ⟨header, hheader, rfl⟩ := Option.map_eq_some_iff.mp hentry
  refine ⟨entry, hmem, header, hheader, ?_⟩
  change table.resolve header.code = .unformatted code at hcode
  unfold resolve at hcode
  split at hcode
  · cases hcode
  · exact Heading.unformatted.inj hcode

/-- If labels are on one line, so are the titles of changes. -/
theorem SingleLine.lineFeed_not_mem_title
    (h : table.SingleLine) {entries : List LogEntry} {change : Change}
    (hmem : change ∈ table.changes entries) : '\n' ∉ change.title.toList := by
  cases hheading : change.heading with
  | labelled label =>
      obtain ⟨code, hlabel⟩ := exists_label_of_mem_changes hmem (by rw [hheading]; rfl)
      exact h code _ hlabel
  | unformatted code =>
      obtain ⟨entry, -, header, hheader, rfl⟩ := exists_code_of_mem_changes hmem hheading
      have hmark : '\n' ∉ (unformattedMark ++ " ").toList := by decide
      rw [Change.title, hheading, Heading.title, String.toList_append, List.mem_append]
      exact not_or.mpr ⟨hmark, lineFeed_not_mem_code hheader⟩

/-- If labels are on one line, so are the titles of sections. -/
theorem SingleLine.lineFeed_not_mem_sections
    (h : table.SingleLine) {entries : List LogEntry} :
    ∀ s ∈ table.sections entries, '\n' ∉ s.title.toList := by
  intro s hs
  obtain ⟨change, hchange, htitle⟩ := Section.mem_title_of_mem_group hs
  rw [← htitle]
  exact h.lineFeed_not_mem_title ((Change.sort_perm _).mem_iff.mp hchange)

end HeadingTable

end Changelog
