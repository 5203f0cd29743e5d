import Changelog.Proofs.Change.Key
import Changelog.Proofs.Section.Lines
import Mathlib

/-!
# What a changelog depends on

A changelog is made from two things, a log and a table of headings, and each leaves its mark on a
part of it only.

Of the log, only the order of changes of one heading and scope matters.  Entries without a
conventional header may come and go, and changes of different keys may be mixed in any way: sections
and text stay the same.  An empty log is set apart, since it has no changelog at all.

The table decides about headings and about the order, and never about the entries.  Two tables give
the same changes but for their headings, and the list items of the two changelogs are the same, each
as often.
-/

namespace Changelog

open List in
theorem filter_eq_map_get {α : Type} (p : α → Bool) (xs : List α) :
    xs.filter p = ((finRange xs.length).filter fun i => p (xs.get i)).map xs.get := by
  conv_lhs => rw [← map_get_finRange xs, filter_map]
  rfl

/-- What satisfies a condition stays as it is when a list is rearranged, if its order is kept: then the
positions before and after both ascend, and they are the same. -/
theorem filter_eq_of_place
    {α : Type} {p : α → Bool} {xs ys : List α} (place : Fin ys.length ≃ Fin xs.length)
    (hget : ∀ i, ys.get i = xs.get (place i))
    (hkept : ∀ i j, i < j → p (ys.get i) → p (ys.get j) → place i < place j) :
    xs.filter p = ys.filter p := by
  have hplaces : ((List.finRange ys.length).filter fun i => p (ys.get i)).map place =
      (List.finRange xs.length).filter fun i => p (xs.get i) := by
    apply List.SortedLT.eq_of_mem_iff
    · rw [List.sortedLT_iff_pairwise, List.pairwise_map]
      refine ((List.sortedLT_finRange _).pairwise.filter _).imp_of_mem fun {i j} hi hj hlt => ?_
      exact hkept i j hlt (List.mem_filter.mp hi).2 (List.mem_filter.mp hj).2
    · exact ((List.sortedLT_finRange _).pairwise.filter _).sortedLT
    · intro j
      constructor
      · intro hj
        obtain ⟨i, hi, rfl⟩ := List.mem_map.mp hj
        exact List.mem_filter.mpr ⟨List.mem_finRange _, hget i ▸ (List.mem_filter.mp hi).2⟩
      · intro hj
        refine List.mem_map.mpr ⟨place.symm j, ?_, place.apply_symm_apply j⟩
        refine List.mem_filter.mpr ⟨List.mem_finRange _, ?_⟩
        rw [hget, place.apply_symm_apply]
        exact (List.mem_filter.mp hj).2
  have hsame : xs.get ∘ place = ys.get := funext fun i => (hget i).symm
  rw [filter_eq_map_get p xs, ← hplaces, List.map_map, hsame, ← filter_eq_map_get]

namespace HeadingTable

variable {table table' : HeadingTable} {xs ys : List LogEntry}

/-! ## The log -/

/-- The key of the change that an entry describes, if it describes one. -/
def key? (table : HeadingTable) (entry : LogEntry) : Option (Heading × Option String) :=
  (table.change? entry).map Change.key

/-- The changes of each key are the same in two logs, and stand in the same order. -/
def Agree (table : HeadingTable) (xs ys : List LogEntry) : Prop :=
  ∀ key, Change.ofKey key (table.changes xs) = Change.ofKey key (table.changes ys)

/-- A log is another one rearranged, and no two entries of one key have changed places. -/
def Rearranged (table : HeadingTable) (xs ys : List LogEntry) : Prop :=
  ∃ place : Fin ys.length ≃ Fin xs.length, (∀ i, ys.get i = xs.get (place i)) ∧
    ∀ i j, i < j → (table.key? (ys.get i)).isSome →
      table.key? (ys.get i) = table.key? (ys.get j) → place i < place j

/-- Two logs have the same sections and, unless one of them is empty, the same text. -/
def SameChangelog (table : HeadingTable) (xs ys : List LogEntry) : Prop :=
  table.sections xs = table.sections ys ∧
    (xs ≠ [] → ys ≠ [] →
      ∃ text, table.document? xs = some text ∧ table.document? ys = some text)

theorem Agree.sameChangelog (h : table.Agree xs ys) : table.SameChangelog xs ys := by
  have hsections : table.sections xs = table.sections ys :=
    congrArg Section.group (Change.sort_eq_of_ofKey_eq h)
  refine ⟨hsections, fun hxs hys => ⟨Section.document (table.sections xs), ?_, ?_⟩⟩
  · simp [document?, hxs]
  · simp [document?, hys, hsections]

theorem changes_filter_isConventional (table : HeadingTable) (entries : List LogEntry) :
    table.changes (entries.filter LogEntry.isConventional) = table.changes entries := by
  rw [changes, changes, List.filterMap_filter]
  congr 1
  funext entry
  split
  · rfl
  next h => exact (change?_eq_none_iff.mpr (Bool.eq_false_iff.mpr h)).symm

theorem ofKey_changes (key : Heading × Option String) (entries : List LogEntry) :
    Change.ofKey key (table.changes entries) =
      (entries.filter (table.key? · = some key)).filterMap table.change? := by
  induction entries with
  | nil => rfl
  | cons entry entries ih =>
      cases hchange : table.change? entry with
      | none => simpa [changes, key?, hchange] using ih
      | some change =>
          by_cases hkey : change.key = key
          · simpa [changes, key?, hchange, hkey, Change.ofKey] using ih
          · simpa [changes, key?, hchange, hkey, Change.ofKey] using ih

theorem agree_of_filter_eq
    (h : xs.filter LogEntry.isConventional = ys.filter LogEntry.isConventional) :
    table.Agree xs ys := by
  intro key
  rw [← table.changes_filter_isConventional xs, h, changes_filter_isConventional]

theorem Rearranged.agree (h : table.Rearranged xs ys) : table.Agree xs ys := by
  obtain ⟨place, hget, hkept⟩ := h
  intro key
  rw [ofKey_changes, ofKey_changes, filter_eq_of_place place hget]
  intro i j hlt hi hj
  have hfirst := of_decide_eq_true hi
  apply hkept i j hlt
  · rw [hfirst]
    rfl
  · rw [hfirst, of_decide_eq_true hj]

/-- Two logs have one changelog if they agree on the changes of each heading and scope.  They do if
they have the same entries with conventional headers, and also if one is the other rearranged such
that entries of one heading and scope keep their order. -/
theorem changelog_determined_by_keys (table : HeadingTable) (xs ys : List LogEntry) :
    (table.Agree xs ys → table.SameChangelog xs ys) ∧
      (xs.filter LogEntry.isConventional = ys.filter LogEntry.isConventional →
        table.SameChangelog xs ys) ∧
      (table.Rearranged xs ys → table.SameChangelog xs ys) := by
  refine ⟨fun h => h.sameChangelog, fun h => ?_, fun h => ?_⟩
  · exact (agree_of_filter_eq h).sameChangelog
  · exact h.agree.sameChangelog

/-- Two changes of one key, with a change of another key and a merge between them. -/
def noisyLog : List LogEntry :=
  [⟨"h1", "fix(ui): a", ""⟩, ⟨"h2", "feat: b", ""⟩, ⟨"h3", "Merge branch", ""⟩,
    ⟨"h4", "fix(ui): c", "see #7"⟩]

/-- The same without the merge. -/
def quietLog : List LogEntry :=
  [⟨"h1", "fix(ui): a", ""⟩, ⟨"h2", "feat: b", ""⟩, ⟨"h4", "fix(ui): c", "see #7"⟩]

/-- The same with the change of the other key at the end. -/
def movedLog : List LogEntry :=
  [⟨"h1", "fix(ui): a", ""⟩, ⟨"h4", "fix(ui): c", "see #7"⟩, ⟨"h2", "feat: b", ""⟩]

/-- The merge and the place of the other change make no difference, alone or together. -/
theorem changelog_determined_by_keys_moved :
    builtin.SameChangelog noisyLog quietLog ∧ builtin.SameChangelog quietLog movedLog ∧
      builtin.Agree noisyLog movedLog ∧ builtin.SameChangelog noisyLog movedLog ∧
      noisyLog ≠ movedLog := by
  have hfilter :
      noisyLog.filter LogEntry.isConventional = quietLog.filter LogEntry.isConventional := by
    decide +kernel
  have hmoved : builtin.Rearranged quietLog movedLog :=
    ⟨(Equiv.swap 1 2 : Equiv.Perm (Fin 3)), by decide +kernel, by decide +kernel⟩
  have hagree : builtin.Agree noisyLog movedLog :=
    fun key => (agree_of_filter_eq hfilter key).trans (hmoved.agree key)
  refine ⟨?_, ?_, hagree, ?_, by decide⟩
  · exact (changelog_determined_by_keys builtin noisyLog quietLog).2.1 hfilter
  · exact (changelog_determined_by_keys builtin quietLog movedLog).2.2 hmoved
  · exact (changelog_determined_by_keys builtin noisyLog movedLog).1 hagree

/-! ## The table -/

/-- Under any two tables an entry describes a change or none, and the two changes differ at most in
their headings. -/
theorem forall₂_changes (table table' : HeadingTable) (entries : List LogEntry) :
    List.Forall₂
      (fun a b => a.hash = b.hash ∧ a.scope? = b.scope? ∧ a.message = b.message ∧
        a.issues = b.issues)
      (table.changes entries) (table'.changes entries) := by
  induction entries with
  | nil => exact List.Forall₂.nil
  | cons entry entries ih =>
      cases hheader : Header.parse? entry.header.toList with
      | none => simpa [changes, change?, hheader] using ih
      | some header => simpa [changes, change?, hheader] using ih

theorem map_line_changes (table table' : HeadingTable) (entries : List LogEntry) :
    (table.changes entries).map Change.line = (table'.changes entries).map Change.line := by
  rw [← List.forall₂_eq_eq_eq, List.forall₂_map_left_iff, List.forall₂_map_right_iff]
  refine (forall₂_changes table table' entries).imp fun a b h => ?_
  obtain ⟨hhash, hscope, hmessage, hissues⟩ := h
  rw [Change.line, Change.line, hhash, hscope, hmessage, hissues]

theorem map_line_flatten_perm (table table' : HeadingTable) (entries : List LogEntry) :
    ((Section.flatten (table.sections entries)).map Change.line).Perm
      ((Section.flatten (table'.sections entries)).map Change.line) := by
  have h := (table.flatten_sections_perm entries).map Change.line
  rw [map_line_changes table table'] at h
  exact h.trans ((table'.flatten_sections_perm entries).map Change.line).symm

theorem filter_isItem_textLines_of_document
    (h : table.SingleLine) {entries : List LogEntry} {text : String}
    (htext : table.document? entries = some text) :
    (Section.textLines text).filter Section.isItem =
      ((Section.flatten (table.sections entries)).map Change.line).flatMap fun line =>
        (Section.textLines line).filter Section.isItem := by
  unfold document? at htext
  split at htext
  · cases htext
  · obtain rfl := Option.some.inj htext
    rw [Section.filter_isItem_textLines_document h.lineFeed_not_mem_sections, List.flatMap_map]

/-- A table decides about headings and about the order, and never about the entries.  Under two
tables the changes of a log are equally many and agree one by one in hash, scope, message and issues,
and the list items of the two documents are the same, each as often.  If labels have no line feed,
the same holds of the lines of the two texts that read like list items. -/
theorem entries_independent_of_table (table table' : HeadingTable) (entries : List LogEntry) :
    List.Forall₂
        (fun a b => a.hash = b.hash ∧ a.scope? = b.scope? ∧ a.message = b.message ∧
          a.issues = b.issues)
        (table.changes entries) (table'.changes entries) ∧
      ((Section.documentLines (table.sections entries)).filter Section.isItem).Perm
        ((Section.documentLines (table'.sections entries)).filter Section.isItem) ∧
      (table.SingleLine → table'.SingleLine →
        ∀ text ∈ table.document? entries, ∀ text' ∈ table'.document? entries,
          ((Section.textLines text).filter Section.isItem).Perm
            ((Section.textLines text').filter Section.isItem)) := by
  have hlines := map_line_flatten_perm table table' entries
  refine ⟨forall₂_changes table table' entries, ?_, ?_⟩
  · rwa [Section.filter_isItem_documentLines, Section.filter_isItem_documentLines]
  · intro hsingle hsingle' text htext text' htext'
    rw [filter_isItem_textLines_of_document hsingle htext,
      filter_isItem_textLines_of_document hsingle' htext']
    exact hlines.flatMap_right _

/-- A label that reads like the title of a bare code merges two sections, but the text has the same
list items. -/
theorem entries_independent_of_table_overlapping :
    ∃ text text', builtin.document? overlappingLog = some text ∧
      (builtin.withLabel "feat" "[UNFORMATTED TYPE] wip").document? overlappingLog = some text' ∧
      text ≠ text' ∧
      ((Section.textLines text).filter Section.isItem).Perm
        ((Section.textLines text').filter Section.isItem) := by
  have hbuiltin : builtin.SingleLine := forall_label_of_forall_mem (by decide +kernel)
  have hoverlapping : (builtin.withLabel "feat" "[UNFORMATTED TYPE] wip").SingleLine :=
    forall_label_of_forall_mem (by decide +kernel)
  have hfirst : builtin.document? overlappingLog =
      some "\n### Features\n\n- a [h1]\n\n### [UNFORMATTED TYPE] wip\n\n- **ui**: b [h2]" := by
    cbv
  have hsecond : (builtin.withLabel "feat" "[UNFORMATTED TYPE] wip").document? overlappingLog =
      some "\n### [UNFORMATTED TYPE] wip\n\n- a [h1]\n- **ui**: b [h2]" := by
    cbv
  refine ⟨_, _, hfirst, hsecond, by decide, ?_⟩
  exact (entries_independent_of_table _ _ overlappingLog).2.2 hbuiltin hoverlapping
    _ hfirst _ hsecond

end HeadingTable

end Changelog
