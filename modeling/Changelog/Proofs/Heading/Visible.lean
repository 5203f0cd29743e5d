import Changelog.Proofs.Command.Run
import Changelog.Proofs.Heading.Writes
import Changelog.Proofs.Section.Order
import Changelog.Proofs.Settings.FirstFault
import Changelog.Proofs.Settings.Written
import Mathlib

/-!
# Titles that can be seen

Settings are checked where they are loaded, and used much later, after they have been written over
the built-in table and looked up through an alias.  The check is enough: a table can be made of
whatever was loaded, so that no run of the command fails there, and no section has a blank title.

The built-in labels are not blank either, and a bare code stands behind a mark.
-/

namespace Changelog

theorem Heading.isVisible_title_unformatted (code : String) :
    Text.IsVisible (Heading.title (.unformatted code)) := by
  have hmark : '[' ∈ unformattedMark.toList := by decide
  refine ⟨'[', ?_, by decide⟩
  rw [Heading.title, String.toList_append, String.toList_append, List.append_assoc]
  exact List.mem_append_left _ hmark

namespace HeadingTable

variable {settings : Settings} {table : HeadingTable}

theorem isVisible_of_ofSettings
    (h : ofSettings settings = .ok table) {code label : String}
    (hlabel : table.labels[code]? = some label) : Text.IsVisible label := by
  rcases label_of_ofSettings h hlabel with hown | hbuiltin
  · have hvalid := Settings.fault?_eq_none_iff.mp (exists_ofSettings_iff.mp ⟨table, h⟩)
    exact hvalid.1 code label hown
  · rw [Text.isVisible_iff]
    exact forall_label_of_forall_mem (P := fun label => Text.isBlankText label = false)
      (by decide +kernel) code label hbuiltin

theorem isVisible_title_of_mem_sections
    (h : ofSettings settings = .ok table) {entries : List LogEntry} {s : Section}
    (hs : s ∈ table.sections entries) : Text.IsVisible s.title := by
  obtain ⟨change, hchange, htitle⟩ := Section.mem_title_of_mem_group hs
  have hmem : change ∈ table.changes entries := (Change.sort_perm _).mem_iff.mp hchange
  rw [← htitle]
  cases hheading : change.heading with
  | labelled label =>
      obtain ⟨code, hlabel⟩ := exists_label_of_mem_changes hmem (by rw [hheading]; rfl)
      exact isVisible_of_ofSettings h hlabel
  | unformatted code =>
      rw [Change.title, hheading]
      exact Heading.isVisible_title_unformatted code

end HeadingTable

namespace Command

variable {tree : FileTree} {here : Location}

/-- The first step that fails is never the making of the table. -/
theorem FirstFailure.letter_ne
    {range : Range} {failure : Failure} (h : FirstFailure tree here range failure)
    (fault : Settings.Fault) : failure.letter ≠ (Failure.headings fault).letter := by
  cases h with
  | settings _ => exact (by decide : 'l' ≠ 'p')
  | repository _ _ => exact (by decide : 'o' ≠ 'p')
  | log _ _ => exact (by decide : 'g' ≠ 'p')

theorem Failure.report_ne_of_letter_ne
    {failure other : Failure} (h : failure.letter ≠ other.letter) :
    failure.report ≠ other.report := by
  intro heq
  apply h
  apply Option.some.inj
  rw [← report_toList_getElem?, heq, report_toList_getElem?]

theorem Failure.report_toList_head? (failure : Failure) :
    failure.report.toList.head? = some 'E' := by
  obtain ⟨rest, hreport⟩ := failure.exists_report_toList
  rw [hreport, List.head?_append_of_ne_nil _ (by decide)]
  decide

theorem UsageError.report_toList_head? (e : UsageError) : e.report.toList.head? = some 'e' := by
  have hstart : "error: unexpected argument '".toList.head? = some 'e' := by decide
  have husage : ∀ argument, (UsageError.report.usage argument).toList.head? = some 'e' := by
    intro argument
    unfold UsageError.report.usage
    simp only [String.toList_append, List.head?_append, hstart, Option.some_or]
  cases e <;> rw [UsageError.report, husage]

/-- No run reports that its settings give no table. -/
theorem stderr_run_ne (tree : FileTree) (here : Location) (arguments : List String)
    (fault : Settings.Fault) :
    (run tree here arguments).stderr ≠ (Failure.headings fault).report := by
  have hhead := (Failure.headings fault).report_toList_head?
  have hempty : "" ≠ (Failure.headings fault).report := by
    intro h
    rw [← h] at hhead
    cases hhead
  unfold run
  cases Request.ofArguments arguments with
  | error e =>
      intro h
      change e.report = _ at h
      rw [← h, e.report_toList_head?] at hhead
      exact absurd hhead (by decide)
  | ok request =>
      cases request with
      | help => exact hempty
      | version => exact hempty
      | changelog base? tip? =>
          change (carryOut tree here (.changelog base? tip?)).stderr ≠ _
          cases hresult : changelog tree here (.ofEnds base? tip?) with
          | ok text? =>
              rw [carryOut_of_ok hresult]
              exact hempty
          | error failure =>
              rw [carryOut_of_error hresult]
              apply Failure.report_ne_of_letter_ne
              exact (changelog_eq_error_iff.mp hresult).letter_ne fault

end Command

namespace HeadingTable

/-- Whatever settings a file gives, and whatever settings are found for a directory, a table can be made
of them; so the command never fails in making one, and no run reports it.  In any table that settings
give, a code resolves to no blank label, and no section of any log has a blank title. -/
theorem loaded_settings_give_visible_titles :
    (∀ (tree : FileTree) (path : String) (settings : Settings),
        tree.loadSettings path = .ok settings → ∃ table, ofSettings settings = .ok table) ∧
      (∀ (tree : FileTree) (here : List String) (settings? : Option Settings),
        tree.findSettings here = .ok settings? →
          ∃ table, ofSettings (settings?.getD {}) = .ok table) ∧
      (∀ (tree : FileTree) (here : Location) (range : Range) (fault : Settings.Fault),
        Command.changelog tree here range ≠ .error (.headings fault)) ∧
      (∀ (tree : FileTree) (here : Location) (arguments : List String) (fault : Settings.Fault),
        (Command.run tree here arguments).stderr ≠ (Command.Failure.headings fault).report) ∧
      ∀ (settings : Settings) (table : HeadingTable), ofSettings settings = .ok table →
        (∀ code label : String, table.resolve code = .labelled label → Text.IsVisible label) ∧
          ∀ entries, ∀ s ∈ table.sections entries, Text.IsVisible s.title := by
  refine ⟨?_, fun _ _ _ => FileTree.exists_table_of_findSettings, ?_, Command.stderr_run_ne, ?_⟩
  · intro tree path settings h
    exact exists_ofSettings_iff.mpr (FileTree.fault?_of_settingsAt h)
  · intro tree here range fault h
    exact (Command.changelog_eq_error_iff.mp h).letter_ne fault rfl
  · intro settings table htable
    refine ⟨fun code label hlabel => ?_, fun entries s hs => ?_⟩
    · obtain ⟨known, hknown⟩ := exists_label_of_resolve hlabel
      exact isVisible_of_ofSettings htable hknown
    · exact isVisible_title_of_mem_sections htable hs

/-- A label that begins with a blank, and an alias for its code. -/
def indented : Settings where
  labels := .ofList [("wip", " In progress")]
  aliases := .ofList [("draft", "wip")]

/-- Settings from a file.  The alias leads to the label, which is visible for all its blank, and so are
the titles of a log with this alias and with a bare code. -/
theorem loaded_settings_give_visible_titles_indented :
    ∃ table, ofSettings indented = .ok table ∧
      table.resolve "draft" = .labelled " In progress" ∧ Text.IsVisible " In progress" ∧
      ∀ s ∈ table.sections [⟨"h1", "draft: a", ""⟩, ⟨"h2", "zap: b", ""⟩],
        Text.IsVisible s.title := by
  obtain ⟨hload, -, -, -, hvisible⟩ := loaded_settings_give_visible_titles
  have hwritten := Settings.documentText_document (List.Perm.refl indented.labels.toList)
    (List.Perm.refl indented.aliases.toList)
  have hvalid : indented.validate = .ok indented :=
    Settings.validate_eq_ok_iff.mpr ⟨by decide +kernel, rfl⟩
  have hfile := FileTree.loadSettings_of_file (FileTree.file_withSettings
    (Settings.document indented.labels.toList indented.aliases.toList).toList)
  rw [FileTree.toList_content, Settings.ofOctets_of_documentText hwritten, hvalid] at hfile
  obtain ⟨table, htable⟩ := hload _ _ _ hfile
  have hresolve : (ofSettings indented).map (·.resolve "draft") = .ok (.labelled " In progress") := by
    decide +kernel
  rw [htable] at hresolve
  obtain ⟨hlabels, htitles⟩ := hvisible indented table htable
  have hlabel := Except.ok.inj hresolve
  exact ⟨table, htable, hlabel, hlabels "draft" _ hlabel, htitles _⟩

end HeadingTable

end Changelog
