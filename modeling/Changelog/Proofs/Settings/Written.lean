import Changelog.FileTree.Settings
import Changelog.Proofs.Heading.Writes
import Changelog.Proofs.Text.RoundTrip
import Changelog.Proofs.Toml.Spelling
import Mathlib

/-!
# Settings that are written are read back

A document of settings lists the entries of each map in any order, whereas a map has an order of its
own.  Since no code occurs twice in a map, no entry is refused when the document is read, and the map
that results has the entries of the one that was written.

Validity plays no part in this: a file may give settings that have a fault, and then the fault is all
that is wrong with the file.
-/

namespace Changelog

/-- A map is made of its entries, in whatever order they are written. -/
theorem foldl_writeEntry_of_perm
    {entries : List (String × String)} {map : CodeMap} (h : entries.Perm map.toList) :
    entries.foldl writeEntry ∅ = map := by
  have hkeys : (entries.map Prod.fst).Nodup :=
    (h.map Prod.fst).nodup_iff.mpr map.nodup_keys
  apply Std.ExtTreeMap.ext_getElem?
  intro code
  rw [getElem?_foldl_writeEntry, Std.ExtTreeMap.getElem?_empty, Option.or_none]
  ext text
  rw [lastText?_eq_some_iff hkeys, h.mem_iff, Std.ExtTreeMap.mem_toList_iff_getElem?_eq_some]

namespace Settings

open Toml (Statement TableText entryStatement)

/-! ## Reading entries -/

/-- Add entries one by one. -/
def Draft.insertAll? (draft : Draft) (entries : List (String × String)) : Option Draft :=
  entries.foldlM (fun draft entry => draft.insert? entry.1 entry.2) draft

/-- Entries whose codes are new and differ from each other are all added. -/
theorem Draft.insertAll?_of_nodup
    {entries : List (String × String)} {draft : Draft} (hkeys : (entries.map Prod.fst).Nodup)
    (hnew : ∀ entry ∈ entries, entry.1 ∉ draft.entries) :
    draft.insertAll? entries =
      some { draft with entries := entries.foldl writeEntry draft.entries } := by
  induction entries generalizing draft with
  | nil => rfl
  | cons entry entries ih =>
      obtain ⟨hfirst, hrest⟩ := List.nodup_cons.mp hkeys
      have hentry : draft.insert? entry.1 entry.2 =
          some { draft with entries := writeEntry draft.entries entry } :=
        if_neg (hnew entry List.mem_cons_self)
      have hothers : ∀ other ∈ entries, other.1 ∉ writeEntry draft.entries entry := by
        intro other hother
        rw [writeEntry, Std.ExtTreeMap.mem_insert, not_or]
        refine ⟨?_, hnew other (List.mem_cons_of_mem _ hother)⟩
        intro heq
        rw [Std.compare_eq_iff_eq] at heq
        rw [heq] at hfirst
        exact hfirst (List.mem_map_of_mem hother)
      rw [insertAll?, List.foldlM_cons, hentry]
      exact ih hrest hothers

namespace Reading

/-- One of the two tables. -/
def draft (reading : Reading) : Part → Draft
  | .labels => reading.labels
  | .aliases => reading.aliases

/-- Set one of the two tables. -/
def withDraft (reading : Reading) (part : Part) (draft : Draft) : Reading :=
  match part with
  | .labels => { reading with labels := draft }
  | .aliases => { reading with aliases := draft }

/-- Go on under the header of a table. -/
def under (reading : Reading) (part : Part) : Reading := { reading with current := some part }

theorem modify?_eq (reading : Reading) (part : Part) (change : Draft → Option Draft) :
    reading.modify? part change = (change (reading.draft part)).map (reading.withDraft part) := by
  cases part <;> rfl

@[simp] theorem draft_withDraft (reading : Reading) (part : Part) (draft : Draft) :
    (reading.withDraft part draft).draft part = draft := by
  cases part <;> rfl

theorem draft_withDraft_of_ne
    {part other : Part} (hne : part ≠ other) (reading : Reading) (draft : Draft) :
    (reading.withDraft part draft).draft other = reading.draft other := by
  cases part <;> cases other
  · exact absurd rfl hne
  · rfl
  · rfl
  · exact absurd rfl hne

@[simp] theorem withDraft_withDraft (reading : Reading) (part : Part) (draft draft' : Draft) :
    (reading.withDraft part draft).withDraft part draft' = reading.withDraft part draft' := by
  cases part <;> rfl

@[simp] theorem withDraft_draft (reading : Reading) (part : Part) :
    reading.withDraft part (reading.draft part) = reading := by
  cases part <;> rfl

@[simp] theorem draft_under (reading : Reading) (part other : Part) :
    (reading.under part).draft other = reading.draft other := by
  cases other <;> rfl

@[simp] theorem current_withDraft (reading : Reading) (part : Part) (draft : Draft) :
    (reading.withDraft part draft).current = reading.current := by
  cases part <;> rfl

/-- Entries under a header are added to the table of this header. -/
theorem foldlM_entryStatement
    {reading : Reading} {part : Part} (hcurrent : reading.current = some part)
    (entries : List (String × String)) :
    (entries.map entryStatement).foldlM next? reading =
      ((reading.draft part).insertAll? entries).map (reading.withDraft part) := by
  induction entries generalizing reading with
  | nil => simp [Draft.insertAll?]
  | cons entry entries ih =>
      have hnext : reading.next? (entryStatement entry) =
          ((reading.draft part).insert? entry.1 entry.2).map (reading.withDraft part) := by
        have hmodify := reading.modify?_eq part fun draft => draft.insert? entry.1 entry.2
        rw [entryStatement, next?, hcurrent, ← hmodify]
        rfl
      rw [List.map_cons, List.foldlM_cons, hnext, Draft.insertAll?, List.foldlM_cons]
      cases (reading.draft part).insert? entry.1 entry.2 with
      | none => rfl
      | some draft =>
          have hrest := ih ((current_withDraft reading part draft).trans hcurrent)
          rw [draft_withDraft] at hrest
          refine hrest.trans (congrArg (Option.map · _) ?_)
          funext draft'
          exact withDraft_withDraft reading part draft draft'

/-- A table that was absent is read as a whole. -/
theorem foldlM_table
    {reading : Reading} {part : Part} (habsent : reading.draft part = {})
    {entries : List (String × String)} {map : CodeMap} (h : entries.Perm map.toList) :
    (Statement.header [part.name] :: entries.map entryStatement).foldlM next? reading =
      some ((reading.under part).withDraft part ⟨map, .whole⟩) := by
  have hheader : reading.next? (.header [part.name]) =
      some ((reading.under part).withDraft part ⟨∅, .whole⟩) := by
    have hpart : Part.ofName? part.name = some part := by cases part <;> rfl
    have hdefine := reading.modify?_eq part Draft.define?
    rw [habsent] at hdefine
    rw [next?, hpart]
    simp only [Option.bind_eq_bind, Option.bind_some, hdefine]
    cases part <;> rfl
  have hentries : Draft.insertAll? ⟨∅, .whole⟩ entries = some ⟨map, .whole⟩ := by
    have hkeys : (entries.map Prod.fst).Nodup := (h.map Prod.fst).nodup_iff.mpr map.nodup_keys
    have hempty : ∀ entry ∈ entries, entry.1 ∉ (∅ : CodeMap) := fun _ _ =>
      Std.ExtTreeMap.not_mem_empty
    rw [Draft.insertAll?_of_nodup hkeys hempty]
    exact congrArg (fun read => some (Draft.mk read .whole)) (foldl_writeEntry_of_perm h)
  rw [List.foldlM_cons, hheader]
  change (entries.map entryStatement).foldlM next? _ = _
  rw [foldlM_entryStatement (current_withDraft _ part _), draft_withDraft, hentries,
    Option.map_some, withDraft_withDraft]

end Reading

/-! ## Reading documents -/

/-- The ways to write a map: a header, and a line for each entry in any order. -/
def PartText (part : Part) (map : CodeMap) (cs : List Char) : Prop :=
  ∃ entries, entries.Perm map.toList ∧ TableText part.name entries cs

/-- The ways to write settings: both tables, one after the other. -/
inductive DocumentText (settings : Settings) : List Char → Prop
  | labelsFirst {cs ds : List Char} (hlabels : PartText .labels settings.labels cs)
      (haliases : PartText .aliases settings.aliases ds) : DocumentText settings (cs ++ ds)
  | aliasesFirst {cs ds : List Char} (haliases : PartText .aliases settings.aliases cs)
      (hlabels : PartText .labels settings.labels ds) : DocumentText settings (cs ++ ds)

theorem Part.isBareName_name (part : Part) : Toml.IsBareName part.name := by
  cases part with
  | labels => exact ⟨by decide, List.all_eq_true.mp (by decide)⟩
  | aliases => exact ⟨by decide, List.all_eq_true.mp (by decide)⟩

theorem statements?_tables
    {first second : Part} {entries entries' : List (String × String)} {cs ds : List Char}
    (h : TableText first.name entries cs) (h' : TableText second.name entries' ds) :
    Toml.statements? (cs ++ ds) =
      some ((.header [first.name] :: entries.map entryStatement) ++
        (.header [second.name] :: entries'.map entryStatement)) := by
  have hend : Toml.statements? [] = some [] := by
    rw [Toml.statements?, Toml.skipFiller]
  have hsecond := h'.statements?_append second.isBareName_name []
  rw [hend, Option.map_some, List.append_nil, List.append_nil] at hsecond
  rw [h.statements?_append first.isBareName_name, hsecond]
  rfl

theorem ofDocument?_tables
    {first second : Part} (hne : first ≠ second) {map map' : CodeMap} {cs ds : List Char}
    (h : PartText first map cs) (h' : PartText second map' ds) :
    ofDocument? (.ofList (cs ++ ds)) =
      let reading := (Reading.withDraft {} first ⟨map, .whole⟩).withDraft second ⟨map', .whole⟩
      some { labels := reading.labels.entries, aliases := reading.aliases.entries } := by
  obtain ⟨entries, hperm, htext⟩ := h
  obtain ⟨entries', hperm', htext'⟩ := h'
  have hfirst : Reading.draft {} first = {} := by cases first <;> rfl
  have hsecond :
      ((Reading.under {} first).withDraft first ⟨map, .whole⟩).draft second = {} := by
    rw [Reading.draft_withDraft_of_ne hne, Reading.draft_under]
    cases second <;> rfl
  rw [ofDocument?, Toml.document?_of_head? (htext.head?_append ds), statements?_tables htext htext']
  change ofStatements? _ = _
  rw [ofStatements?, List.foldlM_append, Reading.foldlM_table hfirst hperm]
  change (Option.bind (List.foldlM _ _ _) _) = _
  rw [Reading.foldlM_table hsecond hperm']
  cases first <;> cases second <;> rfl

/-- Settings are read back from any document that gives them. -/
theorem ofDocument?_of_documentText
    {settings : Settings} {cs : List Char} (h : DocumentText settings cs) :
    ofDocument? (.ofList cs) = some settings := by
  cases h with
  | labelsFirst hlabels haliases => exact ofDocument?_tables (by decide) hlabels haliases
  | aliasesFirst haliases hlabels => exact ofDocument?_tables (by decide) haliases hlabels

theorem ofOctets_of_documentText
    {settings : Settings} {cs : List Char} (h : DocumentText settings cs) :
    ofOctets (Text.toUtf8 cs) = settings.validate.mapError .invalid := by
  rw [ofOctets, Text.ofUtf8?_toUtf8]
  change ofText (.ofList cs) = _
  rw [ofText, ofDocument?_of_documentText h]

/-- The written form of settings is one of the ways to write them. -/
theorem documentText_document
    {settings : Settings} {labels aliases : List (String × String)}
    (hlabels : labels.Perm settings.labels.toList)
    (haliases : aliases.Perm settings.aliases.toList) :
    DocumentText settings (document labels aliases).toList := by
  rw [document, String.toList_ofList]
  exact .labelsFirst ⟨labels, hlabels, Toml.tableText_tableLines _ _⟩
    ⟨aliases, haliases, Toml.tableText_tableLines _ _⟩

end Settings

namespace FileTree

variable {tree : FileTree} {path : String} {content : ByteArray}

theorem loadSettings_of_file
    (hfile : (tree.locate? [] (pathParts path)).bind tree.get? = some (.file content)) :
    tree.loadSettings path = Settings.ofOctets content.toList := by
  rw [loadSettings, settingsAt, hfile]

/-- A file that gives settings under two headers, one line for each entry, is loaded as what was
written.  The tables and their entries may come in any order, and codes and texts may be any strings.
Settings without a fault are loaded as they are; otherwise the first fault is the error. -/
theorem loadSettings_gives_back_written
    {settings : Settings} {cs : List Char} (hwritten : Settings.DocumentText settings cs)
    (hfile : (tree.locate? [] (pathParts path)).bind tree.get? = some (.file content))
    (hcontent : content.toList = Text.toUtf8 cs) :
    (settings.validate = .ok settings → tree.loadSettings path = .ok settings) ∧
      ∀ fault, settings.validate = .error fault →
        tree.loadSettings path = .error (.invalid fault) := by
  have hload : tree.loadSettings path = settings.validate.mapError .invalid := by
    rw [loadSettings_of_file hfile, hcontent, Settings.ofOctets_of_documentText hwritten]
  refine ⟨fun hvalid => ?_, fun fault hfault => ?_⟩
  · rw [hload, hvalid]
    rfl
  · rw [hload, hfault]
    rfl

/-- A tree with one settings file in a directory. -/
def withSettings (cs : List Char) : FileTree :=
  .directory [("a", .directory [(Settings.fileName, .file ⟨⟨Text.toUtf8 cs⟩⟩)])]

theorem file_withSettings (cs : List Char) :
    ((withSettings cs).locate? [] (pathParts "a/../a/grouplog.toml")).bind (withSettings cs).get? =
      some (.file ⟨⟨Text.toUtf8 cs⟩⟩) :=
  rfl

/-- Settings whose codes and texts read like TOML. -/
def quaint : Settings where
  labels := .ofList [("", "\"\\ 😀"), ("a.b", "x\n[aliases]\u007f")]
  aliases := .ofList [("[labels]", "#")]

/-- These settings without visible characters in one label. -/
def quaintBlank : Settings := { quaint with labels := quaint.labels.insert "a.b" "\u0085\t" }

/-- Strange codes and texts are loaded, with the entries in another order than that of their codes.  A
label that is blank is loaded too, and is the error then. -/
theorem loadSettings_gives_back_quaint :
    (withSettings (Settings.document [("a.b", "x\n[aliases]\u007f"), ("", "\"\\ 😀")]
        [("[labels]", "#")]).toList).loadSettings "a/../a/grouplog.toml" = .ok quaint ∧
      (withSettings (Settings.document quaintBlank.labels.toList
        quaintBlank.aliases.toList).toList).loadSettings "a/../a/grouplog.toml" =
          .error (.invalid (.blankLabel "a.b")) := by
  have hlabels : [("a.b", "x\n[aliases]\u007f"), ("", "\"\\ 😀")].Perm quaint.labels.toList := by
    decide +kernel
  have haliases : [("[labels]", "#")].Perm quaint.aliases.toList := by decide +kernel
  have hquaint := Settings.documentText_document hlabels haliases
  have hblank := Settings.documentText_document (List.Perm.refl quaintBlank.labels.toList)
    (List.Perm.refl quaintBlank.aliases.toList)
  constructor
  · refine (loadSettings_gives_back_written hquaint (file_withSettings _) (toList_content _)).1 ?_
    exact Settings.validate_eq_ok_iff.mpr ⟨by decide +kernel, rfl⟩
  · refine (loadSettings_gives_back_written hblank (file_withSettings _) (toList_content _)).2 _ ?_
    decide +kernel

end FileTree

end Changelog
