import Changelog.Generate
import Changelog.Proofs.Heading.Writes
import Changelog.Proofs.Repository.References
import Changelog.Proofs.Section.Decoding
import Mathlib

/-!
# One line for each commit

Whatever octets a commit message has and whatever encoding it names, the change that is read off the
commit is written on one line.  The grammar of headers does not see to this, since a scope may contain
any blank.  It holds because the header of a message is folded before it is decoded, and because no
decoding makes a line feed of anything else.

So the lines of a changelog are the lines that it was written from, if no label brings in a line feed
of its own.
-/

namespace Changelog

/-! ## Headers of commits -/

namespace Message

theorem lineFeed_not_mem_foldRun (run : List UInt8) : Text.lineFeed ∉ foldRun run := by
  unfold foldRun
  split
  · decide
  next h => simpa using h

/-- No line feed is left when runs of blanks are folded. -/
theorem lineFeed_not_mem_fold (run octets : List UInt8) : Text.lineFeed ∉ fold run octets := by
  induction octets generalizing run with
  | nil => simp [fold]
  | cons octet octets ih =>
      rw [fold]
      split
      · exact ih _
      next hblank =>
        have hother : Text.lineFeed ≠ octet := by
          rintro rfl
          exact hblank Text.isBlankOctet_lineFeed
        rw [List.mem_append, List.mem_cons, not_or, not_or]
        exact ⟨lineFeed_not_mem_foldRun run, hother, ih []⟩

end Message

/-- The header of an entry is on one line. -/
theorem Commit.lineFeed_not_mem_header (c : Commit) (id : ObjectId) :
    '\n' ∉ (c.entry id).header.toList := by
  have hascii : Text.lineFeed < 0x80 := by decide
  have hfeed : '\n' ∈ c.decode (Message.header c.message) ↔
      Text.lineFeed ∈ Message.header c.message :=
    (c.aligned_decode (Message.header c.message)).mem_iff hascii
  rw [entry, String.toList_ofList, hfeed]
  exact Message.lineFeed_not_mem_fold [] _

theorem ObjectId.hexDigits_toString (id : ObjectId) :
    ∀ c ∈ id.toString.toList, (Text.hexValue? c).isSome := by
  intro c hc
  rw [toString, String.toList_ofList, toChars, List.mem_map] at hc
  obtain ⟨digit, -, rfl⟩ := hc
  rw [Text.hexValue?_hexDigit]
  rfl

/-! ## Changes of a log -/

theorem Header.IsMessage.lineFeed_not_mem {rest message : List Char} (h : IsMessage rest message) :
    '\n' ∉ message := by
  cases h with
  | line _ hc hrun _ =>
      rw [List.mem_cons, not_or]
      exact ⟨(ne_lineFeed_of_not_isBlank hc).symm, fun hmem => hrun _ hmem rfl⟩
  | blank _ hc _ => simpa using hc.symm

namespace HeadingTable

variable {table : HeadingTable}

/-- A change is regular if the hash and the header of its entry are. -/
theorem regular_of_change?
    {entry : LogEntry} (hhash : ∀ c ∈ entry.hash.toList, (Text.hexValue? c).isSome)
    (hheader : '\n' ∉ entry.header.toList) {change : Change}
    (h : table.change? entry = some change) : change.Regular := by
  obtain ⟨header, hparse, rfl⟩ := Option.map_eq_some_iff.mp h
  obtain ⟨code, scope?, rest, message, hreading, hmessage, rfl⟩ :=
    Header.parse?_eq_some_iff.mp hparse
  refine ⟨hhash, fun issue hissue => Issue.exists_digits_of_mem_ofTexts hissue, ?_, ?_⟩
  · intro scope hscope
    obtain ⟨chars, rfl, rfl⟩ := Option.map_eq_some_iff.mp hscope
    rw [hreading.header_eq] at hheader
    rw [String.toList_ofList]
    intro hmem
    exact hheader (by simp [Header.bracketed, hmem])
  · rw [String.toList_ofList]
    exact hmessage.lineFeed_not_mem

/-- The changes of a log are regular. -/
theorem regular_of_mem_changes
    {repository : Repository} {range : Range} {entries : List LogEntry}
    (hlog : repository.log range = .ok entries) :
    ∀ change ∈ table.changes entries, change.Regular := by
  intro change hchange
  obtain ⟨entry, hentry, hchange⟩ := List.mem_filterMap.mp hchange
  obtain ⟨id, c, -, rfl⟩ := Repository.exists_commit_of_mem_log hlog entry hentry
  exact regular_of_change? id.hexDigits_toString (c.lineFeed_not_mem_header id) hchange

theorem singleLine_of_ofSettings
    {settings : Settings} (h : ofSettings settings = .ok table)
    (hlabels : ∀ code label : String, settings.labels[code]? = some label → '\n' ∉ label.toList) :
    table.SingleLine := by
  intro code label hlabel
  rcases label_of_ofSettings h hlabel with hown | hbuiltin
  · exact hlabels code label hown
  · exact forall_label_of_forall_mem (P := fun label => '\n' ∉ label.toList)
      (by decide +kernel) code label hbuiltin

theorem mem_changes_of_mem_sections
    {entries : List LogEntry} {s : Section} (hs : s ∈ table.sections entries) {change : Change}
    (hchange : change ∈ s.changes) : change ∈ table.changes entries :=
  (table.flatten_sections_perm entries).mem_iff.mp (List.mem_flatMap.mpr ⟨s, hs, hchange⟩)

/-- If labels are on one line, the lines of a changelog that is not empty are those from which it is
written: the three lines of each section, and for each change of the log its own line, which is the
only list item that stems from it.  No text of a change has a line feed, whatever the commits hold. -/
theorem generate_gives_each_change_a_line
    {settings : Settings} (hsettings : ofSettings settings = .ok table)
    (hlabels : ∀ code label : String, settings.labels[code]? = some label → '\n' ∉ label.toList)
    {repository : Repository} {range : Range} {text : String}
    (hgenerate : table.generate repository range = .ok (some text)) (hne : text ≠ "") :
    ∃ entries, repository.log range = .ok entries ∧
      Section.textLines text = Section.documentLines (table.sections entries) ∧
      ((Section.textLines text).filter fun line => !Section.isItem line) =
        (table.sections entries).flatMap (fun s => ["", "### " ++ s.title, ""]) ∧
      ((Section.textLines text).filter Section.isItem).Perm
        ((table.changes entries).map Change.line) ∧
      (Section.textLines text).length =
        3 * (table.sections entries).length + (table.changes entries).length ∧
      ∀ change ∈ table.changes entries, change.SingleLine := by
  obtain ⟨entries, hlog, hdocument⟩ := Steps.map_eq_ok_iff.mp hgenerate
  have hregular : ∀ change ∈ table.changes entries, change.Regular := regular_of_mem_changes hlog
  have htext : Section.document (table.sections entries) = text := by
    unfold document? at hdocument
    split at hdocument
    · cases hdocument
    · exact Option.some.inj hdocument
  have hsections : table.sections entries ≠ [] :=
    fun h => hne (htext ▸ Section.document_eq_empty_iff.mpr h)
  have hlines : Section.textLines text = Section.documentLines (table.sections entries) := by
    rw [← htext]
    refine Section.textLines_document_of_singleLine hsections
      (singleLine_of_ofSettings hsettings hlabels).lineFeed_not_mem_sections ?_
    intro s hs change hchange
    exact (hregular change (mem_changes_of_mem_sections hs hchange)).singleLine
  have hperm := (table.flatten_sections_perm entries).map Change.line
  refine ⟨entries, hlog, hlines, ?_, ?_, ?_, fun change h => (hregular change h).singleLine⟩
  · rw [hlines, Section.filter_not_isItem_documentLines]
    rfl
  · rw [hlines, Section.filter_isItem_documentLines]
    exact hperm
  · rw [hlines, Section.length_documentLines, (table.flatten_sections_perm entries).length_eq]

/-- A branch with two commits.  The header of the later one, which is in Latin-1, goes over two lines,
breaks its scope and holds the next line of Unicode.  The other message has line feeds in front, a
damaged character, and a line that ends in two octets. -/
def broken : Repository :=
  { Repository.sketch 2 [] [] with objects := [
      (Repository.numbered 2, .commit {
        parents := [Repository.numbered 1]
        time := 7
        encoding? := some (Text.toUtf8 "latin1".toList)
        message := Text.toUtf8 "fix(ui\n\tx): a".toList ++ 0x85 :: Text.toUtf8 "b\nc".toList }),
      (Repository.numbered 1, .commit {
        parents := []
        time := 5
        encoding? := none
        message := Text.toUtf8 "\n\nfeat: caf".toList ++ 0xe9 :: Text.toUtf8 "\r\nd #7\n".toList })] }

/-- The log of this branch, with these hashes. -/
def brokenLog (later earlier : String) : List LogEntry :=
  [⟨later, "fix(ui x): a\u0085b c", ""⟩, ⟨earlier, "feat: caf\uFFFD d #7", ""⟩]

/-- Settings with a label in place of a built-in one. -/
def repairs : Settings where
  labels := .ofList [("fix", "Repairs")]

/-- The table of these settings. -/
def repairTable : HeadingTable := after (settingsWrites repairs)

/-- Each of the two commits is given one line, in a section of its own. -/
theorem generate_gives_broken_two_lines :
    ∃ text, ofSettings repairs = .ok repairTable ∧
      repairTable.generate broken { tip? := some "main" } = .ok (some text) ∧
      ((Section.textLines text).filter Section.isItem).length = 2 ∧
      (Section.textLines text).length = 8 := by
  have htable : ofSettings repairs = .ok repairTable :=
    ofSettings_eq_ok_iff.mpr ⟨by decide +kernel, rfl⟩
  have hlabels : ∀ code label : String, repairs.labels[code]? = some label → '\n' ∉ label.toList := by
    have hall : ∀ entry ∈ repairs.labels.toList, '\n' ∉ entry.2.toList := by decide +kernel
    exact fun code label hlabel =>
      hall (code, label) (Std.ExtTreeMap.mem_toList_iff_getElem?_eq_some.mpr hlabel)
  obtain ⟨later, earlier, hlog⟩ : ∃ later earlier, broken.log { tip? := some "main" } =
      .ok (brokenLog later earlier) :=
    ⟨(Repository.numbered 2).toString, (Repository.numbered 1).toString, by cbv⟩
  have hsections : (repairTable.sections (brokenLog later earlier)).length = 2 := by cbv
  have hchanges : (repairTable.changes (brokenLog later earlier)).length = 2 := by cbv
  have hgenerate : repairTable.generate broken { tip? := some "main" } =
      .ok (some (Section.document (repairTable.sections (brokenLog later earlier)))) := by
    rw [generate, hlog]
    rfl
  have hne : Section.document (repairTable.sections (brokenLog later earlier)) ≠ "" := by
    rw [Ne, Section.document_eq_empty_iff, ← List.length_eq_zero_iff, hsections]
    decide
  obtain ⟨entries, hentries, -, -, hitems, hlength, -⟩ :=
    generate_gives_each_change_a_line htable hlabels hgenerate hne
  obtain rfl := Except.ok.inj (hlog.symm.trans hentries)
  refine ⟨_, htable, hgenerate, ?_, ?_⟩
  · rw [hitems.length_eq, List.length_map, hchanges]
  · rw [hlength, hsections, hchanges]

end HeadingTable

end Changelog
