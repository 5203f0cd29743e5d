import Changelog.Change.Basic
import Changelog.Proofs.Repository.Log
import Changelog.Proofs.Repository.Message
import Mathlib

/-!
# Which references a log keeps

The entry of a commit has the references that stand in its header and in its body.  It keeps all
references of the message if every line of blanks is empty.  Otherwise the text between the header
and the body is not in the entry, and a reference that stands nowhere else is lost.
-/

namespace Changelog

namespace Commit

/-- Every reference that stands in the message of a commit is one of an entry. -/
def ReferencesKept (c : Commit) (entry : LogEntry) : Prop :=
  ∀ reference, Issue.StandsIn reference (c.decode c.message) →
    String.ofList reference ∈ Issue.ofTexts entry.header entry.body

theorem references_header_entry (c : Commit) (id : ObjectId) :
    Issue.references (c.entry id).header.toList = c.references (Message.header c.message) := by
  rw [entry, String.toList_ofList]
  rfl

theorem references_body_entry (c : Commit) (id : ObjectId) :
    Issue.references (c.entry id).body.toList = c.references (Message.body c.message) := by
  rw [entry, String.toList_ofList, Issue.references_trimEnd]
  rfl

/-- What stands in a message stands in the header of its entry, in what was skipped, or in the body
of its entry. -/
theorem standsIn_decode_iff
    (c : Commit) (id : ObjectId) (h : 0 ∉ c.message) {reference : List Char} :
    Issue.StandsIn reference (c.decode c.message) ↔
      Issue.StandsIn reference (c.entry id).header.toList ∨
        Issue.StandsIn reference (c.decode (Message.skipped c.message)) ∨
          Issue.StandsIn reference (c.entry id).body.toList := by
  simp only [← Issue.mem_references_iff, references_header_entry, references_body_entry]
  change reference ∈ c.references c.message ↔ _
  rw [c.references_message h, List.mem_append, List.mem_append, or_assoc]
  rfl

/-- An entry keeps the references of its message exactly if those that were skipped stand in it as
well. -/
theorem referencesKept_entry_iff (c : Commit) (id : ObjectId) (h : 0 ∉ c.message) :
    c.ReferencesKept (c.entry id) ↔
      ∀ reference, Issue.StandsIn reference (c.decode (Message.skipped c.message)) →
        Issue.StandsIn reference (c.entry id).header.toList ∨
          Issue.StandsIn reference (c.entry id).body.toList := by
  unfold ReferencesKept
  simp only [Issue.mem_ofTexts_iff, c.standsIn_decode_iff id h]
  constructor
  · exact fun hkept reference hskipped => hkept reference (Or.inr (Or.inl hskipped))
  · rintro hskipped reference (hheader | hmiddle | hbody)
    · exact Or.inl hheader
    · exact hskipped reference hmiddle
    · exact Or.inr hbody

/-- What is skipped has no references if every line of blanks is empty. -/
theorem not_standsIn_skipped
    (c : Commit) (h : Message.BlankLinesEmpty c.message) (reference : List Char) :
    ¬Issue.StandsIn reference (c.decode (Message.skipped c.message)) := by
  have hblank : ∀ b ∈ Message.skipped c.message, Text.isBlankOctet b = true := by
    intro b hb
    rw [h.skipped_subset b hb]
    decide
  have hnone := c.references_append_blanks_end [] hblank
  rw [List.nil_append, references_nil] at hnone
  intro hstands
  have hmem : reference ∈ c.references (Message.skipped c.message) :=
    Issue.mem_references_iff.mpr hstands
  rw [hnone] at hmem
  cases hmem

end Commit

namespace Repository

variable {repository : Repository} {range : Range}

theorem exists_commit_of_entry
    {id : ObjectId} {entry : LogEntry} (h : repository.entry id = .ok entry) :
    ∃ c, repository.commit? id = some c ∧ entry = c.entry id := by
  unfold Repository.entry at h
  split at h
  next c hc => exact ⟨c, hc, (Except.ok.inj h).symm⟩
  · cases h

/-- Where entries are made for all commits, they are made one for one. -/
theorem forall₂_of_mapM_entry
    {ids : List ObjectId} {entries : List LogEntry} (h : ids.mapM repository.entry = .ok entries) :
    List.Forall₂ (fun id entry => ∃ c, repository.commit? id = some c ∧ entry = c.entry id)
      ids entries := by
  induction ids generalizing entries with
  | nil =>
      obtain rfl := Except.ok.inj h
      exact List.Forall₂.nil
  | cons id ids ih =>
      rw [List.mapM_cons] at h
      obtain ⟨first, hfirst, h⟩ := Steps.bind_eq_ok_iff.mp h
      obtain ⟨others, hothers, h⟩ := Steps.bind_eq_ok_iff.mp h
      obtain rfl := Except.ok.inj h
      exact List.Forall₂.cons (exists_commit_of_entry hfirst) (ih hothers)

theorem exists_commit_of_mem_mapM_entry
    {ids : List ObjectId} {entries : List LogEntry} (h : ids.mapM repository.entry = .ok entries) :
    ∀ entry ∈ entries, ∃ id c, repository.commit? id = some c ∧ entry = c.entry id := by
  have hentries := forall₂_of_mapM_entry h
  clear h
  induction hentries with
  | nil => simp
  | cons hfirst _ ih => exact List.forall_mem_cons.mpr ⟨⟨_, hfirst⟩, ih⟩

/-- A log is empty, or it has the entries of the commits of its range. -/
theorem log_eq_ok_cases
    {entries : List LogEntry} (h : repository.log range = .ok entries) :
    entries = [] ∨
      ∃ ids, repository.commitsOf range = .ok ids ∧ ids.mapM repository.entry = .ok entries := by
  obtain ⟨answered, -, h⟩ := Steps.bind_eq_ok_iff.mp h
  cases answered with
  | true => exact Or.inl (Except.ok.inj h).symm
  | false => exact Or.inr (Steps.bind_eq_ok_iff.mp h)

/-- Each entry of a log is that of a commit that is present. -/
theorem exists_commit_of_mem_log
    {entries : List LogEntry} (h : repository.log range = .ok entries) :
    ∀ entry ∈ entries, ∃ id c, repository.commit? id = some c ∧ entry = c.entry id := by
  rcases log_eq_ok_cases h with rfl | ⟨ids, -, hentries⟩
  · simp
  · exact exists_commit_of_mem_mapM_entry hentries

/-- Every entry of a log is that of a commit, and it keeps the references of the message exactly if
those that stand between its header and its body stand in one of the two as well.  It keeps them all
if every line of blanks is empty.  The change that is read off the entry has the references that the
entry has. -/
theorem log_keeps_references_iff
    {entries : List LogEntry} (hlog : repository.log range = .ok entries) :
    ∀ entry ∈ entries, ∃ id c, repository.commit? id = some c ∧ entry = c.entry id ∧
      (0 ∉ c.message →
        (c.ReferencesKept entry ↔
          ∀ reference, Issue.StandsIn reference (c.decode (Message.skipped c.message)) →
            Issue.StandsIn reference entry.header.toList ∨
              Issue.StandsIn reference entry.body.toList) ∧
        (Message.BlankLinesEmpty c.message → c.ReferencesKept entry)) ∧
      ∀ (table : HeadingTable) (change : Change), table.change? entry = some change →
        change.issues = Issue.ofTexts entry.header entry.body := by
  intro entry hentry
  obtain ⟨id, c, hc, rfl⟩ := exists_commit_of_mem_log hlog entry hentry
  refine ⟨id, c, hc, rfl, fun hzero => ?_, ?_⟩
  · have hkept := c.referencesKept_entry_iff id hzero
    refine ⟨hkept, fun hempty => hkept.mpr fun reference hskipped => ?_⟩
    exact absurd hskipped (c.not_standsIn_skipped hempty reference)
  · intro table change hchange
    obtain ⟨header, -, rfl⟩ := Option.map_eq_some_iff.mp hchange
    rfl

/-- A commit whose header and footer a line with a space separates. -/
def spacedCommit : Commit where
  parents := []
  time := 5
  encoding? := none
  message := Text.toUtf8 "fix: a\n \ncloses #7".toList

/-- A branch with that commit only. -/
def spaced : Repository :=
  { sketch 0 [] [] with objects := [(numbered 0, .commit spacedCommit)] }

theorem eq_spacedCommit {id : ObjectId} {c : Commit} (h : spaced.commit? id = some c) :
    c = spacedCommit := by
  by_cases hid : id = numbered 0
  · subst hid
    exact Option.some.inj (h.symm.trans (by decide +kernel))
  · have hother : (id == numbered 0) = false := beq_false_of_ne hid
    have hnone : spaced.commit? id = none := by
      simp [commit?, object?, spaced, List.lookup_cons, hother]
    rw [hnone] at h
    cases h

/-- The footer is skipped, and its reference is lost. -/
theorem log_drops_reference_in_spaced :
    ∃ entries, spaced.log { tip? := some "main" } = .ok entries ∧
      ∃ entry ∈ entries, ¬spacedCommit.ReferencesKept entry := by
  have hclosed : ∀ id ∈ spaced.objects.map Prod.fst, (spaced.commit? id).isSome ∧
      ∀ parent ∈ spaced.history.parents id, parent ∈ spaced.objects.map Prod.fst := by
    decide +kernel
  have hresolves : spaced.Resolves { tip? := some "main" } none (numbered 0) :=
    ⟨by decide +kernel, rfl⟩
  obtain ⟨ids, entries, hids, hlog, hhashes⟩ :=
    exists_log_eq_ok hresolves (holds_of_parents_mem hclosed (by decide +kernel))
      (fun base hbase => by cases hbase) (isAnsweredEmpty_eq_ok_false_iff.mpr fun h => by cases h)
  have htip : numbered 0 ∈ ids :=
    (History.covers_of_between hids).nothingLost _ History.Reachable.refl
      fun base hbase => by cases hbase
  have hhash : (numbered 0).toString ∈ entries.map LogEntry.hash :=
    hhashes ▸ toString_mem_map_toString.mpr htip
  obtain ⟨entry, hentry, -⟩ := List.mem_map.mp hhash
  obtain ⟨id, c, hc, rfl, hkept, -⟩ := log_keeps_references_iff hlog entry hentry
  obtain rfl := eq_spacedCommit hc
  refine ⟨entries, hlog, _, hentry, fun hall => ?_⟩
  have hskipped : Issue.StandsIn "#7".toList
      (spacedCommit.decode (Message.skipped spacedCommit.message)) := by
    decide +kernel
  have hheader : ¬Issue.StandsIn "#7".toList (spacedCommit.entry (numbered 0)).header.toList := by
    decide +kernel
  have hbody : ¬Issue.StandsIn "#7".toList (spacedCommit.entry (numbered 0)).body.toList := by
    decide +kernel
  rcases (hkept (by decide +kernel)).1.mp hall _ hskipped with h | h
  · exact hheader h
  · exact hbody h

end Repository

end Changelog
