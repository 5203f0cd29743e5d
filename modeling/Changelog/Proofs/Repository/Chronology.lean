import Changelog.Proofs.Change.Key
import Changelog.Proofs.Repository.References
import Changelog.Proofs.Section.Order

/-!
# Newest first

A log reports commits in descending order of the time of their committers, whatever the graph is and
whether or not the times agree with it.  Reading headers drops entries and moves none, and neither
sorting nor grouping moves two changes of one heading and one scope past each other.  So within a
section the changes of one heading and scope stand newest first.

Between changes of different scopes there is no such order.  Scopes come before times.
-/

namespace Changelog

namespace Repository

variable {repository : Repository} {range : Range}

/-- The commit whose identifier a text spells. -/
def commitOf? (repository : Repository) (hash : String) : Option Commit :=
  ObjectId.ofChars? hash.toList >>= repository.commit?

/-- Both texts spell commits, and the second commit is not later than the first. -/
def NotBefore (repository : Repository) (hash hash' : String) : Prop :=
  ∃ c c', repository.commitOf? hash = some c ∧ repository.commitOf? hash' = some c' ∧
    c'.time ≤ c.time

@[simp] theorem commitOf?_toString (id : ObjectId) :
    repository.commitOf? id.toString = repository.commit? id := by
  simp [commitOf?, ObjectId.toString]

theorem time_eq_of_commit?
    {id : ObjectId} {c : Commit} (h : repository.commit? id = some c) :
    repository.history.time id = c.time := by
  rw [History.time, node?_of_commit? h]
  rfl

theorem exists_between_of_commitsOf
    {ids : List ObjectId} (h : repository.commitsOf range = .ok ids) :
    ∃ base? tip, repository.history.between base? tip = .ok ids := by
  obtain ⟨tip, -, h⟩ := Steps.bind_eq_ok_iff.mp h
  obtain ⟨base?, -, h⟩ := Steps.bind_eq_ok_iff.mp h
  exact ⟨base?, tip, Steps.mapError_eq_ok_iff.mp h⟩

/-- The hashes of a log are those of its commits. -/
theorem map_hash_of_mapM_entry
    {ids : List ObjectId} {entries : List LogEntry} (h : ids.mapM repository.entry = .ok entries) :
    entries.map LogEntry.hash = ids.map ObjectId.toString := by
  rw [← List.forall₂_eq_eq_eq, List.forall₂_map_left_iff, List.forall₂_map_right_iff]
  refine ((forall₂_of_mapM_entry h).imp fun id entry hentry => ?_).flip
  obtain ⟨c, -, rfl⟩ := hentry
  rfl

/-- No entry of a log is before a later commit. -/
theorem pairwise_notBefore_of_log
    {entries : List LogEntry} (h : repository.log range = .ok entries) :
    entries.Pairwise fun a b => repository.NotBefore a.hash b.hash := by
  rcases log_eq_ok_cases h with rfl | ⟨ids, hids, hentries⟩
  · exact List.Pairwise.nil
  · have hhashes := map_hash_of_mapM_entry hentries
    have hpresent : ∀ id ∈ ids, ∃ c, repository.commit? id = some c := by
      intro id hid
      have hmem : id.toString ∈ entries.map LogEntry.hash :=
        hhashes ▸ toString_mem_map_toString.mpr hid
      obtain ⟨entry, hentry, heq⟩ := List.mem_map.mp hmem
      obtain ⟨other, c, hc, rfl⟩ := exists_commit_of_mem_mapM_entry hentries entry hentry
      exact ⟨c, ObjectId.toString_injective heq ▸ hc⟩
    obtain ⟨base?, tip, hbetween⟩ := exists_between_of_commitsOf hids
    have hdescending : (ids.map ObjectId.toString).Pairwise repository.NotBefore := by
      refine List.pairwise_map.mpr
        ((History.descending_of_between hbetween).imp_of_mem fun {a b} ha hb hle => ?_)
      obtain ⟨c, hc⟩ := hpresent a ha
      obtain ⟨c', hc'⟩ := hpresent b hb
      rw [time_eq_of_commit? hc, time_eq_of_commit? hc'] at hle
      exact ⟨c, c', by simpa using hc, by simpa using hc', hle⟩
    rw [← hhashes] at hdescending
    exact List.pairwise_map.mp hdescending

end Repository

namespace HeadingTable

/-- What holds between the entries of a log in its order holds between any two changes of one
heading and one scope in a section, in the order of the section: grouping and sorting leave these
changes in the order of the log. -/
theorem pairwise_changes_of_mem_sections
    {table : HeadingTable} {entries : List LogEntry} {R : String → String → Prop}
    (h : entries.Pairwise fun a b => R a.hash b.hash)
    {s : Section} (hs : s ∈ table.sections entries) :
    s.changes.Pairwise fun a b => a.key = b.key → R a.hash b.hash := by
  have hchanges : (table.changes entries).Pairwise fun a b => R a.hash b.hash := by
    refine List.Pairwise.filterMap _ ?_ h
    intro a b hR change hchange change' hchange'
    obtain ⟨header, -, rfl⟩ := Option.map_eq_some_iff.mp hchange
    obtain ⟨header', -, rfl⟩ := Option.map_eq_some_iff.mp hchange'
    exact hR
  refine Change.pairwise_of_pairwise_ofKey fun key => ?_
  have hkept : (Change.ofKey key s.changes).Sublist
      (Change.ofKey key (Change.sort (table.changes entries))) := by
    rw [changes_of_mem_sections hs]
    exact List.filter_sublist.filter _
  rw [Change.ofKey_sort] at hkept
  exact hchanges.sublist (hkept.trans List.filter_sublist)

/-- Whatever the times and the graph are, the changes of one heading and one scope stand newest
first in each section of the changelog of a range. -/
theorem sections_newest_first
    {repository : Repository} {range : Range} {entries : List LogEntry}
    (hlog : repository.log range = .ok entries) (table : HeadingTable) :
    ∀ s ∈ table.sections entries, s.changes.Pairwise fun a b =>
      a.heading = b.heading → a.scope? = b.scope? → repository.NotBefore a.hash b.hash := by
  intro s hs
  have hchanges := pairwise_changes_of_mem_sections (Repository.pairwise_notBefore_of_log hlog) hs
  refine hchanges.imp fun hkey hheading hscope => hkey ?_
  exact Prod.ext hheading hscope

end HeadingTable

namespace Repository

/-- A commit with a message. -/
def titledObject (number : Nat) (time : Int) (parents : List Nat) (message : String) :
    ObjectId × Object :=
  (numbered number, .commit
    { parents := parents.map numbered, time, encoding? := none,
      message := Text.toUtf8 message.toList })

/-- A merge that claims to be older than both commits that it merges. -/
def titled : Repository :=
  { sketch 3 [] [] with objects :=
      [titledObject 0 5 [] "fix(ui): a", titledObject 1 9 [0] "fix(ui): b",
        titledObject 2 7 [0] "feat: c", titledObject 3 6 [1, 2] "fix(ui): d"] }

end Repository

open Repository in
/-- The merge stands after the commit that claims to be newer, though it is the tip. -/
theorem HeadingTable.sections_newest_first_titled :
    ∃ entries changes others, titled.log { tip? := some "main" } = .ok entries ∧
      builtin.sections entries = ⟨"Bug fixes", changes⟩ :: others ∧
      changes.map Change.message = ["b", "d", "a"] ∧
      changes.Pairwise fun a b =>
        a.heading = b.heading → a.scope? = b.scope? → titled.NotBefore a.hash b.hash := by
  have hlog : titled.log { tip? := some "main" } =
      .ok [⟨(numbered 1).toString, "fix(ui): b", ""⟩, ⟨(numbered 2).toString, "feat: c", ""⟩,
        ⟨(numbered 3).toString, "fix(ui): d", ""⟩, ⟨(numbered 0).toString, "fix(ui): a", ""⟩] := by
    cbv
  have hsections : ∀ root left right merge : String, builtin.sections
      [⟨left, "fix(ui): b", ""⟩, ⟨right, "feat: c", ""⟩, ⟨merge, "fix(ui): d", ""⟩,
        ⟨root, "fix(ui): a", ""⟩] =
      [⟨"Bug fixes",
        [⟨left, .labelled "Bug fixes", some "ui", "b", []⟩,
          ⟨merge, .labelled "Bug fixes", some "ui", "d", []⟩,
          ⟨root, .labelled "Bug fixes", some "ui", "a", []⟩]⟩,
        ⟨"Features", [⟨right, .labelled "Features", none, "c", []⟩]⟩] := by
    intro root left right merge
    cbv
  refine ⟨_, _, _, hlog, hsections _ _ _ _, rfl, ?_⟩
  apply sections_newest_first hlog builtin ⟨"Bug fixes", _⟩
  rw [hsections]
  exact List.mem_cons_self

end Changelog
