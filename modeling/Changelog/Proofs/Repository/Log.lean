import Changelog.Proofs.History.Timely
import Changelog.Proofs.Steps
import Changelog.Repository.Log
import Mathlib

/-!
# What a log reports

The log of a range reports the commits between the two ends, once the ends are resolved and all that
they reach is present.  It covers them, whatever the times of the commits are.  Two things can go
wrong.  A range without any end is answered by an empty log where the repository counts as empty,
and a repository without a readable list of packed references does so even if it has commits.  And
commits of the base are reported when the search stops short.
-/

namespace Changelog.Repository

variable {repository : Repository} {range : Range} {base? : Option ObjectId} {tip : ObjectId}

/-- All that is reachable from a commit is present. -/
def Holds (repository : Repository) (id : ObjectId) : Prop :=
  ∀ x, repository.history.Reachable id x → (repository.commit? x).isSome

/-- The ends of a range name a base and a tip. -/
def Resolves
    (repository : Repository) (range : Range) (base? : Option ObjectId) (tip : ObjectId) : Prop :=
  repository.resolve? range.tip = some tip ∧ range.base?.mapM repository.resolve? = some base?

/-- The log of a range covers what lies between two ends and repeats no entry. -/
def LogCovers
    (repository : Repository) (range : Range) (base? : Option ObjectId) (tip : ObjectId) : Prop :=
  ∃ ids entries, repository.history.Covers base? tip ids ∧
    repository.log range = .ok entries ∧
      entries.map LogEntry.hash = ids.map ObjectId.toString ∧ (entries.map LogEntry.hash).Nodup

/-! ## Commits as nodes -/

theorem lookup_filterMap_commit
    {objects : List (ObjectId × Object)} {id : ObjectId} {c : Commit}
    (h : objects.lookup id = some (.commit c)) :
    (objects.filterMap fun (id, object) =>
      match object with
      | .commit c => some (id, ({ time := c.time, parents := c.parents } : HistoryNode ObjectId))
      | _ => none).lookup id = some { time := c.time, parents := c.parents } := by
  induction objects with
  | nil => cases h
  | cons first objects ih =>
      obtain ⟨key, object⟩ := first
      rw [List.lookup_cons] at h
      by_cases hkey : id = key
      · subst hkey
        rw [beq_self_eq_true] at h
        obtain rfl := Option.some.inj h
        simp
      · have hother : (id == key) = false := beq_false_of_ne hkey
        rw [hother] at h
        have hrest := ih h
        cases object <;> simp [List.lookup_cons, hother, hrest]

/-- A commit that is present is a node of the history. -/
theorem node?_of_commit?
    {id : ObjectId} {c : Commit} (h : repository.commit? id = some c) :
    repository.history.node? id = some { time := c.time, parents := c.parents } := by
  unfold commit? at h
  split at h
  next found hobject =>
    obtain rfl := Option.some.inj h
    exact lookup_filterMap_commit hobject
  · cases h

theorem Holds.complete {id : ObjectId} (h : repository.Holds id) :
    repository.history.Complete id := by
  intro x hx
  obtain ⟨c, hc⟩ := Option.isSome_iff_exists.mp (h x hx)
  rw [node?_of_commit? hc]
  rfl

/-- Commits that are present and have all their parents among them hold all that they reach. -/
theorem holds_of_parents_mem
    {ids : List ObjectId}
    (h : ∀ id ∈ ids, (repository.commit? id).isSome ∧
      ∀ parent ∈ repository.history.parents id, parent ∈ ids)
    {start : ObjectId} (hstart : start ∈ ids) : repository.Holds start := by
  intro x hx
  have hmem : x ∈ ids := History.mem_of_reachable (fun id hid => (h id hid).2) hstart hx
  exact (h x hmem).1

/-! ## Entries -/

/-- Commits that are present have entries under their identifiers. -/
theorem exists_mapM_entry
    {ids : List ObjectId} (h : ∀ id ∈ ids, (repository.commit? id).isSome) :
    ∃ entries, ids.mapM repository.entry = .ok entries ∧
      entries.map LogEntry.hash = ids.map ObjectId.toString := by
  induction ids with
  | nil => exact ⟨[], rfl, rfl⟩
  | cons id ids ih =>
      obtain ⟨c, hc⟩ := Option.isSome_iff_exists.mp (h id List.mem_cons_self)
      obtain ⟨entries, hentries, hhashes⟩ :=
        ih fun other hother => h other (List.mem_cons_of_mem id hother)
      have hentry : repository.entry id = .ok (c.entry id) := by
        rw [entry, hc]
      refine ⟨c.entry id :: entries, ?_, ?_⟩
      · rw [List.mapM_cons, hentry, hentries]
        rfl
      · rw [List.map_cons, List.map_cons, hhashes]
        rfl

theorem nodup_map_toString {ids : List ObjectId} (h : ids.Nodup) :
    (ids.map ObjectId.toString).Nodup :=
  List.Pairwise.map _ (fun _ _ hne heq => hne (ObjectId.toString_injective heq)) h

theorem toString_mem_map_toString {ids : List ObjectId} {id : ObjectId} :
    id.toString ∈ ids.map ObjectId.toString ↔ id ∈ ids := by
  constructor
  · intro h
    obtain ⟨other, hother, heq⟩ := List.mem_map.mp h
    exact ObjectId.toString_injective heq ▸ hother
  · exact fun h => List.mem_map_of_mem h

/-! ## Logs -/

theorem resolve_eq_ok
    {revision : String} {id : ObjectId} (h : repository.resolve? revision = some id) :
    repository.resolve revision = .ok id := by
  rw [resolve, h]

/-- The commits of a range with resolved ends are those between the ends. -/
theorem commitsOf_eq
    (h : repository.Resolves range base? tip) :
    repository.commitsOf range =
      (repository.history.between base? tip).mapError
        fun id => .store (repository.commitError id) := by
  obtain ⟨htip, hbase⟩ := h
  have hresolved : range.base?.mapM repository.resolve = .ok base? := by
    cases hgiven : range.base? with
    | none =>
        rw [hgiven] at hbase
        obtain rfl := Option.some.inj hbase
        rfl
    | some revision =>
        rw [hgiven] at hbase
        cases hrevision : repository.resolve? revision with
        | none =>
            rw [Option.mapM_some, hrevision] at hbase
            cases hbase
        | some base =>
            rw [Option.mapM_some, hrevision] at hbase
            obtain rfl := Option.some.inj hbase
            rw [Option.mapM_some, resolve_eq_ok hrevision]
            rfl
  unfold commitsOf
  rw [resolve_eq_ok htip, hresolved]
  rfl

/-- Only the range without any end may be answered at once. -/
theorem isAnsweredEmpty_eq_ok_false_iff :
    repository.isAnsweredEmpty range = .ok false ↔
      (range = .full → repository.isEmpty = .ok false) := by
  by_cases hfull : range = .full
  · subst hfull
    have hasked : repository.isAnsweredEmpty .full =
        repository.isEmpty.mapError fun cause => .store (.unclear cause) := rfl
    rw [hasked, Steps.mapError_eq_ok_iff]
    simp
  · have hgiven : (range.base?.isNone && range.tip?.isNone) = false := by
      obtain ⟨base?, tip?⟩ := range
      cases base? with
      | some base => rfl
      | none =>
          cases tip? with
          | some tip => rfl
          | none => exact absurd rfl hfull
    rw [isAnsweredEmpty, hgiven]
    exact ⟨fun _ h => absurd h hfull, fun _ => rfl⟩

/-- A range with complete ends has a log, unless it is answered at once. -/
theorem exists_log_eq_ok
    (hresolves : repository.Resolves range base? tip) (htip : repository.Holds tip)
    (hbase : ∀ base ∈ base?, repository.Holds base)
    (hanswered : repository.isAnsweredEmpty range = .ok false) :
    ∃ ids entries, repository.history.between base? tip = .ok ids ∧
      repository.log range = .ok entries ∧
        entries.map LogEntry.hash = ids.map ObjectId.toString := by
  obtain ⟨ids, hids⟩ := History.exists_between_eq_ok htip.complete
    fun base hmem => (hbase base hmem).complete
  have hpresent : ∀ id ∈ ids, (repository.commit? id).isSome := by
    intro id hid
    exact htip id (History.reachable_of_mem_between hids hid)
  obtain ⟨entries, hentries, hhashes⟩ := exists_mapM_entry hpresent
  refine ⟨ids, entries, hids, ?_, hhashes⟩
  unfold log
  rw [hanswered, commitsOf_eq hresolves, hids]
  exact hentries

/-- A log that covers its range was not answered at once. -/
theorem isAnsweredEmpty_of_log
    {entries : List LogEntry} (hlog : repository.log range = .ok entries)
    (hentries : entries ≠ []) :
    repository.isAnsweredEmpty range = .ok false := by
  obtain ⟨answered, hanswered, hrest⟩ := Steps.bind_eq_ok_iff.mp hlog
  cases answered with
  | false => exact hanswered
  | true => exact absurd (Except.ok.inj hrest).symm hentries

/-! ## Small repositories -/

/-- An identifier that ends in a number. -/
def numbered (number : Nat) : ObjectId := .ofDigest ⟨0, 0, 0, 0, .ofNat number⟩

/-- The file of a reference. -/
def referenceFile (reference : Reference) : FileTree := .file ⟨⟨reference.octets⟩⟩

/-- A repository with its head at a branch, a packed list of tags, and commits given by their times
and parents. -/
def sketch
    (main : Nat) (tags : List (String × Nat)) (commits : List (Nat × Int × List Nat)) :
    Repository where
  files := .directory [
    ("HEAD", referenceFile (.symbolic "refs/heads/main")),
    ("refs", .directory [
      ("heads", .directory [("main", referenceFile (.direct (numbered main)))])])]
  packed? := some (tags.map fun (name, number) => ("refs/tags/" ++ name, numbered number))
  initialBranch := "refs/heads/main"
  objects := commits.map fun (number, time, parents) =>
    (numbered number, .commit
      { parents := parents.map numbered, time, encoding? := none, message := [] })

/-- Two branches of one time that were merged; the commit below them is later. -/
def forked : Repository := sketch 3 [] [(0, 100, []), (1, 5, [0]), (2, 5, [0]), (3, 5, [1, 2])]

/-- The same, with a list of packed references that cannot be read. -/
def unlisted : Repository := { forked with packed? := none }

/-- A tag at the end of a long branch, and a branch whose commits are all later than that one. -/
def skewed : Repository :=
  sketch 10 [("v1", 9)] ((0, 100, []) :: (10, 200, [0]) :: (1, 10, [0]) ::
    [2, 3, 4, 5, 6, 7, 8, 9].map fun number => (number, 10 + number, [number - 1]))

/-! ## What logs cover and what they repeat -/

/-- Whatever the times of the commits are, the log of a range succeeds and covers it, without
repeating an entry, exactly if the range has an end or the repository does not count as empty.  Without
a base the tip itself is covered, so that the log cannot be empty. -/
theorem log_covers_range_iff
    (hresolves : repository.Resolves range base? tip) (htip : repository.Holds tip)
    (hbase : ∀ base ∈ base?, repository.Holds base) :
    repository.LogCovers range base? tip ↔
      (range = .full → repository.isEmpty = .ok false) := by
  rw [← isAnsweredEmpty_eq_ok_false_iff]
  constructor
  · rintro ⟨ids, entries, hcovers, hlog, hhashes, -⟩
    by_cases hfull : range = .full
    · subst hfull
      obtain rfl : base? = none := (Option.some.inj hresolves.2).symm
      have hmem : tip ∈ ids :=
        hcovers.nothingLost tip History.Reachable.refl fun base hbase => by cases hbase
      refine isAnsweredEmpty_of_log hlog ?_
      rintro rfl
      rw [List.map_eq_nil_iff.mp hhashes.symm] at hmem
      cases hmem
    · exact isAnsweredEmpty_eq_ok_false_iff.mpr fun h => absurd h hfull
  · intro hanswered
    obtain ⟨ids, entries, hids, hlog, hhashes⟩ := exists_log_eq_ok hresolves htip hbase hanswered
    have hcovers := History.covers_of_between hids
    refine ⟨ids, entries, hcovers, hlog, hhashes, ?_⟩
    rw [hhashes]
    exact nodup_map_toString hcovers.distinct

/-- A merged history is covered, but not where the list of packed references cannot be read. -/
theorem log_covers_forked :
    forked.LogCovers .full none (numbered 3) ∧ ¬unlisted.LogCovers .full none (numbered 3) := by
  have hclosed : ∀ id ∈ forked.objects.map Prod.fst, (forked.commit? id).isSome ∧
      ∀ parent ∈ forked.history.parents id, parent ∈ forked.objects.map Prod.fst := by
    decide +kernel
  have htip : forked.Holds (numbered 3) := holds_of_parents_mem hclosed (by decide +kernel)
  have hbase : ∀ base ∈ (none : Option ObjectId), forked.Holds base := by
    intro base hbase
    cases hbase
  constructor
  · have hempty : forked.isEmpty = .ok false := Steps.eq_ok_of_toOption (by decide +kernel)
    exact (log_covers_range_iff ⟨by decide +kernel, rfl⟩ htip hbase).mpr fun _ => hempty
  · intro hcovers
    have hempty : unlisted.isEmpty.toOption = some true := by decide +kernel
    have hresolves : unlisted.Resolves .full none (numbered 3) := ⟨by decide +kernel, rfl⟩
    rw [(log_covers_range_iff hresolves htip hbase).mp hcovers rfl] at hempty
    cases hempty

/-- A log with a base reports commits of the base exactly if the search stops short, which it does
not if times agree with the graph. -/
theorem log_repeats_base_iff
    {base : ObjectId} (hresolves : repository.Resolves range (some base) tip)
    (htip : repository.Holds tip) (hbase : repository.Holds base) :
    ∃ entries, repository.log range = .ok entries ∧
      ((∃ id, repository.history.Reachable base id ∧
          id.toString ∈ entries.map LogEntry.hash) ↔
        repository.history.StopsShort base tip) ∧
      (repository.history.Timely base → repository.history.Timely tip →
        ∀ id, repository.history.Reachable base id →
          id.toString ∉ entries.map LogEntry.hash) := by
  have hgiven : range ≠ .full := by
    rintro rfl
    cases hresolves.2
  obtain ⟨ids, entries, hids, hlog, hhashes⟩ :=
    exists_log_eq_ok hresolves htip (fun other hother => Option.some.inj hother ▸ hbase)
      (isAnsweredEmpty_eq_ok_false_iff.mpr fun h => absurd h hgiven)
  have hrepeats : (∃ id, repository.history.Reachable base id ∧
      id.toString ∈ entries.map LogEntry.hash) ↔ repository.history.StopsShort base tip := by
    rw [← History.exists_mem_between_iff hids, hhashes]
    simp only [toString_mem_map_toString, and_comm]
  refine ⟨entries, hlog, hrepeats, ?_⟩
  intro hbaseTimely htipTimely id hreach hmem
  exact htipTimely.not_stopsShort hbaseTimely (hrepeats.mp ⟨id, hreach, hmem⟩)

/-- The log after the tag reports the first commit, which the tag reaches. -/
theorem log_repeats_in_skewed :
    skewed.history.StopsShort (numbered 9) (numbered 10) ∧
      ∃ entries id, skewed.log { base? := some "v1", tip? := some "main" } = .ok entries ∧
        skewed.history.Reachable (numbered 9) id ∧ id.toString ∈ entries.map LogEntry.hash := by
  have hclosed : ∀ id ∈ skewed.objects.map Prod.fst, (skewed.commit? id).isSome ∧
      ∀ parent ∈ skewed.history.parents id, parent ∈ skewed.objects.map Prod.fst := by
    decide +kernel
  have hbetween : skewed.history.between (some (numbered 9)) (numbered 10) =
      .ok [numbered 10, numbered 0] := by
    cbv
  have hparent : ∀ n < 9, numbered n ∈ skewed.history.parents (numbered (n + 1)) := by
    decide +kernel
  have hreach : ∀ n ≤ 9, skewed.history.Reachable (numbered n) (numbered 0) := by
    intro n hn
    induction n with
    | zero => exact History.Reachable.refl
    | succ n ih =>
        exact (History.Reachable.of_mem_parents (hparent n hn)).trans (ih (Nat.le_of_lt hn))
  have hstops : skewed.history.StopsShort (numbered 9) (numbered 10) :=
    (History.exists_mem_between_iff hbetween).mp
      ⟨numbered 0, by decide +kernel, hreach 9 (Nat.le_refl 9)⟩
  have hresolves : skewed.Resolves { base? := some "v1", tip? := some "main" }
      (some (numbered 9)) (numbered 10) :=
    ⟨by decide +kernel, by decide +kernel⟩
  have htip : skewed.Holds (numbered 10) := holds_of_parents_mem hclosed (by decide +kernel)
  have hbase : skewed.Holds (numbered 9) := holds_of_parents_mem hclosed (by decide +kernel)
  obtain ⟨entries, hlog, hrepeats, -⟩ := log_repeats_base_iff hresolves htip hbase
  obtain ⟨id, hid, hmem⟩ := hrepeats.mpr hstops
  exact ⟨hstops, entries, id, hlog, hid, hmem⟩

end Changelog.Repository
