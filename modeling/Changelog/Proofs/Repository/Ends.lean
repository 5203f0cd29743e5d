import Changelog.Proofs.Repository.References
import Changelog.Proofs.Repository.Unborn

/-!
# Which end of a range is reported

A log fails for the sake of a revision only if an end of its range names no commit.  The tip is asked
for first, so where both ends fail the tip is reported.

The range without ends is the one exception, since the repository is asked first whether it is empty.
If it is, the log is empty and nothing is resolved.  If there is no telling, that is the failure, and
no revision is reported although the head may well name none.  With the head as its tip the same range
is resolved like any other, so only for these two answers the default makes a difference.
-/

namespace Changelog

namespace Repository

variable {repository : Repository} {range : Range}

/-! ## Resolving the ends -/

theorem resolve_eq_ok_iff {revision : String} {id : ObjectId} :
    repository.resolve revision = .ok id ↔ repository.resolve? revision = some id := by
  rw [resolve]
  cases repository.resolve? revision <;> simp

theorem resolve_eq_error_iff {revision : String} {cause : LogError} :
    repository.resolve revision = .error cause ↔
      repository.resolve? revision = none ∧ LogError.revisionNotFound revision = cause := by
  rw [resolve]
  cases repository.resolve? revision <;> simp

/-- The first end of a range that names no commit. -/
inductive FirstUnresolved (repository : Repository) (range : Range) : String → Prop
  | tip (h : repository.resolve? range.tip = none) : FirstUnresolved repository range range.tip
  | base {base : String} (htip : (repository.resolve? range.tip).isSome)
    (hbase : range.base? = some base) (h : repository.resolve? base = none) :
    FirstUnresolved repository range base

theorem mapM_resolve_eq_error_iff {base? : Option String} {cause : LogError} :
    base?.mapM repository.resolve = .error cause ↔
      ∃ base, base? = some base ∧ repository.resolve base = .error cause := by
  cases base? with
  | none => exact ⟨nofun, nofun⟩
  | some base =>
      have hmap : (some base).mapM repository.resolve = (repository.resolve base).map some := rfl
      rw [hmap, Steps.map_eq_error_iff]
      simp

theorem commitsOf_eq_error_iff {revision : String} :
    repository.commitsOf range = .error (.revisionNotFound revision) ↔
      repository.FirstUnresolved range revision := by
  simp only [commitsOf, Steps.bind_eq_error_iff, Steps.mapError_eq_error_iff,
    mapM_resolve_eq_error_iff, resolve_eq_error_iff, resolve_eq_ok_iff]
  constructor
  · rintro (⟨htip, hrevision⟩ | ⟨tip, htip, ⟨base, hbase, hnone, hrevision⟩ | ⟨_, _, _, _, ⟨⟩⟩⟩)
    · obtain rfl := LogError.revisionNotFound.inj hrevision
      exact .tip htip
    · obtain rfl := LogError.revisionNotFound.inj hrevision
      exact .base (Option.isSome_of_eq_some htip) hbase hnone
  · rintro (htip | ⟨htip, hbase, hnone⟩)
    · exact Or.inl ⟨htip, rfl⟩
    · obtain ⟨tip, htip⟩ := Option.isSome_iff_exists.mp htip
      exact Or.inr ⟨tip, htip, Or.inl ⟨_, hbase, hnone, rfl⟩⟩

/-- What goes wrong with a commit has to do with the store, and not with whether it is empty. -/
theorem exists_commitError_of_mapM_entry
    {ids : List ObjectId} {cause : LogError} (h : ids.mapM repository.entry = .error cause) :
    ∃ id, cause = .store (repository.commitError id) := by
  induction ids with
  | nil => cases h
  | cons id ids ih =>
      rw [List.mapM_cons, Steps.bind_eq_error_iff] at h
      rcases h with hfirst | ⟨first, -, hothers⟩
      · unfold Repository.entry at hfirst
        split at hfirst
        · cases hfirst
        · exact ⟨id, (Except.error.inj hfirst).symm⟩
      · rw [Steps.bind_eq_error_iff] at hothers
        rcases hothers with hothers | ⟨_, -, ⟨⟩⟩
        exact ih hothers

theorem commitError_ne_unclear (id : ObjectId) (cause : EmptinessError) :
    repository.commitError id ≠ .unclear cause := by
  unfold commitError
  split
  · nofun
  · nofun
  · split <;> nofun

/-! ## Logs that are not answered at once -/

theorem log_eq_of_not_answered (h : repository.isAnsweredEmpty range = .ok false) :
    repository.log range = repository.commitsOf range >>= fun ids => ids.mapM repository.entry := by
  rw [log, h]
  rfl

/-- A log that is not answered at once reports a revision exactly if it is the first end that names no
commit. -/
theorem log_eq_error_iff
    (h : repository.isAnsweredEmpty range = .ok false) {revision : String} :
    repository.log range = .error (.revisionNotFound revision) ↔
      repository.FirstUnresolved range revision := by
  rw [log_eq_of_not_answered h, Steps.bind_eq_error_iff, commitsOf_eq_error_iff]
  constructor
  · rintro (hfirst | ⟨ids, -, hentries⟩)
    · exact hfirst
    · obtain ⟨id, ⟨⟩⟩ := exists_commitError_of_mapM_entry hentries
  · exact Or.inl

theorem log_ne_unclear
    (h : repository.isAnsweredEmpty range = .ok false) (cause : EmptinessError) :
    repository.log range ≠ .error (.store (.unclear cause)) := by
  rw [log_eq_of_not_answered h]
  intro hlog
  rcases Steps.bind_eq_error_iff.mp hlog with hcommits | ⟨ids, -, hentries⟩
  · simp only [commitsOf, Steps.bind_eq_error_iff, Steps.mapError_eq_error_iff,
      mapM_resolve_eq_error_iff, resolve_eq_error_iff] at hcommits
    rcases hcommits with ⟨-, ⟨⟩⟩ | ⟨tip, -, ⟨base, -, -, ⟨⟩⟩ | ⟨base?, -, id, -, hid⟩⟩
    exact commitError_ne_unclear id cause (LogError.store.inj hid)
  · obtain ⟨id, hid⟩ := exists_commitError_of_mapM_entry hentries
    exact commitError_ne_unclear id cause (LogError.store.inj hid).symm

/-- Without a base the tip has an entry. -/
theorem log_ne_nil
    (h : repository.isAnsweredEmpty range = .ok false) (hbase : range.base? = none) :
    repository.log range ≠ .ok [] := by
  rw [log_eq_of_not_answered h]
  intro hlog
  obtain ⟨ids, hids, hentries⟩ := Steps.bind_eq_ok_iff.mp hlog
  obtain ⟨tip, -, hids⟩ := Steps.bind_eq_ok_iff.mp hids
  rw [hbase] at hids
  have hbetween : repository.history.between none tip = .ok ids := Steps.mapError_eq_ok_iff.mp hids
  have htip : tip ∈ ids :=
    History.mem_between_of_reachable hbetween History.Reachable.refl fun base hbase => by cases hbase
  obtain rfl := List.forall₂_nil_right_iff.mp (forall₂_of_mapM_entry hentries)
  cases htip

/-! ## Logs between given ends -/

theorem ofEnds_eq_full_iff {base? tip? : Option String} :
    Range.ofEnds base? tip? = .full ↔ base? = none ∧ tip? = none := by
  cases base? <;> cases tip? <;> simp [Range.ofEnds, Range.full]

theorem isAnsweredEmpty_full :
    repository.isAnsweredEmpty .full =
      repository.isEmpty.mapError fun cause => .store (.unclear cause) := rfl

theorem log_full_of_isEmpty (h : repository.isEmpty = .ok true) : repository.log .full = .ok [] := by
  rw [log, isAnsweredEmpty_full, h]
  rfl

theorem log_full_of_unclear {cause : EmptinessError} (h : repository.isEmpty = .error cause) :
    repository.log .full = .error (.store (.unclear cause)) := by
  rw [log, isAnsweredEmpty_full, h]
  rfl

/-- A range that ends at the head has the log of the range without a tip, unless that one has no base
either and is answered at once. -/
theorem log_ofEnds_default_iff {base? : Option String} :
    repository.log (.ofEnds base? none) = repository.log (.ofEnds base? (some defaultTip)) ↔
      (base? = none → repository.isEmpty = .ok false) := by
  have hgiven : repository.isAnsweredEmpty (.ofEnds none (some defaultTip)) = .ok false := rfl
  cases base? with
  | some base => exact ⟨nofun, fun _ => rfl⟩
  | none =>
      constructor
      · intro hsame _
        change repository.log .full = _ at hsame
        cases hempty : repository.isEmpty with
        | error cause =>
            rw [log_full_of_unclear hempty] at hsame
            exact absurd hsame.symm (log_ne_unclear hgiven cause)
        | ok empty =>
            cases empty with
            | false => rfl
            | true =>
                rw [log_full_of_isEmpty hempty] at hsame
                exact absurd hsame.symm (log_ne_nil hgiven rfl)
      · intro hempty
        have hanswered : repository.isAnsweredEmpty .full = .ok false := by
          rw [isAnsweredEmpty_full, hempty rfl]
          rfl
        change repository.log .full = _
        rw [log_eq_of_not_answered hanswered, log_eq_of_not_answered hgiven]
        rfl

/-- The range without ends has an empty log if the repository is empty, and fails if there is no
telling.  Every other log reports a revision exactly if it is the tip and names no commit, or the tip
names one and it is a base that names none.  That the head is the default tip shows in no log but that
of the range without ends, and there exactly if the repository is empty or there is no telling.  In an
empty repository the head names no commit, if the list of packed references can be read. -/
theorem log_reports_first_unresolved (repository : Repository) (base? tip? : Option String) :
    let tip := tip?.getD "HEAD"
    (base? = none ∧ tip? = none →
      (repository.isEmpty = .ok true → repository.log (.ofEnds base? tip?) = .ok []) ∧
      ∀ cause, repository.isEmpty = .error cause →
        repository.log (.ofEnds base? tip?) = .error (.store (.unclear cause))) ∧
    ((base? = none ∧ tip? = none → repository.isEmpty = .ok false) →
      ∀ revision, repository.log (.ofEnds base? tip?) = .error (.revisionNotFound revision) ↔
        (revision = tip ∧ repository.resolve? tip = none) ∨
          ((repository.resolve? tip).isSome ∧ base? = some revision ∧
            repository.resolve? revision = none)) ∧
    (repository.log (.ofEnds base? none) = repository.log (.ofEnds base? (some "HEAD")) ↔
      (base? = none → repository.isEmpty = .ok false)) ∧
    (repository.isEmpty = .ok true → repository.packed?.isSome →
      repository.log (.ofEnds none none) = .ok [] ∧
      repository.log (.ofEnds none (some "HEAD")) = .error (.revisionNotFound "HEAD")) := by
  intro tip
  have htip : (Range.ofEnds base? tip?).tip = tip := Range.tip_ofEnds base? tip?
  refine ⟨?_, ?_, log_ofEnds_default_iff, ?_⟩
  · rintro ⟨rfl, rfl⟩
    exact ⟨log_full_of_isEmpty, fun cause => log_full_of_unclear⟩
  · intro hempty revision
    have hanswered : repository.isAnsweredEmpty (.ofEnds base? tip?) = .ok false :=
      isAnsweredEmpty_eq_ok_false_iff.mpr fun hfull => hempty (ofEnds_eq_full_iff.mp hfull)
    rw [log_eq_error_iff hanswered, ← htip]
    constructor
    · rintro (hnone | ⟨hsome, hbase, hnone⟩)
      · exact Or.inl ⟨rfl, hnone⟩
      · exact Or.inr ⟨hsome, hbase, hnone⟩
    · rintro (⟨rfl, hnone⟩ | ⟨hsome, hbase, hnone⟩)
      · exact .tip hnone
      · exact .base hsome hbase hnone
  · intro hempty hlisted
    refine ⟨log_full_of_isEmpty hempty, (log_eq_error_iff rfl).mpr ?_⟩
    exact .tip (resolve?_head_of_isEmpty hempty hlisted)

/-- A repository whose head waits for the initial branch. -/
def waiting : Repository where
  files := .directory [("HEAD", referenceFile (.symbolic "refs/heads/master")), ("refs", .empty)]

/-- A repository whose head is neither a name nor an identifier. -/
def garbled : Repository where
  files := .directory [("HEAD", .file ⟨⟨Text.toUtf8 "junk".toList⟩⟩), ("refs", .empty)]

theorem isEmpty_waiting : waiting.isEmpty = .ok true :=
  isEmpty_eq_ok_iff.mpr ⟨.symbolic "refs/heads/master", by cbv, by decide +kernel, by decide +kernel⟩

theorem isEmpty_garbled : garbled.isEmpty = .error (.unreadableHead (.faulty .noIdentifier)) := by
  have hhead : garbled.reference headName = .error (.faulty .noIdentifier) := by cbv
  rw [isEmpty, hhead]
  rfl

/-- In the repository that waits only the head as a tip is reported.  Of two ends that name no commit
the tip is, and a base that names none is where the tip is the head. -/
theorem log_reports_tip_of_forked :
    (waiting.log (.ofEnds none none) = .ok [] ∧
      waiting.log (.ofEnds none (some "HEAD")) = .error (.revisionNotFound "HEAD")) ∧
    forked.log (.ofEnds (some "v1") (some "v2")) = .error (.revisionNotFound "v2") ∧
    forked.log (.ofEnds (some "v1") none) = .error (.revisionNotFound "v1") := by
  obtain ⟨-, -, -, hwaiting⟩ := log_reports_first_unresolved waiting none none
  obtain ⟨-, hboth, -⟩ := log_reports_first_unresolved forked (some "v1") (some "v2")
  obtain ⟨-, hbase, -⟩ := log_reports_first_unresolved forked (some "v1") none
  refine ⟨hwaiting isEmpty_waiting rfl, ?_, ?_⟩
  · exact (hboth nofun "v2").mpr (Or.inl ⟨rfl, by decide +kernel⟩)
  · exact (hbase nofun "v1").mpr (Or.inr ⟨by decide +kernel, rfl, by decide +kernel⟩)

/-- Where the head cannot be read, no revision is reported, although the repository is not empty and
the head names no commit.  Where the list of packed references cannot be read, the repository counts
as empty and the head is resolved. -/
theorem exists_log_apart_from_head :
    (garbled.isEmpty ≠ .ok true ∧ garbled.resolve? "HEAD" = none ∧
      garbled.log (.ofEnds none none) ≠ .error (.revisionNotFound "HEAD") ∧
      garbled.log (.ofEnds none (some "HEAD")) = .error (.revisionNotFound "HEAD")) ∧
    unlisted.isEmpty = .ok true ∧ unlisted.log (.ofEnds none none) = .ok [] ∧
      unlisted.log (.ofEnds none (some "HEAD")) ≠ .error (.revisionNotFound "HEAD") := by
  have hnone : garbled.resolve? "HEAD" = none := by decide +kernel
  have hempty : unlisted.isEmpty = .ok true :=
    isEmpty_eq_ok_iff.mpr ⟨.symbolic "refs/heads/main", by cbv, by decide +kernel, by decide +kernel⟩
  refine ⟨⟨?_, hnone, ?_, ?_⟩, hempty, log_full_of_isEmpty hempty, ?_⟩
  · rw [isEmpty_garbled]
    intro heq
    cases heq
  · change garbled.log .full ≠ _
    rw [log_full_of_unclear isEmpty_garbled]
    intro heq
    cases heq
  · exact (log_eq_error_iff rfl).mpr (.tip hnone)
  · rw [Ne, log_eq_error_iff rfl]
    have htip : (unlisted.resolve? "HEAD").isSome := by decide +kernel
    rintro (hnone | ⟨-, ⟨⟩, -⟩)
    change unlisted.resolve? "HEAD" = none at hnone
    rw [hnone] at htip
    cases htip

end Repository

end Changelog
