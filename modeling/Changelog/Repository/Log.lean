import Changelog.History.Walk
import Changelog.Range
import Changelog.Repository.Revision

/-!
# Logs

The log of a range: an entry for each commit that the tip reaches and the base does not, newest
first.  The tip is resolved before the base.  Only a range without any end is answered for an empty
repository, with an empty log; the same range is an error as soon as one end is given.
-/

namespace Changelog

/-- What can be wrong with the store of objects and references. -/
inductive StoreError
  /-- There is no telling whether the repository is empty. -/
  | unclear (cause : EmptinessError)
  /-- A commit that is needed is missing. -/
  | missingCommit (id : ObjectId)
  /-- What should be a commit is something else. -/
  | noCommit
  /-- A commit that is needed is wrong. -/
  | faultyCommit (fault : Commit.Fault)
  deriving DecidableEq

namespace StoreError

/-- The wording for a head that cannot be read. -/
def headText : ReferenceError → String
  | .missing => "reference 'HEAD' not found; class=Reference (4); code=NotFound (-3)"
  | .faulty .noName => "corrupted loose reference file; class=Reference (4)"
  | .faulty .noIdentifier => "corrupted loose reference file: HEAD; class=Reference (4)"
  | .unreadableList => "corrupted packed references file; class=Reference (4)"
  | .nameTooLong => "the given reference name is too long; class=Reference (4)"
  | .tooDeep => "cannot resolve reference (>5 levels deep); class=Reference (4)"

/-- The wording where there is no telling whether the repository is empty. -/
def emptinessText : EmptinessError → String
  | .unreadableHead cause => headText cause
  | .impossibleBranch =>
    "the value of init.defaultBranch is not a valid branch name; class=Invalid (3)"

/-- The wording of a store error.  The identifier of all zeros is not even looked for. -/
def message : StoreError → String
  | unclear cause => emptinessText cause
  | missingCommit id =>
    (if id = .zero then "odb: cannot read object: null OID cannot exist"
      else "object not found - no match for id (" ++ id.toString ++ ")") ++
      "; class=Odb (9); code=NotFound (-3)"
  | noCommit => "object is no commit object; class=Invalid (3)"
  | faultyCommit fault => fault.message

end StoreError

/-- Why there is no log. -/
inductive LogError
  /-- An end of the range names no commit. -/
  | revisionNotFound (revision : String)
  /-- The store does not give what is needed. -/
  | store (cause : StoreError)
  deriving DecidableEq

/-- The wording of a log error. -/
def LogError.message : LogError → String
  | revisionNotFound revision => "revision not found: " ++ revision
  | store cause => "git error: " ++ cause.message

namespace Repository

/-- The commit that an end of a range names. -/
def resolve (repository : Repository) (revision : String) : Except LogError ObjectId :=
  match repository.resolve? revision with
  | some id => .ok id
  | none => .error (.revisionNotFound revision)

/-- Why an identifier is not that of a commit that can be read. -/
def commitError (repository : Repository) (id : ObjectId) : StoreError :=
  match repository.object? id with
  | some (.faultyCommit fault) => .faultyCommit fault
  | some _ => .noCommit
  | none => if id = .emptyTree then .noCommit else .missingCommit id

/-- The commits of a range, newest first. -/
def commitsOf (repository : Repository) (range : Range) : Except LogError (List ObjectId) := do
  let tip ← repository.resolve range.tip
  let base? ← range.base?.mapM repository.resolve
  (repository.history.between base? tip).mapError fun id => .store (repository.commitError id)

/-- The entry of a commit. -/
def entry (repository : Repository) (id : ObjectId) : Except LogError LogEntry :=
  match repository.commit? id with
  | some c => .ok (c.entry id)
  | none => .error (.store (repository.commitError id))

/-- Whether a range is answered by an empty log at once. -/
def isAnsweredEmpty (repository : Repository) (range : Range) : Except LogError Bool :=
  if range.base?.isNone && range.tip?.isNone then
    repository.isEmpty.mapError fun cause => .store (.unclear cause)
  else .ok false

/-- The log of a range. -/
def log (repository : Repository) (range : Range) : Except LogError (List LogEntry) := do
  if ← repository.isAnsweredEmpty range then return []
  (← repository.commitsOf range).mapM repository.entry

end Repository

end Changelog
