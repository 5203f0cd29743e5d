import Changelog.FileTree.Basic
import Changelog.History.Basic
import Changelog.Repository.Object
import Changelog.Repository.Reference
import Changelog.Repository.ReferenceName

/-!
# Repositories

A repository holds objects and references by name.  The name of a reference leads through
directories to its file; a reference without a file may be listed among the packed ones.  One
reference is the head.
-/

namespace Changelog

/-- A repository. -/
structure Repository where
  /-- The files of references, each where the parts of its name lead.  There may be other files. -/
  files : FileTree
  /-- The packed references, the ones that count first, if their list can be read. -/
  packed? : Option (List (String × ObjectId)) := some []
  /-- The branch at which the head of a new repository is. -/
  initialBranch : String := "refs/heads/master"
  /-- The objects. -/
  objects : List (ObjectId × Object) := []

/-- Why there is no reference of a name. -/
inductive ReferenceError
  /-- Nothing has the name. -/
  | missing
  /-- What has the name is no reference. -/
  | faulty (fault : Reference.Fault)
  /-- The list of packed references cannot be read. -/
  | unreadableList
  /-- The name is too long to be that of a file. -/
  | nameTooLong
  /-- The way to an object is too long. -/
  | tooDeep
  deriving DecidableEq, Repr

/-- Why there is no telling whether a repository is empty. -/
inductive EmptinessError
  /-- The head cannot be read. -/
  | unreadableHead (cause : ReferenceError)
  /-- The initial branch is called what no branch can be called. -/
  | impossibleBranch
  deriving DecidableEq, Repr

namespace Repository

/-- The name of the head. -/
def headName : String := "HEAD"

/-- The object of an identifier, as far as it is stored. -/
def object? (repository : Repository) (id : ObjectId) : Option Object :=
  repository.objects.lookup id

/-- The commit of an identifier. -/
def commit? (repository : Repository) (id : ObjectId) : Option Commit :=
  match repository.object? id with
  | some (.commit c) => some c
  | _ => none

/-- The packed reference of a name. -/
def packedReference (repository : Repository) (name : String) : Except ReferenceError Reference :=
  match repository.packed? with
  | none => .error .unreadableList
  | some packed =>
    match packed.lookup name with
    | some id => .ok (.direct id)
    | none => .error .missing

/-- The reference of a name.  A directory in the place of its file counts as nothing. -/
def reference (repository : Repository) (name : String) : Except ReferenceError Reference :=
  match repository.files.locate [] (pathParts name) with
  | .error .nameTooLong => .error .nameTooLong
  | .error .missing => repository.packedReference name
  | .ok location =>
    match repository.files.contentAt? location with
    | some content => (Reference.ofOctets content.toList).mapError .faulty
    | none => repository.packedReference name

/-- The directory of all references but the head and its like. -/
def referencesName : String := "refs"

/-- What the name of a file ends with that only keeps a place for another one. -/
def lockMark : String := ".lock"

/-- Whether there is any reference besides the head.  If the list of packed references cannot be
read there is none. -/
def hasReferences (repository : Repository) : Bool :=
  match repository.packed? with
  | none => false
  | some packed =>
    !packed.isEmpty ||
      ((repository.files.get? [referencesName]).elim [] FileTree.files).any
        fun (location, content) =>
          !(location.getLast?.any fun name => lockMark.toList.isSuffixOf name.toList) &&
            (Reference.ofOctets content.toList).isOk

/-- Whether nothing was ever committed, as far as references show: the head still waits for the
initial branch, and there is no other reference. -/
def isEmpty (repository : Repository) : Except EmptinessError Bool := do
  let head ← (repository.reference headName).mapError .unreadableHead
  if ReferenceName.isBranch repository.initialBranch then
    return head = .symbolic repository.initialBranch && !repository.hasReferences
  else throw .impossibleBranch

/-- The commits of a repository as a history. -/
def history (repository : Repository) : History ObjectId where
  nodes := repository.objects.filterMap fun (id, object) =>
    match object with
    | .commit c => some (id, { time := c.time, parents := c.parents })
    | _ => none

end Repository

end Changelog
