import Changelog.Repository.Basic
import Changelog.Repository.Options
import Changelog.Storage.Pack

/-!
# Homes of repositories

A repository lives in a directory, its home.  There are a file for the head, a directory for all
other references and one for the objects.  Several homes may share references and objects: a home
may say that another directory holds these for it.
-/

namespace Changelog.Storage

/-- The name of the directory of objects. -/
def objectsName : String := "objects"

/-- The name of the file of options. -/
def optionsName : String := "config"

/-- The name of the file of packed references. -/
def packedName : String := "packed-refs"

/-- The entries of a directory. -/
def entriesOf : Option FileTree → List (String × FileTree)
  | some (.directory entries) => entries
  | _ => []

/-- Whether a directory is a home, given the one that holds references and objects. -/
def isHome (home shared : FileTree) : Bool :=
  (home.contentAt? [Repository.headName]).isSome && shared.isDirectoryAt [objectsName] &&
    shared.isDirectoryAt [Repository.referencesName]

/-- The objects with files of their own, in a directory of objects. -/
def looseObjects (objects : Option FileTree) : List (ObjectId × Object) :=
  (entriesOf objects).flatMap fun (first, tree) =>
    (entriesOf (some tree)).filterMap fun (rest, tree) => do
      let id ← ObjectId.ofChars? (first ++ rest).toList
      let object ← tree.contentAt? [] >>= objectOfFile?
      return (id, object)

/-- The objects in packs, in a directory of objects. -/
def packedObjects (objects : Option FileTree) : List (ObjectId × Object) :=
  let files := entriesOf (objects.bind fun tree => tree.entry? "pack")
  files.flatMap fun (name, index) =>
    if ".idx".toList.isSuffixOf name.toList then
      let packName := String.ofList (name.toList.dropLast.dropLast.dropLast ++ "pack".toList)
      match index.contentAt? [], (files.lookup packName).bind (·.contentAt? []) with
      | some index, some octets => (Pack.mk (indexEntries index) octets).objects
      | _, _ => []
    else []

/-- The packed references of a directory, if their list can be read. -/
def packedReferences? (shared : FileTree) : Option (List (String × ObjectId)) :=
  match shared.contentAt? [packedName] with
  | some content => Reference.ofPackedOctets? content.toList
  | none => some []

/-- The options of a directory, if they can be read and the repository can be opened. -/
def options? (shared : FileTree) : Option Options :=
  match shared.contentAt? [optionsName] with
  | some content => Options.ofChars? (Text.ofUtf8Lossy content.toList)
  | none => some {}

/-- The files of references of a home, given the directory that holds the shared ones. -/
def referenceFiles (home shared : FileTree) : FileTree :=
  match shared.entry? Repository.referencesName with
  | some references => home.setEntry Repository.referencesName references
  | none => home

/-- The repository of a home, given the directory that holds references and objects. -/
def repositoryOf (home shared : FileTree) : Repository where
  files := referenceFiles home shared
  packed? := packedReferences? shared
  initialBranch := "refs/heads/" ++ ((options? shared).getD {}).branch
  objects := looseObjects (shared.entry? objectsName) ++ packedObjects (shared.entry? objectsName)

end Changelog.Storage
