import Changelog.FileTree.Repositories
import Changelog.Repository.Revision

/-!
# Changing repositories

Making a new repository, adding objects to it, and setting and removing its references.  A new
repository has no objects, no references, and a head at a branch that does not exist yet.  Making a
repository where there is one leaves it as it is, but for the options that say whether it is bare.
-/

namespace Changelog.FileTree

/-- The octets of a text, as the content of a file. -/
def textFile (text : String) : ByteArray := (Text.toUtf8 text.toList).toByteArray

/-- Directories that the home of a new repository holds. -/
def homeDirectories : List Location :=
  [["objects", "info"], ["objects", "pack"], ["refs", "heads"], ["refs", "tags"], ["hooks"],
    ["info"]]

/-- Files that the home of a new repository holds, besides head and options. -/
def homeFiles : List (Location × String) :=
  [(["description"],
      "Unnamed repository; edit this file 'description' to name the repository.\n"),
    (["hooks", "README.sample"],
      "#!/bin/sh\n#\n# Place appropriately named executable hook scripts into this directory\n" ++
      "# to intercept various actions that git takes.  See `git help hooks` for\n" ++
      "# more information.\n"),
    (["info", "exclude"],
      "# File patterns to ignore; see `git help ignore` for more information.\n" ++
      "# Lines that start with '#' are comments.\n")]

/-- The branch at which the head of a new repository is. -/
def firstBranch : String := "refs/heads/master"

/-- The options of a new repository. -/
def newOptions (bare : Bool) : String :=
  "[core]\n\tbare = " ++ toString bare ++ "\n\trepositoryformatversion = 0\n\tfilemode = true\n" ++
    if bare then "" else "\tlogallrefupdates = true\n"

/-- Whether a path names a home as such, by its end. -/
def namesHome (path : String) : Bool :=
  "/.git".toList.isSuffixOf path.toList || "/.git/".toList.isSuffixOf path.toList

/-- The home of a repository that is to be made at a path. -/
def homeOf (path : String) (bare : Bool) : Location :=
  let location := Location.ofParts (pathParts path)
  if bare || namesHome path then location else location ++ [homeName]

/-- Add options to those of a home. -/
def addOptions (tree : FileTree) (home : Location) (text : String) : FileTree :=
  let place := home ++ [Storage.optionsName]
  match tree.contentAt? place with
  | some content => tree.writeFile place (content ++ textFile ("\n" ++ text))
  | none => tree.writeFile place (textFile text)

/-- Lay out a directory as a home.  Files that are there already stay. -/
def layOut (tree : FileTree) (home : Location) : FileTree :=
  let tree := homeDirectories.foldl (fun tree name => tree.makeDirectory (home ++ name)) tree
  let tree := homeFiles.foldl
    (fun tree (name, text) => tree.addFile (home ++ name) (textFile text)) tree
  tree.addFile (home ++ [Repository.headName])
    (Reference.octets (.symbolic firstBranch)).toByteArray

/-- Make a repository at a path. -/
def initRepository (tree : FileTree) (path : String) (bare : Bool) : FileTree :=
  let home := homeOf path bare
  let tree := tree.makeDirectory home
  let tree := match (tree.homeAt? home home).join with
    | some _ => tree
    | none => tree.layOut home
  tree.addOptions home (newOptions bare)

/-- Add an object to a repository. -/
def storeObject (tree : FileTree) (found : RepositoryAt) (kind : ObjectKind)
    (octets : List UInt8) : FileTree :=
  tree.writeFile
    (found.shared ++ Storage.objectsName :: Storage.objectPath (.ofOctets kind octets))
    (Storage.objectFile kind octets)

/-- The directory from which the name of a reference leads to its file. -/
def referenceBase (found : RepositoryAt) (name : String) : Location :=
  if (Repository.referencesName ++ "/").toList.isPrefixOf name.toList then found.shared
  else found.home

/-- Create or change a reference. -/
def setReference (tree : FileTree) (found : RepositoryAt) (name : String) (target : Reference) :
    FileTree :=
  tree.writeFile (referenceBase found name ++ Location.ofParts (pathParts name))
    target.octets.toByteArray

/-- Put the head at the commit that an object stands for, if it stands for one. -/
def detachHead (tree : FileTree) (found : RepositoryAt) (id : ObjectId) : FileTree :=
  match (tree.repository found).toCommit? id with
  | some (id, _) => tree.setReference found Repository.headName (.direct id)
  | none => tree

/-- Remove a directory if it is empty. -/
def removeIfEmpty (tree : FileTree) (location : Location) : FileTree :=
  match tree.get? location with
  | some (directory []) => tree.remove location
  | _ => tree

/-- Directories of references that stay even when they are empty. -/
def lastingDirectories : List Location :=
  [["refs", "heads"], ["refs", "tags"], ["refs", "remotes"]]

/-- Remove the directories above a reference that are empty, but none of those that stay. -/
def prune (tree : FileTree) (base name : Location) : FileTree :=
  match lastingDirectories.find? (·.isPrefixOf name) with
  | none => tree
  | some lasting =>
    ((Location.upward name.dropLast).filter fun above => lasting.length < above.length).foldl
      (fun tree above => tree.removeIfEmpty (base ++ above)) tree

/-- Remove a name from the packed references. -/
def erasePacked (tree : FileTree) (found : RepositoryAt) (name : String) : FileTree :=
  match Storage.packedReferences? ((tree.get? found.shared).getD empty) with
  | none => tree
  | some packed =>
    if packed.any (·.1 = name) then
      tree.writeFile (found.shared ++ [Storage.packedName])
        (Reference.packedOctets (packed.filter (·.1 ≠ name))).toByteArray
    else tree

/-- Remove a reference. -/
def eraseReference (tree : FileTree) (found : RepositoryAt) (name : String) : FileTree :=
  let base := referenceBase found name
  let parts := Location.ofParts (pathParts name)
  let tree := match tree.contentAt? (base ++ parts) with
    | some _ => (tree.remove (base ++ parts)).prune base parts
    | none => tree
  tree.erasePacked found name

end Changelog.FileTree
