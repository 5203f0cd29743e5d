import Changelog.FileTree.Basic
import Changelog.Settings.File

/-!
# Finding settings

The settings for a directory are those of the nearest settings file, in the directory itself or in
one above it.  Which directories are above is read off the path as it is written, not off the tree,
so the start need not exist.  The search ends at the first entry with the right name, whatever it
is; files farther up are not consulted even if that entry cannot be used.
-/

namespace Changelog.FileTree

/-- The settings at the end of a path, given by its parts.  The path itself is for the error. -/
def settingsAt (tree : FileTree) (parts : List String) (path : String) :
    Except Settings.LoadError Settings :=
  match (tree.locate? [] parts).bind tree.get? with
  | some (file content) => Settings.ofOctets content.toList
  | some (directory _) => .error (.unreadable .isDirectory)
  | none => .error (.notFound path)

/-- The settings of a file. -/
def loadSettings (tree : FileTree) (path : String) : Except Settings.LoadError Settings :=
  tree.settingsAt (pathParts path) path

/-- Whether there is an entry for a settings file in a directory. -/
def hasSettings (tree : FileTree) (directory : List String) : Bool :=
  (tree.locate? [] (directory ++ [Settings.fileName])).isSome

/-- The settings for a directory, if any apply to it. -/
def findSettings (tree : FileTree) (directory : List String) :
    Except Settings.LoadError (Option Settings) :=
  match (Location.upward (plainParts directory)).find? tree.hasSettings with
  | none => .ok none
  | some nearest =>
    let parts := nearest ++ [Settings.fileName]
    (tree.settingsAt parts ("/".intercalate parts)).map some

end Changelog.FileTree
