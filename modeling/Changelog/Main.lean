import Changelog.Command.Run

/-!
# The command line

Reads from the disk what a changelog depends on, runs the command on it, and writes what the command
leaves behind.  Of the disk, only settings files and homes of repositories in the working directory
and above it are read, with the directories that such a home refers to.
-/

namespace Changelog.Disk

/-- The path of a location. -/
def path (location : Location) : String := "/" ++ "/".intercalate location

/-- The location that a path spells, seen from another. -/
def spelled (location : Location) (path : List UInt8) : Location :=
  let path := String.ofList (Text.ofUtf8Lossy path)
  Location.ofParts
    (if path.toList.head? = some '/' then pathParts path else location ++ pathParts path)

/-- Whether there is a directory at a location. -/
def isDirectory (location : Location) : IO Bool := (System.mkFilePath [path location]).isDir

/-- The content of the file at a location, if it can be read. -/
def content? (location : Location) : IO (Option ByteArray) := do
  try return some (← IO.FS.readBinFile (path location)) catch _ => return none

/-- The names of the entries of the directory at a location, none if it cannot be read. -/
def names (location : Location) : IO (List String) := do
  try return (← (System.mkFilePath [path location]).readDir).toList.map (·.fileName)
  catch _ => return []

/-- What is at a location, with everything below it. -/
partial def read? (location : Location) : IO (Option FileTree) := do
  if ← isDirectory location then
    let entries ← (← names location).filterMapM fun name => do
      return (← read? (location ++ [name])).map (name, ·)
    return some (.directory entries)
  return (← content? location).map .file

/-- Add what is at a location. -/
def addAll (tree : FileTree) (location : Location) : IO FileTree := do
  match ← read? location with
  | some found => return tree.modify location fun _ => found
  | none => return tree

/-- Add a home with the directories that it refers to. -/
def addHome (tree : FileTree) (home : Location) : IO FileTree := do
  let tree ← addAll tree home
  let tree ← match tree.contentAt? (home ++ [FileTree.sharedName]) with
    | some content => addAll tree (spelled home (Text.trimOctets content.toList))
    | none => pure tree
  let worktree? := do
    let options ← Storage.options? (← tree.get? (← tree.sharedOf? home))
    return spelled home (Text.toUtf8 (← options.worktree?).toList)
  match worktree? with
  | some root => return if ← isDirectory root then tree.makeDirectory root else tree
  | none => return tree

/-- Add what a directory has for a repository: its home, or a file that points to one. -/
def addRepository (tree : FileTree) (location : Location) : IO FileTree := do
  let place := location ++ [FileTree.homeName]
  if ← isDirectory place then addHome tree place
  else
    match ← content? place with
    | none => return tree
    | some content =>
      let tree := tree.writeFile place content
      match FileTree.pointerOf? content.toList with
      | some path => addHome tree (spelled location path)
      | none => return tree

/-- Whether a directory may be a home itself. -/
def mayBeHome (location : Location) : IO Bool := do
  let head? ← content? (location ++ [Repository.headName])
  let shared? ← content? (location ++ [FileTree.sharedName])
  let objects ← isDirectory (location ++ [Storage.objectsName])
  return head?.isSome && (shared?.isSome || objects)

/-- Add the settings file of a directory. -/
def addSettings (tree : FileTree) (location : Location) : IO FileTree := do
  let place := location ++ [Settings.fileName]
  if ← isDirectory place then return tree.makeDirectory place
  return (← content? place).elim tree (tree.writeFile place)

/-- The part of the disk that matters for a working directory. -/
def tree (here : Location) : IO FileTree :=
  (Location.upward here).reverse.foldlM (fun tree location => do
    let tree ← if ← mayBeHome location then addHome tree location else pure tree
    let tree ← addSettings (tree.makeDirectory location) location
    addRepository tree location) .empty

end Changelog.Disk

open Changelog in
/-- Run the command on the disk. -/
def main (arguments : List String) : IO UInt32 := do
  let here := Location.ofParts (pathParts (← IO.currentDir).toString)
  let tree ← match Command.Request.ofArguments arguments with
    | .ok (.changelog _ _) => Disk.tree here
    | _ => pure .empty
  let outcome := Command.run tree here arguments
  IO.print outcome.stdout
  IO.eprint outcome.stderr
  return outcome.code.toUInt32
