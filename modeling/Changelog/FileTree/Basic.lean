/-!
# File trees

A tree of files and directories.  A place in it is a location, a list of names from the top.  A
path is what someone writes to name a place; it may pass through a directory and leave it again, so
a path leads to a location only if everything that it passes through is there.
-/

namespace Changelog

/-- A file or a directory. -/
inductive FileTree
  /-- A file with its content. -/
  | file (content : ByteArray)
  /-- A directory with its entries. -/
  | directory (entries : List (String × FileTree))

/-- A place in a tree: names from the top downwards. -/
abbrev Location := List String

/-- The parts of a path, which are separated by slashes. -/
def pathParts (path : String) : List String :=
  (path.toList.splitOn '/').map String.ofList

/-- The parts of a path without those that mean the directory itself. -/
def plainParts (parts : List String) : List String :=
  parts.filter fun part => part != "" && part != "."

namespace Location

/-- A location and all those above it, the lowest first. -/
def upward (location : Location) : List Location :=
  (List.range (location.length + 1)).reverse.map location.take

/-- The location that parts of a path spell, whatever is there: two dots take back the name before
them. -/
def ofParts (parts : List String) : Location :=
  (plainParts parts).foldl (fun location part =>
    if part = ".." then location.dropLast else location ++ [part]) []

end Location

/-- Why a path leads nowhere. -/
inductive PathError
  /-- Something on the way is not there, or is no directory. -/
  | missing
  /-- A name on the way is longer than any name can be. -/
  | nameTooLong
  deriving DecidableEq, Repr

namespace FileTree

/-- An empty directory. -/
def empty : FileTree := directory []

/-- The entry of a directory. -/
def entry? : FileTree → String → Option FileTree
  | directory entries, name => entries.lookup name
  | file _, _ => none

/-- What is at a location. -/
def get? (tree : FileTree) (location : Location) : Option FileTree :=
  location.foldlM entry? tree

/-- The content of the file at a location. -/
def contentAt? (tree : FileTree) (location : Location) : Option ByteArray :=
  match tree.get? location with
  | some (file content) => some content
  | _ => none

/-- Whether there is a directory at a location. -/
def isDirectoryAt (tree : FileTree) (location : Location) : Bool :=
  match tree.get? location with
  | some (directory _) => true
  | _ => false

/-- The most octets that a name may have. -/
def nameLimit : Nat := 255

/-- The location that the parts of a path lead to from a location.  Each part must be taken from a
directory, and two dots lead to the directory above; above the top there is the top. -/
def locate (tree : FileTree) (location : Location) : List String → Except PathError Location
  | [] => .ok location
  | part :: parts =>
    if tree.isDirectoryAt location then
      if part = "" ∨ part = "." then locate tree location parts
      else if part = ".." then locate tree location.dropLast parts
      else if nameLimit < part.utf8ByteSize then .error .nameTooLong
      else
        match tree.get? (location ++ [part]) with
        | some _ => locate tree (location ++ [part]) parts
        | none => .error .missing
    else .error .missing

/-- The location that the parts of a path lead to, if they lead anywhere. -/
def locate? (tree : FileTree) (location : Location) (parts : List String) : Option Location :=
  (tree.locate location parts).toOption

mutual

/-- All files of a tree, with their locations. -/
def files : FileTree → List (Location × ByteArray)
  | file content => [([], content)]
  | directory entries => filesOf entries

/-- All files below entries of a directory, with their locations. -/
def filesOf : List (String × FileTree) → List (Location × ByteArray)
  | [] => []
  | (name, tree) :: entries =>
    (files tree).map (fun found => (name :: found.1, found.2)) ++ filesOf entries

end

/-- Set an entry of a directory. -/
def setEntry (tree : FileTree) (name : String) (new : FileTree) : FileTree :=
  match tree with
  | directory entries => directory (entries.filter (·.1 != name) ++ [(name, new)])
  | file content => file content

/-- Remove an entry of a directory. -/
def eraseEntry (tree : FileTree) (name : String) : FileTree :=
  match tree with
  | directory entries => directory (entries.filter (·.1 != name))
  | file content => file content

/-- Change what is at a location, making the directories on the way that are not there. -/
def modify (tree : FileTree) (location : Location) (change : FileTree → FileTree) : FileTree :=
  match location with
  | [] => change tree
  | name :: location =>
    tree.setEntry name (modify ((tree.entry? name).getD empty) location change)

/-- Make a directory with all directories above it. -/
def makeDirectory (tree : FileTree) (location : Location) : FileTree :=
  tree.modify location id

/-- Write a file. -/
def writeFile (tree : FileTree) (location : Location) (content : ByteArray) : FileTree :=
  tree.modify location fun _ => file content

/-- Write a file unless there is something already. -/
def addFile (tree : FileTree) (location : Location) (content : ByteArray) : FileTree :=
  match tree.get? location with
  | some _ => tree
  | none => tree.writeFile location content

/-- Remove whatever is at a location. -/
def remove (tree : FileTree) (location : Location) : FileTree :=
  match location.getLast? with
  | some name => tree.modify location.dropLast (·.eraseEntry name)
  | none => tree

@[simp] theorem get?_nil (tree : FileTree) : tree.get? [] = some tree := rfl

@[simp] theorem get?_cons (tree : FileTree) (name : String) (location : Location) :
    tree.get? (name :: location) = (tree.entry? name).bind (·.get? location) := by
  simp only [get?, List.foldlM_cons]
  rfl

theorem toList_loop (octets : List UInt8) (i : Nat) (read : List UInt8) :
    ByteArray.toList.loop ⟨⟨octets⟩⟩ i read = read.reverse ++ octets.drop i := by
  fun_induction ByteArray.toList.loop ⟨⟨octets⟩⟩ i read with
  | case1 i read hi ih =>
      have hi : i < octets.length := hi
      have hget : ByteArray.get! ⟨⟨octets⟩⟩ i = octets[i] := getElem!_pos octets.toArray i hi
      rw [ih, List.drop_eq_getElem_cons hi, hget]
      simp
  | case2 i read hi =>
      have hi : octets.length ≤ i := Nat.not_lt.mp hi
      rw [List.drop_eq_nil_of_le hi, List.append_nil]

/-- The octets of a file can be any list. -/
theorem toList_content (octets : List UInt8) : ByteArray.toList ⟨⟨octets⟩⟩ = octets :=
  toList_loop octets 0 []

end FileTree

end Changelog
