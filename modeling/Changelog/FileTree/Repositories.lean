import Changelog.Storage.Home

/-!
# Finding repositories

A repository lives in a directory of its own, its home.  Unless it is bare, that directory is named
`.git` and stands inside the directory of checked-out files, and either of the two names the
repository.  Instead of a directory there may be a file that says where the home is.

Opening looks at one place, discovery at that place and all places above it, and the nearest home
wins.  A file that should point to a home ends the search even if it does not.  What discovery finds
is opened in its turn, by the path of its home.
-/

namespace Changelog

/-- A home that was found. -/
structure HomeAt where
  /-- The home. -/
  home : Location
  /-- The directory that holds references and objects for it. -/
  shared : Location
  /-- Where it was found: the home itself, or the file that points to it. -/
  place : Location
  deriving DecidableEq, Repr

/-- A repository that was opened. -/
structure RepositoryAt where
  /-- The directory that it lives in. -/
  home : Location
  /-- The directory that holds its references and objects. -/
  shared : Location
  /-- The directory that it is about: the checked-out files, or its home if it is bare. -/
  root : Location
  deriving DecidableEq, Repr

/-- There is no repository where a path leads. -/
structure NotARepository where
  /-- The path. -/
  path : String
  deriving DecidableEq, Repr

/-- The wording of the error. -/
def NotARepository.message (e : NotARepository) : String := "not a git repository: " ++ e.path

namespace FileTree

/-- The name of the home of a repository inside the directory of its files. -/
def homeName : String := ".git"

/-- The name of the file by which a home says where its references and objects are. -/
def sharedName : String := "commondir"

/-- What a file that points to a home begins with. -/
def pointerMark : List UInt8 := Text.toUtf8 "gitdir:".toList

/-- The location that a path leads to from a location.  A path may also begin at the top. -/
def follow? (tree : FileTree) (location : Location) (path : List UInt8) : Option Location :=
  let path := String.ofList (Text.ofUtf8Lossy path)
  tree.locate? (if path.toList.head? = some '/' then [] else location) (pathParts path)

/-- The directory that holds references and objects for a home. -/
def sharedOf? (tree : FileTree) (home : Location) : Option Location :=
  match tree.contentAt? (home ++ [sharedName]) with
  | none => some home
  | some content => tree.follow? home (Text.trimOctets content.toList)

/-- What a directory says about repositories: that one lives there, that none is to be found, or
nothing. -/
def homeAt? (tree : FileTree) (home place : Location) : Option (Option HomeAt) :=
  match tree.get? home with
  | some (directory entries) =>
    match tree.sharedOf? home with
    | none => some none
    | some shared =>
      if Storage.isHome (directory entries) ((tree.get? shared).getD empty) then
        some (some ⟨home, shared, place⟩)
      else none
  | _ => none

/-- The path in a file that points to a home. -/
def pointerOf? (content : List UInt8) : Option (List UInt8) :=
  match pointerMark.isPrefixOf? (Text.trimOctets content) with
  | some (octet :: path) => some ((octet :: path).dropWhile Text.isBlankOctet)
  | _ => none

/-- The home that the file at a location points to. -/
def pointedHome? (tree : FileTree) (location : Location) (content : ByteArray) : Option HomeAt := do
  let path ← pointerOf? content.toList
  let home ← tree.follow? location.dropLast path
  (tree.homeAt? home location).join

/-- What a location says about repositories. -/
def verdict? (tree : FileTree) (location : Location) : Option (Option HomeAt) :=
  match tree.get? location with
  | some (directory _) => tree.homeAt? location location
  | some (file content) =>
    if location.getLast? = some homeName then some (tree.pointedHome? location content) else none
  | none => none

/-- What a location says about repositories, by the entry for a home or by itself. -/
def verdictNear? (tree : FileTree) (location : Location) : Option (Option HomeAt) :=
  tree.verdict? (location ++ [homeName]) <|> tree.verdict? location

/-- The directory that the repository of a home is about. -/
def rootOf? (tree : FileTree) (found : HomeAt) (options : Options) : Option Location :=
  if options.bare then some found.home
  else
    match options.worktree? with
    | some path => tree.follow? found.home (Text.toUtf8 path.toList)
    | none => some found.place.dropLast

/-- Open the repository of a home. -/
def enter? (tree : FileTree) (found : HomeAt) : Option RepositoryAt := do
  let options ← Storage.options? ((tree.get? found.shared).getD empty)
  let root ← tree.rootOf? found options
  return ⟨found.home, found.shared, root⟩

/-- Open the repository of a location. -/
def openAt? (tree : FileTree) (location : Location) : Option RepositoryAt :=
  (tree.verdictNear? location).join.bind tree.enter?

/-- Open the repository of a location or of the nearest one above it that has one. -/
def discoverFrom? (tree : FileTree) (location : Location) : Option RepositoryAt :=
  (location.upward.findSome? tree.verdictNear?).join.bind fun found => tree.openAt? found.home

/-- The repository that a path names, seen from a location. -/
def openRepository (tree : FileTree) (here : Location) (path : String) :
    Except NotARepository RepositoryAt :=
  match (tree.locate? here (pathParts path)).bind tree.openAt? with
  | some found => .ok found
  | none => .error ⟨path⟩

/-- The repository that a path is in, seen from a location. -/
def discoverRepository (tree : FileTree) (here : Location) (path : String) :
    Except NotARepository RepositoryAt :=
  match (tree.locate? here (pathParts path)).bind tree.discoverFrom? with
  | some found => .ok found
  | none => .error ⟨path⟩

/-- What a repository holds. -/
def repository (tree : FileTree) (found : RepositoryAt) : Repository :=
  Storage.repositoryOf ((tree.get? found.home).getD empty) ((tree.get? found.shared).getD empty)

end FileTree

end Changelog
