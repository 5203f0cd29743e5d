/-!
# Names of references

A reference name consists of parts between slashes.  Each part has to keep some characters free
for the notation of revisions: a name in which these occur can never be meant, so a revision that
is no possible name is refused before anything is looked up.  A name of a single part is that of a
head, in capitals; a name of more parts does not begin with one in capitals.

The names under which a short name is looked up come in a fixed order.
-/

namespace Changelog.ReferenceName

/-- Characters that no name contains. -/
def isForbidden (c : Char) : Bool :=
  c.toNat ≤ 0x20 || ['\x7f', '~', '^', ':', '\\', '?', '[', '*'].contains c

/-- Whether two characters stand next to each other somewhere. -/
def hasPair (a b : Char) : List Char → Bool
  | c :: d :: rest => (c == a && d == b) || hasPair a b (d :: rest)
  | _ => false

/-- Whether a part of a name is well formed. -/
def isPart (part : List Char) : Bool :=
  part != [] && part.head? != some '.' && !part.any isForbidden && !hasPair '.' '.' part &&
    !hasPair '@' '\x7b' part && !".lock".toList.isSuffixOf part

/-- Whether a text can be the middle of a reference name. -/
def isWellFormed (name : String) : Bool :=
  (name.toList.splitOn '/').all isPart

/-- Whether a part is the name of a head: capitals, and lines between them. -/
def isCapital (part : List Char) : Bool :=
  part.all (fun c => c.isUpper || c == '_') && part.head? != some '_' &&
    part.getLast? != some '_'

/-- Whether a text can be a whole reference name. -/
def isName (name : String) : Bool :=
  isWellFormed name && name.toList.getLast? != some '.' &&
    match name.toList.splitOn '/' with
    | [part] => isCapital part
    | part :: _ => !isCapital part
    | [] => false

/-- What the name of a branch begins with. -/
def branchMark : String := "refs/heads/"

/-- Whether a text can be the name of a branch. -/
def isBranch (name : String) : Bool :=
  branchMark.toList.isPrefixOf name.toList && isName name

/-- A short name, with the sign for the head spelled out. -/
def spelledOut (name : String) : String := if name = "@" then "HEAD" else name

/-- The full names that a short name may stand for, in the order in which they are looked up. -/
def candidates (name : String) : List String :=
  [spelledOut name, "refs/" ++ name, "refs/tags/" ++ name, "refs/heads/" ++ name,
    "refs/remotes/" ++ name, "refs/remotes/" ++ name ++ "/HEAD"].filter isName

/-- The most octets that a name may have. -/
def limit : Nat := 1023

end Changelog.ReferenceName
