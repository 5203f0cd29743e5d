import Changelog.Repository.Basic
import Changelog.Repository.ReferenceName
import Changelog.Text.Decimal
import Changelog.Text.Run

/-!
# Revisions

A revision names a commit: `HEAD~2`, `v1.0^{commit}`, an abbreviated identifier.  It is a base and
any number of suffixes.  The base names an object, and each suffix leads from an object to another
one.  At the end a tag stands for the commit that it was put on.

Reading a revision and following it are two steps.  The text decides the base and the suffixes; the
repository decides what they lead to.
-/

namespace Changelog

/-- A suffix of a revision. -/
inductive RevisionSuffix
  /-- Go to the first parent, the given number of times. -/
  | ancestor (count : Nat)
  /-- Go to one of the parents, counted from one; zero stays at the commit. -/
  | parent (number : Nat)
  /-- Go from a tag to what was tagged, and on from there, until there is no tag. -/
  | untagged
  /-- Go to an object of a kind. -/
  | kind (k : ObjectKind)
  deriving DecidableEq, Repr

/-- A revision that has been read. -/
structure Revision where
  /-- The name of an object. -/
  base : String
  /-- The steps from there. -/
  suffixes : List RevisionSuffix
  deriving DecidableEq, Repr

namespace Revision

/-- A number, or the number to take if there are no digits, with what follows. -/
def count (default : Nat) (cs : List Char) : Nat × List Char :=
  match Text.run? Char.isDigit cs with
  | some (digits, rest) => (Text.decimal digits, rest)
  | none => (default, cs)

theorem length_count_le (default : Nat) (cs : List Char) :
    (count default cs).2.length ≤ cs.length := by
  unfold count
  split
  · rename_i digits rest h
    exact Nat.le_of_lt (Text.length_lt_of_run? h)
  · exact Nat.le_refl _

/-- What braces ask for. -/
def braced? (content : List Char) : Option RevisionSuffix :=
  if content = [] then some .untagged
  else [.commit, .tree, .blob, .tag].findSome? fun k : ObjectKind =>
    if k.name.toList = content then some (.kind k) else none

/-- Read suffixes. -/
def suffixes? : List Char → Option (List RevisionSuffix)
  | [] => some []
  | '~' :: rest =>
    have := length_count_le 1 rest
    (suffixes? (count 1 rest).2).map (.ancestor (count 1 rest).1 :: ·)
  | '^' :: '\x7b' :: rest =>
    match rest.dropWhile (· != '\x7d') with
    | '\x7d' :: _ => do
      let suffix ← braced? (rest.takeWhile (· != '\x7d'))
      return suffix :: (← suffixes? ((rest.dropWhile (· != '\x7d')).drop 1))
    | _ => none
  | '^' :: rest =>
    have := length_count_le 1 rest
    (suffixes? (count 1 rest).2).map (.parent (count 1 rest).1 :: ·)
  | _ => none
  termination_by cs => cs.length
  decreasing_by
    · simp only [List.length_cons]
      omega
    · have := (List.dropWhile_suffix (l := rest) (· != '\x7d')).length_le
      simp only [List.length_drop, List.length_cons]
      omega
    · simp only [List.length_cons]
      omega

/-- Read a revision.  The base ends where the first suffix begins.  Without suffixes `@` is another
name of the head. -/
def parse? (text : String) : Option Revision := do
  let isBase (c : Char) : Bool := c != '~' && c != '^'
  return {
    base := if text = "@" then Repository.headName else .ofList (text.toList.takeWhile isBase)
    suffixes := ← suffixes? (text.toList.dropWhile isBase) }

/-- The abbreviated identifier at the end of a description such as `v1.0-4-g1a2b3c4`: what follows
the first `-g`.  The text must hold a number and an abbreviated identifier, each after a hyphen and
behind some character of the same line. -/
def described? (name : List Char) : Option (List Char) := do
  guard (isDescription name)
  afterMark? name
where
  /-- What follows the first `-g`. -/
  afterMark? : List Char → Option (List Char)
    | '-' :: 'g' :: rest => some rest
    | _ :: rest => afterMark? rest
    | [] => none
  /-- Whether a number and an identifier follow, each after a hyphen. -/
  isMark : List Char → Bool
    | '-' :: rest =>
      match Text.run? Char.isDigit rest with
      | some (_, '-' :: 'g' :: d :: _) => (Text.hexValue? d).isSome
      | _ => false
    | _ => false
  /-- Whether there is such a place behind some character. -/
  isDescription : List Char → Bool
    | c :: rest => (c != '\n' && isMark rest) || isDescription rest
    | [] => false

end Revision

namespace Repository

/-- How many symbolic references are followed. -/
def symbolicDepth : Nat := 5

/-- Follow the reference of a name, through at most the given number of symbolic references. -/
def follow (repository : Repository) : Nat → String → Except ReferenceError ObjectId
  | depth, name =>
    match repository.reference name with
    | .error e => .error e
    | .ok (.direct id) => .ok id
    | .ok (.symbolic next) =>
      match depth with
      | 0 => .error .tooDeep
      | depth + 1 => follow repository depth next

/-- The object that the first of the names leads to that is not missing.  A name that leads to
something else ends the search, and so does one that is too long. -/
def followFirst (repository : Repository) : List String → Except ReferenceError ObjectId
  | [] => .error .missing
  | name :: names =>
    if ReferenceName.limit < name.utf8ByteSize then .error .nameTooLong
    else
      match repository.follow symbolicDepth name with
      | .error .missing => followFirst repository names
      | result => result

/-- Whether there is an object.  The empty tree always is. -/
def hasObject (repository : Repository) (id : ObjectId) : Bool :=
  id = .emptyTree || (repository.object? id).isSome

/-- The object whose identifier begins with the digits, if there is exactly one and there are at
least four digits. -/
def abbreviated? (repository : Repository) (cs : List Char) : Option ObjectId := do
  let digits ← ObjectId.digits? cs
  guard (4 ≤ digits.length)
  match ((repository.objects.map Prod.fst).filter (·.startsWith digits)).eraseDups with
  | [id] => some id
  | _ => none

/-- The object that the base of a revision names: a whole identifier, a reference, an abbreviated
identifier, or a description that ends in one. -/
def base? (repository : Repository) (name : String) : Option ObjectId :=
  let cs := name.toList
  (ObjectId.ofChars? cs).filter repository.hasObject <|> do
    guard (ReferenceName.isWellFormed name)
    match repository.followFirst (ReferenceName.candidates name) with
    | .ok id => some id
    | .error .missing =>
      (if cs.length < 40 then repository.abbreviated? cs else none) <|>
        Revision.described? cs >>= repository.abbreviated?
    | .error _ => none

/-- Go from tags to what was tagged, until there is no tag.  What was tagged must be of the kind
that the tag says.  A chain of tags is no longer than the list of objects. -/
def untag? (repository : Repository) (id : ObjectId) : Option ObjectId :=
  go repository.objects.length id
where
  /-- Go on for at most the given number of tags. -/
  go : Nat → ObjectId → Option ObjectId
    | 0, _ => none
    | limit + 1, id =>
      match repository.object? id with
      | some (.tag t) =>
        if (repository.object? t.target).map Object.kind = some t.targetKind then
          go limit t.target
        else none
      | some (.faultyCommit _) => none
      | some .faultyTag => none
      | some _ => some id
      | none => none

/-- The commit that an object stands for. -/
def toCommit? (repository : Repository) (id : ObjectId) : Option (ObjectId × Commit) := do
  let id ← repository.untag? id
  return (id, ← repository.commit? id)

/-- One of the parents of a commit, counted from one. -/
def parent? (repository : Repository) (c : Commit) (number : Nat) : Option (ObjectId × Commit) := do
  let id ← c.parents[number - 1]?
  return (id, ← repository.commit? id)

/-- Go to the first parent a number of times. -/
def ancestor? (repository : Repository) : Nat → ObjectId × Commit → Option (ObjectId × Commit)
  | 0, start => some start
  | count + 1, start => repository.parent? start.2 1 >>= ancestor? repository count

/-- Follow a suffix.  No suffix that asks for files leads back to a commit, so these are not
followed. -/
def step? (repository : Repository) (id : ObjectId) : RevisionSuffix → Option ObjectId
  | .ancestor count => (repository.toCommit? id >>= repository.ancestor? count).map Prod.fst
  | .parent 0 => (repository.toCommit? id).map Prod.fst
  | .parent number =>
    (repository.toCommit? id >>= fun c => repository.parent? c.2 number).map Prod.fst
  | .untagged => repository.untag? id
  | .kind .commit => (repository.toCommit? id).map Prod.fst
  | .kind .tag =>
    match repository.object? id with
    | some (.tag _) => some id
    | _ => none
  | .kind .tree => none
  | .kind .blob => none

/-- The commit that a revision names. -/
def resolve? (repository : Repository) (text : String) : Option ObjectId := do
  let revision ← Revision.parse? text
  let start ← repository.base? revision.base
  let id ← revision.suffixes.foldlM repository.step? start
  (repository.toCommit? id).map Prod.fst

end Repository

end Changelog
