import Changelog.Entry
import Changelog.Repository.Message
import Changelog.Repository.ObjectId
import Changelog.Repository.Signature

/-!
# Stored objects

Commits, annotated tags, blobs and trees, as they are read from the octets under which they are
stored.  Of a commit only what a log shows or needs is kept: the parents, the time of the
committer, and the message with the name of its encoding.  An object that is stored but cannot be
read is told apart from one that is missing.

A commit may name the encoding of its message; only Latin-1 is told apart from UTF-8.
-/

namespace Changelog

/-- A commit. -/
structure Commit where
  /-- The commits that it follows. -/
  parents : List ObjectId
  /-- When it was committed, in seconds since the epoch. -/
  time : Int
  /-- The name of the encoding of its message, if it has one. -/
  encoding? : Option (List UInt8)
  /-- The stored message. -/
  message : List UInt8
  deriving DecidableEq

/-- An annotated tag. -/
structure Tag where
  /-- The object that is tagged. -/
  target : ObjectId
  /-- The kind that this object should have. -/
  targetKind : ObjectKind
  deriving DecidableEq

/-- The identifier on the first line, which must begin with a name, and what follows the line. -/
def identifierLine? (name : String) (octets : List UInt8) : Option (ObjectId × List UInt8) := do
  let (value, rest) ← Text.namedLine? name octets
  return (← ObjectId.ofChars? (Text.ofLatin1 value), rest)

theorem length_lt_of_identifierLine?
    {name : String} {octets rest : List UInt8} {id : ObjectId}
    (h : identifierLine? name octets = some (id, rest)) : rest.length < octets.length := by
  obtain ⟨⟨value, rest'⟩, hline, h⟩ := Option.bind_eq_some_iff.mp h
  obtain ⟨id', -, h⟩ := Option.bind_eq_some_iff.mp h
  cases h
  exact Text.length_lt_of_namedLine? hline

namespace Commit

/-- Why octets are no commit. -/
inductive Fault
  /-- They do not begin with a tree. -/
  | noTree
  /-- A signature is wrong. -/
  | signature (fault : Signature.Fault)
  deriving DecidableEq, Repr

/-- The wording of a fault. -/
def Fault.message : Fault → String
  | noTree => "failed to parse bad commit object; class=Object (11)"
  | signature fault => fault.message ++ "; class=Invalid (3)"

/-- The parents on the lines at the start, and what follows these lines. -/
def parentsOf (octets : List UInt8) : List ObjectId × List UInt8 :=
  match _h : identifierLine? "parent" octets with
  | none => ([], octets)
  | some (id, rest) => (id :: (parentsOf rest).1, (parentsOf rest).2)
  termination_by octets.length
  decreasing_by all_goals exact length_lt_of_identifierLine? _h

/-- What follows further lines of authors at the start.  They are passed over, but each has to be
right. -/
def afterAuthors (octets : List UInt8) : Except Signature.Fault (List UInt8) :=
  if (Text.nameOctets "author").isPrefixOf octets then
    match _h : Signature.ofLine "author" octets with
    | .error fault => .error fault
    | .ok (_, rest) => afterAuthors rest
  else .ok octets
  termination_by octets.length
  decreasing_by exact Signature.length_lt_of_ofLine _h

/-- The time of the committer, and what follows the signatures. -/
def timeOf (octets : List UInt8) : Except Signature.Fault (Int × List UInt8) := do
  let (_, rest) ← Signature.ofLine "author" octets
  Signature.ofLine "committer" (← afterAuthors rest)

/-- The encoding that the last line of this sort names.  A name ends at a zero octet. -/
def encodingOf (lines : List (List UInt8)) : Option (List UInt8) :=
  (lines.reverse.findSome? (Text.afterName? "encoding")).map (·.takeWhile (· != 0))

/-- Read a commit. -/
def ofOctets (octets : List UInt8) : Except Fault Commit :=
  match identifierLine? "tree" octets with
  | none => .error .noTree
  | some (_, rest) =>
    match timeOf (parentsOf rest).2 with
    | .error fault => .error (.signature fault)
    | .ok (time, lines) => .ok {
        parents := (parentsOf rest).1
        time
        encoding? := encodingOf (Text.header lines).1
        message := (Text.header lines).2 }

/-- The names of Latin-1, in capitals. -/
def latin1Names : List String := ["ISO-8859-1", "ISO8859-1", "LATIN1", "LATIN-1"]

/-- Whether the message is in Latin-1.  The name of the encoding may be in either case. -/
def isLatin1 (c : Commit) : Bool :=
  c.encoding?.any fun name =>
    latin1Names.contains (.ofList ((Text.ofLatin1 name).map Char.toUpper))

/-- The text of octets of the message.  What is invalid is replaced. -/
def decode (c : Commit) (octets : List UInt8) : List Char :=
  if c.isLatin1 then Text.ofLatin1 octets else Text.ofUtf8Lossy octets

/-- The entry of a log for a commit. -/
def entry (c : Commit) (id : ObjectId) : LogEntry where
  hash := id.toString
  header := .ofList (c.decode (Message.header c.message))
  body := .ofList (Text.trimEnd (c.decode (Message.body c.message)))

end Commit

namespace Tag

/-- What follows the signature at the start, if there is one.  Only an empty line or the end may
stand in its place. -/
def afterTagger? (octets : List UInt8) : Option (List UInt8) :=
  match octets with
  | [] => some []
  | octet :: _ =>
    if octet = Text.lineFeed then some octets
    else (Signature.ofLine "tagger" octets).toOption.map Prod.snd

/-- Whether there is an empty line, or nothing at all. -/
def endsHeader (octets : List UInt8) : Bool :=
  octets.isEmpty || (Text.atEmptyLine (Text.lineFeed :: octets)).1.length ≤ octets.length

/-- Read an annotated tag. -/
def ofOctets? (octets : List UInt8) : Option Tag := do
  let (target, rest) ← identifierLine? "object" octets
  let (kindName, rest) ← Text.namedLine? "type" rest
  let targetKind ← ObjectKind.ofName? (.ofList (Text.ofLatin1 kindName))
  let (_, rest) ← Text.namedLine? "tag" rest
  let rest ← afterTagger? rest
  if endsHeader rest then some { target, targetKind } else none

end Tag

/-- A stored object. -/
inductive Object
  | commit (c : Commit)
  | tag (t : Tag)
  | blob
  | tree
  /-- What is stored as a commit but is none. -/
  | faultyCommit (fault : Commit.Fault)
  /-- What is stored as a tag but is none. -/
  | faultyTag
  deriving DecidableEq

namespace Object

/-- The kind under which an object is stored. -/
def kind : Object → ObjectKind
  | commit _ => .commit
  | tag _ => .tag
  | blob => .blob
  | tree => .tree
  | faultyCommit _ => .commit
  | faultyTag => .tag

/-- Read an object of a kind. -/
def ofOctets (kind : ObjectKind) (octets : List UInt8) : Object :=
  match kind with
  | .commit =>
    match Commit.ofOctets octets with
    | .ok c => commit c
    | .error fault => faultyCommit fault
  | .tag =>
    match Tag.ofOctets? octets with
    | some t => tag t
    | none => faultyTag
  | .blob => blob
  | .tree => tree

/-- An object that is read keeps its kind. -/
@[simp] theorem kind_ofOctets (kind : ObjectKind) (octets : List UInt8) :
    (ofOctets kind octets).kind = kind := by
  unfold ofOctets
  repeat' split
  all_goals rfl

end Object

end Changelog
