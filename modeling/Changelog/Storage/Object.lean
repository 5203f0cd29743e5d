import Changelog.Repository.Object
import Changelog.Storage.Deflate
import Changelog.Storage.Wrap

/-!
# Files of objects

An object that has a file of its own is kept there together with a preamble, which names the kind
of the object and the number of its octets.  The place of the file is read off the identifier: the
first two digits are the name of a directory, and the others that of the file.
-/

namespace Changelog.Storage

/-- The file of an object. -/
def objectFile (kind : ObjectKind) (octets : List UInt8) : ByteArray :=
  wrap (kind.preamble octets.length ++ octets)

/-- The names of the directory and the file of an object. -/
def objectPath (id : ObjectId) : List String :=
  [.ofList (id.toChars.take 2), .ofList (id.toChars.drop 2)]

/-- The most octets that a preamble takes. -/
def preambleLimit : Nat := 32

/-- What the octets of a file say before those of the object: the kind, how many octets the object
has, and where they begin. -/
def preamble? (octets : ByteArray) : Option (ObjectKind × Nat × Nat) := do
  let preamble := (octets.extract 0 preambleLimit).toList.takeWhile (· != 0)
  match (Text.ofLatin1 preamble).splitOn ' ' with
  | [kind, size] =>
    return (← ObjectKind.ofName? (.ofList kind), ← (String.ofList size).toNat?,
      preamble.length + 1)
  | _ => none

/-- Read an object from a file of its own.  Only the content of commits and tags is looked at. -/
def objectOfFile? (file : ByteArray) : Option Object := do
  let (kind, size, start) ← preamble? (← decompress? file 0 preambleLimit)
  match kind with
  | .tree => return .tree
  | .blob => return .blob
  | kind =>
    let octets ← decompress? file 0 (start + size)
    return .ofOctets kind (octets.extract start (start + size)).toList

end Changelog.Storage
