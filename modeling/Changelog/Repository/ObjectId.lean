import Changelog.Repository.Sha1
import Changelog.Text.Hex
import Changelog.Text.Utf8

/-!
# Object identifiers

An object is named by forty hexadecimal digits.  They are written in lower case and read in either
case, and an abbreviation is a list of digits that the identifier begins with.  The digits are the
digest of the kind of the object, the number of its octets and these octets, so equal objects have
one name.
-/

namespace Changelog

/-- The kinds of objects. -/
inductive ObjectKind
  | commit
  | tree
  | blob
  | tag
  deriving DecidableEq, Repr

namespace ObjectKind

/-- The name of a kind. -/
def name : ObjectKind → String
  | commit => "commit"
  | tree => "tree"
  | blob => "blob"
  | tag => "tag"

/-- The kind of a name. -/
def ofName? (name : String) : Option ObjectKind :=
  [commit, tree, blob, tag].find? (·.name = name)

/-- The octets that stand before those of an object of so many octets. -/
def preamble (kind : ObjectKind) (size : Nat) : List UInt8 :=
  Text.toUtf8 (kind.name ++ " " ++ toString size).toList ++ [0]

end ObjectKind

/-- The name of an object. -/
structure ObjectId where
  /-- The digits. -/
  digits : List (Fin 16)
  length_digits : digits.length = 40
  deriving DecidableEq

namespace ObjectId

/-- The identifier of the digits of a digest. -/
def ofDigest (digest : Sha1.State) : ObjectId := ⟨digest.digits, digest.length_digits⟩

/-- The identifier of an object. -/
def ofOctets (kind : ObjectKind) (octets : List UInt8) : ObjectId :=
  ofDigest (Sha1.digest (kind.preamble octets.length ++ octets))

/-- The identifier of all zeros, which names nothing. -/
def zero : ObjectId := ⟨List.replicate 40 0, List.length_replicate⟩

/-- The identifier of the tree without files, which is known even where it is not stored. -/
def emptyTree : ObjectId := ofOctets .tree []

/-- The digits as characters. -/
def toChars (id : ObjectId) : List Char := id.digits.map Text.hexDigit

/-- The written form of an identifier. -/
def toString (id : ObjectId) : String := .ofList id.toChars

/-- The digits of a text of hexadecimal digits. -/
def digits? (cs : List Char) : Option (List (Fin 16)) := cs.mapM Text.hexValue?

/-- Read an identifier. -/
def ofChars? (cs : List Char) : Option ObjectId :=
  match digits? cs with
  | none => none
  | some digits => if h : digits.length = 40 then some ⟨digits, h⟩ else none

/-- Whether the identifier begins with the digits. -/
def startsWith (id : ObjectId) (digits : List (Fin 16)) : Bool := digits.isPrefixOf id.digits

@[simp] theorem length_toChars (id : ObjectId) : id.toChars.length = 40 := by
  simp [toChars, id.length_digits]

/-- An identifier that is written is read back. -/
@[simp] theorem ofChars?_toChars (id : ObjectId) : ofChars? id.toChars = some id := by
  have hdigits : digits? id.toChars = some id.digits := by
    unfold digits? toChars
    induction id.digits with
    | nil => rfl
    | cons digit digits ih => simp [ih]
  simp [ofChars?, hdigits, id.length_digits]

/-- Different identifiers are written differently. -/
theorem toString_injective {a b : ObjectId} (h : a.toString = b.toString) : a = b := by
  have hchars : a.toChars = b.toChars := by
    simpa [toString] using congrArg String.toList h
  have hread := congrArg ofChars? hchars
  simpa using hread

end ObjectId

end Changelog
