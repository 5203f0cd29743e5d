import Changelog.Repository.ObjectId
import Changelog.Text.Line

/-!
# References

A reference points to an object or to another reference.  It has a file of its own, or a line of the
file that lists the packed references.  A file begins with a mark and a name, or it begins with an
identifier and may go on after a blank.
-/

namespace Changelog

/-- What a reference points to. -/
inductive Reference
  /-- An object. -/
  | direct (id : ObjectId)
  /-- The reference of a name, which need not exist. -/
  | symbolic (name : String)
  deriving DecidableEq

namespace Reference

/-- Why a file is no reference. -/
inductive Fault
  /-- No name follows the mark. -/
  | noName
  /-- There is no identifier. -/
  | noIdentifier
  deriving DecidableEq, Repr

/-- What the file of a symbolic reference begins with. -/
def mark : List UInt8 := Text.nameOctets "ref:"

/-- The text up to the first zero octet. -/
def textOf (octets : List UInt8) : String :=
  .ofList (Text.ofUtf8Lossy (octets.takeWhile (· != 0)))

/-- The identifier at the start, if it stands alone, with what follows. -/
def identifierOf? (octets : List UInt8) : Option ObjectId :=
  if (octets.drop 40).head?.all fun octet => octet = 0 || Text.isBlankOctet octet then
    ObjectId.ofChars? (Text.ofLatin1 (octets.take 40))
  else none

/-- Read the file of a reference. -/
def ofOctets (octets : List UInt8) : Except Fault Reference :=
  if mark.isPrefixOf octets then
    match mark.isPrefixOf? (Text.trimOctets octets) with
    | some (octet :: name) => .ok (symbolic (textOf (octet :: name)))
    | _ => .error .noName
  else
    match identifierOf? octets with
    | some id => .ok (direct id)
    | none => .error .noIdentifier

/-- The file of a reference. -/
def octets : Reference → List UInt8
  | direct id => Text.toUtf8 (id.toChars ++ ['\n'])
  | symbolic name => mark ++ Text.toUtf8 (name.toList ++ ['\n'])

/-- Read a line of the packed references: an identifier, a space, a name. -/
def ofPackedLine? (line : List UInt8) : Option (String × ObjectId) :=
  match line.drop 40 with
  | 0x20 :: name => do
    let id ← ObjectId.ofChars? (Text.ofLatin1 (line.take 40))
    some (textOf (if name.getLast? = some 0x0d then name.dropLast else name), id)
  | _ => none

/-- What follows the comments at the start. -/
def afterComments (octets : List UInt8) : List UInt8 :=
  if octets.head? = some 0x23 then
    match _h : Text.line? octets with
    | some (_, rest) => afterComments rest
    | none => octets
  else octets
  termination_by octets.length
  decreasing_by exact Text.length_lt_of_line? _h

/-- What follows the line about the target of a tag, if there is one.  This line may lack an end. -/
def afterTarget? (octets : List UInt8) : Option (List UInt8) :=
  if octets.head? = some 0x5e then
    match ObjectId.ofChars? (Text.ofLatin1 ((octets.drop 1).take 40)), Text.line? octets with
    | some _, some (_, rest) => some rest
    | some _, none => if octets.length = 41 then some [] else none
    | none, _ => none
  else some octets

theorem length_le_of_afterTarget?
    {octets rest : List UInt8} (h : afterTarget? octets = some rest) :
    rest.length ≤ octets.length := by
  unfold afterTarget? at h
  split at h
  · split at h
    · rename_i hline
      cases h
      exact Nat.le_of_lt (Text.length_lt_of_line? hline)
    · split at h
      · cases h
        simp
      · cases h
    · cases h
  · cases h
    exact Nat.le_refl _

/-- Read the lines of the packed references. -/
def ofPackedLines? (octets : List UInt8) : Option (List (String × ObjectId)) :=
  if octets = [] then some []
  else
    match _h : Text.line? octets with
    | none => none
    | some (line, rest) =>
      match _ht : afterTarget? rest with
      | none => none
      | some rest =>
        match ofPackedLine? line, ofPackedLines? rest with
        | some entry, some entries => some (entry :: entries)
        | _, _ => none
  termination_by octets.length
  decreasing_by
    have := Text.length_lt_of_line? _h
    have := length_le_of_afterTarget? _ht
    omega

/-- Read the file of the packed references, the last line first, since it counts most.  The list is
good as a whole or not at all. -/
def ofPackedOctets? (octets : List UInt8) : Option (List (String × ObjectId)) :=
  (ofPackedLines? (afterComments octets)).map List.reverse

/-- The file of packed references, given the last line first. -/
def packedOctets (entries : List (String × ObjectId)) : List UInt8 :=
  Text.toUtf8 (entries.reverse.flatMap fun (name, id) =>
    id.toChars ++ ' ' :: name.toList ++ ['\n'])

end Reference

end Changelog
