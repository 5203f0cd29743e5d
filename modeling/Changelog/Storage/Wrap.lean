/-!
# Wrapping octets

The format of compressed octets also admits octets that are not compressed at all.  They are written
in blocks, each with the number of its octets and the complement of that number, between a mark of
the format and a check sum.
-/

namespace Changelog.Storage

/-- A number as octets, as many as said, the low octet first. -/
def littleEndian : (count n : Nat) → List UInt8
  | 0, _ => []
  | count + 1, n => n.toUInt8 :: littleEndian count (n / 256)

/-- The most octets of a block. -/
def blockLimit : Nat := 65535

/-- A block of at most as many octets as a block may have. -/
def block (isLast : Bool) (octets : List UInt8) : List UInt8 :=
  (if isLast then 1 else 0) :: littleEndian 2 octets.length ++
    littleEndian 2 (blockLimit - octets.length) ++ octets

/-- The blocks of octets, with at least one block. -/
def blocks (octets : List UInt8) : List UInt8 :=
  if blockLimit < octets.length then
    block false (octets.take blockLimit) ++ blocks (octets.drop blockLimit)
  else block true octets
  termination_by octets.length
  decreasing_by
    rw [List.length_drop]
    unfold blockLimit at *
    omega

/-- What the two sums of the check sum are taken modulo. -/
def checkModulus : Nat := 65521

/-- The check sum: the sum of the octets and one, and the sum of all these sums on the way. -/
def checkSum (octets : List UInt8) : Nat × Nat :=
  octets.foldl (fun sums octet =>
    let low := (sums.1 + octet.toNat) % checkModulus
    (low, (sums.2 + low) % checkModulus)) (1, 0)

/-- Octets as a file that is read like a compressed one. -/
def wrap (octets : List UInt8) : ByteArray :=
  ([0x78, 0x01] ++ blocks octets ++ (littleEndian 2 (checkSum octets).2).reverse ++
    (littleEndian 2 (checkSum octets).1).reverse).toByteArray

end Changelog.Storage
