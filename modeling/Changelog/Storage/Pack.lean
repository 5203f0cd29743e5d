import Changelog.Storage.Object

/-!
# Packs

A pack holds many objects in one file, and an index beside it lists their identifiers and where in
the pack their entries are.  An entry holds the content of an object, or the differences from
another entry of the same pack.  Differences copy stretches of the other content and insert octets
of their own.
-/

namespace Changelog.Storage

/-- The number that so many octets from a position spell, the high octet first. -/
def numberAt (octets : ByteArray) (position count : Nat) : Nat :=
  (octets.extract position (position + count)).foldl (fun n octet => 256 * n + octet.toNat) 0

/-- The identifier in the twenty octets from a position. -/
def identifierAt? (octets : ByteArray) (position : Nat) : Option ObjectId :=
  let digits := (octets.extract position (position + 20)).toList.flatMap fun octet =>
    [Text.lastDigit (octet.toNat / 16), Text.lastDigit octet.toNat]
  if h : digits.length = 40 then some ⟨digits, h⟩ else none

/-- What an index begins with. -/
def indexMark : Nat := 0xff744f6300000002

/-- From here on, a position in an index says where the real position is listed. -/
def farMark : Nat := 0x80000000

/-- The identifiers of an index, with the positions of their entries in the pack. -/
def indexEntries (index : ByteArray) : List (ObjectId × Nat) :=
  if numberAt index 0 8 = indexMark then
    let count := numberAt index (8 + 255 * 4) 4
    let names := 8 + 256 * 4
    let positions := names + 24 * count
    let farPositions := positions + 4 * count
    (List.range count).filterMap fun i => do
      let id ← identifierAt? index (names + 20 * i)
      let position := numberAt index (positions + 4 * i) 4
      if position < farMark then return (id, position)
      else return (id, numberAt index (farPositions + 8 * (position - farMark)) 8)
  else []

/-- A pack. -/
structure Pack where
  /-- The objects, with the positions of their entries. -/
  entries : List (ObjectId × Nat)
  /-- The octets of the pack. -/
  octets : ByteArray

/-- What an entry holds. -/
inductive PackContent
  /-- The content of an object of a kind. -/
  | whole (kind : ObjectKind)
  /-- The differences from the entry at a position. -/
  | differences (position : Nat)
  deriving DecidableEq, Repr

/-- An entry of a pack. -/
structure PackEntry where
  /-- What the entry holds. -/
  content : PackContent
  /-- How many octets that is. -/
  size : Nat
  /-- Where its compressed octets begin. -/
  start : Nat
  deriving DecidableEq, Repr

/-- Read a number of seven bits an octet, the low ones first.  The high bit of an octet says that
there is another one.  The answer comes with the position after it. -/
def sizeAt? (octets : ByteArray) : (fuel : Nat) → Nat → Option (Nat × Nat)
  | 0, _ => none
  | fuel + 1, position => do
    let octet ← octets[position]?
    if octet < 0x80 then return (octet.toNat, position + 1)
    else
      let (high, next) ← sizeAt? octets fuel (position + 1)
      return (octet.toNat % 128 + 128 * high, next)

/-- Read how far back another entry is, seven bits an octet, the high ones first.  Each further
octet also counts the numbers that fewer octets can spell. -/
def distanceAt? (octets : ByteArray) : (fuel : Nat) → Nat → Nat → Option (Nat × Nat)
  | 0, _, _ => none
  | fuel + 1, high, position => do
    let octet ← octets[position]?
    let distance := 128 * high + octet.toNat % 128
    if octet < 0x80 then return (distance, position + 1)
    else distanceAt? octets fuel (distance + 1) (position + 1)

/-- The most octets that a number in a pack takes. -/
def numberFuel : Nat := 10

namespace Pack

/-- The entry at a position. -/
def entry? (pack : Pack) (position : Nat) : Option PackEntry := do
  let octet ← pack.octets[position]?
  let (high, next) ←
    if octet < 0x80 then some (0, position + 1) else sizeAt? pack.octets numberFuel (position + 1)
  let size := octet.toNat % 16 + 16 * high
  match octet.toNat / 16 % 8 with
  | 1 => return ⟨.whole .commit, size, next⟩
  | 2 => return ⟨.whole .tree, size, next⟩
  | 3 => return ⟨.whole .blob, size, next⟩
  | 4 => return ⟨.whole .tag, size, next⟩
  | 6 =>
    let (distance, next) ← distanceAt? pack.octets numberFuel 0 next
    guard (distance ≤ position)
    return ⟨.differences (position - distance), size, next⟩
  | 7 =>
    let base ← pack.entries.lookup (← identifierAt? pack.octets next)
    return ⟨.differences base, size, next + 20⟩
  | _ => none

end Pack

/-- Read a number of which only some octets are written, a bit for each says which.  The answer
comes with the position after it. -/
def sparseNumberAt? (octets : ByteArray) : List Bool → Nat → Option (Nat × Nat)
  | [], position => some (0, position)
  | false :: present, position => do
    let (high, next) ← sparseNumberAt? octets present position
    return (256 * high, next)
  | true :: present, position => do
    let octet ← octets[position]?
    let (high, next) ← sparseNumberAt? octets present (position + 1)
    return (octet.toNat + 256 * high, next)

/-- Carry out differences from a position on. -/
def differFrom? (base differences : ByteArray) :
    (fuel : Nat) → Nat → ByteArray → Option ByteArray
  | 0, _, result => some result
  | fuel + 1, position, result =>
    match differences[position]? with
    | none => some result
    | some octet =>
      if octet < 0x80 then
        let count := octet.toNat
        differFrom? base differences fuel (position + 1 + count)
          (result ++ differences.extract (position + 1) (position + 1 + count))
      else do
        let present := (List.range 7).map octet.toNat.testBit
        let (start, next) ← sparseNumberAt? differences (present.take 4) (position + 1)
        let (count, next) ← sparseNumberAt? differences (present.drop 4) next
        let count := if count = 0 then 0x10000 else count
        differFrom? base differences fuel next (result ++ base.extract start (start + count))

/-- Carry out differences.  They begin with the sizes of both contents. -/
def differ? (base differences : ByteArray) : Option ByteArray := do
  let (_, next) ← sizeAt? differences numberFuel 0
  let (_, next) ← sizeAt? differences numberFuel next
  differFrom? base differences differences.size next .empty

namespace Pack

/-- The kind of the object at a position.  The fuel bounds how many entries lead to one that holds
its content whole. -/
def kindAt? (pack : Pack) : (fuel : Nat) → Nat → Option ObjectKind
  | 0, _ => none
  | fuel + 1, position => do
    match (← pack.entry? position).content with
    | .whole kind => return kind
    | .differences base => pack.kindAt? fuel base

/-- The content of the object at a position. -/
def contentAt? (pack : Pack) : (fuel : Nat) → Nat → Option ByteArray
  | 0, _ => none
  | fuel + 1, position => do
    let entry ← pack.entry? position
    let octets ← decompress? pack.octets entry.start entry.size
    match entry.content with
    | .whole _ => return octets
    | .differences base => differ? (← pack.contentAt? fuel base) octets

/-- The object at a position.  Only the content of commits and tags is looked at. -/
def objectAt? (pack : Pack) (position : Nat) : Option Object := do
  let fuel := pack.entries.length
  match ← pack.kindAt? fuel position with
  | .tree => return .tree
  | .blob => return .blob
  | kind => return .ofOctets kind (← pack.contentAt? fuel position).toList

/-- The objects of a pack. -/
def objects (pack : Pack) : List (ObjectId × Object) :=
  pack.entries.filterMap fun (id, position) => (pack.objectAt? position).map (id, ·)

end Pack

end Changelog.Storage
