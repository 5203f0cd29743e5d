/-!
# Compressed octets

Stored objects are compressed in the deflate format, after two octets that name the method.  The
compressed form is a stream of bits, grouped into blocks; a block either holds its octets as they
are or describes them by symbols of two prefix codes, one for octets and lengths and one for
distances.
A length and a distance stand for a repetition of octets that came before.

Reading stops as soon as the wanted number of octets is there, so a reader that needs the beginning
only does not pay for the rest.  The check sum at the end is not looked at.
-/

namespace Changelog.Storage

/-- A reader of bits from given octets.  Its state is the position of the next bit. -/
abbrev BitReader := ReaderT ByteArray (StateT Nat Option)

namespace BitReader

/-- The next bit.  The low bit of an octet comes first. -/
def bit : BitReader Nat := do
  let position ← get
  match (← read)[position / 8]? with
  | some octet =>
    set (position + 1)
    return octet.toNat >>> (position % 8) % 2
  | none => failure

/-- A number of so many bits, the low bit first. -/
def number : Nat → BitReader Nat
  | 0 => return 0
  | width + 1 => do
    let low ← bit
    return low + 2 * (← number width)

/-- Go on with the next whole octet. -/
def align : BitReader Unit :=
  modify fun position => (position + 7) / 8 * 8

end BitReader

/-- A prefix code: the symbols of each length of code word, from length one upwards.  The words of
a length are consecutive numbers, and they begin where the words of the length before left off. -/
abbrev PrefixCode := List (Array Nat)

namespace PrefixCode

/-- The code in which the symbols have words of the lengths given, zero for no word. -/
def ofLengths (lengths : List Nat) : PrefixCode :=
  (List.range 15).map fun i =>
    (lengths.zipIdx.filterMap fun (length, symbol) =>
      if length = i + 1 then some symbol else none).toArray

/-- Read a symbol, given how far the bits so far are beyond the words that are too short. -/
def symbolFrom : PrefixCode → Nat → BitReader Nat
  | [], _ => failure
  | symbols :: longer, beyond => do
    let beyond := 2 * beyond + (← BitReader.bit)
    match symbols[beyond]? with
    | some symbol => return symbol
    | none => symbolFrom longer (beyond - symbols.size)

/-- Read a symbol. -/
def symbol (code : PrefixCode) : BitReader Nat := code.symbolFrom 0

end PrefixCode

namespace Deflate

/-- A symbol that stands for a range of numbers: the least of them, and how many bits choose one. -/
structure Span where
  /-- The least number. -/
  base : Nat
  /-- The width of what is added to it. -/
  width : Nat
  deriving DecidableEq, Repr

/-- Spans of the widths given, each beginning where the one before ends. -/
def spans (base : Nat) : List Nat → List Span
  | [] => []
  | width :: widths => ⟨base, width⟩ :: spans (base + 2 ^ width) widths

/-- The lengths of repetitions, by symbol from 257 upwards.  The greatest has one to itself. -/
def lengthSpans : Array Span :=
  (spans 3 ([0, 0, 0, 0] ++ (List.range 6).flatMap (List.replicate 4 ·)) ++ [Span.mk 258 0]).toArray

/-- The distances of repetitions, by symbol. -/
def distanceSpans : Array Span :=
  (spans 1 ([0, 0] ++ (List.range 14).flatMap (List.replicate 2 ·))).toArray

example : lengthSpans.size = 29 ∧ lengthSpans[27]? = some ⟨227, 5⟩ := by decide

example : distanceSpans.size = 30 ∧ distanceSpans[29]? = some ⟨24577, 13⟩ := by decide

/-- Read the number that a symbol and the bits after it stand for. -/
def inSpan (spans : Array Span) (symbol : Nat) : BitReader Nat := do
  match spans[symbol]? with
  | some span => return span.base + (← BitReader.number span.width)
  | none => failure

/-- Add octets that were already read, beginning so far back. -/
def repeatOctets (distance : Nat) : Nat → ByteArray → BitReader ByteArray
  | 0, octets => return octets
  | count + 1, octets => do
    match octets[octets.size - distance]? with
    | some octet => repeatOctets distance count (octets.push octet)
    | none => failure

/-- Add octets that are stored as they are, from the next whole octet on. -/
def copyOctets (count : Nat) (octets : ByteArray) : BitReader ByteArray := do
  let source ← read
  let start := (← get) / 8
  if source.size < start + count then failure
  set (8 * (start + count))
  return octets ++ source.extract start (start + count)

/-- Read symbols up to the end of the block, or until enough octets are there. -/
def symbols (codes : PrefixCode × PrefixCode) (wanted : Nat) :
    (fuel : Nat) → ByteArray → BitReader ByteArray
  | 0, _ => failure
  | fuel + 1, octets => do
    if wanted ≤ octets.size then return octets
    let symbol ← codes.1.symbol
    if symbol < 256 then symbols codes wanted fuel (octets.push symbol.toUInt8)
    else if symbol = 256 then return octets
    else
      let count ← inSpan lengthSpans (symbol - 257)
      let distance ← inSpan distanceSpans (← codes.2.symbol)
      symbols codes wanted fuel (← repeatOctets distance count octets)

/-- The codes of a block that brings none of its own. -/
def fixedCodes : PrefixCode × PrefixCode :=
  (.ofLengths (List.replicate 144 8 ++ List.replicate 112 9 ++ List.replicate 24 7 ++
    List.replicate 8 8), .ofLengths (List.replicate 30 5))

/-- The order in which the lengths for the code of lengths are written. -/
def lengthOrder : List Nat :=
  [16, 17, 18, 0, 8, 7, 9, 6, 10, 5, 11, 4, 12, 3, 13, 2, 14, 1, 15]

/-- Read lengths of words until there are enough.  The last one read comes first. -/
def wordLengths (code : PrefixCode) (wanted : Nat) :
    (fuel : Nat) → List Nat → BitReader (List Nat)
  | 0, lengths => return lengths
  | fuel + 1, lengths => do
    if wanted ≤ lengths.length then return lengths
    let symbol ← code.symbol
    if symbol < 16 then wordLengths code wanted fuel (symbol :: lengths)
    else if symbol = 16 then
      match lengths with
      | [] => failure
      | last :: _ =>
        let count ← BitReader.number 2
        wordLengths code wanted fuel (List.replicate (count + 3) last ++ lengths)
    else
      let count ← if symbol = 17 then (· + 3) <$> BitReader.number 3
        else (· + 11) <$> BitReader.number 7
      wordLengths code wanted fuel (List.replicate count 0 ++ lengths)

/-- Read the codes that a block brings. -/
def ownCodes : BitReader (PrefixCode × PrefixCode) := do
  let symbolCount := 257 + (← BitReader.number 5)
  let distanceCount := 1 + (← BitReader.number 5)
  let orderCount := 4 + (← BitReader.number 4)
  let written ← (lengthOrder.take orderCount).mapM fun symbol =>
    return (symbol, ← BitReader.number 3)
  let code := PrefixCode.ofLengths <| (List.range 19).map fun symbol =>
    (written.lookup symbol).getD 0
  let wanted := symbolCount + distanceCount
  let lengths := (← wordLengths code wanted wanted []).reverse
  return (.ofLengths (lengths.take symbolCount), .ofLengths (lengths.drop symbolCount))

/-- Read blocks until the last one ends or enough octets are there. -/
def blocks (wanted : Nat) : (fuel : Nat) → ByteArray → BitReader ByteArray
  | 0, _ => failure
  | fuel + 1, octets => do
    let isLast ← BitReader.bit
    let octets ← match ← BitReader.number 2 with
      | 0 =>
        BitReader.align
        let count ← BitReader.number 16
        discard (BitReader.number 16)
        copyOctets count octets
      | 1 => symbols fixedCodes wanted fuel octets
      | 2 => symbols (← ownCodes) wanted fuel octets
      | _ => failure
    if isLast = 1 ∨ wanted ≤ octets.size then return octets else blocks wanted fuel octets

end Deflate

/-- The octets that are compressed from a position on: at least as many as wanted, or all of them
if there are fewer.  Each step of the reader takes a bit, so their number bounds the steps. -/
def decompress? (compressed : ByteArray) (start wanted : Nat) : Option ByteArray := do
  let method ← compressed[start]?
  let flags ← compressed[start + 1]?
  guard (method.toNat % 16 = 8 ∧ flags.toNat / 32 % 2 = 0)
  (Deflate.blocks wanted (8 * compressed.size) .empty compressed (8 * (start + 2))).map (·.1)

end Changelog.Storage
