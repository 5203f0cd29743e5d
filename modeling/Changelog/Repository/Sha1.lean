import Changelog.Text.Hex

/-!
# SHA-1

The digest that names the objects of a repository.  The octets are padded to whole blocks of 64,
each block is widened to eighty words, and eighty rounds mix these into a state of five words.
-/

namespace Changelog.Sha1

/-- The state between two blocks. -/
structure State where
  a : UInt32
  b : UInt32
  c : UInt32
  d : UInt32
  e : UInt32
  deriving DecidableEq, Repr

/-- The state before the first block. -/
def initial : State := ⟨0x67452301, 0xefcdab89, 0x98badcfe, 0x10325476, 0xc3d2e1f0⟩

/-- Rotate a word to the left, by one to thirty-one places. -/
def rotate (w places : UInt32) : UInt32 := (w <<< places) ||| (w >>> (32 - places))

/-- A number as octets, the most significant first. -/
def bigEndian : (count n : Nat) → List UInt8
  | 0, _ => []
  | count + 1, n => bigEndian count (n / 256) ++ [n.toUInt8]

/-- The octets with their padding: one set bit, zeros up to a whole block, and the length in
bits as the last eight octets of it. -/
def pad (octets : List UInt8) : List UInt8 :=
  octets ++ 0x80 :: List.replicate ((119 - octets.length % 64) % 64) 0 ++
    bigEndian 8 (octets.length * 8)

/-- The word that four octets spell. -/
def word (octets : List UInt8) : UInt32 :=
  octets.foldl (fun w octet => w * 256 + octet.toUInt32) 0

/-- The eighty words of a block. -/
def schedule (block : List UInt8) : Array UInt32 :=
  let start := (List.range 16).map fun i => word ((block.drop (4 * i)).take 4)
  (List.range' 16 64).foldl (fun ws i =>
    let back (n : Nat) : UInt32 := ws.getD (i - n) 0
    ws.push (rotate (back 3 ^^^ back 8 ^^^ back 14 ^^^ back 16) 1)) start.toArray

/-- The function and the constant of a round. -/
def mixing (i : Nat) (s : State) : UInt32 × UInt32 :=
  if i < 20 then ((s.b &&& s.c) ||| (~~~s.b &&& s.d), 0x5a827999)
  else if i < 40 then (s.b ^^^ s.c ^^^ s.d, 0x6ed9eba1)
  else if i < 60 then ((s.b &&& s.c) ||| (s.b &&& s.d) ||| (s.c &&& s.d), 0x8f1bbcdc)
  else (s.b ^^^ s.c ^^^ s.d, 0xca62c1d6)

/-- One round with its word. -/
def round (s : State) (i : Nat) (w : UInt32) : State :=
  let (f, k) := mixing i s
  ⟨rotate s.a 5 + f + s.e + k + w, s.a, rotate s.b 30, s.c, s.d⟩

/-- Mix a block into the state. -/
def compress (s : State) (block : List UInt8) : State :=
  let ws := schedule block
  let t := (List.range 80).foldl (fun t i => round t i (ws.getD i 0)) s
  ⟨s.a + t.a, s.b + t.b, s.c + t.c, s.d + t.d, s.e + t.e⟩

/-- The digest of octets. -/
def digest (octets : List UInt8) : State :=
  let padded := pad octets
  (List.range (padded.length / 64)).foldl
    (fun s i => compress s ((padded.drop (64 * i)).take 64)) initial

/-- The hexadecimal digits of a word. -/
def wordDigits (w : UInt32) : List (Fin 16) :=
  [28, 24, 20, 16, 12, 8, 4, 0].map fun places => Text.lastDigit (w.toNat >>> places)

/-- The hexadecimal digits of a digest. -/
def State.digits (s : State) : List (Fin 16) :=
  [s.a, s.b, s.c, s.d, s.e].flatMap wordDigits

/-- A digest has forty digits. -/
@[simp] theorem State.length_digits (s : State) : s.digits.length = 40 := by
  simp [digits, wordDigits]

example : digest [0x61, 0x62, 0x63] =
    ⟨0xa9993e36, 0x4706816a, 0xba3e2571, 0x7850c26c, 0x9cd0d89d⟩ := by
  decide +kernel

end Changelog.Sha1
