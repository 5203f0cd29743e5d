/-!
# Octets and text

Reading octets as text, in two encodings.  UTF-8 is read one character at a time.  A lead octet
says how many octets must follow it and between which bounds the next of them lies; what follows
the lead is taken as far as it satisfies this, and when the count falls short the octets taken so
far form one invalid stretch.  An octet that cannot follow is never part of such a stretch, so
damage never swallows the character after it.  Latin-1 gives every octet its own code point.
-/

namespace Changelog.Text

/-- What a lead octet promises: `count` octets follow, the first of them from `low` to `high`, and
`bits` are the high bits of the code point. -/
structure Lead where
  /-- How many octets follow. -/
  count : Nat
  /-- The bits that the lead octet itself contributes. -/
  bits : Nat
  /-- The least octet that may come next. -/
  low : UInt8
  /-- The greatest octet that may come next. -/
  high : UInt8
  deriving DecidableEq, Repr

/-- The promise of an octet from 0x80 on, if it can begin a character.  The narrowed bounds leave
out overlong forms, surrogates and code points above U+10FFFF. -/
def lead? (octet : UInt8) : Option Lead :=
  if octet < 0xc2 then none
  else if octet ≤ 0xdf then some ⟨1, octet.toNat - 0xc0, 0x80, 0xbf⟩
  else if octet = 0xe0 then some ⟨2, 0, 0xa0, 0xbf⟩
  else if octet = 0xed then some ⟨2, 0xd, 0x80, 0x9f⟩
  else if octet ≤ 0xef then some ⟨2, octet.toNat - 0xe0, 0x80, 0xbf⟩
  else if octet = 0xf0 then some ⟨3, 0, 0x90, 0xbf⟩
  else if octet ≤ 0xf3 then some ⟨3, octet.toNat - 0xf0, 0x80, 0xbf⟩
  else if octet = 0xf4 then some ⟨3, 4, 0x80, 0x8f⟩
  else none

/-- At most `count` octets that may follow a lead: the first between the bounds given, the others
from 0x80 to 0xbf. -/
def following : Nat → UInt8 → UInt8 → List UInt8 → List UInt8
  | 0, _, _, _ => []
  | _ + 1, _, _, [] => []
  | count + 1, low, high, octet :: rest =>
    if low ≤ octet ∧ octet ≤ high then octet :: following count 0x80 0xbf rest else []

/-- The character spelled by a lead and the octets after it, six bits from each. -/
def joinBits (bits : Nat) (octets : List UInt8) : Char :=
  Char.ofNat (octets.foldl (fun code octet => code * 64 + octet.toNat % 64) bits)

/-- Read octets as UTF-8: one entry for each character, and `none` for each invalid stretch. -/
def utf8Units : List UInt8 → List (Option Char)
  | [] => []
  | octet :: rest =>
    if octet < 0x80 then some (Char.ofNat octet.toNat) :: utf8Units rest
    else
      match lead? octet with
      | none => none :: utf8Units rest
      | some lead =>
        let taken := following lead.count lead.low lead.high rest
        (if taken.length = lead.count then some (joinBits lead.bits taken) else none) ::
          utf8Units (rest.drop taken.length)
  termination_by octets => octets.length

/-- The text that octets spell in UTF-8, if they are valid throughout. -/
def ofUtf8? (octets : List UInt8) : Option (List Char) :=
  (utf8Units octets).mapM id

/-- The text that octets spell in UTF-8, with U+FFFD for each invalid stretch. -/
def ofUtf8Lossy (octets : List UInt8) : List Char :=
  (utf8Units octets).map (·.getD '\uFFFD')

/-- The text that octets spell in Latin-1. -/
def ofLatin1 (octets : List UInt8) : List Char :=
  octets.map fun octet => Char.ofNat octet.toNat

/-- The octets of a text in UTF-8. -/
def toUtf8 (cs : List Char) : List UInt8 :=
  cs.flatMap String.utf8EncodeChar

/-- The octets of a text in Latin-1, if all its code points are below U+0100. -/
def toLatin1? (cs : List Char) : Option (List UInt8) :=
  cs.mapM fun c => if c.toNat < 0x100 then some c.toNat.toUInt8 else none

/-- The first `limit` octets of a text, or all of it if it is shorter.  There is no answer where
the limit falls inside a character. -/
def takeOctets? : Nat → List Char → Option (List Char)
  | 0, _ => some []
  | _ + 1, [] => some []
  | limit + 1, c :: cs =>
    if c.utf8Size ≤ limit + 1 then (takeOctets? (limit + 1 - c.utf8Size) cs).map (c :: ·) else none

@[simp] theorem utf8Units_nil : utf8Units [] = [] := by
  rw [utf8Units]

/-- An ASCII octet is read as itself, whatever follows. -/
theorem utf8Units_ascii
    {octet : UInt8} (rest : List UInt8) (h : octet < 0x80) :
    utf8Units (octet :: rest) = some (Char.ofNat octet.toNat) :: utf8Units rest := by
  rw [utf8Units, if_pos h]

/-- What follows a lead is an initial part of the rest. -/
theorem following_prefix
    (count : Nat) (low high : UInt8) (octets : List UInt8) :
    following count low high octets <+: octets := by
  induction octets generalizing count low high with
  | nil => cases count <;> simp [following]
  | cons octet rest ih =>
    cases count with
    | zero => simp [following]
    | succ count =>
      rw [following]
      split
      · exact (List.cons_prefix_cons).2 ⟨rfl, ih count _ _⟩
      · exact List.nil_prefix

example :
    ofUtf8Lossy [0x66, 0xe9, 0x20, 0xe2, 0x82, 0x41] = ['f', '\uFFFD', ' ', '\uFFFD', 'A'] := by
  decide +kernel

example : ofUtf8? (toUtf8 ['é', '€', '😀']) = some ['é', '€', '😀'] := by
  decide +kernel

end Changelog.Text
