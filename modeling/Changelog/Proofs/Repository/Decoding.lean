import Changelog.Proofs.Repository.Message
import Changelog.Proofs.Text.CharacterOctets
import Mathlib

/-!
# What decoding keeps

Octets of a message are decoded whatever they are.  In Latin-1 nothing can go wrong, as every octet is
a code point.  In UTF-8 octets can be damaged, and then something is lost; but what is lost lies within
the damage.  ASCII is never part of it, and a text in front of it or behind it is read as if it stood
alone.
-/

namespace Changelog.Commit

theorem decode_of_isLatin1 {c : Commit} (h : c.isLatin1 = true) : c.decode = Text.ofLatin1 := by
  funext octets
  exact if_pos h

theorem decode_of_not_isLatin1 {c : Commit} (h : c.isLatin1 = false) :
    c.decode = Text.ofUtf8Lossy := by
  funext octets
  exact if_neg (by rw [h]; decide)

/-- Decoding keeps ASCII and texts.  In either encoding the ASCII of the result is that of the octets,
in the same order.  In Latin-1 every octet is one character, which has the octet as its code point, and
so octets can be told from the result.  In UTF-8 what is written for a text is decoded to that text,
also where other octets stand behind it or in front of it, and these are decoded by themselves.  Valid
octets are those that are written for some text, and no others. -/
theorem decode_keeps_ascii_and_texts (c : Commit) (octets : List UInt8) :
    ((c.decode octets).filter (·.toNat < 0x80)).map Char.toNat =
        (octets.filter (· < 0x80)).map UInt8.toNat ∧
      (c.isLatin1 = true →
        (c.decode octets).map Char.toNat = octets.map UInt8.toNat ∧
          Function.Injective c.decode) ∧
      (c.isLatin1 = false →
        (∀ text, c.decode (Text.toUtf8 text) = text) ∧
          ∀ valid text, Text.ofUtf8? valid = some text →
            c.decode (valid ++ octets) = text ++ c.decode octets ∧
              c.decode (octets ++ valid) = c.decode octets ++ text) ∧
      ∀ valid text, Text.ofUtf8? valid = some text ↔ valid = Text.toUtf8 text := by
  refine ⟨(c.aligned_decode octets).filter_ascii, fun hlatin1 => ?_, fun hutf8 => ?_,
    fun _ _ => Text.ofUtf8?_eq_some_iff⟩
  · rw [decode_of_isLatin1 hlatin1]
    exact ⟨Text.map_toNat_ofLatin1 octets, Text.ofLatin1_injective⟩
  · have htext : ∀ text, c.decode (Text.toUtf8 text) = text := by
      rw [decode_of_not_isLatin1 hutf8]
      exact Text.ofUtf8Lossy_toUtf8
    refine ⟨htext, fun valid text hvalid => ?_⟩
    obtain rfl := Text.ofUtf8?_eq_some_iff.mp hvalid
    constructor
    · rw [decode_of_not_isLatin1 hutf8]
      exact Text.ofUtf8Lossy_toUtf8_append text octets
    · rw [decode_append c octets (Text.beginsApart_toUtf8 text), htext]

/-- A commit of which nothing but the name of its encoding is known. -/
def encodedIn (name? : Option String) : Commit where
  parents := []
  time := 0
  encoding? := name?.map fun name => Text.toUtf8 name.toList
  message := []

/-- A character without its last octet, an overlong form and half of a surrogate pair, each in front
of a character of ASCII, and at the end once more a character without its last octet. -/
def damagedOctets : List UInt8 :=
  [0xe2, 0x82, 0x23, 0xc0, 0xaf, 0x34, 0xed, 0xa0, 0x80, 0x32, 0xf0, 0x9f, 0x98]

/-- Damaged octets keep their ASCII and a text on either side. -/
theorem decode_keeps_damaged :
    ((encodedIn none).isLatin1 = false ∧ Text.ofUtf8? [0xc3, 0xa9] = some ['é'] ∧
      (encodedIn (some "Latin1")).isLatin1 = true) ∧
    (((encodedIn none).decode damagedOctets).filter (·.toNat < 0x80)).map Char.toNat =
      [0x23, 0x34, 0x32] ∧
    ((encodedIn none).decode ([0xc3, 0xa9] ++ damagedOctets) =
        ['é'] ++ (encodedIn none).decode damagedOctets ∧
      (encodedIn none).decode (damagedOctets ++ [0xc3, 0xa9]) =
        (encodedIn none).decode damagedOctets ++ ['é']) ∧
    Function.Injective (encodedIn (some "Latin1")).decode := by
  have hutf8 : (encodedIn none).isLatin1 = false := by decide +kernel
  have hlatin1 : (encodedIn (some "Latin1")).isLatin1 = true := by decide +kernel
  have hvalid : Text.ofUtf8? [0xc3, 0xa9] = some ['é'] := by decide +kernel
  obtain ⟨hascii, -, htexts, -⟩ := decode_keeps_ascii_and_texts (encodedIn none) damagedOctets
  obtain ⟨-, hcodes, -⟩ := decode_keeps_ascii_and_texts (encodedIn (some "Latin1")) damagedOctets
  refine ⟨⟨hutf8, hvalid, hlatin1⟩, ?_, (htexts hutf8).2 _ _ hvalid, (hcodes hlatin1).2⟩
  rw [hascii]
  decide

end Changelog.Commit
