import Changelog.Proofs.Steps
import Changelog.Text.Utf8
import Mathlib

/-!
# Texts that are written are read back

In UTF-8 every text can be written, and in Latin-1 those of code points below U+0100.  What is written
is read back, in UTF-8 also by the reader that replaces what is invalid, and a character is read back
whatever octets follow it.

The octets of one character are those that its lead asks for.  So it is enough to look up the lead of
each first octet in the table of leads, and to compare the octets after it with the bounds given there.
-/

namespace Changelog.Text

/-! ## UTF-8 -/

/-- A lead takes up exactly what it promises. -/
theorem following_append_of_bounds
    {low high first : UInt8} {others : List UInt8} (hfirst : low ≤ first ∧ first ≤ high)
    (hothers : ∀ octet ∈ others, 0x80 ≤ octet ∧ octet ≤ 0xbf) (rest : List UInt8) :
    following (others.length + 1) low high (first :: (others ++ rest)) = first :: others := by
  induction others generalizing low high first with
  | nil =>
      rw [following, if_pos hfirst]
      simp [following]
  | cons second others ih =>
      rw [following, if_pos hfirst, List.length_cons, List.cons_append,
        ih (hothers second List.mem_cons_self) fun octet hoctet =>
          hothers octet (List.mem_cons_of_mem second hoctet)]

/-- A lead and the octets that it promises are read as one character. -/
theorem utf8Units_of_lead
    {octet first : UInt8} {others : List UInt8} {lead : Lead} (hlead : lead? octet = some lead)
    (hcount : lead.count = others.length + 1) (hfirst : lead.low ≤ first ∧ first ≤ lead.high)
    (hothers : ∀ octet ∈ others, 0x80 ≤ octet ∧ octet ≤ 0xbf) (rest : List UInt8) :
    utf8Units (octet :: first :: (others ++ rest)) =
      some (joinBits lead.bits (first :: others)) :: utf8Units rest := by
  have hascii : ¬octet < 0x80 := by
    intro h
    have hsmall : octet < 0xc2 := UInt8.lt_trans h (by decide)
    simp [lead?, hsmall] at hlead
  have htaken := following_append_of_bounds hfirst hothers rest
  rw [utf8Units, if_neg hascii, hlead]
  simp only [hcount, htaken]
  simp

/-- Six bits of a code point as an octet that follows a lead. -/
def tailOctet (n : Nat) : UInt8 := .ofNat (n % 64 + 128)

theorem toNat_tailOctet (n : Nat) : (tailOctet n).toNat = n % 64 + 128 := by
  have hsmall : n % 64 + 128 < 2 ^ 8 := by omega
  rw [tailOctet, UInt8.toNat_ofNat', Nat.mod_eq_of_lt hsmall]

theorem tailOctet_bounds (n : Nat) : 0x80 ≤ tailOctet n ∧ tailOctet n ≤ 0xbf := by
  rw [UInt8.le_iff_toNat_le, UInt8.le_iff_toNat_le, toNat_tailOctet]
  change 128 ≤ n % 64 + 128 ∧ n % 64 + 128 ≤ 191
  omega

theorem lead?_two : ∀ n < 32, 2 ≤ n →
    lead? (.ofNat (n + 192)) = some ⟨1, n, 0x80, 0xbf⟩ := by
  decide +kernel

theorem lead?_three : ∀ n < 16,
    lead? (.ofNat (n + 224)) =
      some ⟨2, n, if n = 0 then 0xa0 else 0x80, if n = 13 then 0x9f else 0xbf⟩ := by
  decide +kernel

theorem lead?_four : ∀ n < 5,
    lead? (.ofNat (n + 240)) =
      some ⟨3, n, if n = 0 then 0x90 else 0x80, if n = 4 then 0x8f else 0xbf⟩ := by
  decide +kernel

theorem joinBits_eq {bits : Nat} {octets : List UInt8} {c : Char}
    (h : octets.foldl (fun code octet => code * 64 + octet.toNat % 64) bits = c.toNat) :
    joinBits bits octets = c := by
  rw [joinBits, h, Char.ofNat_toNat]

/-! ### Characters by the number of their octets -/

variable {c : Char}

theorem utf8Units_one (h : c.toNat < 0x80) (rest : List UInt8) :
    utf8Units (.ofNat c.toNat :: rest) = some c :: utf8Units rest := by
  have hcode : (UInt8.ofNat c.toNat).toNat = c.toNat := by
    rw [UInt8.toNat_ofNat', Nat.mod_eq_of_lt (by omega)]
  have hascii : UInt8.ofNat c.toNat < 0x80 := by
    rw [UInt8.lt_iff_toNat_lt, hcode]
    exact h
  rw [utf8Units_ascii rest hascii, hcode, Char.ofNat_toNat]

theorem utf8Units_two (hlow : 0x80 ≤ c.toNat) (hhigh : c.toNat < 0x800) (rest : List UInt8) :
    utf8Units (.ofNat (c.toNat / 64 % 32 + 192) :: tailOctet c.toNat :: rest) =
      some c :: utf8Units rest := by
  have hlead := lead?_two (c.toNat / 64 % 32) (by omega) (by omega)
  have hjoin : joinBits (c.toNat / 64 % 32) [tailOctet c.toNat] = c := by
    apply joinBits_eq
    simp only [List.foldl_cons, List.foldl_nil, toNat_tailOctet]
    omega
  have hread := @utf8Units_of_lead _ _ [] _ hlead rfl (tailOctet_bounds c.toNat) (by simp) rest
  rw [hjoin] at hread
  exact hread

theorem utf8Units_three
    (hvalid : c.toNat < 0xd800 ∨ 0xdfff < c.toNat) (hlow : 0x800 ≤ c.toNat)
    (hhigh : c.toNat < 0x10000) (rest : List UInt8) :
    utf8Units (.ofNat (c.toNat / 4096 % 16 + 224) :: tailOctet (c.toNat / 64) ::
      tailOctet c.toNat :: rest) = some c :: utf8Units rest := by
  have hlead := lead?_three (c.toNat / 4096 % 16) (by omega)
  have hjoin : joinBits (c.toNat / 4096 % 16) [tailOctet (c.toNat / 64), tailOctet c.toNat] = c := by
    apply joinBits_eq
    simp only [List.foldl_cons, List.foldl_nil, toNat_tailOctet]
    omega
  have hfirst : (if c.toNat / 4096 % 16 = 0 then 0xa0 else 0x80) ≤ tailOctet (c.toNat / 64) ∧
      tailOctet (c.toNat / 64) ≤ if c.toNat / 4096 % 16 = 13 then 0x9f else 0xbf := by
    simp only [UInt8.le_iff_toNat_le, toNat_tailOctet, apply_ite UInt8.toNat, UInt8.reduceToNat]
    constructor
    · split <;> omega
    · split <;> omega
  have hread := @utf8Units_of_lead _ _ [tailOctet c.toNat] _ hlead rfl hfirst
    (by simp [tailOctet_bounds]) rest
  rw [hjoin] at hread
  exact hread

theorem utf8Units_four
    (hlow : 0x10000 ≤ c.toNat) (hhigh : c.toNat < 0x110000) (rest : List UInt8) :
    utf8Units (.ofNat (c.toNat / 262144 % 8 + 240) :: tailOctet (c.toNat / 4096) ::
      tailOctet (c.toNat / 64) :: tailOctet c.toNat :: rest) = some c :: utf8Units rest := by
  have hlead := lead?_four (c.toNat / 262144 % 8) (by omega)
  have hjoin : joinBits (c.toNat / 262144 % 8)
      [tailOctet (c.toNat / 4096), tailOctet (c.toNat / 64), tailOctet c.toNat] = c := by
    apply joinBits_eq
    simp only [List.foldl_cons, List.foldl_nil, toNat_tailOctet]
    omega
  have hfirst : (if c.toNat / 262144 % 8 = 0 then 0x90 else 0x80) ≤ tailOctet (c.toNat / 4096) ∧
      tailOctet (c.toNat / 4096) ≤ if c.toNat / 262144 % 8 = 4 then 0x8f else 0xbf := by
    simp only [UInt8.le_iff_toNat_le, toNat_tailOctet, apply_ite UInt8.toNat, UInt8.reduceToNat]
    constructor
    · split <;> omega
    · split <;> omega
  have hread := @utf8Units_of_lead _ _ [tailOctet (c.toNat / 64), tailOctet c.toNat] _ hlead rfl
    hfirst (by simp [tailOctet_bounds]) rest
  rw [hjoin] at hread
  exact hread

/-- A character is read back, whatever follows it. -/
theorem utf8Units_utf8EncodeChar_append (c : Char) (rest : List UInt8) :
    utf8Units (String.utf8EncodeChar c ++ rest) = some c :: utf8Units rest := by
  have hvalid : c.toNat < 0xd800 ∨ 0xdfff < c.toNat ∧ c.toNat < 0x110000 := c.valid
  have hcode : c.val.toNat = c.toNat := rfl
  unfold String.utf8EncodeChar
  rw [hcode]
  dsimp only
  split
  next hone => exact utf8Units_one (by omega) rest
  next hone =>
    split
    next htwo => exact utf8Units_two (by omega) (by omega) rest
    next htwo =>
      split
      next hthree => exact utf8Units_three (by omega) (by omega) (by omega) rest
      next hthree => exact utf8Units_four (by omega) (by omega) rest

/-- A text in UTF-8 is read back, whatever follows it. -/
theorem utf8Units_toUtf8_append (text : List Char) (rest : List UInt8) :
    utf8Units (toUtf8 text ++ rest) = text.map some ++ utf8Units rest := by
  induction text with
  | nil => rfl
  | cons c text ih =>
      rw [toUtf8, List.flatMap_cons, List.append_assoc, utf8Units_utf8EncodeChar_append]
      exact congrArg (some c :: ·) ih

/-- A text is read back without damage from what follows it. -/
theorem ofUtf8Lossy_toUtf8_append (text : List Char) (octets : List UInt8) :
    ofUtf8Lossy (toUtf8 text ++ octets) = text ++ ofUtf8Lossy octets := by
  rw [ofUtf8Lossy, utf8Units_toUtf8_append, List.map_append, List.map_map]
  exact congrArg (· ++ _) (List.map_id text)

@[simp] theorem ofUtf8Lossy_toUtf8 (text : List Char) : ofUtf8Lossy (toUtf8 text) = text := by
  have hnone : ofUtf8Lossy [] = [] := by rw [ofUtf8Lossy, utf8Units_nil, List.map_nil]
  have hread := ofUtf8Lossy_toUtf8_append text []
  rwa [List.append_nil, hnone, List.append_nil] at hread

@[simp] theorem ofUtf8?_toUtf8 (text : List Char) : ofUtf8? (toUtf8 text) = some text := by
  have hread := utf8Units_toUtf8_append text []
  rw [List.append_nil, utf8Units_nil, List.append_nil] at hread
  rw [ofUtf8?, hread]
  exact Steps.mapM_map_eq_some some (fun _ => rfl) text

@[simp] theorem toUtf8_append (text text' : List Char) :
    toUtf8 (text ++ text') = toUtf8 text ++ toUtf8 text' :=
  List.flatMap_append

/-! ## Latin-1 -/

theorem toLatin1?_cons_eq_some_iff {text : List Char} {octets : List UInt8} :
    toLatin1? (c :: text) = some octets ↔
      c.toNat < 0x100 ∧ ∃ others, toLatin1? text = some others ∧
        c.toNat.toUInt8 :: others = octets := by
  unfold toLatin1?
  rw [List.mapM_cons]
  by_cases hsmall : c.toNat < 0x100
  · simp [hsmall, Option.bind_eq_some_iff]
  · simp [hsmall]

/-- A text in Latin-1 is read back. -/
theorem ofLatin1_of_toLatin1? {text : List Char} {octets : List UInt8}
    (h : toLatin1? text = some octets) : ofLatin1 octets = text := by
  induction text generalizing octets with
  | nil =>
      obtain rfl := Option.some.inj h
      rfl
  | cons c text ih =>
      obtain ⟨hsmall, others, hothers, rfl⟩ := toLatin1?_cons_eq_some_iff.mp h
      have hcode : c.toNat.toUInt8.toNat = c.toNat := Nat.mod_eq_of_lt hsmall
      have hrest := ih hothers
      rw [ofLatin1] at hrest ⊢
      rw [List.map_cons, hcode, Char.ofNat_toNat, hrest]

theorem toLatin1?_append_eq_some_iff {text text' : List Char} {octets : List UInt8} :
    toLatin1? (text ++ text') = some octets ↔
      ∃ first others, toLatin1? text = some first ∧ toLatin1? text' = some others ∧
        first ++ others = octets := by
  unfold toLatin1?
  rw [List.mapM_append]
  simp [Option.bind_eq_some_iff]

end Changelog.Text
