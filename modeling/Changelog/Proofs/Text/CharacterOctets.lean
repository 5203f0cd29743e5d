import Changelog.Proofs.Text.Alignment
import Changelog.Proofs.Text.RoundTrip
import Mathlib

/-!
# The octets of a character

In UTF-8 a code point is cut into groups of six bits.  The highest bits stand in the lead, behind a
mark that says how many octets follow, and each of these holds one group.  As many groups are made as
the code point needs, and no more.

So there is one way only to write a character, and this is what the table of leads and of their bounds
comes to.  What is read as a character without being replaced is what that character is written as,
and octets are valid exactly if some text is written in them.
-/

namespace Changelog.Text

/-! ## Six bits at a time -/

/-- The octets for the last groups of six bits of a code point, the highest of them first. -/
def tailOctets (n : Nat) : Nat → List UInt8
  | 0 => []
  | count + 1 => tailOctet (n / 64 ^ count) :: tailOctets n count

/-- How many octets follow the lead of a code point. -/
def tailCount (n : Nat) : Nat :=
  if n ≤ 0x7f then 0 else if n ≤ 0x7ff then 1 else if n ≤ 0xffff then 2 else 3

/-- What a lead has in front of the highest bits. -/
def leadMark : Nat → Nat
  | 0 => 0
  | 1 => 0xc0
  | 2 => 0xe0
  | _ => 0xf0

/-- The number of the octet that begins a code point. -/
def leadNumber (n : Nat) : Nat := n / 64 ^ tailCount n + leadMark (tailCount n)

theorem tailCount_mono : Monotone tailCount := by
  intro a b hab
  unfold tailCount
  split_ifs <;> omega

theorem leadNumber_lt {n : Nat} (h : n < 0x110000) : leadNumber n < 256 := by
  unfold leadNumber tailCount
  split_ifs
  all_goals
    simp only [leadMark]
    omega

theorem leadNumber_apart (n : Nat) : leadNumber n < 0x80 ∨ 0xbf < leadNumber n := by
  unfold leadNumber tailCount
  split_ifs
  all_goals
    simp only [leadMark]
    omega

theorem char_toNat_lt (c : Char) : c.toNat < 0x110000 := by
  have hvalid : c.toNat < 0xd800 ∨ 0xdfff < c.toNat ∧ c.toNat < 0x110000 := c.valid
  omega

theorem utf8EncodeChar_eq_cons (c : Char) :
    String.utf8EncodeChar c =
      .ofNat (leadNumber c.toNat) :: tailOctets c.toNat (tailCount c.toNat) := by
  have hhigh := char_toNat_lt c
  have hcode : c.val.toNat = c.toNat := rfl
  unfold String.utf8EncodeChar leadNumber tailCount
  rw [hcode]
  dsimp only
  split_ifs with hone htwo hthree
  · simp [leadMark, tailOctets]
  · have hlead : c.toNat / 64 % 32 = c.toNat / 64 := by omega
    rw [hlead]
    simp [leadMark, tailOctets, tailOctet]
  · have hlead : c.toNat / 4096 % 16 = c.toNat / 4096 := by omega
    rw [hlead]
    simp [leadMark, tailOctets, tailOctet]
  · have hlead : c.toNat / 262144 % 8 = c.toNat / 262144 := by omega
    rw [hlead]
    simp [leadMark, tailOctets, tailOctet]

/-- A text begins with an octet that never follows a lead. -/
theorem beginsApart_toUtf8 (text : List Char) : BeginsApart (toUtf8 text) := by
  intro octet hoctet
  cases text with
  | nil => cases hoctet
  | cons c text =>
      rw [toUtf8, List.flatMap_cons, utf8EncodeChar_eq_cons] at hoctet
      obtain rfl := Option.some.inj hoctet
      rw [UInt8.le_iff_toNat_le, UInt8.le_iff_toNat_le, UInt8.toNat_ofNat',
        Nat.mod_eq_of_lt (leadNumber_lt (char_toNat_lt c))]
      rintro ⟨hlow, hhigh⟩
      change 128 ≤ leadNumber c.toNat at hlow
      change leadNumber c.toNat ≤ 191 at hhigh
      have hlead := leadNumber_apart c.toNat
      omega

/-! ## What is read is what is written -/

/-- The octets after a lead leave its bits where they are. -/
theorem codePoint_div (bits : Nat) (octets : List UInt8) :
    codePoint bits octets / 64 ^ octets.length = bits := by
  obtain ⟨hlow, hhigh⟩ := codePoint_bounds bits octets
  exact Nat.div_eq_of_lt_le hlow hhigh

theorem tailOctets_codePoint (bits : Nat) {octets : List UInt8}
    (h : ∀ octet ∈ octets, 0x80 ≤ octet ∧ octet ≤ 0xbf) :
    tailOctets (codePoint bits octets) octets.length = octets := by
  induction octets generalizing bits with
  | nil => rfl
  | cons octet octets ih =>
      have hrest := ih (bits * 64 + octet.toNat % 64) fun other hother =>
        h other (List.mem_cons_of_mem octet hother)
      have hgroup : codePoint bits (octet :: octets) / 64 ^ octets.length =
          bits * 64 + octet.toNat % 64 := codePoint_div _ octets
      have hoctet : tailOctet (bits * 64 + octet.toNat % 64) = octet := by
        obtain ⟨hlow, hhigh⟩ := h octet List.mem_cons_self
        rw [UInt8.le_iff_toNat_le] at hlow hhigh
        change 128 ≤ octet.toNat at hlow
        change octet.toNat ≤ 191 at hhigh
        rw [← UInt8.toNat_inj, toNat_tailOctet]
        omega
      rw [List.length_cons, tailOctets, hgroup, hoctet]
      exact congrArg (octet :: ·) hrest

/-- An octet has the mark of its lead, and all code points of the lead have as many octets after it as
it promises. -/
structure Lead.Marks (lead : Lead) (octet : UInt8) : Prop where
  mark : octet.toNat = lead.bits + leadMark lead.count
  least : tailCount lead.least = lead.count
  greatest : tailCount (lead.beyond - 1) = lead.count

instance (lead : Lead) (octet : UInt8) : Decidable (lead.Marks octet) :=
  decidable_of_iff (octet.toNat = lead.bits + leadMark lead.count ∧
      tailCount lead.least = lead.count ∧ tailCount (lead.beyond - 1) = lead.count)
    ⟨fun h => ⟨h.1, h.2.1, h.2.2⟩, fun h => ⟨h.mark, h.least, h.greatest⟩⟩

theorem marks_of_lead? {octet : UInt8} {lead : Lead} (h : lead? octet = some lead) :
    lead.Marks octet :=
  forall_octet (p := fun octet => ∀ lead ∈ lead? octet, lead.Marks octet) (by decide +kernel)
    octet lead h

/-- A character is written as what it is read from. -/
theorem utf8EncodeChar_joinBits
    {octet : UInt8} {lead : Lead} {rest : List UInt8} (hlead : lead? octet = some lead)
    (hlength : (following lead.count lead.low lead.high rest).length = lead.count) :
    String.utf8EncodeChar (joinBits lead.bits (following lead.count lead.low lead.high rest)) =
      octet :: following lead.count lead.low lead.high rest := by
  have hcode := toNat_joinBits hlead hlength
  obtain ⟨hstart, hend⟩ := codePoint_following_bounds hlead hlength
  have hmarks := marks_of_lead? hlead
  have hmem : ∀ o ∈ following lead.count lead.low lead.high rest, 0x80 ≤ o ∧ o ≤ 0xbf :=
    fun _ => bounds_of_mem_following (bounds_of_lead? hlead)
  generalize following lead.count lead.low lead.high rest = taken at *
  have hcount : tailCount (codePoint lead.bits taken) = lead.count := by
    apply le_antisymm
    · rw [← hmarks.greatest]
      exact tailCount_mono (Nat.le_sub_one_of_lt hend)
    · rw [← hmarks.least]
      exact tailCount_mono hstart
  have hbits := codePoint_div lead.bits taken
  have htail := tailOctets_codePoint lead.bits hmem
  rw [hlength] at hbits htail
  rw [utf8EncodeChar_eq_cons, hcode, leadNumber, hcount, hbits, htail, ← hmarks.mark,
    UInt8.ofNat_toNat]

theorem utf8EncodeChar_ascii {octet : UInt8} (h : octet < 0x80) :
    String.utf8EncodeChar (Char.ofNat octet.toNat) = [octet] := by
  have hsmall : octet.toNat ≤ 0x7f := Nat.le_of_lt_succ (UInt8.lt_iff_toNat_lt.mp h)
  have hcount : tailCount octet.toNat = 0 := if_pos hsmall
  rw [utf8EncodeChar_eq_cons, toNat_ofNat_octet, leadNumber, hcount]
  simp [leadMark, tailOctets]

theorem eq_toUtf8_of_utf8Units {octets : List UInt8} :
    ∀ text : List Char, utf8Units octets = text.map some → octets = toUtf8 text := by
  induction octets using utf8Units.induct with
  | case1 =>
      intro text h
      rw [utf8Units_nil] at h
      rw [List.map_eq_nil_iff.mp h.symm]
      rfl
  | case2 octet rest hascii ih =>
      intro text h
      rw [utf8Units_ascii rest hascii] at h
      obtain ⟨c, text, rfl, hc, htext⟩ := List.map_eq_cons_iff.mp h.symm
      obtain rfl := Option.some.inj hc
      rw [toUtf8, List.flatMap_cons, utf8EncodeChar_ascii hascii, ih text htext.symm]
      rfl
  | case3 octet rest hascii hlead ih =>
      intro text h
      rw [utf8Units, if_neg hascii, hlead] at h
      obtain ⟨c, text, rfl, hc, htext⟩ := List.map_eq_cons_iff.mp h.symm
      cases hc
  | case4 octet rest hascii lead hlead taken ih =>
      intro text h
      rw [utf8Units, if_neg hascii, hlead] at h
      obtain ⟨c, text, rfl, hc, htext⟩ := List.map_eq_cons_iff.mp h.symm
      have hlength : taken.length = lead.count := by
        by_contra hshort
        rw [if_neg hshort] at hc
        cases hc
      rw [if_pos hlength] at hc
      obtain rfl := Option.some.inj hc
      have htakes := following_prefix lead.count lead.low lead.high rest
      rw [toUtf8, List.flatMap_cons, utf8EncodeChar_joinBits hlead hlength, List.cons_append]
      apply congrArg (octet :: ·)
      rw [← toUtf8, ← ih text htext.symm]
      exact (List.prefix_iff_eq_append.mp htakes).symm

/-- Octets are valid exactly if some text is written in them, and this is how they are read. -/
theorem ofUtf8?_eq_some_iff {octets : List UInt8} {text : List Char} :
    ofUtf8? octets = some text ↔ octets = toUtf8 text := by
  constructor
  · intro h
    exact eq_toUtf8_of_utf8Units text ((Steps.mapM_eq_some_iff fun _ _ => Iff.rfl).mp h)
  · rintro rfl
    exact ofUtf8?_toUtf8 text

end Changelog.Text
