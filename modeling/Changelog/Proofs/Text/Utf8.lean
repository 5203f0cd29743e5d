import Changelog.Text.Blank
import Changelog.Text.Utf8

/-!
# Cutting octets where a character begins

Only octets from 0x80 to 0xbf are ever taken by the character in front of them, whole or damaged.  So
octets can be cut in front of any other octet, be it ASCII or a lead, and the two parts are read as if
they stood alone.
-/

namespace Changelog.Text

/-- Octets that begin with an ASCII octet, or none at all. -/
def BeginsAscii (octets : List UInt8) : Prop := ∀ octet ∈ octets.head?, octet < 0x80

theorem beginsAscii_of_isBlankOctet
    {octet : UInt8} (h : isBlankOctet octet = true) (octets : List UInt8) :
    BeginsAscii (octet :: octets) := by
  intro first hfirst
  obtain rfl := Option.some.inj hfirst
  simp only [isBlankOctet, Bool.or_eq_true, beq_iff_eq, Bool.and_eq_true, decide_eq_true_eq] at h
  rcases h with rfl | ⟨-, hle⟩
  · decide
  · exact UInt8.lt_of_le_of_lt hle (by decide)

/-- Octets that begin with one that never follows a lead, or none at all. -/
def BeginsApart (octets : List UInt8) : Prop :=
  ∀ octet ∈ octets.head?, ¬(0x80 ≤ octet ∧ octet ≤ 0xbf)

theorem BeginsAscii.beginsApart {octets : List UInt8} (h : BeginsAscii octets) :
    BeginsApart octets :=
  fun octet hoctet hbetween => UInt8.not_lt.mpr hbetween.1 (h octet hoctet)

theorem bounds_of_lead? {octet : UInt8} {lead : Lead} (h : lead? octet = some lead) :
    0x80 ≤ lead.low ∧ lead.high ≤ 0xbf := by
  have hall : (lead? octet).all (fun lead => 0x80 ≤ lead.low ∧ lead.high ≤ 0xbf) = true := by
    unfold lead?
    repeat' split
    all_goals rfl
  rw [h] at hall
  exact of_decide_eq_true hall

/-- What may follow a lead ends at the latest in front of an octet that never does. -/
theorem following_append
    (count : Nat) {low high : UInt8} (hlow : 0x80 ≤ low) (hhigh : high ≤ 0xbf)
    (octets : List UInt8) {after : List UInt8} (hafter : BeginsApart after) :
    following count low high (octets ++ after) = following count low high octets := by
  induction octets generalizing count low high with
  | nil =>
      cases count with
      | zero => simp [following]
      | succ count =>
          cases after with
          | nil => rfl
          | cons octet after =>
              have hout : ¬(low ≤ octet ∧ octet ≤ high) := fun h =>
                hafter octet rfl ⟨UInt8.le_trans hlow h.1, UInt8.le_trans h.2 hhigh⟩
              simp [following, hout]
  | cons octet octets ih =>
      cases count with
      | zero => simp [following]
      | succ count =>
          rw [List.cons_append, following, following, ih count (by decide) (by decide)]

/-- Octets are read in two parts, if the second one begins apart. -/
theorem utf8Units_append
    (octets : List UInt8) {after : List UInt8} (hafter : BeginsApart after) :
    utf8Units (octets ++ after) = utf8Units octets ++ utf8Units after := by
  induction octets using utf8Units.induct with
  | case1 => simp
  | case2 octet rest hascii ih =>
      rw [List.cons_append, utf8Units_ascii _ hascii, utf8Units_ascii _ hascii, ih,
        List.cons_append]
  | case3 octet rest hascii hlead ih =>
      rw [List.cons_append, utf8Units, utf8Units.eq_def (octet :: rest)]
      simp [hascii, hlead, ih]
  | case4 octet rest hascii lead hlead taken ih =>
      have htaken : following lead.count lead.low lead.high (rest ++ after) = taken :=
        following_append lead.count (bounds_of_lead? hlead).1 (bounds_of_lead? hlead).2 rest hafter
      have htakes := following_prefix lead.count lead.low lead.high rest
      have hlength : taken.length ≤ rest.length := htakes.length_le
      rw [List.cons_append, utf8Units, utf8Units.eq_def (octet :: rest)]
      simp only [hascii, hlead, htaken]
      rw [List.drop_append_of_le_length hlength, ih]
      simp [taken]

end Changelog.Text
