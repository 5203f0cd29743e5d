import Changelog.Proofs.Text.Utf8
import Mathlib

/-!
# ASCII in octets and in their text

A text and the octets from which it is read have the same ASCII in them, in the same order.  This
holds in both encodings and for all octets, also where they are damaged: a character that is not
ASCII, a replacement among them, is read from octets that are not ASCII, and at least from one.

What the library looks for in octets is ASCII throughout, line feeds and blanks above all.  So whether
they occur in a text, and at its ends, can be told from the octets.
-/

namespace Changelog.Text

/-- A text beside octets.  An ASCII octet stands for its own character, and every other character for
a run of octets that are not ASCII. -/
inductive Aligned : List Char → List UInt8 → Prop
  | nil : Aligned [] []
  | ascii {octet : UInt8} {text : List Char} {octets : List UInt8} :
    octet < 0x80 → Aligned text octets →
      Aligned (Char.ofNat octet.toNat :: text) (octet :: octets)
  | other {c : Char} {run octets : List UInt8} {text : List Char} :
    0x80 ≤ c.toNat → run ≠ [] → (∀ octet ∈ run, 0x80 ≤ octet) → Aligned text octets →
      Aligned (c :: text) (run ++ octets)

/-- What holds of the 256 octets one by one holds of every octet. -/
theorem forall_octet {p : UInt8 → Prop} (h : ∀ n < 256, p (.ofNat n)) (octet : UInt8) :
    p octet := by
  have hoctet := h octet.toNat octet.toNat_lt
  rwa [UInt8.ofNat_toNat] at hoctet

/-- The code point of an octet that is read by itself. -/
@[simp] theorem toNat_ofNat_octet (octet : UInt8) :
    (Char.ofNat octet.toNat).toNat = octet.toNat := by
  have hsmall := octet.toNat_lt
  rw [Char.toNat_ofNat, if_pos (Or.inl (by omega))]

/-! ## Latin-1 -/

theorem map_toNat_ofLatin1 (octets : List UInt8) :
    (ofLatin1 octets).map Char.toNat = octets.map UInt8.toNat := by
  rw [ofLatin1, List.map_map]
  exact List.map_congr_left fun octet _ => toNat_ofNat_octet octet

/-- Different octets are different texts in Latin-1. -/
theorem ofLatin1_injective : Function.Injective ofLatin1 := by
  intro octets others h
  apply List.map_injective_iff.mpr fun _ _ => UInt8.toNat_inj.mp
  rw [← map_toNat_ofLatin1, h, map_toNat_ofLatin1]

theorem aligned_ofLatin1 (octets : List UInt8) : Aligned (ofLatin1 octets) octets := by
  induction octets with
  | nil => exact .nil
  | cons octet octets ih =>
      by_cases hascii : octet < 0x80
      · exact .ascii hascii ih
      · have hhigh : 0x80 ≤ octet := UInt8.not_lt.mp hascii
        have hcode : 0x80 ≤ (Char.ofNat octet.toNat).toNat := by
          rw [toNat_ofNat_octet]
          exact UInt8.le_iff_toNat_le.mp hhigh
        exact .other hcode (List.cons_ne_nil octet []) (by simpa using hhigh) ih

/-! ## UTF-8 -/

/-- What follows a lead is neither ASCII nor a lead. -/
theorem bounds_of_mem_following
    {count : Nat} {low high octet : UInt8} {octets : List UInt8}
    (hbounds : 0x80 ≤ low ∧ high ≤ 0xbf) (h : octet ∈ following count low high octets) :
    0x80 ≤ octet ∧ octet ≤ 0xbf := by
  induction octets generalizing count low high with
  | nil => cases count <;> simp [following] at h
  | cons first octets ih =>
      cases count with
      | zero => simp [following] at h
      | succ count =>
          rw [following] at h
          split at h
          next hfirst =>
            rcases List.mem_cons.mp h with rfl | h
            · exact ⟨UInt8.le_trans hbounds.1 hfirst.1, UInt8.le_trans hfirst.2 hbounds.2⟩
            · exact ih (by decide) h
          next => cases h

/-- What follows a lead begins between its bounds. -/
theorem bounds_of_following
    {count : Nat} {low high first : UInt8} {octets others : List UInt8}
    (h : following count low high octets = first :: others) : low ≤ first ∧ first ≤ high := by
  cases octets with
  | nil => cases count <;> simp [following] at h
  | cons octet octets =>
      cases count with
      | zero => simp [following] at h
      | succ count =>
          rw [following] at h
          split at h
          next hoctet =>
            obtain ⟨rfl, -⟩ := List.cons.inj h
            exact hoctet
          next => cases h

/-- The code point that a lead of these bits and the octets after it spell. -/
def codePoint (bits : Nat) (octets : List UInt8) : Nat :=
  octets.foldl (fun code octet => code * 64 + octet.toNat % 64) bits

theorem codePoint_bounds (bits : Nat) (octets : List UInt8) :
    bits * 64 ^ octets.length ≤ codePoint bits octets ∧
      codePoint bits octets < (bits + 1) * 64 ^ octets.length := by
  induction octets generalizing bits with
  | nil => simp [codePoint]
  | cons octet octets ih =>
      obtain ⟨hlow, hhigh⟩ := ih (bits * 64 + octet.toNat % 64)
      have hdigit : octet.toNat % 64 < 64 := Nat.mod_lt _ (by decide)
      rw [List.length_cons, Nat.pow_succ', ← Nat.mul_assoc, ← Nat.mul_assoc]
      constructor
      · calc bits * 64 * 64 ^ octets.length
            ≤ (bits * 64 + octet.toNat % 64) * 64 ^ octets.length :=
              Nat.mul_le_mul_right _ (Nat.le_add_right _ _)
          _ ≤ codePoint bits (octet :: octets) := hlow
      · calc codePoint bits (octet :: octets)
            < (bits * 64 + octet.toNat % 64 + 1) * 64 ^ octets.length := hhigh
          _ ≤ (bits + 1) * 64 * 64 ^ octets.length :=
              Nat.mul_le_mul_right _ (by omega)

/-- The bits of a lead with a next octet between its bounds keep clear of ASCII, of surrogates and of
what is above U+10FFFF, whatever the octets after these are. -/
def Lead.Fits (lead : Lead) : Prop :=
  0x80 ≤ lead.low.toNat ∧ lead.high.toNat ≤ 0xbf ∧ 1 ≤ lead.count ∧
    0x80 ≤ (lead.bits * 64 + (lead.low.toNat - 0x80)) * 64 ^ (lead.count - 1) ∧
      ((lead.bits * 64 + (lead.high.toNat - 0x80) + 1) * 64 ^ (lead.count - 1) ≤ 0xd800 ∨
        0xe000 ≤ (lead.bits * 64 + (lead.low.toNat - 0x80)) * 64 ^ (lead.count - 1) ∧
          (lead.bits * 64 + (lead.high.toNat - 0x80) + 1) * 64 ^ (lead.count - 1) ≤ 0x110000)

instance (lead : Lead) : Decidable lead.Fits := by
  unfold Lead.Fits
  infer_instance

theorem fits_of_lead? {octet : UInt8} {lead : Lead} (h : lead? octet = some lead) : lead.Fits :=
  forall_octet (p := fun octet => ∀ lead ∈ lead? octet, lead.Fits) (by decide +kernel) octet lead h

/-- The least code point of a lead. -/
def Lead.least (lead : Lead) : Nat :=
  (lead.bits * 64 + (lead.low.toNat - 0x80)) * 64 ^ (lead.count - 1)

/-- The number after the greatest code point of a lead. -/
def Lead.beyond (lead : Lead) : Nat :=
  (lead.bits * 64 + (lead.high.toNat - 0x80) + 1) * 64 ^ (lead.count - 1)

section Spelled

variable {octet : UInt8} {lead : Lead} {rest : List UInt8}

/-- What a lead with as many octets as it promises spells lies between its least and its greatest
code point. -/
theorem codePoint_following_bounds (hlead : lead? octet = some lead)
    (hlength : (following lead.count lead.low lead.high rest).length = lead.count) :
    lead.least ≤ codePoint lead.bits (following lead.count lead.low lead.high rest) ∧
      codePoint lead.bits (following lead.count lead.low lead.high rest) < lead.beyond := by
  obtain ⟨hlow, hhigh, hcount, -⟩ := fits_of_lead? hlead
  have hpos : 0 < (following lead.count lead.low lead.high rest).length := by
    rw [hlength]
    exact hcount
  obtain ⟨first, others, htaken⟩ := List.exists_cons_of_length_pos hpos
  obtain ⟨hfirst, hfirst'⟩ := bounds_of_following htaken
  rw [UInt8.le_iff_toNat_le] at hfirst hfirst'
  rw [htaken] at hlength ⊢
  have hafter : others.length = lead.count - 1 := by
    rw [← hlength, List.length_cons, Nat.add_sub_cancel]
  have hdigit : first.toNat % 64 = first.toNat - 0x80 := by omega
  obtain ⟨(hbelow : _ ≤ codePoint lead.bits (first :: others)),
      (habove : codePoint lead.bits (first :: others) < _)⟩ :=
    codePoint_bounds (lead.bits * 64 + first.toNat % 64) others
  rw [hafter, hdigit] at hbelow habove
  constructor
  · exact (Nat.mul_le_mul_right _ (by omega)).trans hbelow
  · exact habove.trans_le (Nat.mul_le_mul_right _ (by omega))

theorem toNat_joinBits (hlead : lead? octet = some lead)
    (hlength : (following lead.count lead.low lead.high rest).length = lead.count) :
    (joinBits lead.bits (following lead.count lead.low lead.high rest)).toNat =
      codePoint lead.bits (following lead.count lead.low lead.high rest) := by
  obtain ⟨-, -, -, -, hgreatest⟩ := fits_of_lead? hlead
  obtain ⟨hstart, hend⟩ := codePoint_following_bounds hlead hlength
  have hvalid :
      (codePoint lead.bits (following lead.count lead.low lead.high rest)).isValidChar := by
    rcases hgreatest with hgreatest | ⟨hleast, hgreatest⟩
    · exact Or.inl (hend.trans_le hgreatest)
    · exact Or.inr ⟨hleast.trans hstart, hend.trans_le hgreatest⟩
  change (Char.ofNat (codePoint lead.bits _)).toNat = _
  rw [Char.toNat_ofNat, if_pos hvalid]

/-- A lead with as many octets as it promises spells a character that is not ASCII. -/
theorem le_toNat_joinBits (hlead : lead? octet = some lead)
    (hlength : (following lead.count lead.low lead.high rest).length = lead.count) :
    0x80 ≤ (joinBits lead.bits (following lead.count lead.low lead.high rest)).toNat := by
  obtain ⟨-, -, -, hleast, -⟩ := fits_of_lead? hlead
  rw [toNat_joinBits hlead hlength]
  exact hleast.trans (codePoint_following_bounds hlead hlength).1

end Spelled

theorem aligned_ofUtf8Lossy (octets : List UInt8) : Aligned (ofUtf8Lossy octets) octets := by
  unfold ofUtf8Lossy
  induction octets using utf8Units.induct with
  | case1 =>
      rw [utf8Units_nil]
      exact .nil
  | case2 octet rest hascii ih =>
      rw [utf8Units_ascii rest hascii]
      exact .ascii hascii ih
  | case3 octet rest hascii hlead ih =>
      rw [utf8Units, if_neg hascii, hlead]
      exact .other (by decide) (List.cons_ne_nil octet []) (by simpa using UInt8.not_lt.mp hascii) ih
  | case4 octet rest hascii lead hlead taken ih =>
      have htakes := following_prefix lead.count lead.low lead.high rest
      have htaken : taken ++ rest.drop taken.length = rest := List.prefix_iff_eq_append.mp htakes
      have hrun : ∀ o ∈ octet :: taken, 0x80 ≤ o := by
        intro o ho
        rcases List.mem_cons.mp ho with rfl | ho
        · exact UInt8.not_lt.mp hascii
        · exact (bounds_of_mem_following (bounds_of_lead? hlead) ho).1
      have hcode : 0x80 ≤ ((if taken.length = lead.count then
          some (joinBits lead.bits taken) else none).getD '\uFFFD').toNat := by
        split
        next hlength => exact le_toNat_joinBits hlead hlength
        next => decide
      have haligned := Aligned.other hcode (List.cons_ne_nil _ _) hrun ih
      rw [List.cons_append, htaken] at haligned
      rw [utf8Units, if_neg hascii, hlead]
      exact haligned

/-! ## What aligned texts and octets share -/

namespace Aligned

variable {text text' : List Char} {octets octets' : List UInt8}

theorem append (h : Aligned text octets) (h' : Aligned text' octets') :
    Aligned (text ++ text') (octets ++ octets') := by
  induction h with
  | nil => exact h'
  | ascii hascii _ ih => exact .ascii hascii ih
  | other hc hne hrun _ ih =>
      rw [List.cons_append, List.append_assoc]
      exact .other hc hne hrun ih

theorem reverse (h : Aligned text octets) : Aligned text.reverse octets.reverse := by
  induction h with
  | nil => exact .nil
  | ascii hascii _ ih =>
      rw [List.reverse_cons, List.reverse_cons]
      exact ih.append (.ascii hascii .nil)
  | @other c run octets text hc hne hrun _ ih =>
      rw [List.reverse_cons, List.reverse_append]
      refine ih.append ?_
      have hne' : run.reverse ≠ [] := List.reverse_ne_nil_iff.mpr hne
      have hrun' : ∀ octet ∈ run.reverse, 0x80 ≤ octet :=
        fun octet hoctet => hrun octet (List.mem_reverse.mp hoctet)
      have hlast := Aligned.other hc hne' hrun' .nil
      rwa [List.append_nil] at hlast

/-- An ASCII octet is among the octets exactly if its character is in the text. -/
theorem mem_iff (h : Aligned text octets) {octet : UInt8} (hascii : octet < 0x80) :
    Char.ofNat octet.toNat ∈ text ↔ octet ∈ octets := by
  have hsmall : octet.toNat < 0x80 := UInt8.lt_iff_toNat_lt.mp hascii
  induction h with
  | nil => simp
  | @ascii first text octets _ _ ih =>
      have hsame : Char.ofNat octet.toNat = Char.ofNat first.toNat ↔ octet = first := by
        rw [← Char.toNat_inj, toNat_ofNat_octet, toNat_ofNat_octet, UInt8.toNat_inj]
      rw [List.mem_cons, List.mem_cons, hsame]
      exact or_congr_right ih
  | @other c run octets text hc _ hrun _ ih =>
      have hne : Char.ofNat octet.toNat ≠ c := by
        rintro rfl
        rw [toNat_ofNat_octet] at hc
        omega
      have hout : octet ∉ run := by
        intro hmem
        have hhigh : 0x80 ≤ octet.toNat := UInt8.le_iff_toNat_le.mp (hrun octet hmem)
        omega
      simp [hne, hout, ih]

/-- The ASCII of a text is that of its octets, in the same order. -/
theorem filter_ascii (h : Aligned text octets) :
    (text.filter (·.toNat < 0x80)).map Char.toNat = (octets.filter (· < 0x80)).map UInt8.toNat := by
  induction h with
  | nil => rfl
  | @ascii octet text octets hascii _ ih =>
      have hsmall : octet.toNat < 0x80 := UInt8.lt_iff_toNat_lt.mp hascii
      simp [hsmall, hascii, ih]
  | @other c run octets text hc _ hrun _ ih =>
      have hlarge : ¬c.toNat < 0x80 := Nat.not_lt.mpr hc
      have hout : run.filter (· < 0x80) = [] := by
        rw [List.filter_eq_nil_iff]
        intro octet hoctet
        rw [decide_eq_true_iff]
        exact UInt8.not_lt.mpr (hrun octet hoctet)
      simp [hlarge, hout, ih]

theorem eq_nil_iff (h : Aligned text octets) : text = [] ↔ octets = [] := by
  cases h with
  | nil => simp
  | ascii => simp
  | other _ hne => simp [hne]

/-- If the octets begin with an ASCII octet, the text begins with its character. -/
theorem head?_eq (h : Aligned text octets) {octet : UInt8} (hascii : octet < 0x80)
    (hhead : octets.head? = some octet) : text.head? = some (Char.ofNat octet.toNat) := by
  cases h with
  | nil => cases hhead
  | ascii =>
      obtain rfl := Option.some.inj hhead
      rfl
  | @other c run octets text _ hne hrun _ =>
      obtain ⟨first, others, rfl⟩ := List.exists_cons_of_ne_nil hne
      obtain rfl := Option.some.inj hhead
      exact absurd hascii (UInt8.not_lt.mpr (hrun _ List.mem_cons_self))

/-- If the octets end with an ASCII octet, the text ends with its character. -/
theorem getLast?_eq (h : Aligned text octets) {octet : UInt8} (hascii : octet < 0x80)
    (hlast : octets.getLast? = some octet) : text.getLast? = some (Char.ofNat octet.toNat) := by
  rw [← List.head?_reverse] at hlast ⊢
  exact h.reverse.head?_eq hascii hlast

end Aligned

end Changelog.Text
