import Changelog.Proofs.Change.Levels
import Changelog.Proofs.Text.CharacterOctets
import Changelog.Settings.Basic
import Mathlib

/-!
# Ordering texts by their octets

Texts compare by code points, one after the other, and a text comes after all its proper prefixes.  So
do their octets in UTF-8, although the characters of a text take one to four octets each and two texts
may differ in the middle of a character.

Two facts about characters are behind this.  If one character has more octets than another, it has the
greater code point and the greater lead.  If they have as many, then the lead and the groups of six
bits after it are the digits of the code point, highest first, and compare like the number.  In either
case what follows the characters counts only if they are the same.

Wherever this library orders texts, it could therefore as well look at octets: at the titles and the
scopes of changes, and at the codes of settings when these are checked.
-/

namespace Changelog

namespace Text

/-! ## Numbers by their digits -/

theorem compare_map_of_strictMono {f : Nat → Nat} (hf : StrictMono f) (a b : Nat) :
    compare (f a) (f b) = compare a b := by
  rw [← cmp_eq_compare, ← cmp_eq_compare, hf.cmp_map_eq]

/-- Numbers compare by quotient and then by remainder. -/
theorem compare_eq_then_div_mod (a b m : Nat) :
    compare a b = (compare (a / m) (b / m)).then (compare (a % m) (b % m)) := by
  rcases lt_trichotomy (a / m) (b / m) with hlt | heq | hgt
  · rw [Nat.compare_eq_lt.mpr hlt, Nat.compare_eq_lt.mpr (Nat.lt_of_div_lt_div hlt)]
    rfl
  · have hmono : StrictMono fun rest => m * (b / m) + rest :=
      fun _ _ h => Nat.add_lt_add_left h _
    rw [heq, Nat.compare_eq_eq.mpr rfl, Ordering.eq_then]
    calc compare a b = compare (m * (b / m) + a % m) (m * (b / m) + b % m) := by
          rw [Nat.div_add_mod b m, ← heq, Nat.div_add_mod a m]
      _ = compare (a % m) (b % m) := compare_map_of_strictMono hmono _ _
  · rw [Nat.compare_eq_gt.mpr hgt, Nat.compare_eq_gt.mpr (Nat.lt_of_div_lt_div hgt)]
    rfl

theorem compare_tailOctet (a b : Nat) :
    compare (tailOctet a) (tailOctet b) = compare (a % 64) (b % 64) := by
  have hmono : StrictMono fun bits : Nat => bits + 128 := fun _ _ h => Nat.add_lt_add_right h _
  rw [UInt8.compare_eq_toNat_compare_toNat, toNat_tailOctet, toNat_tailOctet]
  exact compare_map_of_strictMono hmono _ _

theorem compare_tailOctets_append (a b count : Nat) (xs ys : List UInt8) :
    compare (tailOctets a count ++ xs) (tailOctets b count ++ ys) =
      (compare (a % 64 ^ count) (b % 64 ^ count)).then (compare xs ys) := by
  induction count with
  | zero => simp [tailOctets, Nat.mod_one]
  | succ count ih =>
      have hsplit :=
        compare_eq_then_div_mod (a % 64 ^ (count + 1)) (b % 64 ^ (count + 1)) (64 ^ count)
      rw [Nat.pow_succ, Nat.mod_mul_right_div_self, Nat.mod_mul_right_div_self,
        Nat.mod_mul_right_mod, Nat.mod_mul_right_mod, ← Nat.pow_succ] at hsplit
      rw [tailOctets, tailOctets, List.cons_append, List.cons_append, List.compare_cons_cons, ih,
        compare_tailOctet, ← Ordering.then_assoc, ← hsplit]

/-! ## Characters -/

/-- A code point with more octets than another one is greater, and so is its lead. -/
theorem lt_of_tailCount_lt {a b : Nat} (h : tailCount a < tailCount b) :
    a < b ∧ leadNumber a < leadNumber b := by
  unfold leadNumber
  unfold tailCount at *
  split_ifs at *
  all_goals
    simp only [leadMark]
    omega

theorem compare_leadNumber_of_ne {a b : Nat} (h : tailCount a ≠ tailCount b) :
    compare (leadNumber a) (leadNumber b) = compare a b := by
  rcases lt_or_gt_of_ne h with hlt | hgt
  · obtain ⟨hcode, hlead⟩ := lt_of_tailCount_lt hlt
    rw [Nat.compare_eq_lt.mpr hcode, Nat.compare_eq_lt.mpr hlead]
  · obtain ⟨hcode, hlead⟩ := lt_of_tailCount_lt hgt
    rw [Nat.compare_eq_gt.mpr hcode, Nat.compare_eq_gt.mpr hlead]

theorem compare_leadNumber_of_eq {a b : Nat} (h : tailCount a = tailCount b) :
    compare (leadNumber a) (leadNumber b) =
      compare (a / 64 ^ tailCount b) (b / 64 ^ tailCount b) := by
  have hmono : StrictMono fun bits => bits + leadMark (tailCount b) :=
    fun _ _ hlt => Nat.add_lt_add_right hlt _
  rw [leadNumber, leadNumber, h]
  exact compare_map_of_strictMono hmono _ _

/-- Unless they are the same, two characters decide a comparison of octets as their code points do.
Where both have as many octets, lead and tail are quotient and remainder by one power; otherwise the
leads decide. -/
theorem compare_utf8EncodeChar_append (c d : Char) (xs ys : List UInt8) :
    compare (String.utf8EncodeChar c ++ xs) (String.utf8EncodeChar d ++ ys) =
      (compare c.toNat d.toNat).then (compare xs ys) := by
  have hlead : compare (UInt8.ofNat (leadNumber c.toNat)) (UInt8.ofNat (leadNumber d.toNat)) =
      compare (leadNumber c.toNat) (leadNumber d.toNat) := by
    rw [UInt8.compare_eq_toNat_compare_toNat, UInt8.toNat_ofNat', UInt8.toNat_ofNat',
      Nat.mod_eq_of_lt (leadNumber_lt (char_toNat_lt c)),
      Nat.mod_eq_of_lt (leadNumber_lt (char_toNat_lt d))]
  rw [utf8EncodeChar_eq_cons, utf8EncodeChar_eq_cons, List.cons_append, List.cons_append,
    List.compare_cons_cons, hlead]
  by_cases hcount : tailCount c.toNat = tailCount d.toNat
  · rw [compare_leadNumber_of_eq hcount, hcount, compare_tailOctets_append, ← Ordering.then_assoc,
      ← compare_eq_then_div_mod]
  · rw [compare_leadNumber_of_ne hcount]
    have hne : c.toNat ≠ d.toNat := fun heq => hcount (congrArg tailCount heq)
    rcases lt_or_gt_of_ne hne with hlt | hgt
    · rw [Nat.compare_eq_lt.mpr hlt]
      rfl
    · rw [Nat.compare_eq_gt.mpr hgt]
      rfl

/-! ## Texts -/

/-- Compare texts by their octets. -/
def compareOctets (x y : String) : Ordering := compare (toUtf8 x.toList) (toUtf8 y.toList)

/-- Compare texts by their code points. -/
def compareCodePoints (x y : String) : Ordering :=
  compare (x.toList.map Char.toNat) (y.toList.map Char.toNat)

theorem exists_toUtf8_cons (c : Char) (text : List Char) :
    ∃ octet octets, toUtf8 (c :: text) = octet :: octets := by
  rw [toUtf8, List.flatMap_cons, utf8EncodeChar_eq_cons]
  exact ⟨_, _, rfl⟩

theorem compare_toUtf8 (x y : List Char) :
    compare (toUtf8 x) (toUtf8 y) = compare (x.map Char.toNat) (y.map Char.toNat) := by
  induction x generalizing y with
  | nil =>
      cases y with
      | nil => rfl
      | cons d y =>
          obtain ⟨octet, octets, hd⟩ := exists_toUtf8_cons d y
          rw [hd]
          rfl
  | cons c x ih =>
      cases y with
      | nil =>
          obtain ⟨octet, octets, hc⟩ := exists_toUtf8_cons c x
          rw [hc]
          rfl
      | cons d y =>
          have hchars := compare_utf8EncodeChar_append c d (toUtf8 x) (toUtf8 y)
          rw [ih] at hchars
          rw [List.map_cons, List.map_cons, List.compare_cons_cons]
          exact hchars

theorem compareOctets_eq (x y : String) : compareOctets x y = compareCodePoints x y :=
  compare_toUtf8 x.toList y.toList

/-- Two, three and four octets, in the order of their code points. -/
example : compareOctets "\u00e9tudes" "\uff21PI" = .lt ∧
    compareOctets "\uff21PI" "🚀 Deploys" = .lt := by
  decide +kernel

theorem compare_map_toNat_eq_lt_iff {x y : List Char} :
    compare (x.map Char.toNat) (y.map Char.toNat) = .lt ↔ x < y := by
  induction x generalizing y with
  | nil => cases y <;> simp
  | cons c x ih =>
      cases y with
      | nil => simp
      | cons d y =>
          rw [List.map_cons, List.map_cons, List.compare_cons_cons, Ordering.then_eq_lt, ih,
            Nat.compare_eq_lt, Nat.compare_eq_eq, List.cons_lt_cons_iff, Char.toNat_inj]
          rfl

/-- The order of texts is the order of their code points. -/
theorem compare_eq_compareCodePoints (x y : String) : compare x y = compareCodePoints x y := by
  unfold compareCodePoints
  rcases lt_trichotomy x y with hlt | rfl | hgt
  · rw [compare_lt_iff_lt.mpr hlt, eq_comm, compare_map_toNat_eq_lt_iff]
    exact String.lt_iff_toList_lt.mp hlt
  · rw [Std.compare_eq_iff_eq.mpr (Eq.refl x), eq_comm, Std.compare_eq_iff_eq]
  · rw [compare_gt_iff_gt.mpr hgt, eq_comm, Std.OrientedCmp.gt_iff_lt, compare_map_toNat_eq_lt_iff]
    exact String.lt_iff_toList_lt.mp hgt

theorem compare_eq_compareOctets (x y : String) : compare x y = compareOctets x y :=
  (compare_eq_compareCodePoints x y).trans (compareOctets_eq x y).symm

/-- No character is written as the beginning of another one.  So the octets of one text begin those of
another exactly if the text begins the other. -/
theorem toUtf8_prefix_iff {x y : List Char} : toUtf8 x <+: toUtf8 y ↔ x <+: y := by
  constructor
  · rintro ⟨rest, hrest⟩
    have hread := utf8Units_toUtf8_append y []
    rw [List.append_nil, ← hrest, utf8Units_toUtf8_append, utf8Units_nil, List.append_nil] at hread
    rw [← List.prefix_map_iff_of_injective (Option.some_injective Char), ← hread]
    exact List.prefix_append _ _
  · rintro ⟨rest, rfl⟩
    rw [toUtf8_append]
    exact List.prefix_append _ _

end Text

/-! ## Changes and settings -/

/-- Compare scopes by octets as far as both are there. -/
def compareGivenScopeOctets : Option String → Option String → Ordering
  | some a, some b => Text.compareOctets a b
  | _, _ => .eq

/-- Compare changes level by level, and titles and scopes by their octets. -/
def Change.compareByOctets (a b : Change) : Ordering :=
  (Ord.compare a.heading.isUnformatted b.heading.isUnformatted).then <|
    (Text.compareOctets a.title b.title).then <|
      (Ord.compare b.scope?.isSome a.scope?.isSome).then <|
        compareGivenScopeOctets a.scope? b.scope?

theorem compareGivenScopes_eq_octets (a b : Option String) :
    compareGivenScopes a b = compareGivenScopeOctets a b := by
  cases a with
  | none => rfl
  | some a =>
      cases b with
      | none => rfl
      | some b => exact Text.compare_eq_compareOctets a b

theorem Change.compare_eq_compareByOctets (a b : Change) : a.compare b = a.compareByOctets b := by
  rw [compare_eq_compareByLevels, compareByLevels, Text.compare_eq_compareOctets,
    compareGivenScopes_eq_octets]
  rfl

/-- The entries of a map are visited in the order of the octets of their codes, and there is only one
such order. -/
theorem CodeMap.eq_toList_iff {map : CodeMap} {entries : List (String × String)} :
    entries = map.toList ↔ entries.Perm map.toList ∧
      entries.Pairwise fun a b => Text.compareOctets a.1 b.1 = .lt := by
  have hascend : map.toList.Pairwise fun a b => Text.compareOctets a.1 b.1 = .lt := by
    simp only [← Text.compare_eq_compareOctets]
    exact Std.ExtTreeMap.ordered_keys_toList
  constructor
  · rintro rfl
    exact ⟨List.Perm.refl _, hascend⟩
  · rintro ⟨hperm, hordered⟩
    refine hperm.eq_of_pairwise (fun a b _ _ hab hba => ?_) hordered hascend
    rw [← Text.compare_eq_compareOctets] at hab hba
    rw [← Std.OrientedCmp.gt_iff_lt, hab] at hba
    cases hba

/-- The octets of two texts compare as their code points do, also if one text begins with the other.
This is the order of texts everywhere: changes are ordered as the octets of their titles and scopes
are, and the entries of settings are visited in the order of the octets of their codes. -/
theorem octets_order_texts_by_code_point :
    (∀ x y : String, Text.compareOctets x y = Text.compareCodePoints x y ∧
      compare x y = Text.compareCodePoints x y) ∧
    (∀ x y : String, Text.toUtf8 x.toList <+: Text.toUtf8 y.toList ↔ x.toList <+: y.toList) ∧
    (∀ a b : Change, a.compare b = a.compareByOctets b) ∧
    ∀ (map : CodeMap) (entries : List (String × String)), entries = map.toList ↔
      entries.Perm map.toList ∧ entries.Pairwise fun a b => Text.compareOctets a.1 b.1 = .lt := by
  refine ⟨fun x y => ?_, fun _ _ => Text.toUtf8_prefix_iff, Change.compare_eq_compareByOctets,
    fun _ _ => CodeMap.eq_toList_iff⟩
  exact ⟨Text.compareOctets_eq x y, Text.compare_eq_compareCodePoints x y⟩

end Changelog
