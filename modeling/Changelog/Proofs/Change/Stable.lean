import Changelog.Proofs.Change.Key
import Changelog.Proofs.FirstSeen
import Mathlib

/-!
# The one stable sort

A sort is stable if it keeps the order of what compares equal.  As a list may hold one change twice,
this is said of places: the changes of a list are numbered, and in the sorted list the numbers of
changes that compare equal ascend.  There is only one stable sort of a list, since no two numbered
changes can stand either way round.

It can be made without comparing any two changes of the list: the changes of the least key, then those
of the next one, each as they came.  So a part of a list can be sorted beforehand and nothing changes.
-/

namespace Changelog.Change

variable {key : Heading × Option String} {keys : List (Heading × Option String)}
  {changes sorted : List Change}

/-! ## Stability -/

/-- A list is a stable sort of another one: it has the same changes, no change comes before one that
it is greater than, and numbered as they stand in the other list, changes that compare equal have
their numbers in order. -/
structure IsStableSort (changes sorted : List Change) : Prop where
  perm : sorted.Perm changes
  ascending : sorted.Pairwise fun a b => a.compare b ≠ .gt
  stable : ∃ numbered : List (Change × Nat), numbered.Perm changes.zipIdx ∧
    numbered.map Prod.fst = sorted ∧
    numbered.Pairwise fun a b => a.1.compare b.1 = .eq → a.2 < b.2

/-- Numbered changes are in order if they ascend, and their numbers do where they compare equal. -/
def NumberedBefore (a b : Change × Nat) : Prop :=
  a.1.compare b.1 ≠ .gt ∧ (a.1.compare b.1 = .eq → a.2 < b.2)

theorem NumberedBefore.asymm {a b : Change × Nat} (hab : NumberedBefore a b) :
    ¬NumberedBefore b a := by
  rintro ⟨hgt, hback⟩
  have hswap : b.1.compare a.1 = (a.1.compare b.1).swap := Std.OrientedCmp.eq_swap
  rw [hswap] at hgt hback
  cases horder : a.1.compare b.1 with
  | lt => exact hgt (by rw [horder]; rfl)
  | eq =>
      rw [horder] at hback
      exact lt_asymm (hab.2 horder) (hback rfl)
  | gt => exact hab.1 horder

/-- A stable sort numbers its changes in one way only, whichever way it was made. -/
theorem IsStableSort.exists_numbered (h : IsStableSort changes sorted) :
    ∃ numbered : List (Change × Nat), (∀ a, a ∈ numbered ↔ a ∈ changes.zipIdx) ∧
      numbered.map Prod.fst = sorted ∧ numbered.Pairwise NumberedBefore := by
  obtain ⟨numbered, hperm, rfl, hnumbers⟩ := h.stable
  exact ⟨numbered, fun a => hperm.mem_iff, rfl, (List.pairwise_map.mp h.ascending).and hnumbers⟩

theorem IsStableSort.unique
    {other : List Change} (h : IsStableSort changes sorted) (hother : IsStableSort changes other) :
    sorted = other := by
  obtain ⟨xs, hxs, rfl, hxsBefore⟩ := h.exists_numbered
  obtain ⟨ys, hys, rfl, hysBefore⟩ := hother.exists_numbered
  congr 1
  exact eq_of_pairwise_of_mem_iff (fun _ _ => NumberedBefore.asymm) hxsBefore hysBefore
    fun a => (hxs a).trans (hys a).symm

theorem compare_ne_gt_iff {a b : Change} : a.compare b ≠ .gt ↔ (a.compare b).isLE := by
  cases a.compare b <;> decide

/-- The sort is stable: sorted with their numbers, changes stand as they do without, and those that
compare equal are in the order of their numbers, none of which occurs twice. -/
theorem isStableSort_sort (changes : List Change) : IsStableSort changes (sort changes) where
  perm := sort_perm changes
  ascending := (pairwise_sort changes).imp compare_ne_gt_iff.mpr
  stable := by
    have hperm := List.mergeSort_perm changes.zipIdx (List.zipIdxLE fun a b => (a.compare b).isLE)
    refine ⟨_, hperm, List.mergeSort_zipIdx, ?_⟩
    have hdistinct := (hperm.map Prod.snd).nodup_iff.mpr (List.nodup_zipIdx_map_snd changes)
    have hordered := List.pairwise_mergeSort (List.zipIdxLE_trans isLE_compare_trans)
      (List.zipIdxLE_total isLE_compare_total) changes.zipIdx
    refine ((List.pairwise_map.mp hdistinct).and hordered).imp fun {a b} hboth heq => ?_
    obtain ⟨hne, hle⟩ := hboth
    have hback : b.1.compare a.1 = .eq := compare_eq_iff.mpr (compare_eq_iff.mp heq).symm
    have hnumbers : a.2 ≤ b.2 := by simpa [List.zipIdxLE, heq, hback] using hle
    exact lt_of_le_of_ne hnumbers hne

theorem isStableSort_iff : IsStableSort changes sorted ↔ sorted = sort changes := by
  constructor
  · intro h
    exact h.unique (isStableSort_sort changes)
  · rintro rfl
    exact isStableSort_sort changes

/-! ## Key by key -/

/-- Compare keys: by heading and then by scope. -/
def compareKeys (a b : Heading × Option String) : Ordering :=
  (a.1.compare b.1).then (compareScopes a.2 b.2)

theorem compareKeys_key (a b : Change) : compareKeys a.key b.key = a.compare b := rfl

instance : Std.TransCmp compareKeys :=
  inferInstanceAs (Std.TransCmp (compareLex (Ordering.byKey Prod.fst Heading.compare)
    (Ordering.byKey Prod.snd compareScopes)))

instance : Std.LawfulEqCmp compareKeys where
  compare_self := Std.ReflCmp.compare_self
  eq_of_compare {a b} h := by
    obtain ⟨hheading, hscope⟩ := Ordering.then_eq_eq.mp h
    exact Prod.ext (Std.LawfulEqCmp.eq_of_compare hheading) (Std.LawfulEqCmp.eq_of_compare hscope)

/-- The keys of changes, each once and in ascending order. -/
def keysOf (changes : List Change) : List (Heading × Option String) :=
  (changes.map Change.key).dedup.mergeSort fun a b => (compareKeys a b).isLE

theorem mem_keysOf : key ∈ keysOf changes ↔ ∃ change ∈ changes, change.key = key := by
  rw [keysOf, List.mem_mergeSort, List.mem_dedup, List.mem_map]

theorem pairwise_keysOf (changes : List Change) :
    (keysOf changes).Pairwise fun a b => compareKeys a b = .lt := by
  have hperm := List.mergeSort_perm (changes.map Change.key).dedup fun a b => (compareKeys a b).isLE
  have hdistinct := hperm.nodup_iff.mpr (List.nodup_dedup _)
  have hordered := pairwise_mergeSort_isLE compareKeys (changes.map Change.key).dedup
  refine (hdistinct.and hordered).imp fun {a b} hboth => ?_
  obtain ⟨hne, hle⟩ := hboth
  cases horder : compareKeys a b with
  | lt => rfl
  | eq => exact absurd (Std.LawfulEqCmp.eq_of_compare horder) hne
  | gt =>
      rw [horder] at hle
      cases hle

theorem ofKey_ofKey_of_ne {other : Heading × Option String} (h : other ≠ key) :
    ofKey key (ofKey other changes) = [] := by
  refine List.filter_eq_nil_iff.mpr fun change hchange hkey => h ?_
  rw [← (mem_ofKey.mp hchange).2, of_decide_eq_true hkey]

theorem ofKey_ofKey_self : ofKey key (ofKey key changes) = ofKey key changes :=
  List.filter_eq_self.mpr fun _ hchange => decide_eq_true (mem_ofKey.mp hchange).2

/-- Of changes that stand key by key, those of a key are those that stand there for it. -/
theorem ofKey_flatMap_ofKey (hkeys : keys.Nodup) :
    ofKey key (keys.flatMap fun other => ofKey other changes) =
      if key ∈ keys then ofKey key changes else [] := by
  induction keys with
  | nil => rfl
  | cons first keys ih =>
      obtain ⟨hfirst, hrest⟩ := List.nodup_cons.mp hkeys
      have hsplit : ofKey key ((first :: keys).flatMap fun other => ofKey other changes) =
          ofKey key (ofKey first changes) ++
            ofKey key (keys.flatMap fun other => ofKey other changes) := by
        rw [List.flatMap_cons, ofKey, List.filter_append]
        rfl
      rw [hsplit, ih hrest]
      by_cases heq : first = key
      · rw [heq] at hfirst ⊢
        rw [ofKey_ofKey_self, if_neg hfirst, if_pos List.mem_cons_self, List.append_nil]
      · have hmem : key ∈ first :: keys ↔ key ∈ keys := by simp [Ne.symm heq]
        rw [ofKey_ofKey_of_ne heq, List.nil_append]
        simp only [hmem]

theorem pairwise_flatMap_ofKey (hkeys : keys.Pairwise fun a b => compareKeys a b = .lt) :
    (keys.flatMap fun key => ofKey key changes).Pairwise fun a b => (a.compare b).isLE := by
  refine List.pairwise_flatMap.mpr ⟨fun key _ => ?_, hkeys.imp fun {first second} hlt => ?_⟩
  · refine List.pairwise_of_forall_mem_list fun a ha b hb => ?_
    exact isLE_compare_of_key_eq ((mem_ofKey.mp ha).2.trans (mem_ofKey.mp hb).2.symm)
  · intro a ha b hb
    rw [← compareKeys_key, (mem_ofKey.mp ha).2, (mem_ofKey.mp hb).2, hlt]
    rfl

/-- Sorted changes stand key by key. -/
theorem sort_eq_flatMap_ofKey (changes : List Change) :
    sort changes = (keysOf changes).flatMap fun key => ofKey key changes := by
  have hascend := pairwise_keysOf changes
  have hnodup : (keysOf changes).Nodup := hascend.imp fun {a b} hlt heq => by
    have hself : compareKeys b b = .eq := Std.ReflCmp.compare_self
    rw [heq, hself] at hlt
    cases hlt
  refine eq_of_ofKey_eq (pairwise_sort changes) (pairwise_flatMap_ofKey hascend) fun key => ?_
  rw [ofKey_sort, ofKey_flatMap_ofKey hnodup]
  split
  · rfl
  next hnone =>
    refine List.filter_eq_nil_iff.mpr fun change hchange hkey => hnone ?_
    exact mem_keysOf.mpr ⟨change, hchange, of_decide_eq_true hkey⟩

/-! ## Sorting once more -/

theorem ofKey_append (key : Heading × Option String) (xs ys : List Change) :
    ofKey key (xs ++ ys) = ofKey key xs ++ ofKey key ys :=
  List.filter_append xs ys

theorem sort_sort (changes : List Change) : sort (sort changes) = sort changes :=
  sort_eq_of_ofKey_eq fun key => ofKey_sort key changes

theorem sort_append_sort (xs ys : List Change) : sort (sort xs ++ sort ys) = sort (xs ++ ys) := by
  refine sort_eq_of_ofKey_eq fun key => ?_
  rw [ofKey_append, ofKey_append, ofKey_sort, ofKey_sort]

/-- Sorting gives the one list that is a stable sort of the changes.  It has the changes of each key as
they came, one key after the other in ascending order.  A sorted list is left as it is by another sort,
and parts of a list can be sorted before the whole is. -/
theorem sort_is_the_stable_sort (changes : List Change) :
    (∀ sorted, IsStableSort changes sorted ↔ sorted = sort changes) ∧
      (∃ keys : List (Heading × Option String),
        keys.Pairwise (fun a b => compareKeys a b = .lt) ∧
        (∀ key, key ∈ keys ↔ ∃ change ∈ changes, change.key = key) ∧
        sort changes = keys.flatMap fun key => ofKey key changes) ∧
      sort (sort changes) = sort changes ∧
      ∀ others, sort (changes ++ others) = sort (sort changes ++ sort others) := by
  refine ⟨fun _ => isStableSort_iff, ?_, sort_sort changes, fun others => ?_⟩
  · exact ⟨keysOf changes, pairwise_keysOf changes, fun _ => mem_keysOf,
      sort_eq_flatMap_ofKey changes⟩
  · exact (sort_append_sort changes others).symm

end Changelog.Change
