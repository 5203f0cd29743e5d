import Changelog.Proofs.Change.Order

/-!
# What a sort depends on

Changes are sorted by heading and scope and by nothing else: these two are the key of a change, and
two changes compare equal exactly if they have one key.  So a list of changes in order is determined
by what it holds of each key, in the order in which it holds it.  How the changes of different keys
were mixed before the sort leaves no trace in it.
-/

namespace Changelog

instance : Std.LawfulEqCmp compareScopes where
  compare_self := Std.ReflCmp.compare_self
  eq_of_compare {a b} h := by
    cases a <;> cases b <;> simp_all [compareScopes]

namespace Change

/-- What a change is sorted by. -/
def key (change : Change) : Heading × Option String := (change.heading, change.scope?)

/-- The changes of a key, in the order in which they stand. -/
def ofKey (key : Heading × Option String) (changes : List Change) : List Change :=
  changes.filter (·.key = key)

variable {key : Heading × Option String} {change : Change} {changes xs ys : List Change}

theorem mem_ofKey : change ∈ ofKey key changes ↔ change ∈ changes ∧ change.key = key := by
  simp [ofKey]

@[simp] theorem ofKey_cons_self :
    ofKey change.key (change :: changes) = change :: ofKey change.key changes := by
  simp [ofKey]

theorem ofKey_cons_of_ne (h : change.key ≠ key) :
    ofKey key (change :: changes) = ofKey key changes := by
  simp [ofKey, h]

/-- Changes compare equal exactly if they have one key. -/
theorem compare_eq_iff {a b : Change} : a.compare b = .eq ↔ a.key = b.key := by
  rw [Change.compare, Ordering.then_eq_eq, Std.LawfulEqCmp.compare_eq_iff_eq,
    Std.LawfulEqCmp.compare_eq_iff_eq, key, key, Prod.mk.injEq]

theorem isLE_compare_of_key_eq {a b : Change} (h : a.key = b.key) : (a.compare b).isLE := by
  rw [compare_eq_iff.mpr h]
  rfl

/-- Sorting keeps the order of the changes of one key. -/
theorem ofKey_sort (key : Heading × Option String) (changes : List Change) :
    ofKey key (sort changes) = ofKey key changes := by
  refine filter_sort fun a _ b _ ha hb => isLE_compare_of_key_eq ?_
  exact (of_decide_eq_true ha).trans (of_decide_eq_true hb).symm

/-- A change of one list is in every list that holds the same of its key. -/
theorem mem_of_ofKey_eq (h : ofKey change.key xs = ofKey change.key ys) (hmem : change ∈ xs) :
    change ∈ ys := by
  have hkept : change ∈ ofKey change.key xs := mem_ofKey.mpr ⟨hmem, rfl⟩
  rw [h] at hkept
  exact (mem_ofKey.mp hkept).1

/-- Of two lists in order that hold the same of each key, the first change of one is not after that
of the other. -/
theorem isLE_compare_heads
    {x y : Change} (hx : (x :: xs).Pairwise fun a b => (a.compare b).isLE)
    (h : ofKey y.key (x :: xs) = ofKey y.key (y :: ys)) : (x.compare y).isLE := by
  rcases List.mem_cons.mp (mem_of_ofKey_eq h.symm List.mem_cons_self) with rfl | hmem
  · exact isLE_compare_of_key_eq rfl
  · exact (List.pairwise_cons.mp hx).1 y hmem

/-- Two lists in order that hold the same of each key are the same list. -/
theorem eq_of_ofKey_eq
    (hxs : xs.Pairwise fun a b => (a.compare b).isLE)
    (hys : ys.Pairwise fun a b => (a.compare b).isLE)
    (h : ∀ key, ofKey key xs = ofKey key ys) : xs = ys := by
  induction xs generalizing ys with
  | nil =>
      refine (List.eq_nil_iff_forall_not_mem.mpr fun y hy => ?_).symm
      cases mem_of_ofKey_eq (h y.key).symm hy
  | cons x xs ih =>
      cases ys with
      | nil => cases mem_of_ofKey_eq (h x.key) List.mem_cons_self
      | cons y ys =>
          have hkey : x.key = y.key := by
            refine compare_eq_iff.mp (Std.OrientedCmp.isLE_antisymm ?_ ?_)
            · exact isLE_compare_heads hxs (h y.key)
            · exact isLE_compare_heads hys (h x.key).symm
          have hheads := h x.key
          rw [ofKey_cons_self, hkey, ofKey_cons_self] at hheads
          obtain rfl : x = y := (List.cons.inj hheads).1
          have hrest : ∀ key, ofKey key xs = ofKey key ys := by
            intro key
            by_cases hx : x.key = key
            · rw [← hx]
              exact (List.cons.inj hheads).2
            · have hboth := h key
              rwa [ofKey_cons_of_ne hx, ofKey_cons_of_ne hx] at hboth
          rw [ih (List.pairwise_cons.mp hxs).2 (List.pairwise_cons.mp hys).2 hrest]

/-- Lists that hold the same of each key are sorted to the same list. -/
theorem sort_eq_of_ofKey_eq (h : ∀ key, ofKey key xs = ofKey key ys) : sort xs = sort ys := by
  refine eq_of_ofKey_eq (pairwise_sort xs) (pairwise_sort ys) fun key => ?_
  rw [ofKey_sort, ofKey_sort, h]

/-- What holds between the changes of each key, as they stand, holds between any two changes of one
key. -/
theorem pairwise_of_pairwise_ofKey
    {R : Change → Change → Prop} (h : ∀ key, (ofKey key changes).Pairwise R) :
    changes.Pairwise fun a b => a.key = b.key → R a b := by
  induction changes with
  | nil => exact List.Pairwise.nil
  | cons change changes ih =>
      refine List.pairwise_cons.mpr ⟨fun other hother hkey => ?_, ih fun key => ?_⟩
      · have hfirst := h change.key
        rw [ofKey_cons_self] at hfirst
        exact (List.pairwise_cons.mp hfirst).1 other (mem_ofKey.mpr ⟨hother, hkey.symm⟩)
      · exact (h key).sublist ((List.sublist_cons_self change changes).filter _)

end Change

end Changelog
