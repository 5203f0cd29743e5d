import Changelog.Proofs.Change.Stable

/-!
# The order of changes, level by level

Two changes are compared on four levels, each of which decides where the ones before it do not: the
sort of the heading, its title, whether there is a scope, and the scope.  The third level compares the
other way round, since a scope comes before none.  The last level says nothing about a change with a
scope beside one without; this is no gap, as the third level has told them apart.

So the levels together are one total preorder, and what they do not tell apart are changes of one
heading and one scope.
-/

namespace Changelog

/-- Compare scopes as far as both are there. -/
def compareGivenScopes : Option String → Option String → Ordering
  | some a, some b => compare a b
  | _, _ => .eq

/-- Scopes compare by whether they are there, and then by what they are. -/
theorem compareScopes_eq_then (a b : Option String) :
    compareScopes a b = (compare b.isSome a.isSome).then (compareGivenScopes a b) := by
  cases a <;> cases b <;> rfl

namespace Change

/-- Compare changes level by level. -/
def compareByLevels (a b : Change) : Ordering :=
  (Ord.compare a.heading.isUnformatted b.heading.isUnformatted).then <|
    (Ord.compare a.title b.title).then <|
      (Ord.compare b.scope?.isSome a.scope?.isSome).then <|
        compareGivenScopes a.scope? b.scope?

theorem compare_eq_compareByLevels (a b : Change) : a.compare b = a.compareByLevels b := by
  rw [compare, Heading.compare, compareScopes_eq_then, Ordering.then_assoc]
  rfl

/-- What holds between one change and the next, and between that and a third, holds between the first
and the third, whichever of the three answers it is. -/
theorem compare_trans {a b c : Change} {answer : Ordering}
    (hab : a.compare b = answer) (hbc : b.compare c = answer) : a.compare c = answer := by
  cases answer with
  | lt => exact Std.TransCmp.lt_trans hab hbc
  | eq => exact Std.TransCmp.eq_trans hab hbc
  | gt => exact Std.TransCmp.gt_trans hab hbc

/-- The comparison by the four levels is a total preorder: exchanging two changes reverses the answer,
a change that is not after another one is not after what that one is not after, and two changes compare
equal exactly if they have one heading and one scope.  So each of the three answers carries over, and
a sort is never given answers that contradict one another. -/
theorem compare_is_total_preorder :
    (∀ a b : Change, a.compare b = a.compareByLevels b) ∧
    (∀ a b : Change, b.compare a = (a.compare b).swap) ∧
    (∀ a b c : Change, a.compare b ≠ .gt → b.compare c ≠ .gt → a.compare c ≠ .gt) ∧
    (∀ a b : Change, a.compare b = .eq ↔ a.heading = b.heading ∧ a.scope? = b.scope?) ∧
    ∀ (a b c : Change) (answer : Ordering),
      a.compare b = answer → b.compare c = answer → a.compare c = answer := by
  refine ⟨compare_eq_compareByLevels, fun a b => Std.OrientedCmp.eq_swap, ?_, ?_,
    fun a b c answer => compare_trans⟩
  · intro a b c hab hbc
    rw [compare_ne_gt_iff] at hab hbc ⊢
    exact isLE_compare_trans a b c hab hbc
  · intro a b
    rw [compare_eq_iff, key, key, Prod.mk.injEq]

/-- A label with a scope, the same label without one, and a bare code with a scope are in order, and
the first two are so on the third level only. -/
theorem compare_orders_three_sorts :
    let first : Change := ⟨"1", .labelled "Build", some "ci", "a", []⟩
    let second : Change := ⟨"2", .labelled "Build", none, "b", []⟩
    let third : Change := ⟨"3", .unformatted "aaa", some "ci", "c", []⟩
    (first.compare second = .lt ∧ second.compare third = .lt ∧ first.compare third = .lt) ∧
      first.compare third ≠ .gt := by
  intro first second third
  have hfirst : first.compare second = .lt := by decide +kernel
  have hnext : second.compare third = .lt := by decide +kernel
  obtain ⟨-, -, htrans, -, hcarries⟩ := compare_is_total_preorder
  refine ⟨⟨hfirst, hnext, hcarries first second third .lt hfirst hnext⟩, ?_⟩
  exact htrans first second third (by rw [hfirst]; decide) (by rw [hnext]; decide)

end Change

end Changelog
