import Changelog.Change.Order
import Mathlib

/-!
# What sorting changes means

Each of the three comparisons is a total preorder, and two headings or two scopes compare equal only
if they are equal.  So the sort has two properties that determine it: its result ascends, and the
changes that compare equal to one another stand in it as they stood before.
-/

namespace Changelog

/-! ## Comparisons -/

/-- Whichever way two things compare, they are in order one way round. -/
theorem isLE_total
    {α : Type} (cmp : α → α → Ordering) [Std.OrientedCmp cmp] (a b : α) :
    ((cmp a b).isLE || (cmp b a).isLE) = true := by
  have hswap : cmp b a = (cmp a b).swap := Std.OrientedCmp.eq_swap
  rw [hswap]
  cases cmp a b <;> rfl

/-- A list that is sorted by a comparison ascends. -/
theorem pairwise_mergeSort_isLE
    {α : Type} (cmp : α → α → Ordering) [Std.TransCmp cmp] (xs : List α) :
    (xs.mergeSort fun a b => (cmp a b).isLE).Pairwise fun a b => (cmp a b).isLE :=
  List.pairwise_mergeSort (fun _ _ _ => Std.TransCmp.isLE_trans) (isLE_total cmp) xs

/-- Scopes are in order if those that are there come first and ascend. -/
theorem isLE_compareScopes_iff {a b : Option String} :
    (compareScopes a b).isLE ↔ (b.isSome → a.isSome) ∧ ∀ x ∈ a, ∀ y ∈ b, x ≤ y := by
  cases a <;> cases b <;> simp [compareScopes, Std.LawfulBCmp.isLE_iff_le]

instance : Std.TransCmp compareScopes where
  eq_swap {a b} := by
    cases a <;> cases b <;> simp only [compareScopes]
    · rfl
    · rfl
    · rfl
    · exact Std.OrientedOrd.eq_swap
  isLE_trans {a b c} hab hbc := by
    obtain ⟨hfirst, hascend⟩ := isLE_compareScopes_iff.mp hab
    obtain ⟨hfirst', hascend'⟩ := isLE_compareScopes_iff.mp hbc
    refine isLE_compareScopes_iff.mpr ⟨fun hc => hfirst (hfirst' hc), ?_⟩
    intro x hx z hz
    have hmiddle : b.isSome := hfirst' (Option.isSome_of_mem hz)
    obtain ⟨y, hy⟩ := Option.isSome_iff_exists.mp hmiddle
    exact le_trans (hascend x hx y hy) (hascend' y hy z hz)

namespace Heading

instance : Std.TransCmp Heading.compare :=
  inferInstanceAs
    (Std.TransCmp (compareLex (compareOn Heading.isUnformatted) (compareOn Heading.title)))

instance : Std.LawfulEqCmp Heading.compare where
  compare_self := Std.ReflCmp.compare_self
  eq_of_compare {a b} h := by
    obtain ⟨hsort, htitle⟩ := Ordering.then_eq_eq.mp h
    exact eq_of_title_eq (Std.compare_eq_iff_eq.mp hsort) (Std.compare_eq_iff_eq.mp htitle)

/-- Headings are in order if a label comes before a bare code, or both are of one sort and their
titles ascend. -/
theorem isLE_compare_iff {a b : Heading} :
    (a.compare b).isLE ↔
      (a.isUnformatted = false ∧ b.isUnformatted = true) ∨
        (a.isUnformatted = b.isUnformatted ∧ a.title ≤ b.title) := by
  rw [Heading.compare, Ordering.isLE_then_iff_or, Std.compare_eq_iff_eq,
    Std.LawfulBCmp.isLE_iff_le]
  have hsorts : Ord.compare a.isUnformatted b.isUnformatted = .lt ↔
      a.isUnformatted = false ∧ b.isUnformatted = true := by
    cases a.isUnformatted <;> cases b.isUnformatted <;> decide
  rw [hsorts]

end Heading

namespace Change

instance : Std.TransCmp Change.compare :=
  inferInstanceAs (Std.TransCmp (compareLex (Ordering.byKey Change.heading Heading.compare)
    (Ordering.byKey Change.scope? compareScopes)))

/-- Changes in order have headings in order. -/
theorem isLE_compare_heading {a b : Change} (h : (a.compare b).isLE) :
    (a.heading.compare b.heading).isLE := by
  rcases Ordering.isLE_then_iff_or.mp h with hlt | ⟨heq, -⟩
  · rw [hlt]
    rfl
  · rw [heq]
    rfl

/-- A change between two of one heading is squeezed between them. -/
theorem heading_eq_of_isLE_of_isLE
    {first middle last : Change} (hfirst : (first.compare middle).isLE)
    (hlast : (middle.compare last).isLE) (h : last.heading = first.heading) :
    middle.heading = first.heading := by
  have hup := isLE_compare_heading hfirst
  have hdown := isLE_compare_heading hlast
  rw [h] at hdown
  exact Std.LawfulEqCmp.eq_of_compare (Std.OrientedCmp.isLE_antisymm hdown hup)

/-- Changes of one heading are in order if their scopes are. -/
theorem isLE_compare_iff_of_heading_eq {a b : Change} (h : a.heading = b.heading) :
    (a.compare b).isLE ↔ (compareScopes a.scope? b.scope?).isLE := by
  have hsame : b.heading.compare b.heading = .eq := Std.ReflCmp.compare_self
  rw [Change.compare, h, hsame]
  rfl

/-! ## The sort -/

theorem isLE_compare_trans (a b c : Change)
    (hab : (a.compare b).isLE) (hbc : (b.compare c).isLE) : (a.compare c).isLE :=
  Std.TransCmp.isLE_trans hab hbc

theorem isLE_compare_total (a b : Change) : ((a.compare b).isLE || (b.compare a).isLE) = true :=
  isLE_total Change.compare a b

/-- A sorted list ascends. -/
theorem pairwise_sort (changes : List Change) :
    (sort changes).Pairwise fun a b => (a.compare b).isLE :=
  pairwise_mergeSort_isLE Change.compare changes

/-- Changes that are in order whichever way they stand keep their order when the list is sorted. -/
theorem filter_sort
    {changes : List Change} {p : Change → Bool}
    (h : ∀ a ∈ changes, ∀ b ∈ changes, p a → p b → (a.compare b).isLE) :
    (sort changes).filter p = changes.filter p := by
  have hordered : (changes.filter p).Pairwise fun a b => (a.compare b).isLE := by
    refine List.pairwise_of_forall_mem_list fun a ha b hb => ?_
    obtain ⟨ha, hpa⟩ := List.mem_filter.mp ha
    obtain ⟨hb, hpb⟩ := List.mem_filter.mp hb
    exact h a ha b hb hpa hpb
  have hkept : (changes.filter p).Sublist (sort changes) :=
    List.sublist_mergeSort isLE_compare_trans isLE_compare_total hordered List.filter_sublist
  have hsub : (changes.filter p).Sublist ((sort changes).filter p) := by
    simpa using hkept.filter p
  exact (hsub.eq_of_length ((sort_perm changes).filter p).length_eq.symm).symm

/-- Changes stand by scope as they come from a log: those with a scope are first and ascend by it,
and those of one scope, or of none, are in the order of the log. -/
structure ByScope (log changes : List Change) : Prop where
  scopedFirst : changes.Pairwise fun a b => b.scope?.isSome → a.scope?.isSome
  ascending : changes.Pairwise fun a b => ∀ x ∈ a.scope?, ∀ y ∈ b.scope?, x ≤ y
  stable : ∀ scope?, (changes.filter (·.scope? = scope?)).Sublist log

/-- What a sorted list has of one heading stands by scope. -/
theorem byScope_filter_sort
    {changes : List Change} {p : Change → Bool}
    (h : ∀ a ∈ changes, ∀ b ∈ changes, p a → p b → a.heading = b.heading) :
    ByScope changes ((sort changes).filter p) := by
  have hmem : ∀ a ∈ (sort changes).filter p, a ∈ changes ∧ p a := by
    intro a ha
    obtain ⟨ha, hpa⟩ := List.mem_filter.mp ha
    exact ⟨(sort_perm changes).mem_iff.mp ha, hpa⟩
  have hscopes : ((sort changes).filter p).Pairwise
      fun a b => (compareScopes a.scope? b.scope?).isLE := by
    refine ((pairwise_sort changes).filter p).imp_of_mem fun {a b} ha hb hle => ?_
    obtain ⟨ha, hpa⟩ := hmem a ha
    obtain ⟨hb, hpb⟩ := hmem b hb
    exact (isLE_compare_iff_of_heading_eq (h a ha b hb hpa hpb)).mp hle
  refine ⟨hscopes.imp fun hle => (isLE_compareScopes_iff.mp hle).1,
    hscopes.imp fun hle => (isLE_compareScopes_iff.mp hle).2, fun scope? => ?_⟩
  rw [List.filter_filter, filter_sort]
  · exact List.filter_sublist
  · intro a ha b hb hpa hpb
    simp only [Bool.and_eq_true, decide_eq_true_eq] at hpa hpb
    rw [isLE_compare_iff_of_heading_eq (h a ha b hb hpa.2 hpb.2), hpa.1, hpb.1]
    have hsame : compareScopes scope? scope? = .eq := Std.ReflCmp.compare_self
    rw [hsame]
    rfl

end Change

end Changelog
