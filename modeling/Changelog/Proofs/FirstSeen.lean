import Mathlib

/-!
# Each item where it occurs first

A list is thinned out by keeping each of its items where it occurs first.  What is kept is determined
by two properties: it has all items of the list, and it has them in the order of their first places, so
that none is there twice.  Read from left to right, a new item is added at the end and any other is
passed over.
-/

namespace Changelog

/-- A list in a strict order is determined by its members. -/
theorem eq_of_pairwise_of_mem_iff
    {α : Type} {r : α → α → Prop} (hasymm : ∀ a b, r a b → ¬r b a) {xs ys : List α}
    (hxs : xs.Pairwise r) (hys : ys.Pairwise r) (h : ∀ a, a ∈ xs ↔ a ∈ ys) : xs = ys := by
  have : Std.Irrefl r := ⟨fun a ha => hasymm a a ha ha⟩
  have : Std.Antisymm r := ⟨fun a b hab hba => absurd hba (hasymm a b hab)⟩
  exact hxs.eq_of_mem_iff hys h

variable {α : Type} [DecidableEq α] {items kept : List α}

/-- What a list keeps if each of its items is kept where it occurs first. -/
structure FirstSeen (items kept : List α) : Prop where
  mem_iff : ∀ a, a ∈ kept ↔ a ∈ items
  inOrder : kept.Pairwise fun a b => items.idxOf a < items.idxOf b

theorem FirstSeen.nodup (h : FirstSeen items kept) : kept.Nodup :=
  h.inOrder.imp fun {a b} hlt heq => absurd hlt (by rw [heq]; exact lt_irrefl _)

/-- An item at the end of a list is kept if it is new. -/
theorem eraseDups_concat (items : List α) (a : α) :
    (items ++ [a]).eraseDups =
      if a ∈ items then items.eraseDups else items.eraseDups ++ [a] := by
  rw [List.eraseDups_append]
  split
  next hold => simp [List.removeAll, hold]
  next hnew => simp [List.removeAll, hnew, List.eraseDups_cons]

/-- A new item at the end of a list comes after all others. -/
theorem FirstSeen.concat_of_notMem (h : FirstSeen items kept) {a : α} (hnew : a ∉ items) :
    FirstSeen (items ++ [a]) (kept ++ [a]) where
  mem_iff b := by simp [h.mem_iff b]
  inOrder := by
    refine List.pairwise_append.mpr ⟨?_, List.pairwise_singleton _ _, ?_⟩
    · refine h.inOrder.imp_of_mem fun {b c} hb hc hlt => ?_
      rwa [List.idxOf_append_of_mem ((h.mem_iff b).mp hb),
        List.idxOf_append_of_mem ((h.mem_iff c).mp hc)]
    · intro b hb c hc
      obtain rfl := List.mem_singleton.mp hc
      rw [List.idxOf_append_of_mem ((h.mem_iff b).mp hb), List.idxOf_append_of_notMem hnew]
      exact Nat.lt_add_right _ (List.idxOf_lt_length_of_mem ((h.mem_iff b).mp hb))

theorem FirstSeen.concat_of_mem (h : FirstSeen items kept) {a : α} (hold : a ∈ items) :
    FirstSeen (items ++ [a]) kept where
  mem_iff b := by
    rw [h.mem_iff b, List.mem_append, List.mem_singleton]
    exact ⟨Or.inl, fun hb => hb.elim id fun heq => heq ▸ hold⟩
  inOrder := by
    refine h.inOrder.imp_of_mem fun {b c} hb hc hlt => ?_
    rwa [List.idxOf_append_of_mem ((h.mem_iff b).mp hb),
      List.idxOf_append_of_mem ((h.mem_iff c).mp hc)]

theorem firstSeen_eraseDups (items : List α) : FirstSeen items items.eraseDups := by
  induction items using List.reverseRecOn with
  | nil => exact ⟨fun _ => Iff.rfl, List.Pairwise.nil⟩
  | append_singleton items a ih =>
      rw [eraseDups_concat]
      split
      next hold => exact ih.concat_of_mem hold
      next hnew => exact ih.concat_of_notMem hnew

/-- What a list keeps is determined by its items and the order of their first places. -/
theorem firstSeen_iff : FirstSeen items kept ↔ kept = items.eraseDups := by
  constructor
  · intro h
    have hkept := firstSeen_eraseDups items
    exact eq_of_pairwise_of_mem_iff (fun _ _ => lt_asymm) h.inOrder hkept.inOrder fun a =>
      (h.mem_iff a).trans (hkept.mem_iff a).symm
  · rintro rfl
    exact firstSeen_eraseDups items

end Changelog
