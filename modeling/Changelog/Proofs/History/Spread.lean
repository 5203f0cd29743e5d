import Changelog.History.Walk

/-!
# How far hiding spreads

Spreading hides the commits that it starts from and goes on to the parents of those whose parents
are known.  It does not hide all that is reachable: it stops where nothing is known, and it stops at
commits that were hidden before.  What it leaves is closed under parents except at commits that were
hidden before and at commits that are not known.
-/

namespace Changelog.History

variable {ι : Type} {history : History ι} [DecidableEq ι]

theorem Reachable.of_mem_parents {child parent : ι} (h : parent ∈ history.parents child) :
    history.Reachable child parent :=
  Reachable.refl.step h

/-- What is hidden stays hidden. -/
theorem mem_spread_of_mem
    {known hidden starts : List ι} {x : ι} (hx : x ∈ hidden) :
    x ∈ history.spread known hidden starts := by
  fun_induction spread history known hidden starts with
  | case1 => exact hx
  | case2 hidden id others hhidden ih => exact ih hx
  | case3 hidden id others hhidden hknown ih => exact ih (List.mem_cons_of_mem id hx)
  | case4 hidden id others hhidden hknown ih => exact ih (List.mem_cons_of_mem id hx)

/-- All commits that spreading starts from are hidden. -/
theorem mem_spread_of_mem_starts
    {known hidden starts : List ι} {x : ι} (hx : x ∈ starts) :
    x ∈ history.spread known hidden starts := by
  fun_induction spread history known hidden starts with
  | case1 => cases hx
  | case2 hidden id others hhidden ih =>
      rcases List.mem_cons.mp hx with rfl | hx
      · exact mem_spread_of_mem hhidden
      · exact ih hx
  | case3 hidden id others hhidden hknown ih =>
      rcases List.mem_cons.mp hx with rfl | hx
      · exact mem_spread_of_mem List.mem_cons_self
      · exact ih (List.mem_append_right _ hx)
  | case4 hidden id others hhidden hknown ih =>
      rcases List.mem_cons.mp hx with rfl | hx
      · exact mem_spread_of_mem List.mem_cons_self
      · exact ih hx

/-- Spreading hides only what is reachable from where it starts. -/
theorem reachable_of_mem_spread
    {known hidden starts : List ι} {x : ι} (hx : x ∈ history.spread known hidden starts) :
    x ∈ hidden ∨ ∃ start ∈ starts, history.Reachable start x := by
  fun_induction spread history known hidden starts with
  | case1 => exact Or.inl hx
  | case2 hidden id others hhidden ih =>
      rcases ih hx with hx | ⟨start, hstart, hreach⟩
      · exact Or.inl hx
      · exact Or.inr ⟨start, List.mem_cons_of_mem id hstart, hreach⟩
  | case3 hidden id others hhidden hknown ih =>
      rcases ih hx with hx | ⟨start, hstart, hreach⟩
      · rcases List.mem_cons.mp hx with rfl | hx
        · exact Or.inr ⟨x, List.mem_cons_self, Reachable.refl⟩
        · exact Or.inl hx
      · rcases List.mem_append.mp hstart with hparent | hstart
        · exact Or.inr ⟨id, List.mem_cons_self, (Reachable.of_mem_parents hparent).trans hreach⟩
        · exact Or.inr ⟨start, List.mem_cons_of_mem id hstart, hreach⟩
  | case4 hidden id others hhidden hknown ih =>
      rcases ih hx with hx | ⟨start, hstart, hreach⟩
      · rcases List.mem_cons.mp hx with rfl | hx
        · exact Or.inr ⟨x, List.mem_cons_self, Reachable.refl⟩
        · exact Or.inl hx
      · exact Or.inr ⟨start, List.mem_cons_of_mem id hstart, hreach⟩

/-- Spreading hides the parents of each commit that it hides, if they are known. -/
theorem parents_mem_spread
    {known hidden starts : List ι} {x : ι} (hx : x ∈ history.spread known hidden starts)
    (hxknown : x ∈ known) :
    x ∈ hidden ∨ ∀ parent ∈ history.parents x, parent ∈ history.spread known hidden starts := by
  fun_induction spread history known hidden starts with
  | case1 => exact Or.inl hx
  | case2 hidden id others hhidden ih => exact ih hx
  | case3 hidden id others hhidden hknown ih =>
      rcases ih hx with hx | hparents
      · rcases List.mem_cons.mp hx with rfl | hx
        · right
          intro parent hparent
          exact mem_spread_of_mem_starts (List.mem_append_left _ hparent)
        · exact Or.inl hx
      · exact Or.inr hparents
  | case4 hidden id others hhidden hknown ih =>
      rcases ih hx with hx | hparents
      · rcases List.mem_cons.mp hx with rfl | hx
        · exact absurd hxknown hknown
        · exact Or.inl hx
      · exact Or.inr hparents

/-- Spreading comes to a commit from a child that is hidden and known, unless it starts there. -/
theorem origin_of_mem_spread
    {known hidden starts : List ι} {x : ι} (hx : x ∈ history.spread known hidden starts) :
    x ∈ hidden ∨ x ∈ starts ∨
      ∃ child ∈ history.spread known hidden starts, child ∈ known ∧ x ∈ history.parents child := by
  fun_induction spread history known hidden starts with
  | case1 => exact Or.inl hx
  | case2 hidden id others hhidden ih =>
      rcases ih hx with hx | hx | hchild
      · exact Or.inl hx
      · exact Or.inr (Or.inl (List.mem_cons_of_mem id hx))
      · exact Or.inr (Or.inr hchild)
  | case3 hidden id others hhidden hknown ih =>
      rcases ih hx with hx | hx | hchild
      · rcases List.mem_cons.mp hx with rfl | hx
        · exact Or.inr (Or.inl List.mem_cons_self)
        · exact Or.inl hx
      · rcases List.mem_append.mp hx with hx | hx
        · exact Or.inr (Or.inr ⟨id, mem_spread_of_mem List.mem_cons_self, hknown, hx⟩)
        · exact Or.inr (Or.inl (List.mem_cons_of_mem id hx))
      · exact Or.inr (Or.inr hchild)
  | case4 hidden id others hhidden hknown ih =>
      rcases ih hx with hx | hx | hchild
      · rcases List.mem_cons.mp hx with rfl | hx
        · exact Or.inr (Or.inl List.mem_cons_self)
        · exact Or.inl hx
      · exact Or.inr (Or.inl (List.mem_cons_of_mem id hx))
      · exact Or.inr (Or.inr hchild)

/-- Spreading from hidden commits hides nothing. -/
theorem spread_eq_of_hidden
    {known hidden starts : List ι} (h : ∀ start ∈ starts, start ∈ hidden) :
    history.spread known hidden starts = hidden := by
  induction starts with
  | nil => rw [spread]
  | cons start others ih =>
      rw [spread, if_pos (h start List.mem_cons_self)]
      exact ih fun other hother => h other (List.mem_cons_of_mem start hother)

end Changelog.History
