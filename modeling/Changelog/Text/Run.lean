/-!
# Runs of characters

Readers take a longest run of characters of one class and go on with what follows.  The statement
`run?_eq_some_iff` fixes the run completely: it lies in the class, it is not empty, and the next
character, if there is one, is outside the class.
-/

namespace Changelog.Text

/-- A nonempty longest run of characters in a class, with what follows it. -/
def run? (inClass : Char → Bool) (cs : List Char) : Option (List Char × List Char) :=
  match cs.takeWhile inClass with
  | [] => none
  | run => some (run, cs.dropWhile inClass)

theorem run?_cons (inClass : Char → Bool) (c : Char) (cs : List Char) :
    run? inClass (c :: cs) =
      if inClass c then some (c :: cs.takeWhile inClass, cs.dropWhile inClass) else none := by
  by_cases hc : inClass c = true <;> simp [run?, hc]

/-- A run lies in its class, is not empty and cannot be made longer. -/
theorem run?_eq_some_iff
    {inClass : Char → Bool} {cs run rest : List Char} :
    run? inClass cs = some (run, rest) ↔
      run ≠ [] ∧ cs = run ++ rest ∧ (∀ c ∈ run, inClass c) ∧
        ∀ c, rest.head? = some c → inClass c = false := by
  constructor
  · intro h
    unfold run? at h
    split at h
    · simp at h
    · rename_i hne
      simp only [Option.some.injEq, Prod.mk.injEq] at h
      obtain ⟨rfl, rfl⟩ := h
      refine ⟨hne, List.takeWhile_append_dropWhile.symm, ?_, ?_⟩
      · intro c hc
        exact List.all_eq_true.mp List.all_takeWhile c hc
      · intro c hc
        have hhead := List.head?_dropWhile_not inClass cs
        rw [hc] at hhead
        simpa using hhead
  · rintro ⟨hne, rfl, hrun, hrest⟩
    have htake : (run ++ rest).takeWhile inClass = run := by
      rw [List.takeWhile_append_of_pos hrun]
      cases rest with
      | nil => simp
      | cons c rest => simp [hrest c rfl]
    have hdrop : (run ++ rest).dropWhile inClass = rest := by
      rw [List.dropWhile_append_of_pos hrun]
      cases rest with
      | nil => simp
      | cons c rest => simp [hrest c rfl]
    unfold run?
    rw [htake, hdrop]
    cases run with
    | nil => exact absurd rfl hne
    | cons c run => rfl

/-- What follows a run is shorter than the text. -/
theorem length_lt_of_run?
    {inClass : Char → Bool} {cs run rest : List Char} (h : run? inClass cs = some (run, rest)) :
    rest.length < cs.length := by
  obtain ⟨hne, rfl, -⟩ := run?_eq_some_iff.mp h
  have := List.length_pos_iff.mpr hne
  simp only [List.length_append]
  omega

end Changelog.Text
