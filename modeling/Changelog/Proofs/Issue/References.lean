import Changelog.Issue
import Changelog.Text.Blank
import Mathlib

/-!
# Where references stand

The references that are read off a text are those that stand in it: a number sign and as many digits
as there are.  A text can be cut in front of any character that is no digit, and the references of
the two parts are those of the whole.
-/

namespace Changelog.Issue

/-- A reference stands in a text: a number sign, some digits, and no digit after these. -/
def StandsIn (reference text : List Char) : Prop :=
  ∃ before digits after, text = before ++ '#' :: (digits ++ after) ∧ reference = '#' :: digits ∧
    digits ≠ [] ∧ (∀ d ∈ digits, d.isDigit = true) ∧ ∀ c ∈ after.head?, c.isDigit = false

@[simp] theorem references_nil : references [] = [] := by
  rw [references]

/-- A character that is no number sign begins no reference. -/
theorem references_cons_of_ne {c : Char} (h : c ≠ '#') (cs : List Char) :
    references (c :: cs) = references cs := by
  rw [references]
  exact h

/-- A number sign without a digit begins no reference. -/
theorem references_mark_of_takeWhile_eq_nil
    {rest : List Char} (h : rest.takeWhile Char.isDigit = []) :
    references ('#' :: rest) = references rest := by
  rw [references, h]

/-- A number sign with digits begins a reference, and the search goes on after the digits. -/
theorem references_mark_of_takeWhile_ne_nil
    {rest : List Char} (h : rest.takeWhile Char.isDigit ≠ []) :
    references ('#' :: rest) =
      ('#' :: rest.takeWhile Char.isDigit) :: references (rest.dropWhile Char.isDigit) := by
  rw [references]
  split
  next hnil => exact absurd hnil h
  next => rfl

theorem takeWhile_append_of_head
    {p : Char → Bool} (xs : List Char) {ys : List Char} (h : ∀ c ∈ ys.head?, p c = false) :
    (xs ++ ys).takeWhile p = xs.takeWhile p ∧ (xs ++ ys).dropWhile p = xs.dropWhile p ++ ys := by
  induction xs with
  | nil =>
      cases ys with
      | nil => simp
      | cons c ys => simp [h c rfl]
  | cons x xs ih =>
      cases hx : p x with
      | true => simp [hx, ih]
      | false => simp [hx]

/-- A text can be cut in front of a character that is no digit. -/
theorem references_append
    (xs : List Char) {ys : List Char} (h : ∀ c ∈ ys.head?, c.isDigit = false) :
    references (xs ++ ys) = references xs ++ references ys := by
  induction xs using references.induct with
  | case1 => simp
  | case2 rest hnone ih =>
      have htake := (takeWhile_append_of_head rest h).1.trans hnone
      rw [List.cons_append, references_mark_of_takeWhile_eq_nil htake,
        references_mark_of_takeWhile_eq_nil hnone, ih]
  | case3 rest hsome ih =>
      obtain ⟨htake, hdrop⟩ := takeWhile_append_of_head rest h
      rw [List.cons_append, references_mark_of_takeWhile_ne_nil (htake ▸ hsome),
        references_mark_of_takeWhile_ne_nil hsome, htake, hdrop, ih, List.cons_append]
  | case4 c rest hc ih =>
      rw [List.cons_append, references_cons_of_ne hc, references_cons_of_ne hc, ih]

/-- A text without a number sign has no references. -/
theorem references_eq_nil {cs : List Char} (h : ∀ c ∈ cs, c ≠ '#') : references cs = [] := by
  induction cs with
  | nil => exact references_nil
  | cons c cs ih =>
      rw [references_cons_of_ne (h c List.mem_cons_self)]
      exact ih fun d hd => h d (List.mem_cons_of_mem c hd)

/-- A blank is neither a number sign nor a digit. -/
theorem ne_mark_of_isBlank {c : Char} (h : Text.isBlank c = true) :
    c ≠ '#' ∧ c.isDigit = false := by
  refine ⟨by rintro rfl; exact absurd h (by decide), ?_⟩
  rw [Text.isBlank, List.any_eq_true] at h
  obtain ⟨range, hrange, hc⟩ := h
  have hout : ∀ range ∈ Text.blankRanges, range.2 < '0'.toNat ∨ '9'.toNat < range.1 := by decide
  simp only [Bool.and_eq_true, decide_eq_true_eq] at hc
  by_contra hdigit
  simp only [Char.isDigit, Bool.not_eq_false, Bool.and_eq_true, decide_eq_true_eq, ge_iff_le,
    UInt32.le_iff_toNat_le] at hdigit
  have hlow : '0'.toNat ≤ c.toNat := hdigit.1
  have hhigh : c.toNat ≤ '9'.toNat := hdigit.2
  rcases hout range hrange with h | h <;> omega

/-- Blanks at the end of a text belong to no reference. -/
theorem references_trimEnd (cs : List Char) : references (Text.trimEnd cs) = references cs := by
  have hsplit : cs = Text.trimEnd cs ++ (cs.reverse.takeWhile Text.isBlank).reverse := by
    rw [Text.trimEnd, ← List.reverse_append, List.takeWhile_append_dropWhile, List.reverse_reverse]
  have hend : ∀ c ∈ (cs.reverse.takeWhile Text.isBlank).reverse, Text.isBlank c = true := by
    intro c hc
    exact List.all_eq_true.mp List.all_takeWhile c (List.mem_reverse.mp hc)
  have hnone := references_eq_nil fun c hc => (ne_mark_of_isBlank (hend c hc)).1
  conv_rhs => rw [hsplit, references_append _ fun c hc =>
    (ne_mark_of_isBlank (hend c (List.mem_of_mem_head? hc))).2, hnone, List.append_nil]

theorem StandsIn.append
    {reference text : List Char} (h : StandsIn reference text) (front : List Char) :
    StandsIn reference (front ++ text) := by
  obtain ⟨before, digits, after, rfl, hrest⟩ := h
  exact ⟨front ++ before, digits, after, (List.append_assoc _ _ _).symm, hrest⟩

/-- The references that are read off a text are those that stand in it. -/
theorem mem_references_iff {reference text : List Char} :
    reference ∈ references text ↔ StandsIn reference text := by
  constructor
  · intro h
    induction text using references.induct with
    | case1 => simp at h
    | case2 rest hnone ih =>
        rw [references_mark_of_takeWhile_eq_nil hnone] at h
        exact (ih h).append ['#']
    | case3 rest hsome ih =>
        rw [references_mark_of_takeWhile_ne_nil hsome] at h
        have hrest : '#' :: rest = '#' :: rest.takeWhile Char.isDigit ++
            rest.dropWhile Char.isDigit := by
          rw [List.cons_append, List.takeWhile_append_dropWhile]
        rcases List.mem_cons.mp h with rfl | h
        · refine ⟨[], rest.takeWhile Char.isDigit, rest.dropWhile Char.isDigit, hrest, rfl, hsome,
            fun d hd => List.all_eq_true.mp List.all_takeWhile d hd, fun c hc => ?_⟩
          have hhead := List.head?_dropWhile_not Char.isDigit rest
          rw [hc] at hhead
          simpa using hhead
        · rw [hrest]
          exact (ih h).append _
    | case4 c rest hc ih =>
        rw [references_cons_of_ne hc] at h
        exact (ih h).append [c]
  · rintro ⟨before, digits, after, rfl, rfl, hne, hdigits, hafter⟩
    obtain ⟨htake, hdrop⟩ := takeWhile_append_of_head digits hafter
    have hall : digits.takeWhile Char.isDigit = digits := List.takeWhile_eq_self_iff.mpr hdigits
    rw [references_append before (by simp),
      references_mark_of_takeWhile_ne_nil (by rwa [htake, hall]), htake, hall]
    exact List.mem_append_right _ List.mem_cons_self

instance (reference text : List Char) : Decidable (StandsIn reference text) :=
  decidable_of_iff _ mem_references_iff

/-- The references of a commit are those that stand in its header or in its body. -/
theorem mem_ofTexts_iff {reference : List Char} {header body : String} :
    String.ofList reference ∈ ofTexts header body ↔
      StandsIn reference header.toList ∨ StandsIn reference body.toList := by
  have hinjective : Function.Injective String.ofList := fun _ _ => String.ofList_injective
  rw [ofTexts, List.mem_eraseDups, List.mem_map_of_injective hinjective, List.mem_append,
    mem_references_iff, mem_references_iff, or_comm]

/-- Each reference of a commit is a number sign with digits. -/
theorem exists_digits_of_mem_ofTexts {issue header body : String} (h : issue ∈ ofTexts header body) :
    ∃ digits, issue.toList = '#' :: digits ∧ ∀ d ∈ digits, d.isDigit = true := by
  have hmem : String.ofList issue.toList ∈ ofTexts header body := by rwa [String.ofList_toList]
  rcases mem_ofTexts_iff.mp hmem with hstands | hstands
  all_goals
    obtain ⟨before, digits, after, -, heq, -, hdigits, -⟩ := hstands
    exact ⟨digits, heq, hdigits⟩

end Changelog.Issue
