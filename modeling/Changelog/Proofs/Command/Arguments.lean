import Changelog.Command.Arguments
import Mathlib.Tactic.SplitIfs

/-!
# Arguments that ask for a changelog

Arguments ask for a changelog exactly if they give revisions and nothing else, and not more than two
of them.  The first revision is then the base, and the second one the tip.  Reading keeps the
revisions read so far, so the induction on the arguments is for all of them.
-/

namespace Changelog.Command

/-- The revisions that arguments give, if they give revisions only.  No argument in front of two
hyphens is an option then, and every one after them is a revision. -/
inductive Gives : List String → List String → Prop
  | nil : Gives [] []
  | rest (revisions : List String) : Gives ("--" :: revisions) revisions
  | revision {argument : String} {arguments revisions : List String}
      (hargument : isOption argument = false) (h : Gives arguments revisions) :
      Gives (argument :: arguments) (argument :: revisions)

theorem isOption_hyphens : isOption "--" = true := by decide

theorem gives_nil_iff {revisions : List String} : Gives [] revisions ↔ revisions = [] := by
  constructor
  · rintro ⟨⟩
    rfl
  · rintro rfl
    exact Gives.nil

theorem gives_hyphens_iff {arguments revisions : List String} :
    Gives ("--" :: arguments) revisions ↔ revisions = arguments := by
  constructor
  · intro h
    cases h with
    | rest => rfl
    | revision hargument => exact absurd hargument (by simp [isOption_hyphens])
  · rintro rfl
    exact Gives.rest _

theorem gives_cons_iff
    {argument : String} {arguments revisions : List String} (hne : argument ≠ "--") :
    Gives (argument :: arguments) revisions ↔
      isOption argument = false ∧ ∃ others, Gives arguments others ∧
        revisions = argument :: others := by
  constructor
  · intro h
    cases h with
    | rest => exact absurd rfl hne
    | revision hargument h => exact ⟨hargument, _, h, rfl⟩
  · rintro ⟨hargument, others, h, rfl⟩
    exact Gives.revision hargument h

namespace Request

variable {base? tip? : Option String}

theorem ofRevisions_eq_changelog_iff {revisions : List String} :
    ofRevisions revisions = .ok (.changelog base? tip?) ↔
      revisions.length ≤ 2 ∧ revisions[0]? = base? ∧ revisions[1]? = tip? := by
  match revisions with
  | [] => simp [ofRevisions]
  | [base] => simp [ofRevisions]
  | [base, tip] => simp [ofRevisions]
  | base :: tip :: surplus :: others => simp [ofRevisions]

theorem ofOption_ne_changelog (argument : String) :
    ofOption argument ≠ .ok (.changelog base? tip?) := by
  unfold ofOption
  split_ifs
  · simp
  · simp
  · split <;> simp

end Request

/-- Arguments after some revisions ask for a changelog exactly if all revisions together do.  A third
one is one too many, whatever comes after it. -/
theorem readArguments_eq_changelog_iff
    {base? tip? : Option String} {revisions arguments : List String} :
    readArguments revisions arguments = .ok (.changelog base? tip?) ↔
      ∃ others, Gives arguments others ∧
        Request.ofRevisions (revisions ++ others) = .ok (.changelog base? tip?) := by
  induction arguments generalizing revisions with
  | nil => simp [readArguments, gives_nil_iff]
  | cons argument arguments ih =>
      rw [readArguments]
      split_ifs with hhyphens hoption hsurplus
      · subst hhyphens
        simp [gives_hyphens_iff]
      · simp [gives_cons_iff hhyphens, hoption, Request.ofOption_ne_changelog]
      · simp only [gives_cons_iff hhyphens, Request.ofRevisions_eq_changelog_iff]
        constructor
        · rintro ⟨⟩
        · rintro ⟨others, ⟨-, rest, -, rfl⟩, hlength, -⟩
          rw [List.length_append, List.length_cons] at hlength
          omega
      · rw [ih]
        constructor
        · rintro ⟨others, h, hrevisions⟩
          refine ⟨argument :: others, Gives.revision (Bool.eq_false_iff.mpr hoption) h, ?_⟩
          rwa [List.append_cons]
        · rintro ⟨others, h, hrevisions⟩
          obtain ⟨-, rest, hrest, rfl⟩ := (gives_cons_iff hhyphens).mp h
          exact ⟨rest, hrest, List.append_cons .. ▸ hrevisions⟩

/-- Arguments ask for a changelog exactly if they give at most two revisions and nothing else. -/
theorem Request.ofArguments_eq_changelog_iff
    {base? tip? : Option String} {arguments : List String} :
    ofArguments arguments = .ok (.changelog base? tip?) ↔
      ∃ revisions, Gives arguments revisions ∧ revisions.length ≤ 2 ∧
        revisions[0]? = base? ∧ revisions[1]? = tip? := by
  simp only [ofArguments, readArguments_eq_changelog_iff, List.nil_append,
    ofRevisions_eq_changelog_iff]

end Changelog.Command
