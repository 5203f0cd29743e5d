import Changelog.Change.Order

/-!
# Sections

A section lists the changes of one title.  Sections are collected in one pass: a change joins the
section of its title, wherever in the list that section stands, and opens a new one at the end if
there is none.  Titles are compared as texts, so a label that reads like the title of an
unformatted heading shares its section.
-/

namespace Changelog

/-- A title and the changes listed under it. -/
structure Section where
  /-- The title. -/
  title : String
  /-- The changes, in the order in which they are shown. -/
  changes : List Change
  deriving DecidableEq, Repr

namespace Section

/-- Add a change to the section of its title, or open that section. -/
def add : List Section → Change → List Section
  | [], change => [⟨change.title, [change]⟩]
  | first :: others, change =>
    if first.title = change.title then
      { first with changes := first.changes ++ [change] } :: others
    else first :: add others change

/-- Collect changes into sections, in the order in which their titles first occur. -/
def group (changes : List Change) : List Section :=
  changes.foldl add []

/-- The changes of all sections. -/
def flatten (sections : List Section) : List Change :=
  sections.flatMap Section.changes

/-- Adding a change adds exactly this change. -/
theorem flatten_add_perm
    (sections : List Section) (change : Change) :
    (flatten (add sections change)).Perm (flatten sections ++ [change]) := by
  induction sections with
  | nil => simp [add, flatten]
  | cons first others ih =>
    rw [add]
    split
    · simp only [flatten, List.flatMap_cons, List.append_assoc]
      exact (List.perm_append_comm).append_left _
    · simp only [flatten, List.flatMap_cons, List.append_assoc] at ih ⊢
      exact ih.append_left _

end Section

end Changelog
