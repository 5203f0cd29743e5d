import Changelog.Section.Basic

/-!
# What grouping keeps

Grouping goes over the changes once, and each change either joins a section or opens one.  Both
steps keep the sections apart: no section is empty, no title occurs twice, and each section holds
only changes of its own title.  From this single step the properties of a whole grouping follow by
induction on the changes.

Seen from its result, a grouping is made title by title: the section of the first change takes in all
changes of its title, and the others are grouped by themselves.  What a section holds, and in which
order, follows by induction on the titles.
-/

namespace Changelog.Section

/-- Sections that are kept apart by their titles. -/
structure Apart (sections : List Section) : Prop where
  nonempty : ∀ s ∈ sections, s.changes ≠ []
  titles : (sections.map title).Nodup
  own : ∀ s ∈ sections, ∀ change ∈ s.changes, change.title = s.title

theorem apart_nil : Apart [] where
  nonempty := by simp
  titles := List.nodup_nil
  own := by simp

/-- A title is added only if it is new, and then at the end. -/
theorem titles_add
    (sections : List Section) (change : Change) :
    (add sections change).map title =
      if change.title ∈ sections.map title then sections.map title
      else sections.map title ++ [change.title] := by
  induction sections with
  | nil => simp [add]
  | cons first others ih =>
      rw [add]
      by_cases htitle : first.title = change.title
      · simp [htitle]
      · rw [if_neg htitle, List.map_cons, ih]
        have hne : change.title ≠ first.title := fun h => htitle h.symm
        by_cases hmem : change.title ∈ others.map title
        · rw [if_pos hmem, if_pos (by simp [hmem])]
          simp
        · rw [if_neg hmem, if_neg (by simpa [hne] using hmem)]
          simp

/-- A section after a change was added is an old one, an old one with the change at its end, or a
new one that holds the change alone. -/
theorem mem_add_cases
    {sections : List Section} {change : Change} {s : Section} (hs : s ∈ add sections change) :
    s ∈ sections ∨
      (∃ old ∈ sections, old.title = change.title ∧
        s = { old with changes := old.changes ++ [change] }) ∨
      s = ⟨change.title, [change]⟩ := by
  induction sections with
  | nil => exact Or.inr (Or.inr (by simpa [add] using hs))
  | cons first others ih =>
      rw [add] at hs
      split at hs
      next htitle =>
        rcases List.mem_cons.mp hs with rfl | hs
        · exact Or.inr (Or.inl ⟨first, by simp, htitle, rfl⟩)
        · exact Or.inl (List.mem_cons_of_mem _ hs)
      next =>
        rcases List.mem_cons.mp hs with rfl | hs
        · exact Or.inl (by simp)
        · rcases ih hs with hold | ⟨old, hold, htitle, heq⟩ | hnew
          · exact Or.inl (List.mem_cons_of_mem _ hold)
          · exact Or.inr (Or.inl ⟨old, List.mem_cons_of_mem _ hold, htitle, heq⟩)
          · exact Or.inr (Or.inr hnew)

/-- Adding a change keeps sections apart. -/
theorem Apart.add
    {sections : List Section} (h : Apart sections) (change : Change) :
    Apart (Section.add sections change) where
  nonempty := by
    intro s hs
    rcases mem_add_cases hs with hold | ⟨old, -, -, rfl⟩ | rfl
    · exact h.nonempty s hold
    · simp
    · simp
  titles := by
    rw [titles_add]
    split
    · exact h.titles
    next hnew =>
      rw [List.nodup_append]
      refine ⟨h.titles, by simp, ?_⟩
      intro old hold new hmem heq
      rw [List.mem_singleton] at hmem
      exact hnew (hmem ▸ heq ▸ hold)
  own := by
    intro s hs c hc
    rcases mem_add_cases hs with hold | ⟨old, hold, htitle, rfl⟩ | rfl
    · exact h.own s hold c hc
    · rcases List.mem_append.mp hc with hc | hc
      · exact h.own old hold c hc
      · rw [List.mem_singleton.mp hc]
        exact htitle.symm
    · rw [List.mem_singleton.mp hc]

/-- Adding changes one after the other keeps sections apart. -/
theorem Apart.foldl_add
    {sections : List Section} (h : Apart sections) (changes : List Change) :
    Apart (changes.foldl Section.add sections) := by
  induction changes generalizing sections with
  | nil => exact h
  | cons change changes ih => exact ih (h.add change)

/-- Grouping gives sections that are kept apart. -/
theorem apart_group (changes : List Change) : Apart (group changes) :=
  apart_nil.foldl_add changes

theorem flatten_foldl_add_perm
    (sections : List Section) (changes : List Change) :
    (flatten (changes.foldl add sections)).Perm (flatten sections ++ changes) := by
  induction changes generalizing sections with
  | nil => simp
  | cons change changes ih =>
      have hstep := (flatten_add_perm sections change).append_right changes
      rw [List.append_assoc] at hstep
      exact (ih (add sections change)).trans hstep

/-- Grouping loses no change, adds none and repeats none. -/
theorem flatten_group_perm (changes : List Change) : (flatten (group changes)).Perm changes := by
  exact flatten_foldl_add_perm [] changes

/-- When changes are added, those of the title of the first section join it, and the other changes
are added to the sections after it. -/
theorem foldl_add_cons
    (first : Section) (others : List Section) (changes : List Change) :
    changes.foldl add (first :: others) =
      { first with changes := first.changes ++ changes.filter (·.title = first.title) } ::
        (changes.filter (·.title ≠ first.title)).foldl add others := by
  induction changes generalizing first others with
  | nil => simp
  | cons change changes ih =>
      rw [List.foldl_cons, add]
      by_cases htitle : change.title = first.title
      · rw [if_pos htitle.symm, ih]
        simp [htitle]
      · rw [if_neg fun h => htitle h.symm, ih]
        simp [htitle]

/-- The first change opens the first section, which takes in all changes of its title, and the
others are grouped by themselves. -/
theorem group_cons (change : Change) (changes : List Change) :
    group (change :: changes) =
      ⟨change.title, change :: changes.filter (·.title = change.title)⟩ ::
        group (changes.filter (·.title ≠ change.title)) :=
  foldl_add_cons ⟨change.title, [change]⟩ [] changes

/-- Induction that removes all changes of the first title at a time. -/
@[elab_as_elim]
theorem induction_on_title
    {motive : List Change → Prop} (nil : motive [])
    (cons : ∀ change changes, motive (changes.filter (·.title ≠ change.title)) →
      motive (change :: changes))
    (changes : List Change) : motive changes := by
  induction hlength : changes.length using Nat.strongRecOn generalizing changes with
  | ind n ih =>
    cases changes with
    | nil => exact nil
    | cons change changes =>
        refine cons change changes (ih _ ?_ _ rfl)
        rw [← hlength, List.length_cons]
        exact Nat.lt_succ_of_le (List.length_filter_le _ changes)

/-- Every title of a grouping is that of a change. -/
theorem mem_title_of_mem_group
    {changes : List Change} {s : Section} (hs : s ∈ group changes) :
    ∃ change ∈ changes, change.title = s.title := by
  have hapart := apart_group changes
  obtain ⟨change, hchange⟩ := List.exists_mem_of_ne_nil _ (hapart.nonempty s hs)
  refine ⟨change, ?_, hapart.own s hs change hchange⟩
  exact (flatten_group_perm changes).mem_iff.mp (List.mem_flatMap.mpr ⟨s, hs, hchange⟩)

/-- A section holds the changes of its title, in the order in which they came. -/
theorem changes_of_mem_group
    {changes : List Change} {s : Section} (hs : s ∈ group changes) :
    s.changes = changes.filter (·.title = s.title) := by
  induction changes using induction_on_title with
  | nil => cases hs
  | cons change changes ih =>
      rw [group_cons] at hs
      rcases List.mem_cons.mp hs with rfl | hs
      · simp
      · obtain ⟨other, hother, htitle⟩ := mem_title_of_mem_group hs
        have hne : change.title ≠ s.title := by
          rw [← htitle]
          exact fun h => by simpa [h] using (List.mem_filter.mp hother).2
        rw [ih hs, List.filter_filter, List.filter_cons_of_neg (by simpa using hne)]
        refine List.filter_congr fun c _ => ?_
        by_cases hc : c.title = s.title
        · simp [hc, Ne.symm hne]
        · simp [hc]

end Changelog.Section
