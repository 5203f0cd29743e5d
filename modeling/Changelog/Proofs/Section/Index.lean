import Changelog.Proofs.FirstSeen
import Changelog.Proofs.Section.Group
import Changelog.Section.Index
import Mathlib

/-!
# Grouping by position and by title

The index and the sections stay in step: the position of a title is the one at which its section
stands, and a title without a position has no section.  Each step keeps this, so every position that is
looked up has a section, collecting with an index never fails, and what it gives is the grouping.

The grouping itself is described without any step: it has a section for each title, in the order in
which the titles are first seen, and the changes of a section are those of its title as they came.
Grouping once more changes nothing.
-/

namespace Changelog.Section

/-! ## The index -/

theorem getElem?_concat_eq_some_iff {α : Type} {xs : List α} {x y : α} {i : Nat} :
    (xs ++ [x])[i]? = some y ↔ xs[i]? = some y ∨ i = xs.length ∧ x = y := by
  rcases lt_trichotomy i xs.length with hlt | rfl | hgt
  · simp [List.getElem?_append_left hlt, hlt.ne]
  · simp
  · rw [List.getElem?_eq_none (by simpa using hgt), List.getElem?_eq_none hgt.le]
    simp [hgt.ne']

/-- A change whose title has a section is added to it, at whatever position it stands. -/
theorem add_eq_set
    {sections : List Section} (hdistinct : (sections.map title).Nodup) {position : Nat} {s : Section}
    (hs : sections[position]? = some s) {change : Change} (htitle : s.title = change.title) :
    add sections change = sections.set position { s with changes := s.changes ++ [change] } := by
  induction sections generalizing position with
  | nil => cases hs
  | cons first others ih =>
      cases position with
      | zero =>
          obtain rfl : first = s := Option.some.inj hs
          rw [add, if_pos htitle, List.set_cons_zero]
      | succ position =>
          rw [List.getElem?_cons_succ] at hs
          rw [List.map_cons, List.nodup_cons] at hdistinct
          have hne : first.title ≠ change.title := by
            rintro heq
            exact hdistinct.1 (heq ▸ htitle ▸ List.mem_map_of_mem (List.mem_of_getElem? hs))
          rw [add, if_neg hne, ih hdistinct.2 hs, List.set_cons_succ]

theorem add_eq_concat
    {sections : List Section} {change : Change} (hnew : change.title ∉ sections.map title) :
    add sections change = sections ++ [⟨change.title, [change]⟩] := by
  induction sections with
  | nil => rfl
  | cons first others ih =>
      rw [List.map_cons, List.mem_cons, not_or] at hnew
      rw [add, if_neg (Ne.symm hnew.1), ih hnew.2, List.cons_append]

namespace Indexed

/-- The position of each title is the one at which a section of this title stands. -/
def InStep (indexed : Indexed) : Prop :=
  ∀ (title : String) (position : Nat), indexed.positions[title]? = some position ↔
    (indexed.sections.map Section.title)[position]? = some title

theorem inStep_empty : InStep {} := by
  intro title position
  simp

theorem InStep.nodup {indexed : Indexed} (h : indexed.InStep) :
    (indexed.sections.map Section.title).Nodup := by
  rw [List.nodup_iff_getElem?_ne_getElem?]
  intro i j hij hj heq
  have hsecond := (h _ j).mpr (List.getElem?_eq_getElem hj)
  have hfirst := (h _ i).mpr (heq.trans (List.getElem?_eq_getElem hj))
  exact hij.ne (Option.some.inj (hfirst.symm.trans hsecond))

theorem InStep.notMem_of_getElem?_eq_none
    {indexed : Indexed} (h : indexed.InStep) {title : String}
    (hnone : indexed.positions[title]? = none) : title ∉ indexed.sections.map Section.title := by
  intro hmem
  obtain ⟨position, hposition⟩ := List.mem_iff_getElem?.mp hmem
  rw [(h title position).mpr hposition] at hnone
  cases hnone

/-- An index stays in step when a section with a new title is put at the end. -/
theorem InStep.concat
    {indexed : Indexed} (h : indexed.InStep) {s : Section}
    (hnone : indexed.positions[s.title]? = none) :
    InStep ⟨indexed.sections ++ [s],
      indexed.positions.insert s.title indexed.sections.length⟩ := by
  intro title position
  have hnew := h.notMem_of_getElem?_eq_none hnone
  rw [Std.HashMap.getElem?_insert, List.map_append, List.map_singleton,
    getElem?_concat_eq_some_iff, List.length_map, ← h title position]
  by_cases htitle : s.title = title
  · rw [htitle] at hnone
    simp [htitle, hnone, eq_comm]
  · simp [htitle]

/-- Whether index and sections are in step depends on the titles of the sections only. -/
theorem InStep.of_map_title_eq
    {indexed : Indexed} (h : indexed.InStep) {sections : List Section}
    (htitles : sections.map Section.title = indexed.sections.map Section.title) :
    InStep { indexed with sections } := by
  intro title position
  rw [htitles]
  exact h title position

/-- Adding a change never fails, keeps index and sections in step, and does to the sections what it
does without an index.  At the position of a title stands the only section that has it, and a section
that is opened comes to stand at the position that the index gets for it. -/
theorem InStep.exists_add?
    {indexed : Indexed} (h : indexed.InStep) (change : Change) :
    ∃ next, indexed.add? change = some next ∧ next.sections = add indexed.sections change ∧
      next.InStep := by
  cases hposition : indexed.positions[change.title]? with
  | some position =>
      have hstands := (h change.title position).mp hposition
      rw [List.getElem?_map] at hstands
      obtain ⟨s, hs, htitle⟩ := Option.map_eq_some_iff.mp hstands
      have hadd := add_eq_set h.nodup hs htitle
      have hold : change.title ∈ indexed.sections.map Section.title :=
        htitle ▸ List.mem_map_of_mem (List.mem_of_getElem? hs)
      refine ⟨{ indexed with sections := add indexed.sections change }, ?_, rfl, ?_⟩
      · rw [Indexed.add?, place, hposition, hadd]
        simp only [hs, Option.map_some]
      · refine h.of_map_title_eq ?_
        rw [titles_add, if_pos hold]
  | none =>
      have hnew := h.notMem_of_getElem?_eq_none hposition
      refine ⟨⟨add indexed.sections change,
        indexed.positions.insert change.title indexed.sections.length⟩, ?_, rfl, ?_⟩
      · rw [Indexed.add?, place, hposition, add_eq_concat hnew]
        simp
      · rw [add_eq_concat hnew]
        exact h.concat (s := ⟨change.title, [change]⟩) hposition

/-- Adding changes one after the other never fails and does to the sections what it does without an
index. -/
theorem InStep.exists_foldlM_add?
    {indexed : Indexed} (h : indexed.InStep) (changes : List Change) :
    ∃ last, changes.foldlM Indexed.add? indexed = some last ∧
      last.sections = changes.foldl add indexed.sections ∧ last.InStep := by
  induction changes generalizing indexed with
  | nil => exact ⟨indexed, rfl, rfl, h⟩
  | cons change changes ih =>
      obtain ⟨next, hadd, hsections, hnext⟩ := h.exists_add? change
      obtain ⟨last, hlast, hall, hstep⟩ := ih hnext
      refine ⟨last, ?_, ?_, hstep⟩
      · rw [List.foldlM_cons, hadd]
        exact hlast
      · rw [hall, hsections, List.foldl_cons]

end Indexed

/-- Collecting with an index never fails, and gives the grouping. -/
theorem collect?_eq_group (changes : List Change) : collect? changes = some (group changes) := by
  obtain ⟨last, hlast, hsections, -⟩ := Indexed.inStep_empty.exists_foldlM_add? changes
  rw [collect?, hlast, Option.map_some, hsections, group]

/-! ## The grouping -/

theorem group_concat (changes : List Change) (change : Change) :
    group (changes ++ [change]) = add (group changes) change :=
  List.foldl_concat ..

/-- The sections of a grouping stand in the order in which their titles are first seen. -/
theorem firstSeen_titles_group (changes : List Change) :
    FirstSeen (changes.map Change.title) ((group changes).map title) := by
  induction changes using List.reverseRecOn with
  | nil => exact firstSeen_eraseDups []
  | append_singleton changes change ih =>
      rw [group_concat, titles_add, List.map_append, List.map_singleton]
      simp only [ih.mem_iff]
      split
      next hold => exact ih.concat_of_mem hold
      next hnew => exact ih.concat_of_notMem hnew

theorem group_eq_map_titles (changes : List Change) :
    group changes = ((group changes).map title).map
      fun title => ⟨title, changes.filter (·.title = title)⟩ := by
  rw [List.map_map]
  refine (List.map_id _).symm.trans (List.map_congr_left fun s hs => ?_)
  rw [id, Function.comp, ← changes_of_mem_group hs]

/-- Changes of one title in front of changes of other titles are a section of their own. -/
theorem group_cons_append
    (change : Change) {own others : List Change} (hown : ∀ c ∈ own, c.title = change.title)
    (hothers : ∀ c ∈ others, c.title ≠ change.title) :
    group (change :: (own ++ others)) = ⟨change.title, change :: own⟩ :: group others := by
  have hfirst : (own ++ others).filter (·.title = change.title) = own := by
    rw [List.filter_append, List.filter_eq_self.mpr fun c hc => decide_eq_true (hown c hc),
      List.filter_eq_nil_iff.mpr fun c hc => by simpa using hothers c hc, List.append_nil]
  have hrest : (own ++ others).filter (·.title ≠ change.title) = others := by
    rw [List.filter_append, List.filter_eq_nil_iff.mpr fun c hc => by simpa using hown c hc,
      List.filter_eq_self.mpr fun c hc => decide_eq_true (hothers c hc), List.nil_append]
  rw [group_cons, hfirst, hrest]

/-- Changes that stand section by section are grouped into the same sections. -/
theorem group_flatten_group (changes : List Change) :
    group (flatten (group changes)) = group changes := by
  induction changes using induction_on_title with
  | nil => rfl
  | cons change changes ih =>
      have hown : ∀ c ∈ changes.filter (·.title = change.title), c.title = change.title :=
        fun c hc => of_decide_eq_true (List.mem_filter.mp hc).2
      have hothers : ∀ c ∈ flatten (group (changes.filter (·.title ≠ change.title))),
          c.title ≠ change.title := by
        intro c hc
        have hmem := (flatten_group_perm _).mem_iff.mp hc
        exact of_decide_eq_true (List.mem_filter.mp hmem).2
      rw [group_cons, flatten, List.flatMap_cons, ← flatten, List.cons_append,
        group_cons_append change hown hothers, ih]

/-- Grouping gives one section for each title, in the order in which the titles are first seen, and the
changes of a section are those of its title in the order in which they came.  Collecting with an index
gives the same and never fails: at each position that is looked up there stands a section.  Grouping
the changes of all sections once more gives these sections. -/
theorem group_collects_by_title (changes : List Change) :
    (∃ titles, FirstSeen (changes.map Change.title) titles ∧
        group changes = titles.map fun title => ⟨title, changes.filter (·.title = title)⟩) ∧
      collect? changes = some (group changes) ∧
      group (flatten (group changes)) = group changes :=
  ⟨⟨_, firstSeen_titles_group changes, group_eq_map_titles changes⟩, collect?_eq_group changes,
    group_flatten_group changes⟩

end Changelog.Section
