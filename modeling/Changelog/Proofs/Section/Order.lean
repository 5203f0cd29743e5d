import Changelog.Document
import Changelog.Proofs.Change.Order
import Changelog.Proofs.Section.Group
import Mathlib

/-!
# The order of sections and of the changes in them

Changes are sorted by heading, but sections are collected by title.  The two agree as long as no
label reads like the title of an unformatted heading.  Then the sections follow the sort: each lists
the changes of one heading, and headings stand in order.

A label that does read like such a title has its section in common with it.  There the changes of
the label come first and those of the bare code after them, each by scope.  The natural statement
that scoped changes come first in every section is false.
-/

namespace Changelog

/-- A list in which what satisfies a condition comes first is what satisfies it and then the rest. -/
theorem filter_append_filter_not
    {α : Type} {p : α → Bool} {xs : List α} (h : xs.Pairwise fun a b => p b → p a) :
    xs.filter p ++ xs.filter (fun x => !p x) = xs := by
  induction xs with
  | nil => rfl
  | cons x xs ih =>
      obtain ⟨hfirst, hrest⟩ := List.pairwise_cons.mp h
      cases hx : p x with
      | true =>
          rw [List.filter_cons_of_pos hx, List.filter_cons_of_neg (by simp [hx]),
            List.cons_append, ih hrest]
      | false =>
          have hnone : ∀ y ∈ xs, ¬p y = true := by
            intro y hy hpy
            rw [hfirst y hy hpy] at hx
            cases hx
          have hall : xs.filter (fun x => !p x) = xs := by
            rw [List.filter_eq_self]
            intro y hy
            simp [hnone y hy]
          rw [List.filter_cons_of_neg (by simp [hx]), List.filter_cons_of_pos (by simp [hx]),
            List.filter_eq_nil_iff.mpr hnone, hall, List.nil_append]

namespace Section

/-- The changes of a section whose headings are bare codes, or those whose headings are not. -/
def part (s : Section) (unformatted : Bool) : List Change :=
  s.changes.filter (·.heading.isUnformatted = unformatted)

/-- A section lists the changes of one heading. -/
structure Under (s : Section) (heading : Heading) : Prop where
  title : s.title = heading.title
  own : ∀ change ∈ s.changes, change.heading = heading

/-- Sorted changes in which a title belongs to one heading are collected in the order in which they
stand. -/
theorem flatten_group_of_pairwise
    {changes : List Change} (hsorted : changes.Pairwise fun a b => (a.compare b).isLE)
    (htitles : ∀ a ∈ changes, ∀ b ∈ changes, a.title = b.title → a.heading = b.heading) :
    flatten (group changes) = changes := by
  induction changes using induction_on_title with
  | nil => rfl
  | cons change changes ih =>
      obtain ⟨hfirst, hrest⟩ := List.pairwise_cons.mp hsorted
      have hclustered : changes.Pairwise fun a b =>
          decide (b.title = change.title) → decide (a.title = change.title) := by
        refine hrest.imp_of_mem fun {a b} ha hb hle htitle => ?_
        have hheading : b.heading = change.heading :=
          htitles b (List.mem_cons_of_mem _ hb) change List.mem_cons_self (of_decide_eq_true htitle)
        have heq := Change.heading_eq_of_isLE_of_isLE (hfirst a ha) hle hheading
        exact decide_eq_true (congrArg Heading.title heq)
      have hothers := ih (hrest.filter _) fun a ha b hb =>
        htitles a (List.mem_cons_of_mem _ (List.mem_filter.mp ha).1) b
          (List.mem_cons_of_mem _ (List.mem_filter.mp hb).1)
      have hsplit := filter_append_filter_not hclustered
      rw [group_cons, flatten, List.flatMap_cons, ← flatten, hothers, List.cons_append]
      simpa using hsplit

/-- Where a title belongs to one heading, each section lists the changes of one. -/
theorem exists_under_of_mem_group
    {changes : List Change}
    (htitles : ∀ a ∈ changes, ∀ b ∈ changes, a.title = b.title → a.heading = b.heading)
    {s : Section} (hs : s ∈ group changes) : ∃ heading, s.Under heading := by
  obtain ⟨change, hchange, htitle⟩ := mem_title_of_mem_group hs
  refine ⟨change.heading, htitle.symm, fun other hother => ?_⟩
  rw [changes_of_mem_group hs] at hother
  obtain ⟨hother, heq⟩ := List.mem_filter.mp hother
  exact htitles other hother change hchange ((of_decide_eq_true heq).trans htitle.symm)

/-- Sections of sorted changes stand in the order of their headings, and no title comes twice. -/
theorem pairwise_group_of_pairwise
    {changes : List Change} (hsorted : changes.Pairwise fun a b => (a.compare b).isLE)
    (htitles : ∀ a ∈ changes, ∀ b ∈ changes, a.title = b.title → a.heading = b.heading) :
    (group changes).Pairwise fun s t => s.title ≠ t.title ∧
      ∀ first second, s.Under first → t.Under second → (first.compare second).isLE := by
  have hapart := apart_group changes
  have hchanges : (group changes).Pairwise fun s t =>
      ∀ a ∈ s.changes, ∀ b ∈ t.changes, (a.compare b).isLE := by
    rw [← flatten_group_of_pairwise hsorted htitles] at hsorted
    exact (List.pairwise_flatMap.mp hsorted).2
  have hdistinct : (group changes).Pairwise fun s t => s.title ≠ t.title :=
    List.pairwise_map.mp hapart.titles
  refine (hdistinct.and hchanges).imp_of_mem fun {s t} hs ht hboth => ⟨hboth.1, ?_⟩
  intro first second hfirst hsecond
  obtain ⟨a, ha⟩ := List.exists_mem_of_ne_nil _ (hapart.nonempty s hs)
  obtain ⟨b, hb⟩ := List.exists_mem_of_ne_nil _ (hapart.nonempty t ht)
  have hle := Change.isLE_compare_heading (hboth.2 a ha b hb)
  rwa [hfirst.own a ha, hsecond.own b hb] at hle

/-- Whether all changes of a section have a label. -/
def isLabelled (s : Section) : Bool := s.changes.all fun change => !change.heading.isUnformatted

theorem Under.isLabelled_eq
    {s : Section} {heading : Heading} (h : s.Under heading) (hs : s.changes ≠ []) :
    s.isLabelled = !heading.isUnformatted := by
  obtain ⟨change, hchange⟩ := List.exists_mem_of_ne_nil _ hs
  cases hsort : heading.isUnformatted with
  | false =>
      rw [isLabelled, List.all_eq_true.mpr]
      · rfl
      · intro other hother
        rw [h.own other hother, hsort]
        rfl
  | true =>
      rw [isLabelled, List.all_eq_false.mpr]
      · rfl
      · exact ⟨change, hchange, by simp [h.own change hchange, hsort]⟩

/-- Of two sections in order the first is labelled if the second is, and among sections of one sort
titles ascend. -/
theorem Under.isLabelled_and_title_lt
    {s t : Section} {first second : Heading} (hfirst : s.Under first) (hsecond : t.Under second)
    (hs : s.changes ≠ []) (ht : t.changes ≠ []) (hne : s.title ≠ t.title)
    (hle : (first.compare second).isLE) :
    (t.isLabelled → s.isLabelled) ∧ (s.isLabelled = t.isLabelled → s.title < t.title) := by
  rw [hfirst.isLabelled_eq hs, hsecond.isLabelled_eq ht]
  rcases Heading.isLE_compare_iff.mp hle with ⟨hlabelled, hbare⟩ | ⟨hsort, hascend⟩
  · simp [hlabelled, hbare]
  · rw [← hfirst.title, ← hsecond.title] at hascend
    rw [hsort]
    exact ⟨id, fun _ => lt_of_le_of_ne hascend hne⟩

/-- Sections of one heading each that stand in the order of their headings are those of labels and
then those of bare codes, and titles ascend among either. -/
theorem exists_labelled_append_unformatted
    {sections : List Section} (hnonempty : ∀ s ∈ sections, s.changes ≠ [])
    (hunder : ∀ s ∈ sections, ∃ heading, s.Under heading)
    (hordered : sections.Pairwise fun s t => s.title ≠ t.title ∧
      ∀ first second, s.Under first → t.Under second → (first.compare second).isLE) :
    ∃ labelled unformatted, sections = labelled ++ unformatted ∧
      (∀ s ∈ labelled, s.Under (.labelled s.title)) ∧
      (∀ s ∈ unformatted, ∃ code, s.Under (.unformatted code)) ∧
      labelled.Pairwise (fun s t => s.title < t.title) ∧
      unformatted.Pairwise (fun s t => s.title < t.title) := by
  have hpairs : sections.Pairwise fun s t =>
      (t.isLabelled → s.isLabelled) ∧ (s.isLabelled = t.isLabelled → s.title < t.title) := by
    refine hordered.imp_of_mem fun {s t} hs ht hboth => ?_
    obtain ⟨first, hfirst⟩ := hunder s hs
    obtain ⟨second, hsecond⟩ := hunder t ht
    exact hfirst.isLabelled_and_title_lt hsecond (hnonempty s hs) (hnonempty t ht) hboth.1
      (hboth.2 first second hfirst hsecond)
  have hsplit := filter_append_filter_not (hpairs.imp fun h => h.1)
  refine ⟨sections.filter isLabelled, sections.filter fun s => !s.isLabelled, hsplit.symm,
    ?_, ?_, ?_, ?_⟩
  · intro s hs
    obtain ⟨hs, hlabelled⟩ := List.mem_filter.mp hs
    obtain ⟨heading, hheading⟩ := hunder s hs
    rw [hheading.isLabelled_eq (hnonempty s hs)] at hlabelled
    cases heading with
    | labelled label =>
        obtain rfl : s.title = label := hheading.title
        exact hheading
    | unformatted code => cases hlabelled
  · intro s hs
    obtain ⟨hs, hbare⟩ := List.mem_filter.mp hs
    obtain ⟨heading, hheading⟩ := hunder s hs
    rw [hheading.isLabelled_eq (hnonempty s hs)] at hbare
    cases heading with
    | labelled label => cases hbare
    | unformatted code => exact ⟨code, hheading⟩
  · refine (hpairs.filter isLabelled).imp_of_mem fun {s t} hs ht hboth => hboth.2 ?_
    rw [(List.mem_filter.mp hs).2, (List.mem_filter.mp ht).2]
  · refine (hpairs.filter fun s => !s.isLabelled).imp_of_mem fun {s t} hs ht hboth => hboth.2 ?_
    have hsame : (!s.isLabelled) = (!t.isLabelled) := by
      rw [(List.mem_filter.mp hs).2, (List.mem_filter.mp ht).2]
    exact Bool.not_inj hsame

/-- In a section with changes in order, those of a label come before those of a bare code. -/
theorem part_append_part
    {s : Section} (hsorted : s.changes.Pairwise fun a b => (a.compare b).isLE) :
    s.part false ++ s.part true = s.changes := by
  have hlabels : s.changes.Pairwise fun a b =>
      decide (b.heading.isUnformatted = false) → decide (a.heading.isUnformatted = false) := by
    refine hsorted.imp fun {a b} hle => ?_
    rcases Heading.isLE_compare_iff.mp (Change.isLE_compare_heading hle) with
      ⟨hlabelled, -⟩ | ⟨hsort, -⟩
    · simp [hlabelled]
    · simp [hsort]
  simpa [part] using filter_append_filter_not hlabels

end Section

namespace HeadingTable

variable {table : HeadingTable}

/-- No label begins like the title of an unformatted heading. -/
def Unmarked (table : HeadingTable) : Prop :=
  ∀ code label : String, table.labels[code]? = some label →
    ¬(unformattedMark ++ " ").toList <+: label.toList

/-- A label that a code resolves to is in the table. -/
theorem exists_label_of_resolve
    {code label : String} (h : table.resolve code = .labelled label) :
    ∃ known : String, table.labels[known]? = some label := by
  unfold resolve at h
  split at h
  next found hfound =>
    obtain rfl := Heading.labelled.inj h
    unfold label? at hfound
    cases hown : table.labels[code]? with
    | some own =>
        rw [hown] at hfound
        exact ⟨code, hown.trans hfound⟩
    | none =>
        rw [hown] at hfound
        obtain ⟨target, -, htarget⟩ := Option.bind_eq_some_iff.mp hfound
        exact ⟨target, htarget⟩
  · cases h

/-- A title that a label of the table and a bare code have in common. -/
def Shared (table : HeadingTable) (title : String) : Prop :=
  (∃ known : String, table.labels[known]? = some title) ∧
    ∃ code, title = Heading.title (.unformatted code)

theorem Unmarked.not_shared (h : table.Unmarked) (title : String) : ¬table.Shared title := by
  rintro ⟨⟨known, hlabel⟩, code, rfl⟩
  have htext : (Heading.title (.unformatted code)).toList =
      (unformattedMark ++ " ").toList ++ code.toList := String.toList_append
  exact h known _ hlabel (htext ▸ List.prefix_append _ _)

/-- A change with a label has its title in the table. -/
theorem exists_label_of_mem_changes
    {entries : List LogEntry} {change : Change} (h : change ∈ table.changes entries)
    (hlabelled : change.heading.isUnformatted = false) :
    ∃ known : String, table.labels[known]? = some change.title := by
  obtain ⟨entry, -, hentry⟩ := List.mem_filterMap.mp h
  obtain ⟨header, -, rfl⟩ := Option.map_eq_some_iff.mp hentry
  unfold Change.title
  cases hresolve : table.resolve header.code with
  | labelled label => exact exists_label_of_resolve hresolve
  | unformatted code =>
      change (table.resolve header.code).isUnformatted = false at hlabelled
      rw [hresolve] at hlabelled
      cases hlabelled

/-- A change with a label and one of a bare code have one title only if it is shared. -/
theorem shared_of_title_eq
    {entries : List LogEntry} {a b : Change} (ha : a ∈ table.changes entries)
    (hlabelled : a.heading.isUnformatted = false) (hbare : b.heading.isUnformatted = true)
    (htitle : a.title = b.title) : table.Shared a.title := by
  refine ⟨exists_label_of_mem_changes ha hlabelled, ?_⟩
  rw [htitle, Change.title]
  cases hheading : b.heading with
  | labelled label =>
      rw [hheading] at hbare
      cases hbare
  | unformatted code => exact ⟨code, rfl⟩

/-- A title that is not shared belongs to one heading. -/
theorem heading_eq_of_title_eq
    {entries : List LogEntry} {a b : Change} (ha : a ∈ table.changes entries)
    (hb : b ∈ table.changes entries) (htitle : a.title = b.title)
    (hshared : ¬table.Shared a.title) : a.heading = b.heading := by
  refine Heading.eq_of_title_eq ?_ htitle
  cases hfirst : a.heading.isUnformatted <;> cases hsecond : b.heading.isUnformatted
  · rfl
  · exact absurd (shared_of_title_eq ha hfirst hsecond htitle) hshared
  · exact absurd (shared_of_title_eq hb hsecond hfirst htitle.symm) (htitle ▸ hshared)
  · rfl

/-- Under an unmarked table the sections follow the sort.  Put one after the other they are the
sorted changes of the log; each section lists the changes of one heading; the sections of labels
come before those of bare codes; and among either, titles strictly ascend. -/
theorem sections_follow_sort (h : table.Unmarked) (entries : List LogEntry) :
    Section.flatten (table.sections entries) = Change.sort (entries.filterMap table.change?) ∧
      ∃ labelled unformatted, table.sections entries = labelled ++ unformatted ∧
        (∀ s ∈ labelled, s.Under (.labelled s.title)) ∧
        (∀ s ∈ unformatted, ∃ code, s.Under (.unformatted code)) ∧
        labelled.Pairwise (fun s t => s.title < t.title) ∧
        unformatted.Pairwise (fun s t => s.title < t.title) := by
  have hsorted := Change.pairwise_sort (table.changes entries)
  have htitles : ∀ a ∈ Change.sort (table.changes entries),
      ∀ b ∈ Change.sort (table.changes entries), a.title = b.title → a.heading = b.heading := by
    intro a ha b hb htitle
    have hperm := Change.sort_perm (table.changes entries)
    exact heading_eq_of_title_eq (hperm.mem_iff.mp ha) (hperm.mem_iff.mp hb) htitle
      (h.not_shared a.title)
  refine ⟨Section.flatten_group_of_pairwise hsorted htitles, ?_⟩
  exact Section.exists_labelled_append_unformatted (Section.apart_group _).nonempty
    (fun s hs => Section.exists_under_of_mem_group htitles hs)
    (Section.pairwise_group_of_pairwise hsorted htitles)

theorem forall_label_of_forall_mem
    {P : String → Prop} (h : ∀ entry ∈ table.labels.toList, P entry.2) :
    ∀ code label : String, table.labels[code]? = some label → P label :=
  fun code label hlabel =>
    h (code, label) (Std.ExtTreeMap.mem_toList_iff_getElem?_eq_some.mpr hlabel)

theorem unmarked_of_forall_mem
    (h : ∀ entry ∈ table.labels.toList,
      ¬(unformattedMark ++ " ").toList <+: entry.2.toList) : table.Unmarked :=
  forall_label_of_forall_mem h

/-- A log with a change of a code without a label and a change of a label. -/
def mixedLog : List LogEntry := [⟨"h1", "wip(ui): b", ""⟩, ⟨"h2", "feat: a", ""⟩]

/-- The built-in table is unmarked, and a code without a label comes last. -/
theorem sections_follow_sort_builtin :
    builtin.Unmarked ∧
      Section.flatten (builtin.sections mixedLog) =
        Change.sort (mixedLog.filterMap builtin.change?) ∧
      (builtin.sections mixedLog).map Section.title = ["Features", "[UNFORMATTED TYPE] wip"] := by
  have hunmarked : builtin.Unmarked := unmarked_of_forall_mem (by decide +kernel)
  exact ⟨hunmarked, (sections_follow_sort hunmarked mixedLog).1, by cbv⟩

/-! ## Inside a section -/

theorem changes_of_mem_sections
    {entries : List LogEntry} {s : Section} (hs : s ∈ table.sections entries) :
    s.changes = (Change.sort (table.changes entries)).filter (·.title = s.title) :=
  Section.changes_of_mem_group hs

/-- A section stands by scope if its title belongs to one heading. -/
theorem byScope_of_mem_sections
    {entries : List LogEntry} {s : Section} (hs : s ∈ table.sections entries)
    (h : ∀ a ∈ table.changes entries, ∀ b ∈ table.changes entries,
      a.title = s.title → b.title = s.title → a.heading = b.heading) :
    Change.ByScope (table.changes entries) s.changes := by
  rw [changes_of_mem_sections hs]
  exact Change.byScope_filter_sort fun a ha b hb hta htb =>
    h a ha b hb (of_decide_eq_true hta) (of_decide_eq_true htb)

/-- In every section the changes of a label come before those of a bare code, and the changes of
either stand by scope.  A section stands by scope as a whole if it lists the changes of one heading,
as it does unless its title is shared. -/
theorem sections_stand_by_scope (table : HeadingTable) (entries : List LogEntry) :
    ∀ s ∈ table.sections entries,
      s.changes = s.part false ++ s.part true ∧
        (∀ unformatted, Change.ByScope (table.changes entries) (s.part unformatted)) ∧
        ((∀ a ∈ s.changes, ∀ b ∈ s.changes, a.heading = b.heading) →
          Change.ByScope (table.changes entries) s.changes) ∧
        (¬table.Shared s.title → Change.ByScope (table.changes entries) s.changes) := by
  intro s hs
  have hchanges := changes_of_mem_sections hs
  refine ⟨?_, fun unformatted => ?_, fun hone => ?_, fun hshared => ?_⟩
  · refine (Section.part_append_part ?_).symm
    rw [hchanges]
    exact (Change.pairwise_sort _).filter _
  · rw [Section.part, hchanges, List.filter_filter]
    refine Change.byScope_filter_sort fun a _ b _ ha hb => ?_
    simp only [Bool.and_eq_true, decide_eq_true_eq] at ha hb
    exact Heading.eq_of_title_eq (ha.1.trans hb.1.symm) (ha.2.trans hb.2.symm)
  · have hmem : ∀ c ∈ table.changes entries, c.title = s.title → c ∈ s.changes := by
      intro c hc htitle
      rw [hchanges]
      exact List.mem_filter.mpr ⟨(Change.sort_perm _).mem_iff.mpr hc, decide_eq_true htitle⟩
    exact byScope_of_mem_sections hs fun a ha b hb hta htb =>
      hone a (hmem a ha hta) b (hmem b hb htb)
  · exact byScope_of_mem_sections hs fun a ha b hb hta htb =>
      heading_eq_of_title_eq ha hb (hta.trans htb.symm) (hta ▸ hshared)

/-- Settings with a label that reads like the title of a code without one. -/
def overlapping : Settings := { labels := .ofList [("feat", "[UNFORMATTED TYPE] wip")] }

/-- A log with a change of the label and a change of the code. -/
def overlappingLog : List LogEntry := [⟨"h1", "feat: a", ""⟩, ⟨"h2", "wip(ui): b", ""⟩]

/-- The section that a label and a bare code have in common. -/
def overlappingSection : Section where
  title := "[UNFORMATTED TYPE] wip"
  changes := [⟨"h1", .labelled "[UNFORMATTED TYPE] wip", none, "a", []⟩,
    ⟨"h2", .unformatted "wip", some "ui", "b", []⟩]

theorem sections_overlappingLog :
    (builtin.withLabel "feat" "[UNFORMATTED TYPE] wip").sections overlappingLog =
      [overlappingSection] := by
  cbv

/-- Either part of the section that a label and a bare code have in common stands by scope. -/
theorem parts_stand_by_scope_overlapping :
    overlappingSection.part false ≠ [] ∧ overlappingSection.part true ≠ [] ∧
      overlappingSection.changes =
        overlappingSection.part false ++ overlappingSection.part true ∧
      ∀ unformatted, Change.ByScope
        ((builtin.withLabel "feat" "[UNFORMATTED TYPE] wip").changes overlappingLog)
        (overlappingSection.part unformatted) := by
  have hmem : overlappingSection ∈
      (builtin.withLabel "feat" "[UNFORMATTED TYPE] wip").sections overlappingLog := by
    rw [sections_overlappingLog]
    exact List.mem_singleton_self _
  obtain ⟨hsplit, hparts, -⟩ := sections_stand_by_scope _ overlappingLog _ hmem
  exact ⟨by decide +kernel, by decide +kernel, hsplit, hparts⟩

/-- Valid settings can put a change without a scope before one with a scope, in one section. -/
theorem exists_unscoped_before_scoped :
    ∃ table, ofSettings overlapping = .ok table ∧
      ∃ s ∈ table.sections overlappingLog,
        ¬s.changes.Pairwise fun a b => b.scope?.isSome → a.scope?.isSome := by
  refine ⟨builtin.withLabel "feat" "[UNFORMATTED TYPE] wip", ?_, overlappingSection, ?_, ?_⟩
  · have hvalid : overlapping.validate = .ok overlapping :=
      Settings.validate_eq_ok_iff.mpr ⟨by decide +kernel, rfl⟩
    rw [ofSettings, hvalid]
    exact congrArg Except.ok (by decide +kernel)
  · rw [sections_overlappingLog]
    exact List.mem_singleton_self _
  · decide +kernel

end HeadingTable

end Changelog
