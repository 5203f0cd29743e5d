import Changelog.Proofs.Section.Lines
import Changelog.Text.Hex
import Mathlib

/-!
# What can be read off a written document

Nothing is escaped in a document, and yet its sections, their titles and the hashes and issues of their
changes can be told from its text.  An empty line is no list item, so the items of a section end where
the next frame begins.  A hash has no bracket and neither have references, so the last bracket of a line
begins its marks, and the commas in the marks are those that separate them.

Scope and message are less certain: a message may itself begin with a scope in asterisks.  They can be
told apart only if it is known whether there is a scope, and if the scope has no asterisk.
-/

namespace Changelog

/-! ## Cutting texts at a mark -/

/-- A list can be cut at the first mark in one way only. -/
theorem eq_of_append_cons_eq
    {α : Type} {x : α} {front front' rest rest' : List α} (h : x ∉ front) (h' : x ∉ front')
    (heq : front ++ x :: rest = front' ++ x :: rest') : front = front' ∧ rest = rest' := by
  induction front generalizing front' with
  | nil =>
      cases front' with
      | nil => exact ⟨rfl, (List.cons.inj heq).2⟩
      | cons y front' => exact absurd ((List.cons.inj heq).1 ▸ List.mem_cons_self) h'
  | cons y front ih =>
      cases front' with
      | nil => exact absurd ((List.cons.inj heq).1 ▸ List.mem_cons_self) h
      | cons z front' =>
          obtain ⟨rfl, hrest⟩ := List.cons.inj heq
          obtain ⟨rfl, rfl⟩ := ih (fun hmem => h (List.mem_cons_of_mem _ hmem))
            (fun hmem => h' (List.mem_cons_of_mem _ hmem)) hrest
          exact ⟨rfl, rfl⟩

/-- A list can be cut at the last mark in one way only. -/
theorem eq_of_append_cons_eq_of_last
    {α : Type} {x : α} {front front' rest rest' : List α} (h : x ∉ rest) (h' : x ∉ rest')
    (heq : front ++ x :: rest = front' ++ x :: rest') : front = front' ∧ rest = rest' := by
  have hreverse := congrArg List.reverse heq
  simp only [List.reverse_append, List.reverse_cons, List.append_assoc, List.singleton_append]
    at hreverse
  obtain ⟨hrest, hfront⟩ := eq_of_append_cons_eq (List.mem_reverse.not.mpr h)
    (List.mem_reverse.not.mpr h') hreverse
  exact ⟨List.reverse_injective hfront, List.reverse_injective hrest⟩

theorem append_flatMap_cons_eq_intercalate
    {α β : Type} (x : α) (first : List α) (parts : List β) (f : β → List α) :
    first ++ parts.flatMap (fun part => x :: f part) = [x].intercalate (first :: parts.map f) := by
  induction parts generalizing first with
  | nil => simp
  | cons part parts ih =>
      rw [List.map_cons, List.intercalate_cons_cons, ← ih, List.flatMap_cons]
      simp

/-! ## Lines -/

namespace Change

/-- What stands in front of the brackets in the line of a change, after its dash. -/
def beginning (change : Change) : List Char :=
  (change.scope?.elim "" fun scope => "**" ++ scope ++ "**: ").toList ++ change.message.toList

/-- What stands in the brackets of the line of a change. -/
def marks (change : Change) : List Char :=
  change.hash.toList ++ change.issues.flatMap fun issue => ',' :: ' ' :: issue.toList

/-- The hash of a change consists of hexadecimal digits, each issue is a number sign with digits, and
the other texts are on one line. -/
structure Regular (change : Change) : Prop where
  hash : ∀ c ∈ change.hash.toList, (Text.hexValue? c).isSome
  issues : ∀ issue ∈ change.issues,
    ∃ digits, issue.toList = '#' :: digits ∧ ∀ d ∈ digits, d.isDigit = true
  scope : ∀ scope ∈ change.scope?, '\n' ∉ scope.toList
  message : '\n' ∉ change.message.toList

/-- What can be told of two changes that have one line. -/
structure Alike (a b : Change) : Prop where
  hash : a.hash = b.hash
  issues : a.issues = b.issues
  ofNone : a.scope? = none → b.scope? = none → a.message = b.message
  ofSome : ∀ scope scope', a.scope? = some scope → b.scope? = some scope' →
    '*' ∉ scope.toList → '*' ∉ scope'.toList → scope = scope' ∧ a.message = b.message

variable {a b change : Change}

theorem toList_line (change : Change) :
    change.line.toList =
      '-' :: ' ' :: (change.beginning ++ [' '] ++ '[' :: (change.marks ++ [']'])) := by
  simp [line, beginning, marks, String.toList_append, String.toList_join, List.flatMap_map]

/-- A character that is no hexadecimal digit, no number sign and no digit is in no mark. -/
theorem Regular.not_mem_hash
    (h : change.Regular) {c : Char} (hc : Text.hexValue? c = none) : c ∉ change.hash.toList := by
  intro hmem
  have hdigit := h.hash c hmem
  rw [hc] at hdigit
  cases hdigit

theorem Regular.not_mem_issue
    (h : change.Regular) {c : Char} (hc : c ≠ '#' ∧ c.isDigit = false) :
    ∀ issue ∈ change.issues, c ∉ issue.toList := by
  intro issue hissue hmem
  obtain ⟨digits, heq, hdigits⟩ := h.issues issue hissue
  rw [heq, List.mem_cons] at hmem
  rcases hmem with rfl | hmem
  · exact hc.1 rfl
  · rw [hdigits c hmem] at hc
    cases hc.2

theorem Regular.singleLine (h : change.Regular) : change.SingleLine where
  hash := h.not_mem_hash (by decide)
  scope := h.scope
  message := h.message
  issues := h.not_mem_issue (by decide)

theorem Regular.bracket_not_mem_marks (h : change.Regular) : '[' ∉ change.marks ++ [']'] := by
  have hhash := h.not_mem_hash (c := '[') (by decide)
  have hissues := h.not_mem_issue (c := '[') (by decide)
  simpa [marks, hhash] using hissues

/-- The marks of a change can be told apart. -/
theorem Regular.eq_of_marks_eq
    (ha : a.Regular) (hb : b.Regular) (h : a.marks = b.marks) :
    a.hash = b.hash ∧ a.issues = b.issues := by
  have hsplit : ∀ {change : Change}, change.Regular → change.marks.splitOn ',' =
      change.hash.toList :: change.issues.map fun issue => ' ' :: issue.toList := by
    intro change hchange
    rw [marks, append_flatMap_cons_eq_intercalate]
    refine List.splitOn_intercalate ',' ?_ (List.cons_ne_nil _ _)
    have hissues := hchange.not_mem_issue (c := ',') (by decide)
    simpa [hchange.not_mem_hash (c := ',') (by decide)] using hissues
  have hparts := congrArg (List.splitOn ',') h
  rw [hsplit ha, hsplit hb] at hparts
  obtain ⟨hhash, hissues⟩ := List.cons.inj hparts
  have hinjective : Function.Injective fun issue : String => ' ' :: issue.toList :=
    fun issue issue' heq => String.toList_inj.mp (List.cons.inj heq).2
  exact ⟨String.toList_inj.mp hhash, List.map_injective_iff.mpr hinjective hissues⟩

/-- The line of a change gives away its hash, its issues and what stands in front of the brackets. -/
theorem Regular.eq_of_line_eq
    (ha : a.Regular) (hb : b.Regular) (h : a.line = b.line) :
    a.beginning = b.beginning ∧ a.hash = b.hash ∧ a.issues = b.issues := by
  have hlist := congrArg String.toList h
  rw [toList_line, toList_line] at hlist
  obtain ⟨hfront, hmarks⟩ := eq_of_append_cons_eq_of_last ha.bracket_not_mem_marks
    hb.bracket_not_mem_marks (List.cons.inj (List.cons.inj hlist).2).2
  exact ⟨List.append_cancel_right hfront, ha.eq_of_marks_eq hb (List.append_cancel_right hmarks)⟩

/-- Two changes with one line are alike. -/
theorem Regular.alike (ha : a.Regular) (hb : b.Regular) (h : a.line = b.line) : a.Alike b := by
  obtain ⟨hbeginning, hhash, hissues⟩ := ha.eq_of_line_eq hb h
  unfold beginning at hbeginning
  refine ⟨hhash, hissues, ?_, ?_⟩
  · intro hnone hnone'
    rw [hnone, hnone'] at hbeginning
    exact String.toList_inj.mp hbeginning
  · intro scope scope' hscope hscope' hstar hstar'
    have hlead : ∀ (scope message : String), ("**" ++ scope ++ "**: ").toList ++ message.toList =
        '*' :: '*' :: (scope.toList ++ '*' :: ('*' :: ':' :: ' ' :: message.toList)) := by
      simp [String.toList_append]
    rw [hscope, hscope', Option.elim_some, Option.elim_some, hlead, hlead] at hbeginning
    obtain ⟨htext, hrest⟩ := eq_of_append_cons_eq hstar hstar'
      (List.cons.inj (List.cons.inj hbeginning).2).2
    simp only [List.cons.injEq, true_and] at hrest
    exact ⟨String.toList_inj.mp htext, String.toList_inj.mp hrest⟩

end Change

/-! ## Documents -/

theorem forall₂_of_map_eq
    {α β : Type} {R : α → α → Prop} {f : α → β} {xs ys : List α} (h : xs.map f = ys.map f)
    (hR : ∀ x ∈ xs, ∀ y ∈ ys, f x = f y → R x y) : List.Forall₂ R xs ys := by
  induction xs generalizing ys with
  | nil =>
      rw [List.map_eq_nil_iff.mp h.symm]
      exact .nil
  | cons x xs ih =>
      obtain ⟨y, ys, rfl, hxy, hrest⟩ := List.map_eq_cons_iff.mp h.symm
      refine .cons (hR x List.mem_cons_self y List.mem_cons_self hxy.symm) (ih hrest.symm ?_)
      exact fun x hx y hy => hR x (List.mem_cons_of_mem _ hx) y (List.mem_cons_of_mem _ hy)

namespace Section

/-- The title of a section is on one line, and its changes are regular. -/
structure Regular (s : Section) : Prop where
  title : '\n' ∉ s.title.toList
  changes : ∀ change ∈ s.changes, change.Regular

/-- What can be told of two sections that are written alike. -/
structure Alike (s t : Section) : Prop where
  title : s.title = t.title
  changes : List.Forall₂ Change.Alike s.changes t.changes

/-- The list items of a section end where its changes end. -/
theorem takeWhile_isItem_append (s : Section) (sections : List Section) :
    (s.changes.map Change.line ++ documentLines sections).takeWhile isItem =
      s.changes.map Change.line := by
  have hitems : ∀ line ∈ s.changes.map Change.line, isItem line = true := by
    intro line hline
    obtain ⟨change, -, rfl⟩ := List.mem_map.mp hline
    exact isItem_line change
  have hend : (documentLines sections).takeWhile isItem = [] := by
    cases sections with
    | nil => rfl
    | cons t sections =>
        exact List.takeWhile_cons_of_neg (by decide)
  rw [List.takeWhile_append_of_pos hitems, hend, List.append_nil]

/-- The lines of a document give away its titles and the lines of the changes under each. -/
theorem map_lines_eq_of_documentLines_eq
    {sections sections' : List Section} (h : documentLines sections = documentLines sections') :
    sections.map (fun s => (s.title, s.changes.map Change.line)) =
      sections'.map fun s => (s.title, s.changes.map Change.line) := by
  induction sections generalizing sections' with
  | nil =>
      cases sections' with
      | nil => rfl
      | cons t sections' => cases h
  | cons s sections ih =>
      cases sections' with
      | nil => cases h
      | cons t sections' =>
          obtain ⟨-, h⟩ := List.cons.inj h
          obtain ⟨htitle, h⟩ := List.cons.inj h
          obtain ⟨-, (h : s.changes.map Change.line ++ documentLines sections =
            t.changes.map Change.line ++ documentLines sections')⟩ := List.cons.inj h
          have hitems := congrArg (List.takeWhile isItem) h
          rw [takeWhile_isItem_append, takeWhile_isItem_append] at hitems
          rw [hitems] at h
          rw [List.map_cons, List.map_cons, hitems, (String.append_right_inj _).mp htitle,
            ih (List.append_cancel_left h)]

/-- Two regular lists of sections with the same lines are alike, section by section. -/
theorem forall₂_alike_of_documentLines_eq
    {sections sections' : List Section} (hregular : ∀ s ∈ sections, s.Regular)
    (hregular' : ∀ s ∈ sections', s.Regular)
    (h : documentLines sections = documentLines sections') :
    List.Forall₂ Alike sections sections' := by
  apply forall₂_of_map_eq (map_lines_eq_of_documentLines_eq h)
  intro s hs t ht hst
  obtain ⟨htitle, hlines⟩ := Prod.mk.inj hst
  refine ⟨htitle, forall₂_of_map_eq hlines ?_⟩
  intro a ha b hb hline
  exact ((hregular s hs).changes a ha).alike ((hregular' t ht).changes b hb) hline

theorem textLines_document_of_regular
    {sections : List Section} (hne : sections ≠ []) (h : ∀ s ∈ sections, s.Regular) :
    textLines (document sections) = documentLines sections :=
  textLines_document_of_singleLine hne (fun s hs => (h s hs).title)
    fun s hs change hchange => ((h s hs).changes change hchange).singleLine

/-- Two lists of sections with one text have equally many sections and the same titles, in the same
order, and under each title equally many changes.  The changes agree one by one in their hashes and
issues, and in scope and message as well if neither has a scope or both have one without an asterisk. -/
theorem document_decodes
    {sections sections' : List Section} (hregular : ∀ s ∈ sections, s.Regular)
    (hregular' : ∀ s ∈ sections', s.Regular) (h : document sections = document sections') :
    List.Forall₂ Alike sections sections' := by
  by_cases hempty : sections = []
  · subst hempty
    rw [document_eq_empty_iff.mp (h.symm.trans (document_eq_empty_iff.mpr rfl))]
    exact .nil
  · have hempty' : sections' ≠ [] := by
      rintro rfl
      exact hempty (document_eq_empty_iff.mp (h.trans (document_eq_empty_iff.mpr rfl)))
    apply forall₂_alike_of_documentLines_eq hregular hregular'
    rw [← textLines_document_of_regular hempty hregular, h,
      textLines_document_of_regular hempty' hregular']

/-- A section with one change that has brackets, a comma and a reference in its message, and an empty
section whose title reads like a heading. -/
def disguised (scope? : Option String) (message : String) : List Section :=
  [⟨"Features", [⟨"4a5b6c", .labelled "Features", scope?, message, ["#7", "#07"]⟩]⟩, ⟨"### [1]", []⟩]

theorem regular_disguised
    {scope? : Option String} {message : String} (hscope : ∀ scope ∈ scope?, '\n' ∉ scope.toList)
    (hmessage : '\n' ∉ message.toList) : ∀ s ∈ disguised scope? message, s.Regular := by
  have hhash : ("4a5b6c".toList.all fun c => (Text.hexValue? c).isSome) = true := by decide
  have hissues : ∀ issue ∈ ["#7", "#07"],
      ∃ digits, issue.toList = '#' :: digits ∧ ∀ d ∈ digits, d.isDigit = true := by
    intro issue hissue
    rcases List.mem_pair.mp hissue with rfl | rfl
    · exact ⟨"7".toList, by decide, List.all_eq_true.mp (by decide)⟩
    · exact ⟨"07".toList, by decide, List.all_eq_true.mp (by decide)⟩
  have htitle : '\n' ∉ "Features".toList := by decide
  intro s hs
  rcases List.mem_pair.mp hs with rfl | rfl
  · refine ⟨htitle, fun change hchange => ?_⟩
    obtain rfl := List.mem_singleton.mp hchange
    exact ⟨List.all_eq_true.mp hhash, hissues, hscope, hmessage⟩
  · exact ⟨by decide, fun change hmem => absurd hmem List.not_mem_nil⟩

/-- A scope can be written into the message.  Then two documents differ and have one text, and all
else about them can be told. -/
theorem document_decodes_disguised :
    disguised (some "ui") "b [c, #1]" ≠ disguised none "**ui**: b [c, #1]" ∧
      document (disguised (some "ui") "b [c, #1]") =
        document (disguised none "**ui**: b [c, #1]") ∧
      List.Forall₂ Alike (disguised (some "ui") "b [c, #1]")
        (disguised none "**ui**: b [c, #1]") := by
  have htext : document (disguised (some "ui") "b [c, #1]") =
      document (disguised none "**ui**: b [c, #1]") := by
    decide +kernel
  refine ⟨by decide, htext, ?_⟩
  exact document_decodes (regular_disguised (by decide) (by decide))
    (regular_disguised (by decide) (by decide)) htext

end Section

end Changelog
