import Changelog.Proofs.FirstSeen
import Changelog.Proofs.Issue.References
import Changelog.Text.Run
import Mathlib

/-!
# References place by place

The search for references goes on after the digits of the last one it found.  Nothing is passed over
that way, since no reference begins within a run of digits: the references that are found are those at
all places of the text, from left to right.  The issues of a commit are what a list of these keeps if
each is kept where it occurs first, those of the body before those of the header.
-/

namespace Changelog.Issue

/-- A reference stands at a place of a text: a number sign with so many characters before it, some
digits, and no digit after these. -/
def StandsAt (reference text : List Char) (place : Nat) : Prop :=
  ∃ digits after, text.drop place = '#' :: (digits ++ after) ∧ reference = '#' :: digits ∧
    digits ≠ [] ∧ (∀ d ∈ digits, d.isDigit = true) ∧ ∀ c ∈ after.head?, c.isDigit = false

/-- A list gives the references of a text from left to right, one for each place where one stands. -/
def FromLeft (text : List Char) (found : List (List Char)) : Prop :=
  ∃ placed : List (Nat × List Char), placed.Pairwise (fun a b => a.1 < b.1) ∧
    (∀ place reference, (place, reference) ∈ placed ↔ StandsAt reference text place) ∧
    placed.map Prod.snd = found

/-- The reference with which a text begins, if it begins with one. -/
def beginning? : List Char → Option (List Char)
  | '#' :: rest => (Text.run? Char.isDigit rest).map fun run => '#' :: run.1
  | _ => none

theorem beginning?_mark (rest : List Char) :
    beginning? ('#' :: rest) = (Text.run? Char.isDigit rest).map fun run => '#' :: run.1 := rfl

theorem beginning?_cons_of_ne {c : Char} (h : c ≠ '#') (cs : List Char) :
    beginning? (c :: cs) = none := by
  unfold beginning?
  split
  next heq => exact absurd (List.cons.inj heq).1 h
  next => rfl

theorem beginning?_eq_some_iff {cs reference : List Char} :
    beginning? cs = some reference ↔
      ∃ digits after, cs = '#' :: (digits ++ after) ∧ reference = '#' :: digits ∧ digits ≠ [] ∧
        (∀ d ∈ digits, d.isDigit = true) ∧ ∀ c ∈ after.head?, c.isDigit = false := by
  constructor
  · intro h
    unfold beginning? at h
    split at h
    next rest =>
      obtain ⟨⟨digits, after⟩, hrun, rfl⟩ := Option.map_eq_some_iff.mp h
      obtain ⟨hne, rfl, hdigits, hafter⟩ := Text.run?_eq_some_iff.mp hrun
      exact ⟨digits, after, rfl, rfl, hne, hdigits, hafter⟩
    next => cases h
  · rintro ⟨digits, after, rfl, rfl, hne, hdigits, hafter⟩
    have hrun := Text.run?_eq_some_iff.mpr ⟨hne, rfl, hdigits, hafter⟩
    rw [beginning?_mark, hrun, Option.map_some]

theorem beginning?_drop_eq_some_iff {text reference : List Char} {place : Nat} :
    beginning? (text.drop place) = some reference ↔ StandsAt reference text place :=
  beginning?_eq_some_iff

theorem standsIn_iff_exists_standsAt {reference text : List Char} :
    StandsIn reference text ↔ ∃ place, StandsAt reference text place := by
  constructor
  · rintro ⟨before, digits, after, rfl, hrest⟩
    exact ⟨before.length, digits, after, List.drop_left, hrest⟩
  · rintro ⟨place, digits, after, hdrop, hrest⟩
    refine ⟨text.take place, digits, after, ?_, hrest⟩
    rw [← hdrop, List.take_append_drop]

theorem StandsAt.lt_length {reference text : List Char} {place : Nat}
    (h : StandsAt reference text place) : place < text.length := by
  obtain ⟨digits, after, hdrop, -⟩ := h
  by_contra hle
  rw [List.drop_of_length_le (not_lt.mp hle)] at hdrop
  cases hdrop

/-- The references at the places of a text, one place after the other. -/
def atPlaces (text : List Char) : List (List Char) :=
  (List.range text.length).filterMap fun place => beginning? (text.drop place)

@[simp] theorem atPlaces_nil : atPlaces [] = [] := rfl

theorem atPlaces_cons (c : Char) (cs : List Char) :
    atPlaces (c :: cs) = (beginning? (c :: cs)).toList ++ atPlaces cs := by
  rw [atPlaces, List.length_cons, List.range_succ_eq_map, List.filterMap_cons, List.filterMap_map]
  cases hfirst : beginning? (c :: cs) <;> simp [hfirst, atPlaces]

theorem atPlaces_cons_of_beginning?_eq_none
    {c : Char} {cs : List Char} (h : beginning? (c :: cs) = none) :
    atPlaces (c :: cs) = atPlaces cs := by
  rw [atPlaces_cons, h, Option.toList_none, List.nil_append]

/-- No reference begins within a run of digits. -/
theorem atPlaces_append_of_digits
    {digits : List Char} (h : ∀ d ∈ digits, d.isDigit = true) (cs : List Char) :
    atPlaces (digits ++ cs) = atPlaces cs := by
  induction digits with
  | nil => rfl
  | cons d digits ih =>
      have hd : d ≠ '#' := by
        rintro rfl
        exact absurd (h '#' List.mem_cons_self) (by decide)
      rw [List.cons_append, atPlaces_cons_of_beginning?_eq_none (beginning?_cons_of_ne hd _)]
      exact ih fun e he => h e (List.mem_cons_of_mem d he)

/-- The references that are found are those at all places of the text, as none begins at the places of
the digits, which the search leaves out. -/
theorem references_eq_atPlaces (text : List Char) : references text = atPlaces text := by
  induction text using references.induct with
  | case1 => rw [references_nil, atPlaces_nil]
  | case2 rest hnone ih =>
      have hfirst : beginning? ('#' :: rest) = none := by
        rw [beginning?_mark, Text.run?, hnone, Option.map_none]
      rw [references_mark_of_takeWhile_eq_nil hnone, ih,
        atPlaces_cons_of_beginning?_eq_none hfirst]
  | case3 rest hsome ih =>
      have hdigits : ∀ d ∈ rest.takeWhile Char.isDigit, d.isDigit = true :=
        List.all_eq_true.mp List.all_takeWhile
      have hfirst : beginning? ('#' :: rest) = some ('#' :: rest.takeWhile Char.isDigit) := by
        refine beginning?_eq_some_iff.mpr ⟨_, rest.dropWhile Char.isDigit, ?_, rfl, hsome, hdigits, ?_⟩
        · rw [List.takeWhile_append_dropWhile]
        · intro c hc
          have hhead := List.head?_dropWhile_not Char.isDigit rest
          rw [hc] at hhead
          simpa using hhead
      have hrest : atPlaces rest = atPlaces (rest.dropWhile Char.isDigit) := by
        conv_lhs => rw [← List.takeWhile_append_dropWhile (p := Char.isDigit) (l := rest)]
        exact atPlaces_append_of_digits hdigits _
      rw [references_mark_of_takeWhile_ne_nil hsome, ih, atPlaces_cons, hfirst, hrest]
      rfl
  | case4 c rest hc ih =>
      rw [references_cons_of_ne hc, ih,
        atPlaces_cons_of_beginning?_eq_none (beginning?_cons_of_ne hc rest)]

/-- The references at the places of a text, each with its place. -/
def withPlaces (text : List Char) : List (Nat × List Char) :=
  (List.range text.length).filterMap fun place =>
    (beginning? (text.drop place)).map fun reference => (place, reference)

theorem mem_withPlaces_iff {text reference : List Char} {place : Nat} :
    (place, reference) ∈ withPlaces text ↔ StandsAt reference text place := by
  rw [withPlaces, List.mem_filterMap]
  constructor
  · rintro ⟨_, -, hfound⟩
    obtain ⟨_, hbegin, heq⟩ := Option.map_eq_some_iff.mp hfound
    obtain ⟨rfl, rfl⟩ := Prod.mk.inj heq
    exact beginning?_drop_eq_some_iff.mp hbegin
  · intro h
    refine ⟨place, List.mem_range.mpr h.lt_length, ?_⟩
    rw [beginning?_drop_eq_some_iff.mpr h, Option.map_some]

theorem pairwise_withPlaces (text : List Char) :
    (withPlaces text).Pairwise fun a b => a.1 < b.1 := by
  refine List.pairwise_filterMap.mpr (List.pairwise_lt_range.imp fun {i j} hlt => ?_)
  intro a ha b hb
  obtain ⟨_, -, rfl⟩ := Option.map_eq_some_iff.mp ha
  obtain ⟨_, -, rfl⟩ := Option.map_eq_some_iff.mp hb
  exact hlt

theorem map_snd_withPlaces (text : List Char) :
    (withPlaces text).map Prod.snd = references text := by
  rw [references_eq_atPlaces, withPlaces, atPlaces, List.map_filterMap]
  simp only [Option.map_map, Function.comp_def, Option.map_id']

/-- The references that are read off a text are its references from left to right. -/
theorem fromLeft_iff {text : List Char} {found : List (List Char)} :
    FromLeft text found ↔ found = references text := by
  constructor
  · rintro ⟨placed, hascend, hmem, rfl⟩
    rw [← map_snd_withPlaces]
    congr 1
    exact eq_of_pairwise_of_mem_iff (fun _ _ => lt_asymm) hascend (pairwise_withPlaces text)
      fun a => (hmem a.1 a.2).trans mem_withPlaces_iff.symm
  · rintro rfl
    exact ⟨withPlaces text, pairwise_withPlaces text, fun _ _ => mem_withPlaces_iff,
      map_snd_withPlaces text⟩

/-- A reference stands at some place of the body or of the header of a commit. -/
def Mentions (header body : String) (reference : List Char) : Prop :=
  (∃ place, StandsAt reference body.toList place) ∨
    ∃ place, StandsAt reference header.toList place

theorem mem_ofTexts_iff_mentions {header body : String} {reference : List Char} :
    String.ofList reference ∈ ofTexts header body ↔ Mentions header body reference := by
  rw [mem_ofTexts_iff, standsIn_iff_exists_standsAt, standsIn_iff_exists_standsAt]
  exact or_comm

/-- The issues of a commit are the references of its body and then those of its header, from left to
right in each, where every text is kept only where it occurs first.  So no issue is there twice; an
issue is there exactly if it stands in the body or in the header, never across the two; and references
that differ by leading zeros are two issues. -/
theorem ofTexts_keeps_each_reference_once (header body : String) :
    (∀ issues, issues = ofTexts header body ↔
        ∃ inBody inHeader, FromLeft body.toList inBody ∧ FromLeft header.toList inHeader ∧
          FirstSeen ((inBody ++ inHeader).map String.ofList) issues) ∧
      (ofTexts header body).Nodup ∧
      (∀ issue, issue ∈ ofTexts header body ↔ Mentions header body issue.toList) ∧
      ∀ digits zeros, 0 < zeros → Mentions header body ('#' :: digits) →
        Mentions header body ('#' :: (List.replicate zeros '0' ++ digits)) →
          [String.ofList ('#' :: digits),
            String.ofList ('#' :: (List.replicate zeros '0' ++ digits))].Subperm
              (ofTexts header body) := by
  have hkept : FirstSeen ((references body.toList ++ references header.toList).map String.ofList)
      (ofTexts header body) := firstSeen_iff.mpr rfl
  refine ⟨fun issues => ?_, hkept.nodup, fun issue => ?_,
    fun digits zeros hzeros hshort hlong => ?_⟩
  · constructor
    · rintro rfl
      exact ⟨_, _, fromLeft_iff.mpr rfl, fromLeft_iff.mpr rfl, hkept⟩
    · rintro ⟨inBody, inHeader, hbody, hheader, hfirst⟩
      rw [fromLeft_iff.mp hbody, fromLeft_iff.mp hheader] at hfirst
      exact firstSeen_iff.mp hfirst
  · rw [← mem_ofTexts_iff_mentions, String.ofList_toList]
  · refine List.subperm_of_subset ?_ ?_
    · have hne : '#' :: digits ≠ '#' :: (List.replicate zeros '0' ++ digits) := by
        intro heq
        have hnone := List.self_eq_append_left.mp (List.cons.inj heq).2
        exact hzeros.ne' ((List.replicate_eq_nil_iff _).mp hnone)
      simpa using fun heq => hne (String.ofList_injective heq)
    · intro issue hissue
      simp only [List.mem_cons, List.not_mem_nil, or_false] at hissue
      rcases hissue with rfl | rfl
      · exact mem_ofTexts_iff_mentions.mpr hshort
      · exact mem_ofTexts_iff_mentions.mpr hlong

/-- A number sign at the end of the body and a digit at the start of the header make no reference. -/
theorem ofTexts_keeps_each_reference_once_padded :
    ofTexts "8: fix #07 and #7" "closes ##07x #" = ["#07", "#7"] ∧
      Mentions "8: fix #07 and #7" "closes ##07x #" "#7".toList ∧
      ["#7", "#07"].Subperm (ofTexts "8: fix #07 and #7" "closes ##07x #") := by
  obtain ⟨-, -, hmem, hzero⟩ :=
    ofTexts_keeps_each_reference_once "8: fix #07 and #7" "closes ##07x #"
  have hissues : ofTexts "8: fix #07 and #7" "closes ##07x #" = ["#07", "#7"] := by decide +kernel
  have hshort := (hmem "#7").mp (by rw [hissues]; decide)
  have hlong := (hmem "#07").mp (by rw [hissues]; decide)
  exact ⟨hissues, hshort, hzero ['7'] 1 Nat.one_pos hshort hlong⟩

end Changelog.Issue
