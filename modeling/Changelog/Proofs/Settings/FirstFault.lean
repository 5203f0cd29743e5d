import Changelog.Heading.Table
import Changelog.Proofs.Steps
import Mathlib

/-!
# Which fault is reported

Settings can have many faults, and a check reports one of them.  Which one does not depend on how the
settings were written down: it is a blank label if there is one, and otherwise a faulty alias, in
either case that of the least code.  Entries without a fault around it make no difference.
-/

namespace Changelog

/-- A text has a character that is not blank. -/
def Text.IsVisible (text : String) : Prop := ∃ c ∈ text.toList, Text.isBlank c = false

theorem Text.isVisible_iff {text : String} :
    Text.IsVisible text ↔ Text.isBlankText text = false := by
  simp [Text.IsVisible, Text.isBlankText]

/-- An entry of a map has a property that no entry of a lesser code has. -/
structure CodeMap.IsFirst
    (map : CodeMap) (p : String → String → Prop) (code text : String) : Prop where
  mem : map[code]? = some text
  holds : p code text
  least : ∀ other text : String, map[other]? = some text → p other text → code ≤ other

variable {β : Type} {map : CodeMap} {p : String → String → Prop} {code text : String}

/-- A search through a map ends without a result if no entry gives one. -/
theorem CodeMap.findSome?_toList_eq_none_iff {f : String → String → Option β} :
    (map.toList.findSome? fun entry => f entry.1 entry.2) = none ↔
      ∀ code text : String, map[code]? = some text → f code text = none := by
  rw [List.findSome?_eq_none_iff]
  constructor
  · intro h code text hmem
    exact h (code, text) (Std.ExtTreeMap.mem_toList_iff_getElem?_eq_some.mpr hmem)
  · intro h entry hentry
    exact h entry.1 entry.2 (Std.ExtTreeMap.mem_toList_iff_getElem?_eq_some.mp hentry)

/-- A search through a map ends at the least code whose entry gives a result. -/
theorem CodeMap.findSome?_toList_eq_some_iff
    {f : String → String → Option β} (hp : ∀ code text, (f code text).isSome ↔ p code text) {b : β} :
    (map.toList.findSome? fun entry => f entry.1 entry.2) = some b ↔
      ∃ code text, map.IsFirst p code text ∧ f code text = some b := by
  have hascend : map.toList.Pairwise fun a b => a.1 < b.1 :=
    Std.ExtTreeMap.ordered_keys_toList.imp fun h => compare_lt_iff_lt.mp h
  rw [List.findSome?_eq_some_iff]
  constructor
  · rintro ⟨before, ⟨code, text⟩, after, hsplit, hfound, hnone⟩
    rw [hsplit] at hascend
    have hafter := (List.pairwise_cons.mp (List.pairwise_append.mp hascend).2.1).1
    refine ⟨code, text, ⟨?_, (hp code text).mp (Option.isSome_of_mem hfound), ?_⟩, hfound⟩
    · rw [← Std.ExtTreeMap.mem_toList_iff_getElem?_eq_some, hsplit]
      exact List.mem_append_right _ List.mem_cons_self
    · intro other text hother hholds
      rw [← Std.ExtTreeMap.mem_toList_iff_getElem?_eq_some, hsplit] at hother
      rcases List.mem_append.mp hother with hbefore | hother
      · have hsome := (hp other text).mpr hholds
        rw [hnone _ hbefore] at hsome
        cases hsome
      · rcases List.mem_cons.mp hother with heq | hother
        · exact (Prod.mk.inj heq).1.ge
        · exact (hafter _ hother).le
  · rintro ⟨code, text, hfirst, hfound⟩
    obtain ⟨before, after, hsplit⟩ := List.append_of_mem
      (Std.ExtTreeMap.mem_toList_iff_getElem?_eq_some.mpr hfirst.mem)
    refine ⟨before, (code, text), after, hsplit, hfound, fun entry hentry => ?_⟩
    rw [hsplit] at hascend
    have hlt := (List.pairwise_append.mp hascend).2.2 entry hentry _ List.mem_cons_self
    have hmem : entry ∈ map.toList := hsplit ▸ List.mem_append_left _ hentry
    rw [← Option.not_isSome_iff_eq_none]
    intro hsome
    have hle := hfirst.least entry.1 entry.2
      (Std.ExtTreeMap.mem_toList_iff_getElem?_eq_some.mp hmem) ((hp entry.1 entry.2).mp hsome)
    exact absurd hlt (not_lt.mpr hle)

namespace Settings

variable {settings : Settings} {fault : Fault} {wording : String} {label target : String}

/-- Every label can be seen. -/
def LabelsVisible (settings : Settings) : Prop :=
  ∀ code label : String, settings.labels[code]? = some label → Text.IsVisible label

/-- An alias with this target is no use. -/
def IsFaultyAlias (code target : String) : Prop := ¬Text.IsVisible target ∨ target = code

/-- The fault that settings are refused for, and how it is worded: the blank label of the least code,
or else the faulty alias of the least code, which counts as blank before it counts as its own. -/
inductive FirstFault (settings : Settings) : Fault → String → Prop
  | blankLabel {code label : String} :
      settings.labels.IsFirst (fun _ label => ¬Text.IsVisible label) code label →
      FirstFault settings (.blankLabel code) ("label for `" ++ code ++ "` is empty")
  | blankTarget {code target : String} : settings.LabelsVisible →
      settings.aliases.IsFirst IsFaultyAlias code target → ¬Text.IsVisible target →
      FirstFault settings (.blankTarget code) ("alias target for `" ++ code ++ "` is empty")
  | selfAlias {code target : String} : settings.LabelsVisible →
      settings.aliases.IsFirst IsFaultyAlias code target → Text.IsVisible target →
      FirstFault settings (.selfAlias code) ("alias `" ++ code ++ "` points at itself")

theorem labelFault?_eq_some_iff :
    labelFault? code label = some fault ↔ ¬Text.IsVisible label ∧ .blankLabel code = fault := by
  rw [Text.isVisible_iff, labelFault?]
  split <;> simp_all

theorem isSome_labelFault?_iff : (labelFault? code label).isSome ↔ ¬Text.IsVisible label := by
  simp [Option.isSome_iff_exists, labelFault?_eq_some_iff]

theorem aliasFault?_eq_some_iff :
    aliasFault? code target = some fault ↔
      (¬Text.IsVisible target ∧ .blankTarget code = fault) ∨
        (Text.IsVisible target ∧ target = code ∧ .selfAlias code = fault) := by
  rw [Text.isVisible_iff, aliasFault?]
  split
  next hblank => simp [hblank]
  next hvisible => split <;> simp_all

theorem isSome_aliasFault?_iff : (aliasFault? code target).isSome ↔ IsFaultyAlias code target := by
  rw [Option.isSome_iff_exists, IsFaultyAlias]
  simp only [aliasFault?_eq_some_iff, exists_or, exists_and_left, exists_eq', and_true]
  tauto

theorem labelFault?_eq_none_iff : labelFault? code label = none ↔ Text.IsVisible label := by
  rw [← Option.not_isSome_iff_eq_none, isSome_labelFault?_iff, not_not]

theorem aliasFault?_eq_none_iff :
    aliasFault? code target = none ↔ Text.IsVisible target ∧ target ≠ code := by
  rw [← Option.not_isSome_iff_eq_none, isSome_aliasFault?_iff, IsFaultyAlias, not_or, not_not]

/-- Settings are valid if every label and every alias target can be seen and no alias names itself. -/
def IsValid (settings : Settings) : Prop :=
  settings.LabelsVisible ∧ ∀ code target : String, settings.aliases[code]? = some target →
    Text.IsVisible target ∧ target ≠ code

theorem findSome?_labelFault?_eq_none_iff :
    (settings.labels.toList.findSome? fun entry => labelFault? entry.1 entry.2) = none ↔
      settings.LabelsVisible := by
  rw [CodeMap.findSome?_toList_eq_none_iff]
  simp only [labelFault?_eq_none_iff, LabelsVisible]

theorem findSome?_labelFault?_eq_some_iff :
    (settings.labels.toList.findSome? fun entry => labelFault? entry.1 entry.2) = some fault ↔
      ∃ code label, settings.labels.IsFirst (fun _ label => ¬Text.IsVisible label) code label ∧
        labelFault? code label = some fault :=
  CodeMap.findSome?_toList_eq_some_iff (f := labelFault?) fun _ _ => isSome_labelFault?_iff

theorem findSome?_aliasFault?_eq_some_iff :
    (settings.aliases.toList.findSome? fun entry => aliasFault? entry.1 entry.2) = some fault ↔
      ∃ code target, settings.aliases.IsFirst IsFaultyAlias code target ∧
        aliasFault? code target = some fault :=
  CodeMap.findSome?_toList_eq_some_iff (f := aliasFault?) fun _ _ => isSome_aliasFault?_iff

theorem fault?_eq_none_iff : settings.fault? = none ↔ settings.IsValid := by
  refine (Option.orElse_eq_none _ _).trans (and_congr findSome?_labelFault?_eq_none_iff ?_)
  rw [CodeMap.findSome?_toList_eq_none_iff]
  simp only [aliasFault?_eq_none_iff]

theorem firstFault_of_fault?_eq_some (h : settings.fault? = some fault) :
    settings.FirstFault fault fault.message := by
  rcases (Option.orElse_eq_some _ _ _).mp h with hlabels | ⟨hnone, haliases⟩
  · obtain ⟨code, label, hfirst, hfound⟩ := findSome?_labelFault?_eq_some_iff.mp hlabels
    obtain ⟨-, rfl⟩ := labelFault?_eq_some_iff.mp hfound
    exact .blankLabel hfirst
  · obtain ⟨code, target, hfirst, hfound⟩ := findSome?_aliasFault?_eq_some_iff.mp haliases
    have hvisible := findSome?_labelFault?_eq_none_iff.mp hnone
    rcases aliasFault?_eq_some_iff.mp hfound with ⟨hblank, rfl⟩ | ⟨hseen, -, rfl⟩
    · exact .blankTarget hvisible hfirst hblank
    · exact .selfAlias hvisible hfirst hseen

theorem FirstFault.fault?_eq_some (h : settings.FirstFault fault wording) :
    settings.fault? = some fault := by
  refine (Option.orElse_eq_some _ _ _).mpr ?_
  cases h with
  | @blankLabel code label hfirst =>
      refine Or.inl (findSome?_labelFault?_eq_some_iff.mpr ⟨code, label, hfirst, ?_⟩)
      exact labelFault?_eq_some_iff.mpr ⟨hfirst.holds, rfl⟩
  | @blankTarget code target hvisible hfirst hblank =>
      refine Or.inr ⟨findSome?_labelFault?_eq_none_iff.mpr hvisible,
        findSome?_aliasFault?_eq_some_iff.mpr ⟨code, target, hfirst, ?_⟩⟩
      exact aliasFault?_eq_some_iff.mpr (Or.inl ⟨hblank, rfl⟩)
  | @selfAlias code target hvisible hfirst hseen =>
      refine Or.inr ⟨findSome?_labelFault?_eq_none_iff.mpr hvisible,
        findSome?_aliasFault?_eq_some_iff.mpr ⟨code, target, hfirst, ?_⟩⟩
      have hself := hfirst.holds.resolve_left (not_not.mpr hseen)
      exact aliasFault?_eq_some_iff.mpr (Or.inr ⟨hseen, hself, rfl⟩)

theorem FirstFault.message_eq (h : settings.FirstFault fault wording) : fault.message = wording := by
  cases h <;> rfl

theorem validate_eq_error_iff : settings.validate = .error fault ↔ settings.fault? = some fault := by
  unfold validate
  split <;> simp_all

/-- Settings are accepted exactly if they are valid.  If they are not, the check refuses them for their
first fault, and says which that is.  A table of headings is refused exactly if the settings are, with
the same fault. -/
theorem validate_reports_first_fault (settings : Settings) :
    (settings.validate = .ok settings ↔ settings.IsValid) ∧
      ((∃ fault, settings.validate = .error fault) ↔ ¬settings.IsValid) ∧
      (∀ fault wording, settings.validate = .error fault ∧ fault.message = wording ↔
        settings.FirstFault fault wording) ∧
      ∀ fault, HeadingTable.ofSettings settings = .error fault ↔
        settings.validate = .error fault := by
  refine ⟨?_, ?_, fun fault wording => ?_, fun fault => ?_⟩
  · rw [validate_eq_ok_iff, fault?_eq_none_iff, and_iff_left rfl]
  · simp only [validate_eq_error_iff]
    rw [← Option.isSome_iff_exists, ← fault?_eq_none_iff, ← Option.not_isSome_iff_eq_none, not_not]
  · rw [validate_eq_error_iff]
    constructor
    · rintro ⟨hfault, rfl⟩
      exact firstFault_of_fault?_eq_some hfault
    · exact fun h => ⟨h.fault?_eq_some, h.message_eq⟩
  · rw [HeadingTable.ofSettings, Steps.bind_eq_error_iff]
    constructor
    · rintro (herror | ⟨_, -, hok⟩)
      · exact herror
      · cases hok
    · exact Or.inl

/-- A blank alias that names itself is reported as blank, before one that only names itself. -/
example : ({ aliases := .ofList [("ci", "ci"), (" ", " "), ("wip", "chore")] } : Settings).validate =
    .error (.blankTarget " ") := by
  decide +kernel

end Settings

end Changelog
