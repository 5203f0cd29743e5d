import Changelog.Heading.Table
import Changelog.Proofs.Settings.Valid
import Mathlib

/-!
# Tables as runs of writes

Every table is the built-in one with labels and aliases written over it.  What it says about a code
depends only on the last label and the last alias that were written for each code, so labels and
aliases may be written in any order relative to each other, and settings may be merged in any order.

An alias is followed once.  A code whose alias stands for another alias has no label through it, and
neither has a code on a cycle of aliases.  Writes replace labels and never remove any, so a code with
a built-in label has one in every table.
-/

namespace Changelog

/-! ## Maps as runs of entries -/

/-- The text that was written last for a code. -/
def lastText? (entries : List (String × String)) (code : String) : Option String :=
  (entries.reverse.find? (·.1 = code)).map Prod.snd

/-- Write an entry over a map. -/
def writeEntry (map : CodeMap) (entry : String × String) : CodeMap :=
  map.insert entry.1 entry.2

theorem lastText?_cons (entry : String × String) (entries : List (String × String))
    (code : String) :
    lastText? (entry :: entries) code =
      (lastText? entries code).or (if entry.1 = code then some entry.2 else none) := by
  rw [lastText?, List.reverse_cons, List.find?_append, Option.map_or, lastText?]
  by_cases hkey : entry.1 = code <;> simp [hkey]

theorem getElem?_writeEntry (map : CodeMap) (entry : String × String) (code : String) :
    (writeEntry map entry)[code]? = (if entry.1 = code then some entry.2 else none).or map[code]? := by
  rw [writeEntry, Std.ExtTreeMap.getElem?_insert]
  by_cases hkey : entry.1 = code <;> simp [hkey]

/-- After a run of entries a code has the text that was written last for it, or else what it had
before. -/
theorem getElem?_foldl_writeEntry
    (entries : List (String × String)) (map : CodeMap) (code : String) :
    (entries.foldl writeEntry map)[code]? = (lastText? entries code).or map[code]? := by
  induction entries generalizing map with
  | nil => rfl
  | cons entry entries ih =>
      rw [List.foldl_cons, ih, getElem?_writeEntry, lastText?_cons, Option.or_assoc]

theorem lastText?_eq_none {entries : List (String × String)} {code : String}
    (h : code ∉ entries.map Prod.fst) : lastText? entries code = none := by
  rw [lastText?, Option.map_eq_none_iff, List.find?_eq_none]
  intro entry hentry
  have hother : entry.1 ≠ code := by
    rintro rfl
    exact h (List.mem_map_of_mem (List.mem_reverse.mp hentry))
  simpa using hother

/-- If no code is written twice, every entry is the last one of its code. -/
theorem lastText?_eq_some_iff
    {entries : List (String × String)} (hkeys : (entries.map Prod.fst).Nodup)
    {code text : String} : lastText? entries code = some text ↔ (code, text) ∈ entries := by
  induction entries with
  | nil => simp [lastText?]
  | cons entry entries ih =>
      obtain ⟨hnew, hrest⟩ := List.nodup_cons.mp hkeys
      rw [lastText?_cons, Option.or_eq_some_iff, ih hrest, List.mem_cons]
      by_cases hkey : entry.1 = code
      · subst hkey
        have hfirst : ∀ text, (entry.1, text) ∉ entries :=
          fun text hmem => hnew (List.mem_map.mpr ⟨_, hmem, rfl⟩)
        simp [lastText?_eq_none hnew, hfirst, Prod.ext_iff, eq_comm]
      · simp [hkey, Prod.ext_iff, Ne.symm hkey]

theorem lastText?_perm
    {entries entries' : List (String × String)} (h : entries.Perm entries')
    (hkeys : (entries.map Prod.fst).Nodup) (code : String) :
    lastText? entries code = lastText? entries' code := by
  apply Option.ext
  intro text
  rw [lastText?_eq_some_iff hkeys, h.mem_iff,
    lastText?_eq_some_iff ((h.map Prod.fst).nodup_iff.mp hkeys)]

theorem CodeMap.nodup_keys (map : CodeMap) : (map.toList.map Prod.fst).Nodup := by
  rw [List.Nodup, List.pairwise_map]
  exact Std.ExtTreeMap.distinct_keys_toList.imp fun h => by simpa using h

namespace HeadingTable

/-! ## Tables as runs of writes -/

/-- What a table is made of, piece by piece. -/
inductive Write
  /-- A label for a code. -/
  | label (code text : String)
  /-- A code for another code to stand for. -/
  | target (code named : String)
  deriving DecidableEq

/-- The label that a write gives to a code. -/
def Write.labelEntry? : Write → Option (String × String)
  | label code text => some (code, text)
  | target _ _ => none

/-- The target that a write gives to a code. -/
def Write.targetEntry? : Write → Option (String × String)
  | label _ _ => none
  | target code named => some (code, named)

/-- Carry out a write. -/
def write (table : HeadingTable) : Write → HeadingTable
  | .label code text => table.withLabel code text
  | .target code named => table.withAlias code named

/-- The built-in table after a run of writes. -/
def after (writes : List Write) : HeadingTable := writes.foldl write builtin

/-- The label that was written last for a code, or else its built-in label. -/
def lastLabel? (writes : List Write) (code : String) : Option String :=
  (lastText? (writes.filterMap Write.labelEntry?) code).or builtin.labels[code]?

/-- The target that was written last for a code, or else its built-in target. -/
def lastTarget? (writes : List Write) (code : String) : Option String :=
  (lastText? (writes.filterMap Write.targetEntry?) code).or builtin.aliases[code]?

/-- A run of writes labels a code: with its own label, or if there is none with the own label of the
code that it stands for. -/
inductive Labels (writes : List Write) (code label : String) : Prop
  | own : lastLabel? writes code = some label → Labels writes code label
  | through (target : String) : lastLabel? writes code = none →
      lastTarget? writes code = some target → lastLabel? writes target = some label →
      Labels writes code label

/-- Each write changes one of the two maps and leaves the other one. -/
theorem foldl_write (writes : List Write) (table : HeadingTable) :
    writes.foldl write table =
      { labels := (writes.filterMap Write.labelEntry?).foldl writeEntry table.labels
        aliases := (writes.filterMap Write.targetEntry?).foldl writeEntry table.aliases } := by
  induction writes generalizing table with
  | nil => rfl
  | cons first writes ih =>
      rw [List.foldl_cons, ih]
      cases first <;> rfl

theorem labels_after (writes : List Write) (code : String) :
    (after writes).labels[code]? = lastLabel? writes code := by
  rw [after, foldl_write, getElem?_foldl_writeEntry, lastLabel?]

theorem aliases_after (writes : List Write) (code : String) :
    (after writes).aliases[code]? = lastTarget? writes code := by
  rw [after, foldl_write, getElem?_foldl_writeEntry, lastTarget?]

theorem eq_of_getElem?_eq
    {table table' : HeadingTable} (hlabels : ∀ code : String, table.labels[code]? = table'.labels[code]?)
    (haliases : ∀ code : String, table.aliases[code]? = table'.aliases[code]?) : table = table' := by
  cases table
  cases table'
  congr
  · exact Std.ExtTreeMap.ext_getElem? hlabels
  · exact Std.ExtTreeMap.ext_getElem? haliases

/-- Two runs of writes make one table exactly if they agree in what was written last. -/
theorem after_eq_after_iff {writes writes' : List Write} :
    after writes = after writes' ↔
      ∀ code, lastLabel? writes code = lastLabel? writes' code ∧
        lastTarget? writes code = lastTarget? writes' code := by
  simp only [← labels_after, ← aliases_after]
  constructor
  · intro h code
    rw [h]
    exact ⟨rfl, rfl⟩
  · exact fun h => eq_of_getElem?_eq (fun code => (h code).1) fun code => (h code).2

theorem label?_after_eq_some_iff {writes : List Write} {code label : String} :
    (after writes).label? code = some label ↔ Labels writes code label := by
  have hlabel : (after writes).label? code =
      (lastLabel? writes code).or ((lastTarget? writes code).bind (lastLabel? writes)) := by
    rw [label?, labels_after, aliases_after]
    cases lastLabel? writes code with
    | some own => rfl
    | none =>
        cases lastTarget? writes code with
        | none => rfl
        | some target => exact labels_after writes target
  rw [hlabel, Option.or_eq_some_iff, Option.bind_eq_some_iff]
  constructor
  · rintro (hown | ⟨hnone, target, htarget, htext⟩)
    · exact .own hown
    · exact .through target hnone htarget htext
  · rintro (hown | ⟨target, hnone, htarget, htext⟩)
    · exact Or.inl hown
    · exact Or.inr ⟨hnone, target, htarget, htext⟩

theorem resolve_eq_iff {table : HeadingTable} {code : String} {heading : Heading} :
    table.resolve code = heading ↔
      (∃ label, table.label? code = some label ∧ heading = .labelled label) ∨
        (table.label? code = none ∧ heading = .unformatted code) := by
  unfold resolve
  cases table.label? code <;> simp [eq_comm]

/-! ## Settings as runs of writes -/

/-- The writes that settings stand for. -/
def settingsWrites (settings : Settings) : List Write :=
  settings.labels.toList.map (fun entry => .label entry.1 entry.2) ++
    settings.aliases.toList.map fun entry => .target entry.1 entry.2

theorem labelEntries_settingsWrites (settings : Settings) :
    (settingsWrites settings).filterMap Write.labelEntry? = settings.labels.toList := by
  simp [settingsWrites, List.filterMap_map, Function.comp_def, Write.labelEntry?]

theorem targetEntries_settingsWrites (settings : Settings) :
    (settingsWrites settings).filterMap Write.targetEntry? = settings.aliases.toList := by
  simp [settingsWrites, List.filterMap_map, Function.comp_def, Write.targetEntry?]

/-- A table of valid settings is the built-in one with their entries written over it. -/
theorem ofSettings_eq_ok_iff {settings : Settings} {table : HeadingTable} :
    ofSettings settings = .ok table ↔
      settings.fault? = none ∧ table = after (settingsWrites settings) := by
  have hafter : after (settingsWrites settings) =
      settings.aliases.toList.foldl (fun table entry => table.withAlias entry.1 entry.2)
        (settings.labels.toList.foldl (fun table entry => table.withLabel entry.1 entry.2)
          builtin) := by
    rw [after, settingsWrites, List.foldl_append, List.foldl_map, List.foldl_map]
    rfl
  rw [hafter]
  constructor
  · intro h
    obtain ⟨valid, hvalid, h⟩ := Steps.bind_eq_ok_iff.mp h
    obtain ⟨hfault, rfl⟩ := Settings.validate_eq_ok_iff.mp hvalid
    exact ⟨hfault, (Except.ok.inj h).symm⟩
  · rintro ⟨hfault, rfl⟩
    exact Steps.bind_eq_ok_iff.mpr ⟨settings, Settings.validate_eq_ok_iff.mpr ⟨hfault, rfl⟩, rfl⟩

/-- The entries of settings may be written in any order. -/
theorem after_eq_of_perm_settingsWrites
    {settings : Settings} {writes : List Write} (h : writes.Perm (settingsWrites settings)) :
    after writes = after (settingsWrites settings) := by
  rw [after_eq_after_iff]
  intro code
  have hlabels := h.filterMap Write.labelEntry?
  have haliases := h.filterMap Write.targetEntry?
  rw [labelEntries_settingsWrites] at hlabels
  rw [targetEntries_settingsWrites] at haliases
  rw [lastLabel?, lastLabel?, lastTarget?, lastTarget?, labelEntries_settingsWrites,
    targetEntries_settingsWrites,
    lastText?_perm hlabels.symm settings.labels.nodup_keys code,
    lastText?_perm haliases.symm settings.aliases.nodup_keys code]
  exact ⟨rfl, rfl⟩

/-- A label in a table of settings is one of the settings or a built-in one. -/
theorem label_of_ofSettings
    {settings : Settings} {table : HeadingTable} (h : ofSettings settings = .ok table)
    {code label : String} (hlabel : table.labels[code]? = some label) :
    settings.labels[code]? = some label ∨ builtin.labels[code]? = some label := by
  rw [(ofSettings_eq_ok_iff.mp h).2, labels_after, lastLabel?, labelEntries_settingsWrites,
    Option.or_eq_some_iff, lastText?_eq_some_iff settings.labels.nodup_keys,
    Std.ExtTreeMap.mem_toList_iff_getElem?_eq_some] at hlabel
  exact hlabel.imp_right And.right

/-! ## What a table says -/

/-- A code with a built-in label has a label after any writes. -/
theorem exists_lastLabel?_of_builtin
    {code : String} (h : code ∈ builtinLabels.map Prod.fst) (writes : List Write) :
    ∃ label, lastLabel? writes code = some label := by
  have hmem : code ∈ builtin.labels := by
    rw [builtin, Std.ExtTreeMap.mem_ofList]
    simpa using h
  rw [← Option.isSome_iff_exists, lastLabel?, Option.isSome_or, Bool.or_eq_true]
  exact Or.inr (Std.ExtTreeMap.isSome_getElem?_iff_mem.mpr hmem)

theorem resolve_after_eq_labelled_iff {writes : List Write} {code label : String} :
    (after writes).resolve code = .labelled label ↔ Labels writes code label := by
  rw [resolve_eq_iff, ← label?_after_eq_some_iff]
  constructor
  · rintro (⟨text, htext, hheading⟩ | ⟨-, hheading⟩)
    · rw [htext, Heading.labelled.inj hheading]
    · cases hheading
  · exact fun h => Or.inl ⟨label, h, rfl⟩

theorem resolve_after_eq_unformatted_iff {writes : List Write} {code kept : String} :
    (after writes).resolve code = .unformatted kept ↔
      kept = code ∧ ∀ label, ¬Labels writes code label := by
  have hnone : (after writes).label? code = none ↔ ∀ label, ¬Labels writes code label := by
    rw [Option.eq_none_iff_forall_ne_some]
    exact forall_congr' fun label => not_congr label?_after_eq_some_iff
  rw [resolve_eq_iff, ← hnone]
  constructor
  · rintro (⟨text, -, hheading⟩ | ⟨h, hheading⟩)
    · cases hheading
    · exact ⟨Heading.unformatted.inj hheading, h⟩
  · rintro ⟨rfl, h⟩
    exact Or.inr ⟨h, rfl⟩

/-- A table says what was written last.  A code has its own last label, or else that of the code which
its last alias names, and no other one; its heading is this label, or the bare code.  Runs that agree
in what was written last make one table, the entries of settings may be merged in any order, and codes
with a built-in label have one after any run. -/
theorem table_after_writes (writes : List Write) :
    (∀ code label, (after writes).label? code = some label ↔ Labels writes code label) ∧
      (∀ code label, (after writes).resolve code = .labelled label ↔ Labels writes code label) ∧
      (∀ code kept, (after writes).resolve code = .unformatted kept ↔
        kept = code ∧ ∀ label, ¬Labels writes code label) ∧
      (∀ writes', after writes = after writes' ↔
        ∀ code, lastLabel? writes code = lastLabel? writes' code ∧
          lastTarget? writes code = lastTarget? writes' code) ∧
      (∀ settings table, ofSettings settings = .ok table →
        writes.Perm (settingsWrites settings) → after writes = table) ∧
      ∀ code ∈ builtinLabels.map Prod.fst, ∃ label, (after writes).resolve code = .labelled label := by
  refine ⟨fun _ _ => label?_after_eq_some_iff, fun _ _ => resolve_after_eq_labelled_iff,
    fun _ _ => resolve_after_eq_unformatted_iff, fun _ => after_eq_after_iff, ?_, ?_⟩
  · intro settings table htable hperm
    rw [(ofSettings_eq_ok_iff.mp htable).2]
    exact after_eq_of_perm_settingsWrites hperm
  · intro code hcode
    obtain ⟨label, hlabel⟩ := exists_lastLabel?_of_builtin hcode writes
    exact ⟨label, resolve_after_eq_labelled_iff.mpr (.own hlabel)⟩

/-- Two codes that stand for each other, one of them with a label, and a code that stands for the
other one. -/
def cyclicSettings : Settings where
  labels := .ofList [("b", "Betas")]
  aliases := .ofList [("a", "b"), ("b", "a"), ("c", "a")]

/-- The entries of these settings in another order. -/
def cyclicWrites : List Write :=
  [.target "c" "a", .target "a" "b", .label "b" "Betas", .target "b" "a"]

/-- The label is found through one alias and not through two. -/
theorem table_after_cyclicWrites :
    ∃ table, ofSettings cyclicSettings = .ok table ∧ after cyclicWrites = table ∧
      table.resolve "a" = .labelled "Betas" ∧ table.resolve "c" = .unformatted "c" := by
  obtain ⟨-, hlabelled, hunformatted, -, hsettings, -⟩ := table_after_writes cyclicWrites
  have htable : ofSettings cyclicSettings = .ok (after (settingsWrites cyclicSettings)) :=
    ofSettings_eq_ok_iff.mpr ⟨by decide +kernel, rfl⟩
  have hafter := hsettings _ _ htable (by decide +kernel)
  refine ⟨_, htable, hafter, ?_, ?_⟩
  · rw [← hafter, hlabelled]
    exact .through "b" (by decide +kernel) (by decide +kernel) (by decide +kernel)
  · rw [← hafter, hunformatted]
    refine ⟨rfl, fun label hlabel => ?_⟩
    have hown : lastLabel? cyclicWrites "c" = none := by decide +kernel
    have hnamed : lastTarget? cyclicWrites "c" = some "a" := by decide +kernel
    have hthrough : lastLabel? cyclicWrites "a" = none := by decide +kernel
    rcases hlabel with h | ⟨target, -, htarget, h⟩
    · rw [hown] at h
      cases h
    · rw [hnamed] at htarget
      obtain rfl := Option.some.inj htarget
      rw [hthrough] at h
      cases h

end HeadingTable

end Changelog
