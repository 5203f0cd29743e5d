import Changelog.FileTree.Settings
import Changelog.Proofs.FileTree.Path
import Changelog.Proofs.Steps
import Mathlib

/-!
# The nearest settings

The search for settings visits the directories above a path, from the path itself upwards, and asks
each for a settings file.  The first entry that it finds decides the answer, be it a file that cannot
be used or no file at all.

What one step does is said once: an entry is loaded, and otherwise the search is that of the path
above.  Everything about whole searches follows by induction on the number of steps.
-/

namespace Changelog

/-- The path of the settings file of a directory. -/
def settingsPath (directory : String) : String := joinPath directory Settings.fileName

namespace Location

theorem upward_concat (location : Location) (name : String) :
    upward (location ++ [name]) = (location ++ [name]) :: upward location := by
  have hlength : (location ++ [name]).length = location.length + 1 := by simp
  have hrest : (List.range (location.length + 1)).reverse.map (location ++ [name]).take =
      (List.range (location.length + 1)).reverse.map location.take := by
    apply List.map_congr_left
    intro i hi
    rw [List.mem_reverse, List.mem_range, Nat.lt_succ_iff] at hi
    exact List.take_append_of_le_length hi
  rw [upward, hlength, List.range_succ, List.reverse_append, List.map_append, hrest,
    List.reverse_singleton, List.map_singleton, List.take_of_length_le hlength.le]
  rfl

theorem exists_upward_eq_cons (location : Location) :
    ∃ others, upward location = location :: others := by
  obtain rfl | ⟨front, name, rfl⟩ := location.eq_nil_or_concat'
  · exact ⟨[], rfl⟩
  · exact ⟨_, upward_concat front name⟩

end Location

namespace Settings

theorem ofOctets_ne_notFound (octets : List UInt8) (path : String) :
    ofOctets octets ≠ .error (.notFound path) := by
  unfold ofOctets
  split
  · nofun
  · unfold ofText
    split
    · nofun
    · intro h
      obtain ⟨fault, -, hfault⟩ := Steps.mapError_eq_error_iff.mp h
      cases hfault

end Settings

namespace FileTree

/-- What a path leads to. -/
def entryAt? (tree : FileTree) (path : String) : Option FileTree :=
  (tree.locate? [] (pathParts path)).bind tree.get?

variable {tree : FileTree}

/-! ## One step -/

theorem isSome_bind_get?_of_locate? (parts : List String) :
    ((tree.locate? [] parts).bind tree.get?).isSome = (tree.locate? [] parts).isSome := by
  rw [locate?]
  cases hfound : tree.locate [] parts with
  | error cause => rfl
  | ok found => exact isSome_get?_of_locate rfl hfound

theorem slash_not_mem_fileName : '/' ∉ Settings.fileName.toList := by decide

theorem entryAt?_settingsPath (directory : String) :
    tree.entryAt? (settingsPath directory) =
      (tree.locate? [] (pathNames directory ++ [Settings.fileName])).bind tree.get? := by
  obtain ⟨parts, hparts, hnames⟩ := pathParts_joinPath directory slash_not_mem_fileName
  rw [entryAt?, settingsPath, hparts, locate?, locate_concat, hnames, locate?]

theorem hasSettings_pathNames (directory : String) :
    tree.hasSettings (pathNames directory) = (tree.entryAt? (settingsPath directory)).isSome := by
  rw [hasSettings, entryAt?_settingsPath, isSome_bind_get?_of_locate?]

/-- An entry for a settings file is loaded, whatever it is. -/
theorem findSettings_of_entry {path : String} (h : (tree.entryAt? (settingsPath path)).isSome) :
    tree.findSettings (pathParts path) = (tree.loadSettings (settingsPath path)).map some := by
  obtain ⟨others, hupward⟩ := Location.exists_upward_eq_cons (pathNames path)
  have hhere : tree.hasSettings (pathNames path) := by rw [hasSettings_pathNames, h]
  obtain ⟨found, hfound⟩ := Option.isSome_iff_exists.mp h
  rw [findSettings, ← pathNames, hupward, List.find?_cons_of_pos hhere]
  change (tree.settingsAt _ _).map some = (tree.settingsAt _ _).map some
  rw [settingsAt, settingsAt, ← entryAt?_settingsPath, ← entryAt?, hfound]
  cases found <;> rfl

/-- Without an entry the search goes on above. -/
theorem findSettings_of_no_entry {path : String} (h : tree.entryAt? (settingsPath path) = none) :
    tree.findSettings (pathParts path) =
      match parentPath? path with
      | some above => tree.findSettings (pathParts above)
      | none => .ok none := by
  have hnot : ¬tree.hasSettings (pathNames path) := by simp [hasSettings_pathNames, h]
  obtain ⟨hnames, hparent⟩ | ⟨above, name, hparent, hnames⟩ := parentPath?_cases path
  · have hlast {path' : String} (hnames' : pathNames path' = []) :
        tree.findSettings (pathParts path') = .ok none := by
      rw [hnames] at hnot
      rw [findSettings, ← pathNames, hnames']
      simp [Location.upward, hnot]
    obtain hparent | hparent := hparent
    · rw [hparent, hlast hnames]
    · rw [hparent, hlast hnames]
      exact (hlast rfl).symm
  · rw [hparent, findSettings, ← pathNames, hnames, Location.upward_concat, ← hnames,
      List.find?_cons_of_neg hnot]
    rfl

/-! ## Whole searches -/

/-- A directory is the first of those above a path that has a settings file. -/
structure IsNearest (tree : FileTree) (start : String) (k : ℕ) (directory : String) : Prop where
  ancestor : ancestor? start k = some directory
  entry : (tree.entryAt? (settingsPath directory)).isSome
  nearer : ∀ j < k, ∀ below, ancestor? start j = some below →
    tree.entryAt? (settingsPath below) = none

/-- The search ends at the nearest directory, which is one step closer from the path above. -/
theorem IsNearest.findSettings_eq
    {start directory : String} {k : ℕ} (h : tree.IsNearest start k directory) :
    tree.findSettings (pathParts start) =
      (tree.loadSettings (settingsPath directory)).map some := by
  induction k generalizing start with
  | zero =>
      obtain rfl := Option.some.inj h.ancestor
      exact findSettings_of_entry h.entry
  | succ k ih =>
      obtain ⟨above, habove, hancestor⟩ :=
        Option.bind_eq_some_iff.mp ((ancestor?_succ' start k).symm.trans h.ancestor)
      have hstart := h.nearer 0 (Nat.succ_pos k) start rfl
      rw [findSettings_of_no_entry hstart, habove]
      refine ih ⟨hancestor, h.entry, fun j hj below hbelow => ?_⟩
      apply h.nearer (j + 1) (Nat.succ_lt_succ hj)
      rw [ancestor?_succ', habove]
      exact hbelow

/-- The search finds nothing if no directory on the way has a settings file. -/
theorem findSettings_of_no_entries {start : String}
    (h : ∀ k directory, ancestor? start k = some directory →
      tree.entryAt? (settingsPath directory) = none) :
    tree.findSettings (pathParts start) = .ok none := by
  obtain ⟨n, hn⟩ := exists_ancestor?_eq_none start
  induction n generalizing start with
  | zero => cases hn
  | succ n ih =>
      rw [ancestor?_succ'] at hn
      rw [findSettings_of_no_entry (h 0 start rfl)]
      cases habove : parentPath? start with
      | none => rfl
      | some above =>
          rw [habove] at hn
          refine ih (fun k directory hdirectory => ?_) hn
          apply h (k + 1)
          rw [ancestor?_succ', habove]
          exact hdirectory

/-- Either a directory on the way is the first with a settings file, or none has one. -/
theorem exists_isNearest_or_no_entries (tree : FileTree) (start : String) :
    (∃ k directory, tree.IsNearest start k directory) ∨
      ∀ k directory, ancestor? start k = some directory →
        tree.entryAt? (settingsPath directory) = none := by
  classical
  by_cases hhit : ∃ k directory, ancestor? start k = some directory ∧
      (tree.entryAt? (settingsPath directory)).isSome
  · left
    obtain ⟨directory, hancestor, hentry⟩ := Nat.find_spec hhit
    refine ⟨Nat.find hhit, directory, hancestor, hentry, fun j hj below hbelow => ?_⟩
    have hmiss := Nat.find_min hhit hj
    rw [← Option.not_isSome_iff_eq_none]
    exact fun hsome => hmiss ⟨below, hbelow, hsome⟩
  · right
    intro k directory hancestor
    rw [← Option.not_isSome_iff_eq_none]
    exact fun hsome => hhit ⟨k, directory, hancestor, hsome⟩

/-- Loading what is there does not fail for want of a file. -/
theorem loadSettings_ne_notFound {path : String} (h : (tree.entryAt? path).isSome)
    (path' : String) : tree.loadSettings path ≠ .error (.notFound path') := by
  obtain ⟨found, hfound⟩ := Option.isSome_iff_exists.mp h
  rw [loadSettings, settingsAt, ← entryAt?, hfound]
  cases found with
  | file content => exact Settings.ofOctets_ne_notFound _ _
  | directory _ => nofun

theorem loadSettings_congr {tree' : FileTree} {path : String}
    (h : tree'.entryAt? path = tree.entryAt? path) :
    tree'.loadSettings path = tree.loadSettings path := by
  rw [loadSettings, loadSettings, settingsAt, settingsAt, ← entryAt?, ← entryAt?, h]

theorem IsNearest.of_agree
    {tree' : FileTree} {start directory : String} {k : ℕ} (h : tree.IsNearest start k directory)
    (hagree : ∀ j ≤ k, ∀ below, ancestor? start j = some below →
      tree'.entryAt? (settingsPath below) = tree.entryAt? (settingsPath below)) :
    tree'.IsNearest start k directory where
  ancestor := h.ancestor
  entry := by
    rw [hagree k le_rfl directory h.ancestor]
    exact h.entry
  nearer := fun j hj below hbelow =>
    (hagree j hj.le below hbelow).trans (h.nearer j hj below hbelow)

/-- The settings for a directory are those of the settings file in the first directory that has one,
on the way from the path as it is written to the top.  If that file cannot be used, neither can
anything else: its error is the answer, and what there is farther up makes no difference.  There are
no settings exactly if there is no such file on the way, which ends, and no search ends with a file
that is not there. -/
theorem findSettings_nearest (tree : FileTree) (start : String) :
    (∃ n, ancestor? start n = none) ∧
    (tree.findSettings (pathParts start) = .ok none ↔
      ∀ k directory, ancestor? start k = some directory →
        tree.entryAt? (settingsPath directory) = none) ∧
    (∀ k directory, tree.IsNearest start k directory →
      tree.findSettings (pathParts start) =
          (tree.loadSettings (settingsPath directory)).map some ∧
        ∀ tree' : FileTree,
          (∀ j ≤ k, ∀ below, ancestor? start j = some below →
            tree'.entryAt? (settingsPath below) = tree.entryAt? (settingsPath below)) →
          tree'.findSettings (pathParts start) = tree.findSettings (pathParts start)) ∧
    ∀ path, tree.findSettings (pathParts start) ≠ .error (.notFound path) := by
  refine ⟨exists_ancestor?_eq_none start, ⟨fun hnone => ?_, findSettings_of_no_entries⟩, ?_, ?_⟩
  · obtain ⟨k, directory, hnearest⟩ | hnowhere := exists_isNearest_or_no_entries tree start
    · rw [hnearest.findSettings_eq] at hnone
      obtain ⟨settings, -, hsettings⟩ := Steps.map_eq_ok_iff.mp hnone
      cases hsettings
    · exact hnowhere
  · intro k directory hnearest
    refine ⟨hnearest.findSettings_eq, fun tree' hagree => ?_⟩
    rw [(hnearest.of_agree hagree).findSettings_eq, hnearest.findSettings_eq,
      loadSettings_congr (hagree k le_rfl directory hnearest.ancestor)]
  · intro path hfound
    obtain ⟨k, directory, hnearest⟩ | hnowhere := exists_isNearest_or_no_entries tree start
    · rw [hnearest.findSettings_eq] at hfound
      exact loadSettings_ne_notFound hnearest.entry path (Steps.map_eq_error_iff.mp hfound)
    · rw [findSettings_of_no_entries hnowhere] at hfound
      cases hfound

/-- A tree with a malformed settings file in a directory and another file above it. -/
def shadowed (farther : String) : FileTree :=
  .directory [("a", .directory [(Settings.fileName, .file ⟨⟨Text.toUtf8 ['[']⟩⟩)]),
    (Settings.fileName, .file ⟨⟨Text.toUtf8 farther.toList⟩⟩)]

/-- From a directory that does not exist, the malformed file is the fourth that is looked for. -/
theorem isNearest_shadowed (farther : String) :
    (shadowed farther).IsNearest "./a/gone/../b" 3 "./a" where
  ancestor := by decide +kernel
  entry := rfl
  nearer := by
    have hfirst : ancestor? "./a/gone/../b" 1 = some "./a/gone/.." := by decide +kernel
    have hsecond : ancestor? "./a/gone/../b" 2 = some "./a/gone" := by decide +kernel
    intro j hj below hbelow
    interval_cases j
    · obtain rfl := Option.some.inj hbelow
      rfl
    · obtain rfl := Option.some.inj (hfirst.symm.trans hbelow)
      rfl
    · obtain rfl := Option.some.inj (hsecond.symm.trans hbelow)
      rfl

/-- A good file farther up does not make up for a malformed one. -/
theorem findSettings_shadowed :
    (shadowed "[labels]\nrm = \"Removals\"\n").loadSettings "./grouplog.toml" =
        .ok { labels := .ofList [("rm", "Removals")] } ∧
      (shadowed "[labels]\nrm = \"Removals\"\n").findSettings (pathParts "./a/gone/../b") =
        .error .malformed ∧
      (shadowed "").findSettings (pathParts "./a/gone/../b") = .error .malformed := by
  have hnearest := isNearest_shadowed "[labels]\nrm = \"Removals\"\n"
  have hmalformed : (shadowed "[labels]\nrm = \"Removals\"\n").loadSettings (settingsPath "./a") =
      .error .malformed := by decide +kernel
  obtain ⟨hfound, hagree⟩ := (findSettings_nearest _ _).2.2.1 3 "./a" hnearest
  rw [hmalformed] at hfound
  refine ⟨by decide +kernel, hfound, (hagree _ fun j hj below hbelow => ?_).trans hfound⟩
  obtain rfl | hlt := hj.eq_or_lt
  · obtain rfl := Option.some.inj (hnearest.ancestor.symm.trans hbelow)
    rfl
  · exact ((isNearest_shadowed "").nearer j hlt below hbelow).trans
      (hnearest.nearer j hlt below hbelow).symm

end FileTree

end Changelog
