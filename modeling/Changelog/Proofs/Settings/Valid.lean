import Changelog.FileTree.Settings
import Changelog.Heading.Table
import Changelog.Proofs.Steps

/-!
# Settings that were found are valid

A file gives settings only if they have no fault, and without a file there are none to have one.  A
table of headings can be made of settings exactly if they have no fault.  So a table can be made of
whatever settings are found for a directory, and the check that goes with making it never fails.
-/

namespace Changelog

namespace Settings

variable {settings : Settings}

theorem fault?_empty : ({} : Settings).fault? = none := rfl

theorem fault?_of_ofText {text : String} (h : ofText text = .ok settings) :
    settings.fault? = none := by
  unfold ofText at h
  split at h
  · cases h
  · obtain ⟨hfault, rfl⟩ := validate_eq_ok_iff.mp (Steps.mapError_eq_ok_iff.mp h)
    exact hfault

theorem fault?_of_ofOctets {octets : List UInt8} (h : ofOctets octets = .ok settings) :
    settings.fault? = none := by
  unfold ofOctets at h
  split at h
  · cases h
  · exact fault?_of_ofText h

end Settings

/-- A table can be made of settings exactly if they have no fault. -/
theorem HeadingTable.exists_ofSettings_iff {settings : Settings} :
    (∃ table, HeadingTable.ofSettings settings = .ok table) ↔ settings.fault? = none := by
  constructor
  · rintro ⟨table, h⟩
    obtain ⟨valid, hvalid, -⟩ := Steps.bind_eq_ok_iff.mp h
    exact (Settings.validate_eq_ok_iff.mp hvalid).1
  · intro hfault
    have hvalid := Settings.validate_eq_ok_iff.mpr ⟨hfault, rfl⟩
    exact ⟨_, Steps.bind_eq_ok_iff.mpr ⟨settings, hvalid, rfl⟩⟩

namespace FileTree

variable {tree : FileTree}

theorem fault?_of_settingsAt
    {parts : List String} {path : String} {settings : Settings}
    (h : tree.settingsAt parts path = .ok settings) : settings.fault? = none := by
  unfold settingsAt at h
  split at h
  · exact Settings.fault?_of_ofOctets h
  · cases h
  · cases h

theorem fault?_of_findSettings
    {here : List String} {settings? : Option Settings}
    (h : tree.findSettings here = .ok settings?) : (settings?.getD {}).fault? = none := by
  unfold findSettings at h
  split at h
  · obtain rfl := Except.ok.inj h
    exact Settings.fault?_empty
  · obtain ⟨settings, hsettings, rfl⟩ := Steps.map_eq_ok_iff.mp h
    exact fault?_of_settingsAt hsettings

/-- A table can be made of the settings that are found for a directory, or of the default ones. -/
theorem exists_table_of_findSettings
    {here : List String} {settings? : Option Settings}
    (h : tree.findSettings here = .ok settings?) :
    ∃ table, HeadingTable.ofSettings (settings?.getD {}) = .ok table :=
  HeadingTable.exists_ofSettings_iff.mpr (fault?_of_findSettings h)

end FileTree

end Changelog
