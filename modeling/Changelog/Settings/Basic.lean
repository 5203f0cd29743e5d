import Std.Data.ExtTreeMap
import Changelog.Text.Blank

/-!
# Settings

The settings of a changelog: labels for type codes, and aliases from one code to another.  Both
are maps visited in code point order of their keys, so that a faulty setting is reported the same
way however the settings were written down.

Settings are checked as a whole.  A label or an alias target without a visible character would
give an empty heading, and a code that is its own alias would name nothing.
-/

namespace Changelog

/-- A map from type codes to texts, in code point order of the codes. -/
abbrev CodeMap := Std.ExtTreeMap String String compare

/-- Labels and aliases that are added to the built-in ones. -/
structure Settings where
  /-- The label of each type code. -/
  labels : CodeMap := ∅
  /-- The code that each alias stands for. -/
  aliases : CodeMap := ∅
  deriving DecidableEq

namespace Settings

/-- What can be wrong with a setting. -/
inductive Fault
  /-- The label of `code` is blank. -/
  | blankLabel (code : String)
  /-- The alias `code` stands for a blank code. -/
  | blankTarget (code : String)
  /-- The alias `code` stands for itself. -/
  | selfAlias (code : String)
  deriving DecidableEq, Repr

/-- The wording of a fault. -/
def Fault.message : Fault → String
  | .blankLabel code => "label for `" ++ code ++ "` is empty"
  | .blankTarget code => "alias target for `" ++ code ++ "` is empty"
  | .selfAlias code => "alias `" ++ code ++ "` points at itself"

/-- The fault of a single label. -/
def labelFault? (code label : String) : Option Fault :=
  if Text.isBlankText label then some (.blankLabel code) else none

/-- The fault of a single alias.  A blank code that is its own alias counts as blank. -/
def aliasFault? (code target : String) : Option Fault :=
  if Text.isBlankText target then some (.blankTarget code)
  else if target = code then some (.selfAlias code)
  else none

/-- The first fault: labels before aliases, and each in code point order. -/
def fault? (settings : Settings) : Option Fault :=
  (settings.labels.toList.findSome? fun entry => labelFault? entry.1 entry.2) <|>
    settings.aliases.toList.findSome? fun entry => aliasFault? entry.1 entry.2

/-- Settings without a fault, or the first fault. -/
def validate (settings : Settings) : Except Fault Settings :=
  match settings.fault? with
  | some fault => .error fault
  | none => .ok settings

/-- Valid settings are returned unchanged. -/
theorem validate_eq_ok_iff
    {settings valid : Settings} :
    settings.validate = .ok valid ↔ settings.fault? = none ∧ settings = valid := by
  unfold validate
  split <;> simp_all

end Settings

end Changelog
