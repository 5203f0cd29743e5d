import Changelog.Heading.Basic
import Changelog.Settings.Basic

/-!
# The table of headings

Type codes are looked up among the labels and then through one alias.  An alias names a code and
never a label, and aliases are not followed further, so a cycle of aliases does no harm.

Settings are written over a built-in table: a code that has a label there keeps one, but the label
itself and every alias can be replaced.
-/

namespace Changelog

/-- Labels of type codes, and aliases from one code to another. -/
structure HeadingTable where
  /-- The label of each type code. -/
  labels : CodeMap
  /-- The code that each alias stands for. -/
  aliases : CodeMap
  deriving DecidableEq

namespace HeadingTable

/-- The labels that hold without any settings. -/
def builtinLabels : List (String × String) :=
  [("fix", "Bug fixes"), ("revert", "Reverted commits"), ("refactor", "Refactorings"),
    ("config", "Configuration"), ("chore", "Maintenance"), ("feat", "Features"),
    ("docs", "Documentation"), ("perf", "Performance improvements"), ("test", "Testing"),
    ("ux", "UX"), ("build", "Build")]

/-- The aliases that hold without any settings.  The code `rm` has no built-in label: until the
settings give it one, deprecations stay unformatted. -/
def builtinAliases : List (String × String) :=
  [("deprecate", "rm"), ("deprecation", "rm"), ("ci", "build"), ("feature", "feat"),
    ("tests", "test")]

/-- The table that holds without any settings. -/
def builtin : HeadingTable where
  labels := .ofList builtinLabels
  aliases := .ofList builtinAliases

/-- Add or replace the label of a code. -/
def withLabel (table : HeadingTable) (code label : String) : HeadingTable :=
  { table with labels := table.labels.insert code label }

/-- Add or replace an alias. -/
def withAlias (table : HeadingTable) (code target : String) : HeadingTable :=
  { table with aliases := table.aliases.insert code target }

/-- The label of a code: its own, or else the one of the code it is an alias for. -/
def label? (table : HeadingTable) (code : String) : Option String :=
  table.labels[code]? <|> table.aliases[code]? >>= fun target => table.labels[target]?

/-- The heading of a code. -/
def resolve (table : HeadingTable) (code : String) : Heading :=
  match table.label? code with
  | some label => .labelled label
  | none => .unformatted code

/-- Write valid settings over the built-in table. -/
def ofSettings (settings : Settings) : Except Settings.Fault HeadingTable := do
  let valid ← settings.validate
  let labelled := valid.labels.toList.foldl
    (fun table entry => table.withLabel entry.1 entry.2) builtin
  return valid.aliases.toList.foldl (fun table entry => table.withAlias entry.1 entry.2) labelled

@[simp] theorem labels_withLabel (table : HeadingTable) (code label : String) :
    (table.withLabel code label).labels = table.labels.insert code label := rfl

@[simp] theorem aliases_withLabel (table : HeadingTable) (code label : String) :
    (table.withLabel code label).aliases = table.aliases := rfl

@[simp] theorem labels_withAlias (table : HeadingTable) (code target : String) :
    (table.withAlias code target).labels = table.labels := rfl

@[simp] theorem aliases_withAlias (table : HeadingTable) (code target : String) :
    (table.withAlias code target).aliases = table.aliases.insert code target := rfl

example : builtin.resolve "ci" = .labelled "Build" := by decide

example : builtin.resolve "deprecate" = .unformatted "deprecate" := by decide

end HeadingTable

end Changelog
