import Changelog.Settings.Basic
import Changelog.Toml.Printer

/-!
# Settings documents

Settings are written as a TOML document with at most two tables, `labels` and `aliases`, whose
values are strings.  A table may be given under its header, as an inline table, or by dotted keys
in front of all headers.  Once given under a header or inline it is complete and cannot be given
again; dotted keys only add to a table that dotted keys began.

A date or a time in the place of a table is a table too, with a single entry.
-/

namespace Changelog.Settings

/-- The two tables of a document. -/
inductive Part
  | labels
  | aliases
  deriving DecidableEq, Repr

/-- The name of a table. -/
def Part.name : Part → String
  | labels => "labels"
  | aliases => "aliases"

/-- The table of a name. -/
def Part.ofName? (name : String) : Option Part :=
  if name = "labels" then some labels
  else if name = "aliases" then some aliases
  else none

/-- How a table has been given so far. -/
inductive Origin
  /-- Not at all. -/
  | absent
  /-- By dotted keys, which may go on. -/
  | dotted
  /-- Under a header or inline. -/
  | whole
  deriving DecidableEq, Repr

/-- A table while its document is being read. -/
structure Draft where
  /-- The entries so far. -/
  entries : CodeMap := ∅
  /-- How they were given. -/
  origin : Origin := .absent

namespace Draft

/-- Add an entry, whose code must be new. -/
def insert? (draft : Draft) (code label : String) : Option Draft :=
  if code ∈ draft.entries then none
  else some { draft with entries := draft.entries.insert code label }

/-- Begin a table under a header or inline. -/
def define? (draft : Draft) : Option Draft :=
  if draft.origin = .absent then some { draft with origin := .whole } else none

/-- Add an entry by a dotted key. -/
def extend? (draft : Draft) (code label : String) : Option Draft :=
  if draft.origin = .whole then none else { draft with origin := .dotted }.insert? code label

/-- Add the entries of an inline table. -/
def fill? (draft : Draft) (entries : List (Toml.Path × String)) : Option Draft :=
  entries.foldlM (fun draft entry =>
    match entry with
    | ([code], label) => draft.insert? code label
    | _ => none) draft

end Draft

/-- A document while it is being read. -/
structure Reading where
  /-- The table of the last header. -/
  current : Option Part := none
  /-- The labels so far. -/
  labels : Draft := {}
  /-- The aliases so far. -/
  aliases : Draft := {}

namespace Reading

/-- Change one of the tables. -/
def modify? (reading : Reading) (part : Part) (change : Draft → Option Draft) : Option Reading :=
  match part with
  | .labels => (change reading.labels).map fun draft => { reading with labels := draft }
  | .aliases => (change reading.aliases).map fun draft => { reading with aliases := draft }

/-- Read one statement. -/
def next? (reading : Reading) : Toml.Statement → Option Reading
  | .header [name] => do
    let part ← Part.ofName? name
    let reading ← reading.modify? part Draft.define?
    return { reading with current := some part }
  | .entry [code] (.text label) => do
    let part ← reading.current
    reading.modify? part (·.insert? code label)
  | .entry [name, code] (.text label) => do
    guard reading.current.isNone
    let part ← Part.ofName? name
    reading.modify? part (·.extend? code label)
  | .entry [name] (.table entries) => do
    guard reading.current.isNone
    let part ← Part.ofName? name
    reading.modify? part fun draft => draft.define? >>= (·.fill? entries)
  | .entry [name] (.moment m) => do
    guard reading.current.isNone
    let part ← Part.ofName? name
    reading.modify? part fun draft => draft.define? >>= (·.insert? Toml.Moment.entryName m.toString)
  | _ => none

end Reading

/-- The settings that the statements of a document give. -/
def ofStatements? (statements : List Toml.Statement) : Option Settings := do
  let reading ← statements.foldlM Reading.next? {}
  return { labels := reading.labels.entries, aliases := reading.aliases.entries }

/-- The settings of a document.  They may still be invalid. -/
def ofDocument? (text : String) : Option Settings :=
  Toml.document? text >>= ofStatements?

/-- A document that gives the labels and aliases listed, each table under its header. -/
def document (labels aliases : List (String × String)) : String :=
  .ofList (Toml.tableLines Part.labels.name labels ++ Toml.tableLines Part.aliases.name aliases)

end Changelog.Settings
