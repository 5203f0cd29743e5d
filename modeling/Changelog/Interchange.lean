import Changelog.Change.Basic
import Changelog.Json.Fields
import Changelog.Json.Printer
import Changelog.Json.Reader

/-!
# Log entries, changes and settings in JSON

The form in which the records of this library are exchanged.  A heading is an object with a `kind`
and a `value`.  The scope of a change may be null or, in an object, missing.  Settings are strict:
they refuse unknown members, but either of their maps may be missing, and a map takes the last
value of a repeated key.
-/

namespace Changelog

open Json (Fields)

namespace LogEntry

/-- The fields of a log entry, in order. -/
def fieldNames : List String := ["hash", "header", "body"]

/-- The written form of a log entry. -/
def toJson (entry : LogEntry) : Json :=
  .ofFields [("hash", .ofText entry.hash), ("header", .ofText entry.header),
    ("body", .ofText entry.body)]

/-- A log entry from its fields. -/
def ofFields? (fields : Fields) : Option LogEntry := do
  return {
    hash := ← (← fields.get? "hash").text?
    header := ← (← fields.get? "header").text?
    body := ← (← fields.get? "body").text? }

/-- Read a log entry. -/
def ofJson? : Json → Option LogEntry
  | .object members => Json.objectFields? fieldNames .ignored members >>= ofFields?
  | .array items => Json.arrayFields? fieldNames 3 items >>= ofFields?
  | _ => none

end LogEntry

namespace Heading

/-- The fields of a heading, in order. -/
def fieldNames : List String := ["kind", "value"]

/-- The written form of a heading. -/
def toJson : Heading → Json
  | labelled label => .ofFields [("kind", .ofText "labeled"), ("value", .ofText label)]
  | unformatted code => .ofFields [("kind", .ofText "unformatted"), ("value", .ofText code)]

/-- The heading of a kind. -/
def ofKind? (kind value : String) : Option Heading :=
  if kind = "labeled" then some (labelled value)
  else if kind = "unformatted" then some (unformatted value)
  else none

/-- The kind that a member names: a string, or an object whose one member has the kind as its key
and no value. -/
def kind? : Json → Option String
  | .object [(key, .null)] => key.text?
  | v => v.text?

/-- Read a heading.  An array names the kind by a string only. -/
def ofJson? : Json → Option Heading
  | .object members => do
    let fields ← Json.objectFields? fieldNames .ignored members
    ofKind? (← kind? (← fields.get? "kind")) (← (← fields.get? "value").text?)
  | .array items => do
    let fields ← Json.arrayFields? fieldNames 2 items
    ofKind? (← (← fields.get? "kind").text?) (← (← fields.get? "value").text?)
  | _ => none

end Heading

namespace Change

/-- The fields of a change, in order. -/
def fieldNames : List String := ["hash", "type", "scope", "message", "closed_issues"]

/-- The written form of a scope. -/
def scopeToJson : Option String → Json
  | some scope => .ofText scope
  | none => .null

/-- Read a scope. -/
def scopeOfJson? : Json → Option (Option String)
  | .null => some none
  | v => v.text?.map some

/-- The written form of a change. -/
def toJson (change : Change) : Json :=
  .ofFields [("hash", .ofText change.hash), ("type", change.heading.toJson),
    ("scope", scopeToJson change.scope?), ("message", .ofText change.message),
    ("closed_issues", .ofTexts change.issues)]

/-- A change from its fields. -/
def ofFields? (fields : Fields) : Option Change := do
  return {
    hash := ← (← fields.get? "hash").text?
    heading := ← Heading.ofJson? (← fields.get? "type")
    scope? := ← scopeOfJson? ((fields.get? "scope").getD .null)
    message := ← (← fields.get? "message").text?
    issues := ← (← fields.get? "closed_issues").texts? }

/-- Read a change. -/
def ofJson? : Json → Option Change
  | .object members => Json.objectFields? fieldNames .ignored members >>= ofFields?
  | .array items => Json.arrayFields? fieldNames 5 items >>= ofFields?
  | _ => none

end Change

namespace CodeMap

/-- The written form of a map, in the order of its keys. -/
def toJson (codes : CodeMap) : Json :=
  .ofFields (codes.toList.map fun entry => (entry.1, .ofText entry.2))

/-- Read a map of texts. -/
def ofJson? : Json → Option CodeMap
  | .object members => do
    let named ← Json.named? members
    return .ofList (← named.mapM fun member => member.2.text?.map (member.1, ·)) compare
  | _ => none

end CodeMap

namespace Settings

/-- The fields of settings, in order. -/
def fieldNames : List String := ["labels", "aliases"]

/-- The written form of settings. -/
def toJson (settings : Settings) : Json :=
  .ofFields [("labels", CodeMap.toJson settings.labels),
    ("aliases", CodeMap.toJson settings.aliases)]

/-- Settings from their fields. -/
def ofFields? (fields : Fields) : Option Settings := do
  return {
    labels := ← CodeMap.ofJson? ((fields.get? "labels").getD (.object []))
    aliases := ← CodeMap.ofJson? ((fields.get? "aliases").getD (.object [])) }

/-- Read settings. -/
def ofJson? : Json → Option Settings
  | .object members => Json.objectFields? fieldNames .refused members >>= ofFields?
  | .array items => Json.arrayFields? fieldNames 0 items >>= ofFields?
  | _ => none

end Settings

end Changelog
