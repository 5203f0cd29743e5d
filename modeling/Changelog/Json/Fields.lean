import Changelog.Json.Basic

/-!
# Records in JSON

A record is written as an object with one member for each field, in any order, or as an array of
the fields in the order in which they are declared.  In an object a field may be given once only.
Other members are passed over or refused, as the record decides; passing over a member does not
look at its value, but the key has to be a text.
-/

namespace Changelog.Json

/-- What a record does with members that are no fields. -/
inductive Surplus
  | ignored
  | refused
  deriving DecidableEq, Repr

/-- The fields of a record that are present, by name. -/
abbrev Fields := List (String × Json)

/-- The members of an object by their names, when all keys are texts. -/
def named? (members : List (Str × Json)) : Option Fields :=
  members.mapM fun member => member.1.text?.map (·, member.2)

/-- The fields among the members of an object. -/
def objectFields? (names : List String) (surplus : Surplus) (members : List (Str × Json)) :
    Option Fields := do
  let named ← named? members
  let fields := named.filter fun member => names.contains member.1
  guard (surplus = .ignored ∨ fields.length = named.length)
  guard (fields.map Prod.fst).Nodup
  return fields

/-- The fields that the items of an array give.  Fields after the last item are absent, and there
may be as few as `least` items. -/
def arrayFields? (names : List String) (least : Nat) (items : List Json) : Option Fields := do
  guard (least ≤ items.length ∧ items.length ≤ names.length)
  return names.zip items

/-- The value of a field that must be present. -/
def Fields.get? (fields : Fields) (name : String) : Option Json :=
  fields.lookup name

end Changelog.Json
