/-!
# JSON values

A JSON text stands for a value.  Two things are kept that many readers drop, because the readers
of records in this library depend on them.  The members of an object are a list, in the order in
which they are written and with repeated keys.  A string can be well formed and still stand for no
text, since an escape may spell one half of a surrogate pair alone; such a string is acceptable
where a value is passed over and not where a text is wanted.  A number is kept as it is written.
-/

namespace Changelog

namespace Json

/-- What the characters between two quotes stand for. -/
inductive Str
  /-- A text. -/
  | text (s : String)
  /-- No text, for want of the other half of a surrogate pair. -/
  | unpaired
  deriving DecidableEq, Repr

/-- The text of a string, if it has one. -/
def Str.text? : Str → Option String
  | text s => some s
  | unpaired => none

end Json

/-- A JSON value. -/
inductive Json
  | null
  | bool (b : Bool)
  | number (literal : String)
  | string (s : Json.Str)
  | array (items : List Json)
  | object (members : List (Json.Str × Json))
  deriving Repr

namespace Json

/-- The string that stands for a text. -/
def ofText (s : String) : Json := string (.text s)

/-- The array of texts. -/
def ofTexts (ss : List String) : Json := array (ss.map ofText)

/-- The object whose keys are the texts given. -/
def ofFields (fields : List (String × Json)) : Json :=
  object (fields.map fun field => (.text field.1, field.2))

/-- The text of a value that is a string. -/
def text? : Json → Option String
  | string s => s.text?
  | _ => none

/-- The items of a value that is an array. -/
def items? : Json → Option (List Json)
  | array items => some items
  | _ => none

/-- The texts of a value that is an array of them. -/
def texts? (v : Json) : Option (List String) :=
  v.items? >>= fun items => items.mapM text?

@[simp] theorem text?_ofText (s : String) : (ofText s).text? = some s := rfl

@[simp] theorem texts?_ofTexts (ss : List String) : (ofTexts ss).texts? = some ss := by
  have : (ss.map ofText).mapM text? = some ss := by
    induction ss with
    | nil => rfl
    | cons s ss ih => simp [ih]
  simpa [texts?, items?, ofTexts] using this

end Json

end Changelog
