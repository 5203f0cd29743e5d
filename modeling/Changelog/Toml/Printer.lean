import Changelog.Toml.Statement

/-!
# Writing TOML

Keys and values are written as strings between double quotes, with a backslash before a quote or a
backslash and a four-digit escape for every control character.
-/

namespace Changelog.Toml

/-- The control characters of Unicode. -/
def isControl (c : Char) : Bool :=
  c.toNat < 0x20 || (0x7f ≤ c.toNat && c.toNat ≤ 0x9f)

/-- A character inside a string. -/
def escape (c : Char) : List Char :=
  if c = '"' ∨ c = '\\' then ['\\', c]
  else if isControl c then
    ['\\', 'u', '0', '0', Text.hexDigit (Text.lastDigit (c.toNat / 16)),
      Text.hexDigit (Text.lastDigit c.toNat)]
  else [c]

/-- A string with its quotes. -/
def quote (text : String) : List Char :=
  '"' :: text.toList.flatMap escape ++ ['"']

/-- The line of a key with one part and a string. -/
def entryLine (code label : String) : List Char :=
  quote code ++ [' ', '=', ' '] ++ quote label ++ ['\n']

/-- The line of a header whose name needs no quotes. -/
def headerLine (name : String) : List Char :=
  '[' :: name.toList ++ [']', '\n']

/-- A table with a header and one line for each entry. -/
def tableLines (name : String) (entries : List (String × String)) : List Char :=
  headerLine name ++ entries.flatMap fun entry => entryLine entry.1 entry.2

end Changelog.Toml
