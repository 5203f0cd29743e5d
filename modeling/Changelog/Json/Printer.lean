import Changelog.Json.Token

/-!
# Writing JSON

Values are written without blanks.  In a string the quote, the backslash and the control characters
below U+0020 are escaped, with a short escape where there is one, and every other character stands
for itself.
-/

namespace Changelog.Json

/-- A character inside a string. -/
def escape (c : Char) : List Char :=
  match c with
  | '"' => ['\\', '"']
  | '\\' => ['\\', '\\']
  | '\x08' => ['\\', 'b']
  | '\x0c' => ['\\', 'f']
  | '\n' => ['\\', 'n']
  | '\r' => ['\\', 'r']
  | '\t' => ['\\', 't']
  | c =>
    if c.toNat < 0x20 then
      ['\\', 'u', '0', '0', Text.hexDigit (Text.lastDigit (c.toNat / 16)),
        Text.hexDigit (Text.lastDigit c.toNat)]
    else [c]

/-- A string with its quotes.  A string without a text is written as half a surrogate pair. -/
def Str.render : Str → List Char
  | .text s => '"' :: s.toList.flatMap escape ++ ['"']
  | .unpaired => ['"', '\\', 'u', 'd', '8', '0', '0', '"']

mutual

/-- The written form of a value. -/
def render : Json → List Char
  | null => ['n', 'u', 'l', 'l']
  | bool true => ['t', 'r', 'u', 'e']
  | bool false => ['f', 'a', 'l', 's', 'e']
  | number literal => literal.toList
  | string s => s.render
  | array [] => ['[', ']']
  | array (item :: items) => '[' :: render item ++ renderItems items ++ [']']
  | object [] => ['{', '}']
  | object ((k, v) :: members) =>
    '{' :: k.render ++ ':' :: render v ++ renderMembers members ++ ['}']

/-- Further items of an array, each after a comma. -/
def renderItems : List Json → List Char
  | [] => []
  | item :: items => ',' :: render item ++ renderItems items

/-- Further members of an object, each after a comma. -/
def renderMembers : List (Str × Json) → List Char
  | [] => []
  | (k, v) :: members => ',' :: k.render ++ ':' :: render v ++ renderMembers members

end

/-- The text of a value. -/
def print (v : Json) : String := .ofList v.render

example : print (ofTexts ["x", "\n", "a\"b"]) = "[\"x\",\"\\n\",\"a\\\"b\"]" := by
  decide +kernel

end Changelog.Json
