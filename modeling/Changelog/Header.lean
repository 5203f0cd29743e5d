import Changelog.Text.Blank
import Changelog.Text.Run

/-!
# Conventional headers

A conventional header is a type code, an optional scope in parentheses, a colon and a message:
`fix(parser): stop at the end`.  This module separates the grammar of headers from the meaning of
a type code, which depends on a table and is left to `Changelog.HeadingTable`.

The type code is a run of small ASCII letters and the scope a run of letters, digits, underscores,
hyphens and blanks.  Each run is followed by a character that it cannot contain, so the reading of
both is forced.  The message is different: blanks after the colon are skipped, but the message
itself needs at least one character other than a line feed.  When everything after the colon is
blank, the skipping gives back as little as possible, and the message is the last character that
is not a line feed.
-/

namespace Changelog

/-- The parts of a conventional header. -/
structure Header where
  /-- The type code. -/
  code : String
  /-- The scope, without its parentheses. -/
  scope? : Option String
  /-- The message, up to the end of its line. -/
  message : String
  deriving DecidableEq, Repr

namespace Header

/-- Type codes consist of small ASCII letters. -/
def isCodeChar (c : Char) : Bool := c.isLower

/-- Scopes consist of ASCII letters and digits, underscores, hyphens and blanks. -/
def isScopeChar (c : Char) : Bool :=
  c.isAlphanum || c == '_' || c == '-' || Text.isBlank c

/-- The scope in front of the colon, if there is one, with what follows the colon. -/
def scopeAndColon? : List Char → Option (Option (List Char) × List Char)
  | ':' :: rest => some (none, rest)
  | '(' :: rest =>
    match Text.run? isScopeChar rest with
    | some (scope, ')' :: ':' :: rest) => some (some scope, rest)
    | _ => none
  | _ => none

/-- The message in what follows the colon. -/
def message? (cs : List Char) : Option (List Char) :=
  match cs.dropWhile Text.isBlank with
  | [] => (cs.reverse.find? (· != '\n')).map ([·])
  | text => some (text.takeWhile (· != '\n'))

/-- Read a header, if it is a conventional one. -/
def parse? (header : List Char) : Option Header := do
  let (code, rest) ← Text.run? isCodeChar header
  let (scope, rest) ← scopeAndColon? rest
  let message ← message? rest
  return {
    code := .ofList code
    scope? := scope.map .ofList
    message := .ofList message }

example : parse? "fix(io_v2 x): tweak: it".toList = some ⟨"fix", some "io_v2 x", "tweak: it"⟩ := by
  decide +kernel

example : parse? "fix: \n ".toList = some ⟨"fix", none, " "⟩ := by decide +kernel

example : parse? "feat!: breaking".toList = none := by decide +kernel

end Header

end Changelog
