import Changelog.Text.Utf8

/-!
# Log entries

What the history reports of one commit: its identifier, the text of its first paragraph on one
line, and the text after it.
-/

namespace Changelog

/-- One commit of a log. -/
structure LogEntry where
  /-- The identifier of the commit, usually forty hexadecimal digits. -/
  hash : String
  /-- The first paragraph of the message. -/
  header : String
  /-- The message after its first paragraph, possibly empty. -/
  body : String
  deriving DecidableEq, Repr

/-- How many octets an abbreviated hash has. -/
def shortHashLength : Nat := 7

/-- The hash cut after seven octets, or the whole hash if it is shorter.  There is no answer when
the cut falls inside a character, which cannot happen to hexadecimal digits. -/
def LogEntry.shortHash? (entry : LogEntry) : Option String :=
  (Text.takeOctets? shortHashLength entry.hash.toList).map String.ofList

end Changelog
