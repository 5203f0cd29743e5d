import Changelog.Entry
import Changelog.Header
import Changelog.Issue
import Changelog.Heading.Table

/-!
# Changes

A change is a log entry whose header is conventional, with its type code resolved to a heading and
its issue references collected.  Entries with any other header are no changes and are passed over.
-/

namespace Changelog

/-- One entry of the changelog. -/
structure Change where
  /-- The identifier of the commit. -/
  hash : String
  /-- Where the change is listed. -/
  heading : Heading
  /-- The part of the program that is concerned. -/
  scope? : Option String
  /-- The message without type code and scope. -/
  message : String
  /-- The issue references of the commit, without repetition. -/
  issues : List String
  deriving DecidableEq, Repr

/-- The title of the section that lists the change. -/
def Change.title (change : Change) : String := change.heading.title

namespace HeadingTable

/-- The change that a log entry describes, if its header is conventional. -/
def change? (table : HeadingTable) (entry : LogEntry) : Option Change :=
  (Header.parse? entry.header.toList).map fun header =>
    { hash := entry.hash
      heading := table.resolve header.code
      scope? := header.scope?
      message := header.message
      issues := Issue.ofTexts entry.header entry.body }

/-- The changes of a log, in its order. -/
def changes (table : HeadingTable) (entries : List LogEntry) : List Change :=
  entries.filterMap table.change?

@[simp] theorem changes_nil (table : HeadingTable) : table.changes [] = [] := rfl

@[simp] theorem changes_append (table : HeadingTable) (xs ys : List LogEntry) :
    table.changes (xs ++ ys) = table.changes xs ++ table.changes ys := by
  simp [changes]

end HeadingTable

end Changelog
