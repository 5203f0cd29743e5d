import Changelog.Change.Basic

/-!
# The order of changes

Changes are listed by heading and then by scope.  Labelled headings come before unformatted ones
and ascend by title; within a heading, changes with a scope come first and ascend by scope.  All
texts compare by code point.  Changes that agree in both keep the order of the log, since the sort
is stable.
-/

namespace Changelog

/-- Compare scopes: a scope comes before none, and scopes ascend. -/
def compareScopes : Option String → Option String → Ordering
  | some a, some b => compare a b
  | some _, none => .lt
  | none, some _ => .gt
  | none, none => .eq

namespace Heading

/-- Compare headings: labels come before bare codes, and titles ascend. -/
def compare (a b : Heading) : Ordering :=
  (Ord.compare a.isUnformatted b.isUnformatted).then (Ord.compare a.title b.title)

end Heading

namespace Change

/-- Compare changes by heading and then by scope. -/
def compare (a b : Change) : Ordering :=
  (a.heading.compare b.heading).then (compareScopes a.scope? b.scope?)

/-- Sort changes, keeping the order of those that compare equal. -/
def sort (changes : List Change) : List Change :=
  changes.mergeSort fun a b => (a.compare b).isLE

/-- Sorting loses no change, adds none and repeats none. -/
theorem sort_perm (changes : List Change) : (sort changes).Perm changes :=
  List.mergeSort_perm changes _

end Change

end Changelog
