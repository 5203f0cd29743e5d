/-!
# Headings

The heading under which a change is listed.  A type code with a known label goes under that label.
A code without one is kept as it is and marked, so that no two codes are merged by accident.
-/

namespace Changelog

/-- The mark in front of a type code that has no label. -/
def unformattedMark : String := "[UNFORMATTED TYPE]"

/-- Where a change is listed. -/
inductive Heading
  /-- Under the label of its type. -/
  | labelled (label : String)
  /-- Under its own type code, which has no label. -/
  | unformatted (code : String)
  deriving DecidableEq, Repr

namespace Heading

/-- Whether the heading shows a bare type code. -/
def isUnformatted : Heading → Bool
  | labelled _ => false
  | unformatted _ => true

/-- The text of the heading. -/
def title : Heading → String
  | labelled label => label
  | unformatted code => unformattedMark ++ " " ++ code

@[simp] theorem title_labelled (label : String) : (labelled label).title = label := rfl

/-- Two headings of the same sort with the same text are the same heading. -/
theorem eq_of_title_eq
    {a b : Heading} (hsort : a.isUnformatted = b.isUnformatted) (htitle : a.title = b.title) :
    a = b := by
  cases a <;> cases b <;> simp_all [isUnformatted, title]

end Heading

end Changelog
