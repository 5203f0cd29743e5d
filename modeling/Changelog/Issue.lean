/-!
# Issue references

A reference is a number sign followed by ASCII digits, as many as there are.  References are
compared as texts, so `#7` and `#07` are two references.
-/

namespace Changelog

namespace Issue

/-- All references of a text, from left to right. -/
def references : List Char → List (List Char)
  | [] => []
  | '#' :: rest =>
    match rest.takeWhile Char.isDigit with
    | [] => references rest
    | digits => ('#' :: digits) :: references (rest.dropWhile Char.isDigit)
  | _ :: rest => references rest
  termination_by cs => cs.length
  decreasing_by
    · simp
    · have := (List.dropWhile_suffix (l := rest) Char.isDigit).length_le
      simp only [List.length_cons]
      omega
    · simp

/-- The references of a commit: those of the body before those of the header, each one where it
occurs first. -/
def ofTexts (header body : String) : List String :=
  ((references body.toList ++ references header.toList).map String.ofList).eraseDups

example : ofTexts "fix: thing #4 #5" "closes #5\nsee #04 and #5" = ["#5", "#04", "#4"] := by
  decide +kernel

end Issue

end Changelog
