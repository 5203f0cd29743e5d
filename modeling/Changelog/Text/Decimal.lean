/-!
# Decimal digits

The number that decimal digits spell, and the digits of a number with zeros in front up to a given
width.
-/

namespace Changelog.Text

/-- The number that decimal digits spell. -/
def decimal (digits : List Char) : Nat :=
  digits.foldl (fun n digit => n * 10 + (digit.toNat - '0'.toNat)) 0

/-- The last decimal digits of a number, as many as the width says. -/
def padded : (width n : Nat) → List Char
  | 0, _ => []
  | width + 1, n => padded width (n / 10) ++ [(n % 10).digitChar]

example : decimal ['0', '4', '2'] = 42 ∧ padded 3 42 = ['0', '4', '2'] := by decide

end Changelog.Text
