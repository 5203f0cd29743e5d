/-!
# Hexadecimal digits

Hexadecimal digits are read in either case and written in lower case.
-/

namespace Changelog.Text

/-- The last hexadecimal digit of a number. -/
def lastDigit (n : Nat) : Fin 16 := ⟨n % 16, Nat.mod_lt n (by decide)⟩

/-- The value of a hexadecimal digit in either case. -/
def hexValue? (c : Char) : Option (Fin 16) :=
  if '0' ≤ c ∧ c ≤ '9' then some (lastDigit (c.toNat - '0'.toNat))
  else if 'a' ≤ c ∧ c ≤ 'f' then some (lastDigit (c.toNat - 'a'.toNat + 10))
  else if 'A' ≤ c ∧ c ≤ 'F' then some (lastDigit (c.toNat - 'A'.toNat + 10))
  else none

/-- The number that hexadecimal digits spell. -/
def hexNumber? (digits : List Char) : Option Nat :=
  (digits.mapM hexValue?).map (List.foldl (fun n digit => n * 16 + digit.val) 0)

/-- A hexadecimal digit in lower case. -/
def hexDigit (digit : Fin 16) : Char := digit.val.digitChar

/-- A digit that is written is read back. -/
@[simp] theorem hexValue?_hexDigit (digit : Fin 16) : hexValue? (hexDigit digit) = some digit := by
  revert digit
  decide

/-- A number below 0x100 is read back from four digits. -/
theorem hexNumber?_hexDigits {n : Nat} (h : n < 0x100) :
    hexNumber? ['0', '0', hexDigit (lastDigit (n / 16)), hexDigit (lastDigit n)] = some n := by
  have hzero : hexValue? '0' = some 0 := by decide
  have hdigits : ['0', '0', hexDigit (lastDigit (n / 16)), hexDigit (lastDigit n)].mapM hexValue? =
      some [0, 0, lastDigit (n / 16), lastDigit n] := by
    simp [hzero]
  have hnumber : (n / 16 % 16) * 16 + n % 16 = n := by omega
  rw [hexNumber?, hdigits]
  simp [lastDigit, hnumber]

end Changelog.Text
