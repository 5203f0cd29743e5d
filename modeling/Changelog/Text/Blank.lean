/-!
# Blank characters

Two notions of blank occur in this library and are kept apart.  Texts use the Unicode property
`White_Space`, given here as a table of code points.  What a repository stores is read octet by
octet, and there the six blanks of ASCII count.
-/

namespace Changelog.Text

/-- The code points with the Unicode property `White_Space`, as inclusive ranges. -/
def blankRanges : List (Nat × Nat) :=
  [(0x09, 0x0d), (0x20, 0x20), (0x85, 0x85), (0xa0, 0xa0), (0x1680, 0x1680),
    (0x2000, 0x200a), (0x2028, 0x2029), (0x202f, 0x202f), (0x205f, 0x205f), (0x3000, 0x3000)]

/-- A character is blank when its code point lies in one of the ranges. -/
def isBlank (c : Char) : Bool :=
  blankRanges.any fun range => range.1 ≤ c.toNat && c.toNat ≤ range.2

/-- The octet of a line feed. -/
def lineFeed : UInt8 := 0x0a

/-- Blank octets: space, tab, line feed, vertical tab, form feed and carriage return. -/
def isBlankOctet (octet : UInt8) : Bool :=
  octet == 0x20 || (0x09 ≤ octet && octet ≤ 0x0d)

/-- A text is blank when all its characters are, as the empty text is. -/
def isBlankText (text : String) : Bool :=
  text.toList.all isBlank

/-- Drop the blank characters at the end. -/
def trimEnd (cs : List Char) : List Char :=
  (cs.reverse.dropWhile isBlank).reverse

/-- Drop the blank octets at the end. -/
def trimOctets (octets : List UInt8) : List UInt8 :=
  (octets.reverse.dropWhile isBlankOctet).reverse

@[simp] theorem isBlankOctet_lineFeed : isBlankOctet lineFeed = true := rfl

/-- A trimmed text ends in no blank character. -/
theorem getLast?_trimEnd_not_blank
    {cs : List Char} {c : Char} (h : (trimEnd cs).getLast? = some c) : isBlank c = false := by
  rw [trimEnd, List.getLast?_reverse] at h
  have hhead := List.head?_dropWhile_not isBlank cs.reverse
  rw [h] at hhead
  simpa using hhead

end Changelog.Text
