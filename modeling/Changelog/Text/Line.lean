import Changelog.Text.Blank

/-!
# Lines of octets

What a repository stores is read line by line.  Each line ends in a line feed, and many begin with
a name and a space that say what the line is about.
-/

namespace Changelog.Text

/-- The first line, without its end, and what follows it.  There is none without an end. -/
def line? (octets : List UInt8) : Option (List UInt8 × List UInt8) :=
  match octets.dropWhile (· != lineFeed) with
  | [] => none
  | _ :: rest => some (octets.takeWhile (· != lineFeed), rest)

/-- The octets of a name and a space. -/
def nameOctets (name : String) : List UInt8 :=
  (name.toList ++ [' ']).map fun c => c.toNat.toUInt8

/-- The rest of a line that begins with a name and a space. -/
def afterName? (name : String) (line : List UInt8) : Option (List UInt8) :=
  (nameOctets name).isPrefixOf? line

/-- What the first line says after a name and a space, and what follows the line. -/
def namedLine? (name : String) (octets : List UInt8) : Option (List UInt8 × List UInt8) := do
  let (line, rest) ← line? octets
  return (← afterName? name line, rest)

/-- The text before the first empty line and what follows that line. -/
def atEmptyLine : List UInt8 → List UInt8 × List UInt8
  | [] => ([], [])
  | octet :: rest =>
    if octet = lineFeed ∧ rest.head? = some lineFeed then ([], rest.drop 1)
    else (octet :: (atEmptyLine rest).1, (atEmptyLine rest).2)

/-- The lines before the first empty one, and what follows that one. -/
def header (octets : List UInt8) : List (List UInt8) × List UInt8 :=
  (((atEmptyLine (lineFeed :: octets)).1.splitOn lineFeed).drop 1,
    (atEmptyLine (lineFeed :: octets)).2)

theorem length_lt_of_line?
    {octets line rest : List UInt8} (h : line? octets = some (line, rest)) :
    rest.length < octets.length := by
  unfold line? at h
  split at h
  · cases h
  · rename_i octet tail heq
    cases h
    have := (List.dropWhile_suffix (l := octets) (· != lineFeed)).length_le
    rw [heq, List.length_cons] at this
    omega

theorem length_lt_of_namedLine?
    {name : String} {octets value rest : List UInt8}
    (h : namedLine? name octets = some (value, rest)) : rest.length < octets.length := by
  obtain ⟨⟨line, rest'⟩, hline, h⟩ := Option.bind_eq_some_iff.mp h
  obtain ⟨value', -, h⟩ := Option.bind_eq_some_iff.mp h
  cases h
  exact length_lt_of_line? hline

example : header [0x61, 0x0a, 0x62, 0x0a, 0x0a, 0x63] = ([[0x61], [0x62]], [0x63]) := by
  decide +kernel

example : header [0x0a, 0x63] = ([], [0x63]) := by decide +kernel

end Changelog.Text
