import Changelog.Text.Blank

/-!
# Commit messages

A message is stored as octets.  It ends at the first zero octet, and line feeds at its start do not
count.  Its header is the first paragraph, folded to one line; its body is what follows the first
empty line.

The two parts are found separately.  A line that holds only blanks ends the header, but only a line
without any character begins the body.  Blanks are the six of ASCII here.
-/

namespace Changelog.Message

/-- The message that stored octets hold. -/
def content (stored : List UInt8) : List UInt8 :=
  (stored.takeWhile (· != 0)).dropWhile (· == Text.lineFeed)

/-- Whether the line at the start holds blanks only. -/
def blankLine : List UInt8 → Bool
  | [] => true
  | octet :: rest => octet == Text.lineFeed || (Text.isBlankOctet octet && blankLine rest)

/-- The first paragraph: what comes before the first line feed that a blank line follows. -/
def paragraph : List UInt8 → List UInt8
  | [] => []
  | octet :: rest =>
    if octet == Text.lineFeed && blankLine rest then [] else octet :: paragraph rest

/-- What a run of blanks becomes inside the header: a single space if a line ends in it. -/
def foldRun (run : List UInt8) : List UInt8 :=
  if run.contains Text.lineFeed then [0x20] else run

/-- Fold the runs of blanks of a paragraph, given the run in front of it.  A run at the end is
dropped. -/
def fold (run : List UInt8) : List UInt8 → List UInt8
  | [] => []
  | octet :: rest =>
    if Text.isBlankOctet octet then fold (run ++ [octet]) rest
    else foldRun run ++ octet :: fold [] rest

/-- The octets of the header. -/
def header (stored : List UInt8) : List UInt8 := fold [] (paragraph (content stored))

/-- What follows the first line feed that an empty line follows, or that is the last octet. -/
def afterParagraph : List UInt8 → List UInt8
  | [] => []
  | octet :: rest =>
    if octet == Text.lineFeed && (rest.head?.all (· == Text.lineFeed)) then rest
    else afterParagraph rest

/-- Drop blanks at both ends. -/
def trim (octets : List UInt8) : List UInt8 :=
  Text.trimOctets (octets.dropWhile Text.isBlankOctet)

/-- The octets of the body. -/
def body (stored : List UInt8) : List UInt8 := trim (afterParagraph (content stored))

end Changelog.Message
