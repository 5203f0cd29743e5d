import Changelog.Text.Decimal
import Changelog.Text.Line
import Changelog.Text.Run
import Changelog.Text.Utf8

/-!
# Signatures

A signature says who did something and when: a name, an address between angle brackets, a time in
seconds since the epoch, and a time zone.  Only the time counts here.  It follows the last closing
bracket, so a zone that holds a bracket itself takes the place of what was before it.  A signature
that ends right after its address has time zero, and a zone that cannot be understood is no fault.
-/

namespace Changelog.Signature

/-- Why a line is no signature. -/
inductive Fault
  /-- The line has no end. -/
  | unended
  /-- The line is about something else. -/
  | misplaced
  /-- There is no address. -/
  | noAddress
  /-- There is something else in the place of the time. -/
  | noTime
  deriving DecidableEq, Repr

/-- The wording of a fault. -/
def Fault.message (fault : Fault) : String :=
  "failed to parse signature - " ++
    match fault with
    | unended => "no newline given"
    | misplaced => "expected prefix doesn't match actual"
    | noAddress => "malformed e-mail"
    | noTime => "invalid Unix timestamp"

/-- The octet of an opening bracket. -/
def opening : UInt8 := 0x3c

/-- The octet of a closing bracket. -/
def closing : UInt8 := 0x3e

/-- What follows the last closing bracket, if that one closes the last bracket opened. -/
def afterAddress? (text : List UInt8) : Option (List UInt8) :=
  let after := (text.reverse.takeWhile (· != closing)).reverse
  if (text.reverse.dropWhile (· != closing)).contains opening && !after.contains opening then
    some after
  else none

/-- The number that the digits at the start spell. -/
def count? (octets : List UInt8) : Option Nat :=
  (Text.run? Char.isDigit (Text.ofLatin1 octets)).map fun found => Text.decimal found.1

/-- The latest time that can be written. -/
def latest : Int := 9223372036854775807

/-- The time at the start, after blanks and a sign. -/
def time? (octets : List UInt8) : Option Int :=
  (match octets.dropWhile Text.isBlankOctet with
    | 0x2d :: rest => (count? rest).map fun n => -(n : Int)
    | 0x2b :: rest => (count? rest).map Int.ofNat
    | rest => (count? rest).map Int.ofNat).filter
      fun time => -latest - 1 ≤ time && time ≤ latest

/-- The time of a signature. -/
def timeOf (text : List UInt8) : Except Fault Int :=
  match afterAddress? text with
  | none => .error .noAddress
  | some after =>
    if after.length ≤ 1 then .ok 0
    else
      match time? (after.drop 1) with
      | some time => .ok time
      | none => .error .noTime

/-- The time of the signature on the first line, which must begin with a name, and what follows
the line. -/
def ofLine (name : String) (octets : List UInt8) : Except Fault (Int × List UInt8) :=
  match Text.line? octets with
  | none => .error .unended
  | some (line, rest) =>
    match Text.afterName? name line with
    | none => .error .misplaced
    | some [] => .error .misplaced
    | some (octet :: text) => (timeOf (octet :: text)).map (·, rest)

theorem length_lt_of_ofLine
    {name : String} {octets rest : List UInt8} {time : Int}
    (h : ofLine name octets = .ok (time, rest)) : rest.length < octets.length := by
  unfold ofLine at h
  split at h
  · cases h
  · rename_i line tail hline
    have := Text.length_lt_of_line? hline
    split at h
    · cases h
    · cases h
    · rename_i octet text _
      cases htime : timeOf (octet :: text) with
      | error fault =>
        rw [htime] at h
        cases h
      | ok found =>
        rw [htime] at h
        cases h
        exact this

end Changelog.Signature
