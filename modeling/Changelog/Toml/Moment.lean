import Changelog.Text.Decimal
import Changelog.Text.Run

/-!
# Dates and times of TOML

A moment is a day of the calendar, a time of the day, or both; a moment with both may also say how
far its place is from the zero meridian.  Every number has a fixed count of digits.  Seconds may be
left out and may reach sixty; only the first nine digits of their fraction count.

A moment is written in one form only, whatever it was read from: a capital letter between day and
time, seconds always, a fraction without zeros at its end and not at all when it is zero.
-/

namespace Changelog.Toml

/-- A day of the calendar. -/
structure Day where
  year : Nat
  month : Nat
  day : Nat
  deriving DecidableEq, Repr

/-- A time of the day. -/
structure Clock where
  hour : Nat
  minute : Nat
  second : Nat
  /-- The digits of the fraction of a second, without zeros at the end. -/
  fraction : List Char
  deriving DecidableEq, Repr

/-- How far a place is from the zero meridian. -/
inductive Offset
  /-- Not at all. -/
  | zero
  /-- By so many minutes, to the east if there are more than none. -/
  | minutes (count : Int)
  deriving DecidableEq, Repr

/-- A moment. -/
inductive Moment
  /-- A day. -/
  | day (d : Day)
  /-- A time of any day. -/
  | clock (c : Clock)
  /-- A time of a day, at a place that may be given. -/
  | both (d : Day) (c : Clock) (offset? : Option Offset)
  deriving DecidableEq, Repr

/-- What follows a character that has to come next. -/
def after? (c : Char) : List Char → Option (List Char)
  | next :: rest => if next = c then some rest else none
  | [] => none

/-- The number that exactly so many digits spell, with what follows them. -/
def number? (count : Nat) (cs : List Char) : Option (Nat × List Char) :=
  if count ≤ cs.length ∧ (cs.take count).all Char.isDigit then
    some (Text.decimal (cs.take count), cs.drop count)
  else none

namespace Day

/-- Whether a year has a leap day. -/
def isLeap (year : Nat) : Bool :=
  year % 4 = 0 && (year % 100 != 0 || year % 400 = 0)

/-- How many days a month has. -/
def daysIn (year month : Nat) : Nat :=
  if month = 2 then if isLeap year then 29 else 28
  else if month = 4 ∨ month = 6 ∨ month = 9 ∨ month = 11 then 30
  else 31

/-- Whether the calendar has the day. -/
def isValid (d : Day) : Bool :=
  1 ≤ d.month && d.month ≤ 12 && 1 ≤ d.day && d.day ≤ daysIn d.year d.month

/-- Read a day, with what follows it. -/
def ofChars? (cs : List Char) : Option (Day × List Char) := do
  let (year, cs) ← number? 4 cs
  let (month, cs) ← after? '-' cs >>= number? 2
  let (day, cs) ← after? '-' cs >>= number? 2
  if isValid ⟨year, month, day⟩ then some (⟨year, month, day⟩, cs) else none

/-- The written form of a day. -/
def toChars (d : Day) : List Char :=
  Text.padded 4 d.year ++ '-' :: Text.padded 2 d.month ++ '-' :: Text.padded 2 d.day

end Day

namespace Clock

/-- How many digits of a fraction count. -/
def precision : Nat := 9

/-- A fraction without the digits that do not count. -/
def trimFraction (digits : List Char) : List Char :=
  ((digits.take precision).reverse.dropWhile (· == '0')).reverse

/-- The fraction after a point, none if there is no point, with what follows. -/
def fractionOf (cs : List Char) : List Char × List Char :=
  match after? '.' cs >>= Text.run? Char.isDigit with
  | some (digits, rest) => (trimFraction digits, rest)
  | none => ([], cs)

/-- The seconds after a colon with their fraction, none of either if there is no colon, with what
follows. -/
def secondsOf (cs : List Char) : (Nat × List Char) × List Char :=
  match after? ':' cs >>= number? 2 with
  | some (second, rest) => ((second, (fractionOf rest).1), (fractionOf rest).2)
  | none => ((0, []), cs)

/-- Whether the numbers of a time are small enough. -/
def isValid (c : Clock) : Bool :=
  c.hour ≤ 23 && c.minute ≤ 59 && c.second ≤ 60

/-- Read a time, with what follows it. -/
def ofChars? (cs : List Char) : Option (Clock × List Char) := do
  let (hour, cs) ← number? 2 cs
  let (minute, cs) ← after? ':' cs >>= number? 2
  let clock := ⟨hour, minute, (secondsOf cs).1.1, (secondsOf cs).1.2⟩
  if isValid clock then some (clock, (secondsOf cs).2) else none

/-- The written form of a time. -/
def toChars (c : Clock) : List Char :=
  Text.padded 2 c.hour ++ ':' :: Text.padded 2 c.minute ++ ':' :: Text.padded 2 c.second ++
    if c.fraction = [] then [] else '.' :: c.fraction

end Clock

namespace Offset

/-- Read an offset, with what follows it.  The sign is that of hours and minutes together. -/
def ofChars? : List Char → Option (Offset × List Char)
  | 'Z' :: cs => some (zero, cs)
  | 'z' :: cs => some (zero, cs)
  | '+' :: cs => (distance? cs).map fun (count, cs) => (minutes count, cs)
  | '-' :: cs => (distance? cs).map fun (count, cs) => (minutes (-count), cs)
  | _ => none
where
  /-- Read hours and minutes as minutes, with what follows them. -/
  distance? (cs : List Char) : Option (Nat × List Char) := do
    let (hour, cs) ← number? 2 cs
    let (minute, cs) ← after? ':' cs >>= number? 2
    if hour ≤ 23 ∧ minute ≤ 59 then some (hour * 60 + minute, cs) else none

/-- The written form of an offset. -/
def toChars : Offset → List Char
  | zero => ['Z']
  | minutes count =>
    (if count < 0 then '-' else '+') :: Text.padded 2 (count.natAbs / 60) ++
      ':' :: Text.padded 2 (count.natAbs % 60)

end Offset

namespace Moment

/-- What follows the mark between a day and a time: a letter in either case, or a space. -/
def afterMark? (cs : List Char) : Option (List Char) :=
  after? 'T' cs <|> after? 't' cs <|> after? ' ' cs

/-- Add the time that follows a day, if one does. -/
def ofDay (d : Day) (cs : List Char) : Moment × List Char :=
  match afterMark? cs >>= Clock.ofChars? with
  | none => (day d, cs)
  | some (c, cs) =>
    match Offset.ofChars? cs with
    | none => (both d c none, cs)
    | some (offset, cs) => (both d c (some offset), cs)

/-- Read a moment, with what follows it. -/
def ofChars? (cs : List Char) : Option (Moment × List Char) :=
  match Day.ofChars? cs with
  | some (d, cs) => some (ofDay d cs)
  | none => (Clock.ofChars? cs).map fun (c, cs) => (clock c, cs)

/-- The written form of a moment. -/
def toString : Moment → String
  | day d => .ofList d.toChars
  | clock c => .ofList c.toChars
  | both d c offset? => .ofList (d.toChars ++ 'T' :: c.toChars ++ offset?.elim [] Offset.toChars)

/-- The name of the entry by which a moment counts as a table. -/
def entryName : String := "$__toml_private_datetime"

end Moment

/-! ## Every reader takes up some of the text -/

theorem length_lt_of_after?
    {c : Char} {cs rest : List Char} (h : after? c cs = some rest) : rest.length < cs.length := by
  unfold after? at h
  split at h
  · split at h
    · cases h
      simp
    · cases h
  · cases h

theorem length_le_of_number?
    {count n : Nat} {cs rest : List Char} (h : number? count cs = some (n, rest)) :
    rest.length ≤ cs.length := by
  unfold number? at h
  split at h
  · cases h
    simp
  · cases h

theorem length_lt_of_after?_number?
    {c : Char} {count n : Nat} {cs rest : List Char}
    (h : after? c cs >>= number? count = some (n, rest)) : rest.length < cs.length := by
  obtain ⟨middle, hafter, hnumber⟩ := Option.bind_eq_some_iff.mp h
  exact Nat.lt_of_le_of_lt (length_le_of_number? hnumber) (length_lt_of_after? hafter)

theorem length_lt_of_dayOfChars?
    {d : Day} {cs rest : List Char} (h : Day.ofChars? cs = some (d, rest)) :
    rest.length < cs.length := by
  obtain ⟨⟨year, cs₁⟩, hyear, h⟩ := Option.bind_eq_some_iff.mp h
  obtain ⟨⟨month, cs₂⟩, hmonth, h⟩ := Option.bind_eq_some_iff.mp h
  obtain ⟨⟨day, cs₃⟩, hday, h⟩ := Option.bind_eq_some_iff.mp h
  have := length_le_of_number? hyear
  have := length_lt_of_after?_number? hmonth
  have := length_lt_of_after?_number? hday
  dsimp only at h
  split at h
  · cases h
    omega
  · cases h

theorem length_fractionOf_le (cs : List Char) :
    (Clock.fractionOf cs).2.length ≤ cs.length := by
  unfold Clock.fractionOf
  split
  · rename_i digits rest h
    obtain ⟨middle, hafter, hrun⟩ := Option.bind_eq_some_iff.mp h
    have := length_lt_of_after? hafter
    have := Text.length_lt_of_run? hrun
    dsimp only
    omega
  · exact Nat.le_refl _

theorem length_secondsOf_le (cs : List Char) :
    (Clock.secondsOf cs).2.length ≤ cs.length := by
  unfold Clock.secondsOf
  split
  · rename_i second rest h
    have := length_lt_of_after?_number? h
    have := length_fractionOf_le rest
    dsimp only
    omega
  · exact Nat.le_refl _

theorem length_lt_of_clockOfChars?
    {c : Clock} {cs rest : List Char} (h : Clock.ofChars? cs = some (c, rest)) :
    rest.length < cs.length := by
  obtain ⟨⟨hour, cs₁⟩, hhour, h⟩ := Option.bind_eq_some_iff.mp h
  obtain ⟨⟨minute, cs₂⟩, hminute, h⟩ := Option.bind_eq_some_iff.mp h
  have := length_le_of_number? hhour
  have := length_lt_of_after?_number? hminute
  have := length_secondsOf_le cs₂
  dsimp only at h
  split at h
  · cases h
    omega
  · cases h

theorem length_lt_of_distance?
    {n : Nat} {cs rest : List Char} (h : Offset.ofChars?.distance? cs = some (n, rest)) :
    rest.length < cs.length := by
  obtain ⟨⟨hour, cs₁⟩, hhour, h⟩ := Option.bind_eq_some_iff.mp h
  obtain ⟨⟨minute, cs₂⟩, hminute, h⟩ := Option.bind_eq_some_iff.mp h
  have := length_le_of_number? hhour
  have := length_lt_of_after?_number? hminute
  dsimp only at h
  split at h
  · cases h
    omega
  · cases h

theorem length_lt_of_offsetOfChars?
    {offset : Offset} {cs rest : List Char} (h : Offset.ofChars? cs = some (offset, rest)) :
    rest.length < cs.length := by
  unfold Offset.ofChars? at h
  split at h
  · cases h
    simp
  · cases h
    simp
  · obtain ⟨⟨count, cs₁⟩, hdistance, heq⟩ := Option.map_eq_some_iff.mp h
    have := length_lt_of_distance? hdistance
    cases heq
    simp only [List.length_cons]
    omega
  · obtain ⟨⟨count, cs₁⟩, hdistance, heq⟩ := Option.map_eq_some_iff.mp h
    have := length_lt_of_distance? hdistance
    cases heq
    simp only [List.length_cons]
    omega
  · cases h

theorem length_le_of_afterMark?
    {cs rest : List Char} (h : Moment.afterMark? cs = some rest) : rest.length < cs.length := by
  unfold Moment.afterMark? at h
  cases hT : after? 'T' cs with
  | some found =>
    rw [hT] at h
    cases h
    exact length_lt_of_after? hT
  | none =>
    cases ht : after? 't' cs with
    | some found =>
      rw [hT, ht] at h
      cases h
      exact length_lt_of_after? ht
    | none =>
      rw [hT, ht] at h
      exact length_lt_of_after? h

theorem length_ofDay_le (d : Day) (cs : List Char) :
    (Moment.ofDay d cs).2.length ≤ cs.length := by
  unfold Moment.ofDay
  split
  · exact Nat.le_refl _
  · rename_i c cs₁ h
    obtain ⟨middle, hmark, hclock⟩ := Option.bind_eq_some_iff.mp h
    have := length_le_of_afterMark? hmark
    have := length_lt_of_clockOfChars? hclock
    split
    · dsimp only
      omega
    · rename_i offset cs₂ hoffset
      have := length_lt_of_offsetOfChars? hoffset
      dsimp only
      omega

theorem length_lt_of_momentOfChars?
    {m : Moment} {cs rest : List Char} (h : Moment.ofChars? cs = some (m, rest)) :
    rest.length < cs.length := by
  unfold Moment.ofChars? at h
  split at h
  · rename_i d cs₁ hday
    have := length_lt_of_dayOfChars? hday
    have hle := length_ofDay_le d cs₁
    rw [Option.some.injEq] at h
    rw [h] at hle
    exact Nat.lt_of_le_of_lt hle this
  · obtain ⟨⟨c, cs₁⟩, hclock, heq⟩ := Option.map_eq_some_iff.mp h
    have := length_lt_of_clockOfChars? hclock
    cases heq
    omega

end Changelog.Toml
