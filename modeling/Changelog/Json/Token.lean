import Changelog.Json.Basic
import Changelog.Text.Hex
import Changelog.Text.Run

/-!
# JSON tokens

The reading of a JSON text begins with its division into tokens: six punctuation marks, strings,
and the literals that are a value by themselves.  Blanks between tokens are dropped.

A string is read in two steps.  First each character or escape gives a unit, which is a character
or one half of a surrogate pair.  Then adjacent halves are joined.  Splitting the work keeps the
question whether a string is well formed apart from the question whether it stands for a text.
-/

namespace Changelog.Json

/-- A piece of a string: a character, or one half of a surrogate pair that an escape spells. -/
inductive StringUnit
  | char (c : Char)
  | half (code : Nat)
  deriving DecidableEq, Repr

/-- A code from a four-digit escape, as a character unless it is one half of a pair. -/
def StringUnit.ofCode (code : Nat) : StringUnit :=
  if 0xd800 ≤ code ∧ code ≤ 0xdfff then half code else char (Char.ofNat code)

/-- The character that a backslash and one more character stand for. -/
def escaped? : Char → Option Char
  | '"' => some '"'
  | '\\' => some '\\'
  | '/' => some '/'
  | 'b' => some '\x08'
  | 'f' => some '\x0c'
  | 'n' => some '\n'
  | 'r' => some '\r'
  | 't' => some '\t'
  | _ => none

/-- The units of a string up to its closing quote, with what follows the quote.  Control characters
below U+0020 must be escaped. -/
def stringUnits? : List Char → Option (List StringUnit × List Char)
  | [] => none
  | '"' :: rest => some ([], rest)
  | '\\' :: 'u' :: a :: b :: c :: d :: rest => do
    let code ← Text.hexNumber? [a, b, c, d]
    let (units, rest) ← stringUnits? rest
    return (.ofCode code :: units, rest)
  | '\\' :: e :: rest => do
    let c ← escaped? e
    let (units, rest) ← stringUnits? rest
    return (.char c :: units, rest)
  | c :: rest =>
    if c.toNat < 0x20 then none
    else do
      let (units, rest) ← stringUnits? rest
      return (.char c :: units, rest)

/-- A string takes up some of the text. -/
theorem length_lt_of_stringUnits?
    {cs rest : List Char} {units : List StringUnit} (h : stringUnits? cs = some (units, rest)) :
    rest.length < cs.length := by
  fun_induction stringUnits? cs generalizing units rest with
  | case1 => simp at h
  | case2 tail => grind
  | case3 a b c d tail ih =>
    simp only [Option.bind_eq_bind, Option.bind_eq_some_iff] at h
    obtain ⟨_, -, ⟨us, r⟩, hr, heq⟩ := h
    have := ih hr
    simp only [Option.pure_def, Option.some.injEq, Prod.mk.injEq] at heq
    simp only [← heq.2, List.length_cons]
    omega
  | case4 e tail _ ih =>
    simp only [Option.bind_eq_bind, Option.bind_eq_some_iff] at h
    obtain ⟨_, -, ⟨us, r⟩, hr, heq⟩ := h
    have := ih hr
    simp only [Option.pure_def, Option.some.injEq, Prod.mk.injEq] at heq
    simp only [← heq.2, List.length_cons]
    omega
  | case5 => simp at h
  | case6 c tail _ _ _ _ ih =>
    simp only [Option.bind_eq_bind, Option.bind_eq_some_iff] at h
    obtain ⟨⟨us, r⟩, hr, heq⟩ := h
    have := ih hr
    simp only [Option.pure_def, Option.some.injEq, Prod.mk.injEq] at heq
    simp only [← heq.2, List.length_cons]
    omega

/-- Join halves of surrogate pairs.  A high half must stand directly before a low one. -/
def joinUnits? : List StringUnit → Option (List Char)
  | [] => some []
  | .char c :: units => (joinUnits? units).map (c :: ·)
  | .half high :: .half low :: units =>
    if high < 0xdc00 ∧ 0xdc00 ≤ low then
      (joinUnits? units).map (Char.ofNat (0x10000 + (high - 0xd800) * 0x400 + (low - 0xdc00)) :: ·)
    else none
  | .half _ :: _ => none

/-- What the units of a string stand for. -/
def Str.ofUnits (units : List StringUnit) : Str :=
  match joinUnits? units with
  | some cs => .text (.ofList cs)
  | none => .unpaired

/-- The whole part of a number: a single zero, or digits that do not begin with one. -/
def wholePart? : List Char → Option (List Char × List Char)
  | '0' :: rest => some (['0'], rest)
  | cs => Text.run? Char.isDigit cs

/-- The fraction of a number, which may be missing. -/
def fraction? : List Char → Option (List Char × List Char)
  | '.' :: rest => (Text.run? Char.isDigit rest).map fun (digits, rest) => ('.' :: digits, rest)
  | cs => some ([], cs)

/-- The exponent of a number, which may be missing. -/
def exponent? : List Char → Option (List Char × List Char)
  | c :: rest =>
    if c = 'e' ∨ c = 'E' then
      match rest with
      | s :: digits =>
        if s = '+' ∨ s = '-' then
          (Text.run? Char.isDigit digits).map fun (digits, rest) => (c :: s :: digits, rest)
        else (Text.run? Char.isDigit rest).map fun (digits, rest) => (c :: digits, rest)
      | [] => none
    else some ([], c :: rest)
  | [] => some ([], [])

/-- A number without its sign, with what follows it. -/
def magnitude? (cs : List Char) : Option (List Char × List Char) := do
  let (whole, rest) ← wholePart? cs
  let (fraction, rest) ← fraction? rest
  let (exponent, rest) ← exponent? rest
  return (whole ++ fraction ++ exponent, rest)

/-- A number takes up some of the text. -/
theorem length_lt_of_magnitude?
    {cs digits rest : List Char} (h : magnitude? cs = some (digits, rest)) :
    rest.length < cs.length := by
  have hwhole : ∀ {cs whole rest}, wholePart? cs = some (whole, rest) →
      rest.length < cs.length := by
    intro cs whole rest h
    unfold wholePart? at h
    split at h
    · grind
    · exact Text.length_lt_of_run? h
  have hfraction : ∀ {cs fraction rest}, fraction? cs = some (fraction, rest) →
      rest.length ≤ cs.length := by
    intro cs fraction rest h
    unfold fraction? at h
    split at h
    · simp only [Option.map_eq_some_iff] at h
      obtain ⟨⟨run, r⟩, hr, heq⟩ := h
      have := Text.length_lt_of_run? hr
      grind
    · grind
  have hexponent : ∀ {cs exponent rest}, exponent? cs = some (exponent, rest) →
      rest.length ≤ cs.length := by
    intro cs exponent rest h
    unfold exponent? at h
    split at h
    · split at h
      · split at h
        · split at h
          all_goals
            simp only [Option.map_eq_some_iff] at h
            obtain ⟨⟨run, r⟩, hr, heq⟩ := h
            have := Text.length_lt_of_run? hr
            grind
        · simp at h
      · grind
    · grind
  simp only [magnitude?, Option.bind_eq_bind, Option.bind_eq_some_iff] at h
  obtain ⟨⟨_, r₁⟩, h₁, ⟨_, r₂⟩, h₂, ⟨_, r₃⟩, h₃, heq⟩ := h
  have := hwhole h₁
  have := hfraction h₂
  have := hexponent h₃
  grind

/-- A token. -/
inductive Token
  | beginArray
  | endArray
  | beginObject
  | endObject
  | colon
  | comma
  | string (s : Str)
  | literal (v : Json)
  deriving Repr

namespace Token

/-- Blanks between tokens. -/
def isSpace (c : Char) : Bool :=
  c == ' ' || c == '\t' || c == '\n' || c == '\r'

/-- The first token of a text that begins with no blank, with what follows it. -/
def next? : List Char → Option (Token × List Char)
  | '[' :: rest => some (beginArray, rest)
  | ']' :: rest => some (endArray, rest)
  | '{' :: rest => some (beginObject, rest)
  | '}' :: rest => some (endObject, rest)
  | ':' :: rest => some (colon, rest)
  | ',' :: rest => some (comma, rest)
  | '"' :: rest => (stringUnits? rest).map fun (units, rest) => (string (.ofUnits units), rest)
  | 'n' :: 'u' :: 'l' :: 'l' :: rest => some (literal .null, rest)
  | 't' :: 'r' :: 'u' :: 'e' :: rest => some (literal (.bool true), rest)
  | 'f' :: 'a' :: 'l' :: 's' :: 'e' :: rest => some (literal (.bool false), rest)
  | '-' :: rest =>
    (magnitude? rest).map fun (digits, rest) => (literal (.number (.ofList ('-' :: digits))), rest)
  | cs => (magnitude? cs).map fun (digits, rest) => (literal (.number (.ofList digits)), rest)

/-- A token takes up some of the text. -/
theorem length_lt_of_next?
    {cs rest : List Char} {token : Token} (h : next? cs = some (token, rest)) :
    rest.length < cs.length := by
  unfold next? at h
  split at h
  case h_7 =>
    simp only [Option.map_eq_some_iff] at h
    obtain ⟨⟨units, r⟩, hr, heq⟩ := h
    have := length_lt_of_stringUnits? hr
    grind
  case h_11 | h_12 =>
    simp only [Option.map_eq_some_iff] at h
    obtain ⟨⟨digits, r⟩, hr, heq⟩ := h
    have := length_lt_of_magnitude? hr
    grind
  all_goals grind

/-- The tokens of a text. -/
def scan? : List Char → Option (List Token)
  | [] => some []
  | c :: cs =>
    if isSpace c then scan? cs
    else
      match _h : next? (c :: cs) with
      | none => none
      | some (token, rest) => (scan? rest).map (token :: ·)
  termination_by cs => cs.length
  decreasing_by
    · simp
    · exact length_lt_of_next? _h

end Token

end Changelog.Json
