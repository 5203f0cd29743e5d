import Changelog.Text.Hex
import Changelog.Text.Run

/-!
# Strings and line breaks of TOML

A TOML document is read from left to right, and each reader of this module returns what follows
the part that it has read.  Strings come in four forms: between double quotes escapes are
understood, between single quotes nothing is, and either quote written three times lets the string
run over several lines.  A line break is a line feed with or without a carriage return before it.
Apart from line breaks and tabs, no control character may stand for itself anywhere.
-/

namespace Changelog.Toml

/-- Blanks within a line. -/
def isBlank (c : Char) : Bool := c == ' ' || c == '\t'

/-- Characters that may stand for themselves within a line. -/
def isPlain (c : Char) : Bool := c == '\t' || (0x20 ≤ c.toNat && c.toNat != 0x7f)

/-- What follows the blanks at the start. -/
def skipBlanks (cs : List Char) : List Char := cs.dropWhile isBlank

/-- What follows a line break. -/
def lineBreak? : List Char → Option (List Char)
  | '\n' :: rest => some rest
  | '\r' :: '\n' :: rest => some rest
  | _ => none

/-- What follows blanks, line breaks and comments.  A comment ends where no plain character
follows. -/
def skipFiller : List Char → List Char
  | [] => []
  | '\n' :: rest => skipFiller rest
  | '\r' :: '\n' :: rest => skipFiller rest
  | '#' :: rest => skipFiller (rest.dropWhile isPlain)
  | c :: rest => if isBlank c then skipFiller rest else c :: rest
  termination_by cs => cs.length
  decreasing_by
    · simp
    · simp only [List.length_cons]
      omega
    · have := (List.dropWhile_suffix (l := rest) isPlain).length_le
      simp only [List.length_cons]
      omega
    · simp

/-- What follows the comment at the start, if there is one. -/
def skipComment : List Char → List Char
  | '#' :: comment => comment.dropWhile isPlain
  | cs => cs

/-- What follows the blanks, the comment and the line break at the end of a line.  At the end of
the text the line break may be missing. -/
def endOfLine? (cs : List Char) : Option (List Char) :=
  match skipComment (skipBlanks cs) with
  | [] => some []
  | rest => lineBreak? rest

/-- The character with a code point, which must be no surrogate. -/
def charOfCode? (code : Nat) : Option Char :=
  if code.isValidChar then some (Char.ofNat code) else none

/-- The character that an escape stands for, with what follows it.  The backslash is read. -/
def escape? : List Char → Option (Char × List Char)
  | 'b' :: rest => some ('\x08', rest)
  | 't' :: rest => some ('\t', rest)
  | 'n' :: rest => some ('\n', rest)
  | 'f' :: rest => some ('\x0c', rest)
  | 'r' :: rest => some ('\r', rest)
  | 'e' :: rest => some ('\x1b', rest)
  | '"' :: rest => some ('"', rest)
  | '\\' :: rest => some ('\\', rest)
  | 'x' :: rest => coded? 2 rest
  | 'u' :: rest => coded? 4 rest
  | 'U' :: rest => coded? 8 rest
  | _ => none
where
  /-- The character whose code point the next digits spell, with what follows them. -/
  coded? (count : Nat) (cs : List Char) : Option (Char × List Char) :=
    if count ≤ cs.length then
      ((Text.hexNumber? (cs.take count)).bind charOfCode?).map (·, cs.drop count)
    else none

/-- An escape takes up some of the text. -/
theorem length_lt_of_escape?
    {cs rest : List Char} {c : Char} (h : escape? cs = some (c, rest)) :
    rest.length < cs.length := by
  have hcoded : ∀ {count cs}, escape?.coded? count cs = some (c, rest) →
      rest.length ≤ cs.length := by
    intro count cs h
    unfold escape?.coded? at h
    split at h
    · simp only [Option.map_eq_some_iff, Prod.mk.injEq] at h
      obtain ⟨_, -, -, rfl⟩ := h
      simp
    · simp at h
  unfold escape? at h
  split at h
  case h_9 | h_10 | h_11 =>
    have := hcoded h
    simp only [List.length_cons]
    omega
  all_goals grind

/-- The rest of a string between double quotes, with what follows the closing quote. -/
def basic? : List Char → Option (List Char × List Char)
  | [] => none
  | '"' :: rest => some ([], rest)
  | '\\' :: rest =>
    match _h : escape? rest with
    | none => none
    | some (c, rest) => (basic? rest).map fun (text, rest) => (c :: text, rest)
  | c :: rest =>
    if isPlain c then (basic? rest).map fun (text, rest) => (c :: text, rest) else none
  termination_by cs => cs.length
  decreasing_by
    · have := length_lt_of_escape? _h
      simp only [List.length_cons]
      omega
    · simp

/-- The rest of a string between single quotes, with what follows the closing quote. -/
def literal? : List Char → Option (List Char × List Char)
  | [] => none
  | '\'' :: rest => some ([], rest)
  | c :: rest =>
    if isPlain c then (literal? rest).map fun (text, rest) => (c :: text, rest) else none

/-- The end of a string over several lines: three quotes, before which up to two more belong to
the string.  The result is those, with what follows. -/
def closing? (quote : Char) (cs : List Char) : Option (List Char × List Char) :=
  let count := (cs.takeWhile (· == quote)).length
  if 3 ≤ count then some (List.replicate (min count 5 - 3) quote, cs.drop (min count 5)) else none

/-- Whether the first character may stand for itself in a string over several lines.  A carriage
return must belong to a line break. -/
def standsInLines : List Char → Bool
  | '\r' :: rest => rest.head? == some '\n'
  | c :: _ => c == '\n' || isPlain c
  | [] => false

/-- The rest of a string over several lines between single quotes, with what follows. -/
def multiLiteral? : List Char → Option (List Char × List Char)
  | [] => none
  | c :: rest =>
    match closing? '\'' (c :: rest) with
    | some found => some found
    | none =>
      if standsInLines (c :: rest) then
        (multiLiteral? rest).map fun (text, rest) => (c :: text, rest)
      else none

/-- What follows blanks and line breaks. -/
def skipBreaks : List Char → List Char
  | '\n' :: rest => skipBreaks rest
  | '\r' :: '\n' :: rest => skipBreaks rest
  | c :: rest => if isBlank c then skipBreaks rest else c :: rest
  | [] => []

/-- What follows a backslash at the end of a line: the line break and all blanks and line breaks
after it are no part of the string. -/
def continued? (cs : List Char) : Option (List Char) :=
  (lineBreak? (skipBlanks cs)).map skipBreaks

theorem length_skipBlanks_le (cs : List Char) : (skipBlanks cs).length ≤ cs.length :=
  (List.dropWhile_suffix isBlank).length_le

theorem length_skipBreaks_le (cs : List Char) : (skipBreaks cs).length ≤ cs.length := by
  fun_induction skipBreaks cs <;> simp_all only [List.length_cons, Nat.le_refl] <;> omega

theorem length_lt_of_lineBreak?
    {cs rest : List Char} (h : lineBreak? cs = some rest) : rest.length < cs.length := by
  unfold lineBreak? at h
  split at h <;> grind

theorem length_lt_of_continued?
    {cs rest : List Char} (h : continued? cs = some rest) : rest.length < cs.length := by
  simp only [continued?, Option.map_eq_some_iff] at h
  obtain ⟨r, hr, rfl⟩ := h
  have := length_lt_of_lineBreak? hr
  have := length_skipBlanks_le cs
  have := length_skipBreaks_le r
  omega

/-- The rest of a string over several lines between double quotes, with what follows. -/
def multiBasic? : List Char → Option (List Char × List Char)
  | [] => none
  | '\\' :: rest =>
    match _hc : continued? rest with
    | some rest => multiBasic? rest
    | none =>
      match _he : escape? rest with
      | some (c, rest) => (multiBasic? rest).map fun (text, rest) => (c :: text, rest)
      | none => none
  | c :: rest =>
    match closing? '"' (c :: rest) with
    | some found => some found
    | none =>
      if standsInLines (c :: rest) then
        (multiBasic? rest).map fun (text, rest) => (c :: text, rest)
      else none
  termination_by cs => cs.length
  decreasing_by
    · have := length_lt_of_continued? _hc
      simp only [List.length_cons]
      omega
    · have := length_lt_of_escape? _he
      simp only [List.length_cons]
      omega
    · simp

/-- What follows the opening quotes of a string over several lines.  A line break directly after
them is no part of the string. -/
def afterOpening (cs : List Char) : List Char := (lineBreak? cs).getD cs

/-- A string in any of its forms, with what follows it. -/
def string? : List Char → Option (List Char × List Char)
  | '"' :: '"' :: '"' :: rest => multiBasic? (afterOpening rest)
  | '"' :: rest => basic? rest
  | '\'' :: '\'' :: '\'' :: rest => multiLiteral? (afterOpening rest)
  | '\'' :: rest => literal? rest
  | _ => none

/-! ## Every reader takes up some of the text -/

theorem length_lt_of_basic?
    {cs text rest : List Char} (h : basic? cs = some (text, rest)) : rest.length < cs.length := by
  fun_induction basic? cs generalizing text rest with
  | case1 => simp at h
  | case2 tail => grind
  | case3 tail => simp at h
  | case4 tail c r hr ih =>
    simp only [Option.map_eq_some_iff] at h
    obtain ⟨⟨t, r'⟩, ht, heq⟩ := h
    have := ih ht
    have := length_lt_of_escape? hr
    grind
  | case5 c tail _ _ _ ih =>
    simp only [Option.map_eq_some_iff] at h
    obtain ⟨⟨t, r⟩, ht, heq⟩ := h
    have := ih ht
    grind
  | case6 => simp at h

theorem length_lt_of_literal?
    {cs text rest : List Char} (h : literal? cs = some (text, rest)) :
    rest.length < cs.length := by
  fun_induction literal? cs generalizing text rest with
  | case1 => simp at h
  | case2 tail => grind
  | case3 c tail _ _ ih =>
    simp only [Option.map_eq_some_iff] at h
    obtain ⟨⟨t, r⟩, ht, heq⟩ := h
    have := ih ht
    grind
  | case4 => simp at h

theorem length_lt_of_closing?
    {quote : Char} {cs text rest : List Char} (h : closing? quote cs = some (text, rest)) :
    rest.length < cs.length := by
  unfold closing? at h
  dsimp only at h
  split at h
  · simp only [Option.some.injEq, Prod.mk.injEq] at h
    have := (List.takeWhile_prefix (l := cs) (· == quote)).length_le
    rw [← h.2, List.length_drop]
    omega
  · simp at h

theorem length_lt_of_multiLiteral?
    {cs text rest : List Char} (h : multiLiteral? cs = some (text, rest)) :
    rest.length < cs.length := by
  fun_induction multiLiteral? cs generalizing text rest with
  | case1 => simp at h
  | case2 c tail found hfound =>
    simp only [Option.some.injEq] at h
    subst h
    exact length_lt_of_closing? hfound
  | case3 c tail _ _ ih =>
    simp only [Option.map_eq_some_iff] at h
    obtain ⟨⟨t, r⟩, ht, heq⟩ := h
    have := ih ht
    grind
  | case4 => simp at h

theorem length_lt_of_multiBasic?
    {cs text rest : List Char} (h : multiBasic? cs = some (text, rest)) :
    rest.length < cs.length := by
  fun_induction multiBasic? cs generalizing text rest with
  | case1 => simp at h
  | case2 tail r hr ih =>
    have := ih h
    have := length_lt_of_continued? hr
    grind
  | case3 tail _ c r hr ih =>
    simp only [Option.map_eq_some_iff] at h
    obtain ⟨⟨t, r'⟩, ht, heq⟩ := h
    have := ih ht
    have := length_lt_of_escape? hr
    grind
  | case4 => simp at h
  | case5 c tail _ found hfound =>
    simp only [Option.some.injEq] at h
    subst h
    exact length_lt_of_closing? hfound
  | case6 c tail _ _ _ ih =>
    simp only [Option.map_eq_some_iff] at h
    obtain ⟨⟨t, r⟩, ht, heq⟩ := h
    have := ih ht
    grind
  | case7 => simp at h

theorem length_afterOpening_le (cs : List Char) : (afterOpening cs).length ≤ cs.length := by
  unfold afterOpening
  cases h : lineBreak? cs with
  | none => simp
  | some rest =>
    have := length_lt_of_lineBreak? h
    simp only [Option.getD_some]
    omega

theorem length_lt_of_string?
    {cs text rest : List Char} (h : string? cs = some (text, rest)) : rest.length < cs.length := by
  unfold string? at h
  split at h
  · rename_i tail
    have := length_lt_of_multiBasic? h
    have := length_afterOpening_le tail
    simp only [List.length_cons]
    omega
  · have := length_lt_of_basic? h
    simp only [List.length_cons]
    omega
  · rename_i tail
    have := length_lt_of_multiLiteral? h
    have := length_afterOpening_le tail
    simp only [List.length_cons]
    omega
  · have := length_lt_of_literal? h
    simp only [List.length_cons]
    omega
  · simp at h

theorem length_skipFiller_le (cs : List Char) : (skipFiller cs).length ≤ cs.length := by
  fun_induction skipFiller cs with
  | case4 rest ih =>
    have := (List.dropWhile_suffix (l := rest) isPlain).length_le
    simp only [List.length_cons]
    omega
  | _ => simp_all only [List.length_cons, Nat.le_refl] <;> omega

theorem length_skipComment_le (cs : List Char) : (skipComment cs).length ≤ cs.length := by
  unfold skipComment
  split
  · rename_i comment
    have := (List.dropWhile_suffix (l := comment) isPlain).length_le
    simp only [List.length_cons]
    omega
  · exact Nat.le_refl _

theorem length_le_of_endOfLine?
    {cs rest : List Char} (h : endOfLine? cs = some rest) : rest.length ≤ cs.length := by
  have := length_skipComment_le (skipBlanks cs)
  have := length_skipBlanks_le cs
  unfold endOfLine? at h
  split at h
  · grind
  · have := length_lt_of_lineBreak? h
    omega

end Changelog.Toml
