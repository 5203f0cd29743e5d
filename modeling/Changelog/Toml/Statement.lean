import Changelog.Toml.Lexeme
import Changelog.Toml.Moment

/-!
# Statements of TOML

A document is a list of statements, one to a line: the header of a table, or a key with a value.
Only three sorts of values are read: strings, inline tables of strings, and moments, which can
stand for a table.  That is all a document of settings can hold, so a value of any other sort is
refused where it begins, and what it would look like need not be known.
-/

namespace Changelog.Toml

/-- A key, as the parts between its dots. -/
abbrev Path := List String

/-- A value. -/
inductive Value
  /-- A string. -/
  | text (s : String)
  /-- An inline table of strings. -/
  | table (entries : List (Path × String))
  /-- A date or a time. -/
  | moment (m : Moment)
  deriving DecidableEq, Repr

/-- A statement. -/
inductive Statement
  /-- The header of a table. -/
  | header (path : Path)
  /-- A key and its value. -/
  | entry (path : Path) (value : Value)
  deriving DecidableEq, Repr

/-- Characters of a key without quotes. -/
def isBare (c : Char) : Bool := c.isAlphanum || c == '_' || c == '-'

/-- One part of a key, with what follows it. -/
def part? : List Char → Option (List Char × List Char)
  | '"' :: rest => basic? rest
  | '\'' :: rest => literal? rest
  | cs => Text.run? isBare cs

theorem length_lt_of_part?
    {cs part rest : List Char} (h : part? cs = some (part, rest)) : rest.length < cs.length := by
  unfold part? at h
  split at h
  · have := length_lt_of_basic? h
    simp only [List.length_cons]
    omega
  · have := length_lt_of_literal? h
    simp only [List.length_cons]
    omega
  · exact Text.length_lt_of_run? h

/-- A key, with what follows it and the blanks after it. -/
def path? (cs : List Char) : Option (Path × List Char) :=
  match _h : part? cs with
  | none => none
  | some (part, rest) =>
    match _hr : skipBlanks rest with
    | '.' :: more =>
      (path? (skipBlanks more)).map fun (path, rest) => (.ofList part :: path, rest)
    | rest => some ([.ofList part], rest)
  termination_by cs.length
  decreasing_by
    have := length_lt_of_part? _h
    have := length_skipBlanks_le rest
    have := length_skipBlanks_le more
    rw [_hr, List.length_cons] at *
    omega

theorem length_lt_of_path?
    {cs rest : List Char} {path : Path} (h : path? cs = some (path, rest)) :
    rest.length < cs.length := by
  fun_induction path? cs generalizing path rest with
  | case1 => simp at h
  | case2 cs part r hr more hmore ih =>
    simp only [Option.map_eq_some_iff] at h
    obtain ⟨⟨p, r'⟩, hp, heq⟩ := h
    have := ih hp
    have := length_lt_of_part? hr
    have := length_skipBlanks_le r
    have := length_skipBlanks_le more
    grind
  | case3 cs part r hr =>
    have := length_lt_of_part? hr
    have := length_skipBlanks_le r
    grind

/-- An entry of an inline table, a key with a string, with what follows.  Line breaks and comments
may stand around the equals sign. -/
def assignment? (cs : List Char) : Option ((Path × String) × List Char) := do
  let (path, rest) ← path? cs
  match skipFiller rest with
  | '=' :: rest => (string? (skipFiller rest)).map fun (text, rest) => ((path, .ofList text), rest)
  | _ => none

theorem length_lt_of_assignment?
    {cs rest : List Char} {entry : Path × String} (h : assignment? cs = some (entry, rest)) :
    rest.length < cs.length := by
  simp only [assignment?, Option.bind_eq_bind, Option.bind_eq_some_iff] at h
  obtain ⟨⟨path, r⟩, hp, h⟩ := h
  have := length_lt_of_path? hp
  have := length_skipFiller_le r
  dsimp only at h
  split at h
  · rename_i tail htail
    simp only [Option.map_eq_some_iff] at h
    obtain ⟨⟨text, r'⟩, ht, heq⟩ := h
    have := length_lt_of_string? ht
    have := length_skipFiller_le tail
    grind
  · simp at h

/-- The entries of an inline table from its first entry on, with what follows the table.  Line
breaks and comments may stand around entries, and a comma after the last one. -/
def entries? (cs : List Char) : Option (List (Path × String) × List Char) :=
  match _h : assignment? cs with
  | none => none
  | some (entry, rest) =>
    match _hr : skipFiller rest with
    | '}' :: rest => some ([entry], rest)
    | ',' :: more =>
      match _hm : skipFiller more with
      | '}' :: rest => some ([entry], rest)
      | next => (entries? next).map fun (entries, rest) => (entry :: entries, rest)
    | _ => none
  termination_by cs.length
  decreasing_by
    have := length_lt_of_assignment? _h
    have := length_skipFiller_le rest
    have := length_skipFiller_le more
    rw [_hr, List.length_cons] at *
    grind

/-- An inline table after its opening brace, with what follows it. -/
def table? (cs : List Char) : Option (List (Path × String) × List Char) :=
  match skipFiller cs with
  | '}' :: rest => some ([], rest)
  | rest => entries? rest

/-- A value that is no inline table, with what follows it. -/
def plainValue? (cs : List Char) : Option (Value × List Char) :=
  match string? cs with
  | some (text, rest) => some (.text (.ofList text), rest)
  | none => (Moment.ofChars? cs).map fun (m, rest) => (.moment m, rest)

/-- A value, with what follows it. -/
def value? : List Char → Option (Value × List Char)
  | '{' :: rest => (table? rest).map fun (entries, rest) => (.table entries, rest)
  | cs => plainValue? cs

/-- A statement, with what follows it. -/
def statement? : List Char → Option (Statement × List Char)
  | '[' :: rest =>
    match path? (skipBlanks rest) with
    | some (path, ']' :: rest) => some (.header path, rest)
    | _ => none
  | cs =>
    match path? cs with
    | some (path, '=' :: rest) =>
      (value? (skipBlanks rest)).map fun (value, rest) => (.entry path value, rest)
    | _ => none

theorem length_lt_of_entries?
    {cs rest : List Char} {entries : List (Path × String)}
    (h : entries? cs = some (entries, rest)) : rest.length < cs.length := by
  fun_induction entries? cs generalizing entries rest with
  | case1 => simp at h
  | case2 cs entry r hr tail htail =>
    have := length_lt_of_assignment? hr
    have := length_skipFiller_le r
    grind
  | case3 cs entry r hr more hmore tail htail =>
    have := length_lt_of_assignment? hr
    have := length_skipFiller_le r
    have := length_skipFiller_le more
    grind
  | case4 cs entry r hr more hmore _ ih =>
    simp only [Option.map_eq_some_iff] at h
    obtain ⟨⟨e, r'⟩, he, heq⟩ := h
    have := ih he
    have := length_lt_of_assignment? hr
    have := length_skipFiller_le r
    have := length_skipFiller_le more
    grind
  | case5 => simp at h

theorem length_lt_of_plainValue?
    {cs rest : List Char} {value : Value} (h : plainValue? cs = some (value, rest)) :
    rest.length < cs.length := by
  unfold plainValue? at h
  split at h
  · rename_i text r ht
    have := length_lt_of_string? ht
    grind
  · simp only [Option.map_eq_some_iff] at h
    obtain ⟨⟨m, r⟩, hm, heq⟩ := h
    have := length_lt_of_momentOfChars? hm
    grind

theorem length_le_of_value?
    {cs rest : List Char} {value : Value} (h : value? cs = some (value, rest)) :
    rest.length ≤ cs.length := by
  unfold value? at h
  split at h
  · rename_i tail
    simp only [Option.map_eq_some_iff] at h
    obtain ⟨⟨entries, r⟩, he, heq⟩ := h
    unfold table? at he
    have := length_skipFiller_le tail
    split at he
    · grind
    · have := length_lt_of_entries? he
      grind
  · exact Nat.le_of_lt (length_lt_of_plainValue? h)

theorem length_lt_of_statement?
    {cs rest : List Char} {statement : Statement} (h : statement? cs = some (statement, rest)) :
    rest.length < cs.length := by
  unfold statement? at h
  split at h
  · rename_i tail
    split at h
    · rename_i path r hp
      have := length_lt_of_path? hp
      have := length_skipBlanks_le tail
      grind
    · simp at h
  · split at h
    · rename_i path r hp
      simp only [Option.map_eq_some_iff] at h
      obtain ⟨⟨value, r'⟩, hv, heq⟩ := h
      have := length_lt_of_path? hp
      have := length_le_of_value? hv
      have := length_skipBlanks_le r
      grind
    · simp at h

/-- The statements of a text. -/
def statements? (cs : List Char) : Option (List Statement) :=
  match _hs : skipFiller cs with
  | [] => some []
  | first =>
    match _h : statement? first with
    | none => none
    | some (statement, rest) =>
      match _hr : endOfLine? rest with
      | none => none
      | some rest => (statements? rest).map (statement :: ·)
  termination_by cs.length
  decreasing_by
    have := length_skipFiller_le cs
    have := length_lt_of_statement? _h
    have := length_le_of_endOfLine? _hr
    grind

/-- The statements of a document, which may begin with a byte order mark. -/
def document? (text : String) : Option (List Statement) :=
  match text.toList with
  | '\uFEFF' :: cs => statements? cs
  | cs => statements? cs

end Changelog.Toml
