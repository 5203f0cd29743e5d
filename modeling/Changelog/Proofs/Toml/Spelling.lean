import Changelog.Toml.Printer
import Mathlib

/-!
# Lines of strings between double quotes

A character can be written inside a string in more than one way, since the digits of an escape may be
in either case.  Each way is read back in front of whatever follows: a character, a string, a line with
a key and a string, and a table under its header.

A value without characters is written as two quotes, and the reader looks for a third one.  There is
none, because the line ends after the value.
-/

namespace Changelog.Toml

/-! ## Strings -/

/-- The ways to write a character: a quote or a backslash behind a backslash, a control character by
four digits, and any other character as itself. -/
inductive Spells : Char → List Char → Prop
  | marked {c : Char} (hmark : c = '"' ∨ c = '\\') : Spells c ['\\', c]
  | coded {c : Char} {digits : List Char} (hcontrol : isControl c = true)
      (hlength : digits.length = 4) (hcode : Text.hexNumber? digits = some c.toNat) :
      Spells c ('\\' :: 'u' :: digits)
  | plain {c : Char} (hmark : ¬(c = '"' ∨ c = '\\')) (hcontrol : isControl c = false) :
      Spells c [c]

/-- The ways to write a string with its quotes. -/
inductive Quotes (text : String) : List Char → Prop
  | intro {pieces : List (List Char)} (h : List.Forall₂ Spells text.toList pieces) :
      Quotes text ('"' :: (pieces.flatten ++ ['"']))

variable {c : Char} {text name : String}

theorem isPlain_of_isControl (h : isControl c = false) : isPlain c = true := by
  simp only [isControl, Bool.or_eq_false_iff, decide_eq_false_iff_not, Bool.and_eq_false_iff] at h
  simp only [isPlain, Bool.or_eq_true, Bool.and_eq_true, decide_eq_true_eq, bne_iff_ne]
  right
  omega

theorem lt_of_isControl (h : isControl c = true) : c.toNat < 0x100 := by
  simp only [isControl, Bool.or_eq_true, Bool.and_eq_true, decide_eq_true_eq] at h
  omega

theorem charOfCode?_toNat (c : Char) : charOfCode? c.toNat = some c := by
  have hvalid : c.toNat.isValidChar := c.valid
  rw [charOfCode?, if_pos hvalid, Char.ofNat_toNat]

theorem escape?_marked (hmark : c = '"' ∨ c = '\\') (rest : List Char) :
    escape? (c :: rest) = some (c, rest) := by
  rcases hmark with rfl | rfl <;> rfl

theorem escape?_coded
    {digits : List Char} (hlength : digits.length = 4)
    (hcode : Text.hexNumber? digits = some c.toNat) (rest : List Char) :
    escape? ('u' :: (digits ++ rest)) = some (c, rest) := by
  have hlong : 4 ≤ (digits ++ rest).length := by simp [hlength]
  rw [escape?, escape?.coded?, if_pos hlong, List.take_left' hlength, List.drop_left' hlength, hcode]
  simp [charOfCode?_toNat]

theorem basic?_of_escape? {cs rest : List Char} (h : escape? cs = some (c, rest)) :
    basic? ('\\' :: cs) = (basic? rest).map fun (text, rest) => (c :: text, rest) := by
  rw [basic?]
  split
  · rename_i hnone
    rw [h] at hnone
    cases hnone
  · rename_i hsome
    rw [h] at hsome
    cases hsome
    rfl

/-- A character is read back, whatever follows it. -/
theorem Spells.basic?_append {piece : List Char} (h : Spells c piece) (rest : List Char) :
    basic? (piece ++ rest) = (basic? rest).map fun (text, rest) => (c :: text, rest) := by
  cases h with
  | marked hmark => exact basic?_of_escape? (escape?_marked hmark rest)
  | coded _ hlength hcode => exact basic?_of_escape? (escape?_coded hlength hcode rest)
  | plain hmark hcontrol =>
      obtain ⟨hquote, hslash⟩ := not_or.mp hmark
      rw [List.singleton_append, basic?, if_pos (isPlain_of_isControl hcontrol)]
      · exact hquote
      · exact hslash

/-- A text is read back up to the closing quote. -/
theorem basic?_flatten_append
    {cs : List Char} {pieces : List (List Char)} (h : List.Forall₂ Spells cs pieces)
    (rest : List Char) : basic? (pieces.flatten ++ '"' :: rest) = some (cs, rest) := by
  induction h with
  | nil => rw [List.flatten_nil, List.nil_append, basic?]
  | cons hc _ ih =>
      rw [List.flatten_cons, List.append_assoc, hc.basic?_append, ih]
      rfl

theorem Spells.head?_ne_quote {piece : List Char} (h : Spells c piece) : piece.head? ≠ some '"' := by
  intro hhead
  cases h with
  | marked _ => exact absurd (Option.some.inj hhead) (by decide)
  | coded _ _ _ => exact absurd (Option.some.inj hhead) (by decide)
  | plain hmark _ => exact hmark (Or.inl (Option.some.inj hhead))

theorem Spells.ne_nil {piece : List Char} (h : Spells c piece) : piece ≠ [] := by
  cases h <;> exact List.cons_ne_nil _ _

/-- Two quotes without a third one begin a string on one line. -/
theorem string?_eq_basic? {cs : List Char} (h : ∀ rest, cs ≠ '"' :: '"' :: rest) :
    string? ('"' :: cs) = basic? cs := by
  unfold string?
  split
  · rename_i rest heq
    exact absurd (List.cons.inj heq).2 (h rest)
  · rename_i rest _ heq
    rw [(List.cons.inj heq).2]
  · rename_i heq
    exact absurd (List.cons.inj heq).1 (by decide)
  · rename_i heq
    exact absurd (List.cons.inj heq).1 (by decide)
  · rename_i hquote _ _
    exact absurd rfl (hquote cs)

theorem Quotes.part?_append {cs : List Char} (h : Quotes text cs) (rest : List Char) :
    part? (cs ++ rest) = some (text.toList, rest) := by
  obtain ⟨hpieces⟩ := h
  rw [List.cons_append, List.append_assoc, List.singleton_append, part?]
  exact basic?_flatten_append hpieces rest

theorem Quotes.string?_append {cs : List Char} (h : Quotes text cs) (rest : List Char) :
    string? (cs ++ '\n' :: rest) = some (text.toList, '\n' :: rest) := by
  obtain ⟨hpieces⟩ := h
  rw [List.cons_append, List.append_assoc, List.singleton_append, string?_eq_basic?]
  · exact basic?_flatten_append hpieces _
  · intro tail heq
    generalize text.toList = cs at hpieces
    cases hpieces with
    | nil => exact absurd (List.cons.inj (List.cons.inj heq).2).1 (by decide)
    | cons hc _ =>
        apply hc.head?_ne_quote
        rw [List.flatten_cons, List.append_assoc] at heq
        rw [← List.head?_append_of_ne_nil _ hc.ne_nil, heq]
        rfl

/-! ## Statements -/

theorem skipBlanks_cons {cs : List Char} (h : isBlank c = false) : skipBlanks (c :: cs) = c :: cs :=
  List.dropWhile_cons_of_neg (by simp [h])

theorem skipFiller_cons
    {cs : List Char} (hblank : isBlank c = false) (hother : c ≠ '\n' ∧ c ≠ '\r' ∧ c ≠ '#') :
    skipFiller (c :: cs) = c :: cs := by
  obtain ⟨hfeed, hreturn, hcomment⟩ := hother
  rw [skipFiller, if_neg (by simp [hblank])]
  · exact hfeed
  · exact fun _ h => absurd h hreturn
  · exact hcomment

theorem endOfLine?_lineFeed (rest : List Char) : endOfLine? ('\n' :: rest) = some rest := rfl

/-- A key with one part ends where something other than a dot follows. -/
theorem path?_of_part?
    {cs part rest : List Char} (h : part? cs = some (part, rest))
    (hrest : ∀ more, skipBlanks rest ≠ '.' :: more) :
    path? cs = some ([.ofList part], skipBlanks rest) := by
  rw [path?]
  split
  · rename_i hnone
    rw [h] at hnone
    cases hnone
  · rename_i hsome
    rw [h] at hsome
    cases hsome
    split
    · rename_i more hmore
      exact absurd hmore (hrest more)
    · rfl

theorem value?_of_string?
    {cs value rest : List Char} (h : string? ('"' :: cs) = some (value, rest)) :
    value? ('"' :: cs) = some (.text (.ofList value), rest) := by
  change plainValue? ('"' :: cs) = _
  rw [plainValue?, h]

theorem statement?_of_path?
    {cs rest : List Char} {path : Path} (h : path? ('"' :: cs) = some (path, '=' :: rest)) :
    statement? ('"' :: cs) =
      (value? (skipBlanks rest)).map fun (value, rest) => (.entry path value, rest) := by
  rw [statement?, h]
  · rfl
  · intro tail heq
    exact absurd (List.cons.inj heq).1 (by decide)

theorem statements?_of_statement?
    {cs rest next : List Char} {statement : Statement} (hfirst : skipFiller cs = cs)
    (h : statement? cs = some (statement, rest)) (hend : endOfLine? rest = some next) :
    statements? cs = (statements? next).map (statement :: ·) := by
  rw [statements?]
  split
  · rename_i hempty
    have hlength := length_lt_of_statement? h
    rw [← hfirst, hempty] at hlength
    exact absurd hlength (Nat.not_lt_zero _)
  · rw [hfirst]
    split
    · rename_i hnone
      rw [h] at hnone
      cases hnone
    · rename_i hsome
      rw [h] at hsome
      cases hsome
      split
      · rename_i hnone
        rw [hend] at hnone
        cases hnone
      · rename_i hsome
        rw [hend] at hsome
        cases hsome
        rfl

/-- The ways to write the line of an entry. -/
inductive EntryLine (entry : String × String) : List Char → Prop
  | intro {key value : List Char} (hkey : Quotes entry.1 key) (hvalue : Quotes entry.2 value) :
      EntryLine entry (key ++ ([' ', '=', ' '] ++ (value ++ ['\n'])))

/-- The statement of an entry. -/
def entryStatement (entry : String × String) : Statement := .entry [entry.1] (.text entry.2)

theorem Quotes.exists_cons {cs : List Char} (h : Quotes text cs) : ∃ tail, cs = '"' :: tail := by
  obtain ⟨_⟩ := h
  exact ⟨_, rfl⟩

theorem EntryLine.statement?_append
    {entry : String × String} {line : List Char} (h : EntryLine entry line) (rest : List Char) :
    statement? (line ++ rest) = some (entryStatement entry, '\n' :: rest) := by
  obtain ⟨hkey, hvalue⟩ := h
  have hstring := hvalue.string?_append rest
  obtain ⟨key, rfl⟩ := hkey.exists_cons
  obtain ⟨value, rfl⟩ := hvalue.exists_cons
  have hpath := path?_of_part?
    (hkey.part?_append (' ' :: '=' :: ' ' :: '"' :: (value ++ '\n' :: rest)))
    fun more heq => absurd (List.cons.inj heq).1 (by decide)
  rw [List.cons_append] at hstring hpath
  have hvalue : value? ('"' :: (value ++ '\n' :: rest)) = some (.text entry.2, '\n' :: rest) := by
    rw [value?_of_string? hstring, String.ofList_toList]
  have hline : '"' :: key ++ ([' ', '=', ' '] ++ ('"' :: value ++ ['\n'])) ++ rest =
      '"' :: (key ++ ' ' :: '=' :: ' ' :: '"' :: (value ++ '\n' :: rest)) := by
    simp
  rw [hline, statement?_of_path? hpath]
  change (value? ('"' :: (value ++ '\n' :: rest))).map _ = _
  rw [hvalue, String.ofList_toList]
  rfl

theorem EntryLine.statements?_append
    {entry : String × String} {line : List Char} (h : EntryLine entry line) (rest : List Char) :
    statements? (line ++ rest) = (statements? rest).map (entryStatement entry :: ·) := by
  apply statements?_of_statement? _ (h.statement?_append rest) (endOfLine?_lineFeed rest)
  obtain ⟨hkey, _⟩ := h
  obtain ⟨tail, rfl⟩ := hkey.exists_cons
  exact skipFiller_cons (by decide) (by decide)

/-! ## Tables -/

/-- A name that needs no quotes. -/
structure IsBareName (name : String) : Prop where
  ne_nil : name.toList ≠ []
  bare : ∀ c ∈ name.toList, isBare c = true

theorem IsBareName.exists_cons (h : IsBareName name) :
    ∃ first others, name.toList = first :: others ∧ isBare first = true := by
  obtain ⟨first, others, hname⟩ := List.exists_cons_of_ne_nil h.ne_nil
  refine ⟨first, others, hname, h.bare first ?_⟩
  rw [hname]
  exact List.mem_cons_self

theorem IsBareName.part?_append (h : IsBareName name) (rest : List Char) :
    part? (name.toList ++ ']' :: rest) = some (name.toList, ']' :: rest) := by
  have hrun : Text.run? isBare (name.toList ++ ']' :: rest) = some (name.toList, ']' :: rest) := by
    refine Text.run?_eq_some_iff.mpr ⟨h.ne_nil, rfl, h.bare, fun c hc => ?_⟩
    obtain rfl := Option.some.inj hc
    decide
  obtain ⟨first, others, hname, hfirst⟩ := h.exists_cons
  rw [hname, List.cons_append] at hrun ⊢
  rw [part?]
  · exact hrun
  · intro tail heq
    rw [(List.cons.inj heq).1] at hfirst
    exact absurd hfirst (by decide)
  · intro tail heq
    rw [(List.cons.inj heq).1] at hfirst
    exact absurd hfirst (by decide)

theorem IsBareName.skipBlanks_append (h : IsBareName name) (rest : List Char) :
    skipBlanks (name.toList ++ rest) = name.toList ++ rest := by
  obtain ⟨first, others, hname, hfirst⟩ := h.exists_cons
  rw [hname, List.cons_append]
  apply skipBlanks_cons
  by_contra hblank
  simp only [isBlank, Bool.not_eq_false, Bool.or_eq_true, beq_iff_eq] at hblank
  rcases hblank with rfl | rfl
  · exact absurd hfirst (by decide)
  · exact absurd hfirst (by decide)

theorem IsBareName.statement?_headerLine (h : IsBareName name) (rest : List Char) :
    statement? (headerLine name ++ rest) = some (.header [name], '\n' :: rest) := by
  have hline : headerLine name ++ rest = '[' :: (name.toList ++ ']' :: '\n' :: rest) := by
    simp [headerLine]
  have hpath := path?_of_part? (h.part?_append ('\n' :: rest))
    fun more heq => absurd (List.cons.inj heq).1 (by decide)
  rw [hline, statement?, h.skipBlanks_append, hpath, String.ofList_toList]
  rfl

theorem IsBareName.statements?_headerLine (h : IsBareName name) (rest : List Char) :
    statements? (headerLine name ++ rest) =
      (statements? rest).map (.header [name] :: ·) := by
  apply statements?_of_statement? _ (h.statement?_headerLine rest) (endOfLine?_lineFeed rest)
  exact skipFiller_cons (by decide) (by decide)

/-- The ways to write a table under its header. -/
inductive TableText (name : String) (entries : List (String × String)) : List Char → Prop
  | intro {lines : List (List Char)} (h : List.Forall₂ EntryLine entries lines) :
      TableText name entries (headerLine name ++ lines.flatten)

theorem statements?_flatten_append
    {entries : List (String × String)} {lines : List (List Char)}
    (h : List.Forall₂ EntryLine entries lines) (rest : List Char) :
    statements? (lines.flatten ++ rest) =
      (statements? rest).map (entries.map entryStatement ++ ·) := by
  induction h with
  | nil => simp
  | cons hline _ ih =>
      rw [List.flatten_cons, List.append_assoc, hline.statements?_append, ih, Option.map_map]
      rfl

/-- A table is read back, whatever follows it. -/
theorem TableText.statements?_append
    {entries : List (String × String)} {cs : List Char} (h : TableText name entries cs)
    (hname : IsBareName name) (rest : List Char) :
    statements? (cs ++ rest) =
      (statements? rest).map ((.header [name] :: entries.map entryStatement) ++ ·) := by
  obtain ⟨hlines⟩ := h
  rw [List.append_assoc, hname.statements?_headerLine, statements?_flatten_append hlines,
    Option.map_map]
  rfl

theorem TableText.head?_append
    {entries : List (String × String)} {cs : List Char} (h : TableText name entries cs)
    (rest : List Char) : (cs ++ rest).head? = some '[' := by
  obtain ⟨_⟩ := h
  rfl

/-- A document that begins with a table has no mark in front of it. -/
theorem document?_of_head? {cs : List Char} (h : cs.head? = some '[') :
    document? (.ofList cs) = statements? cs := by
  obtain ⟨rest, rfl⟩ := List.head?_eq_some_iff.mp h
  rw [document?, String.toList_ofList]
  rfl

/-! ## The form that is written -/

theorem spells_escape (c : Char) : Spells c (escape c) := by
  unfold escape
  split
  · rename_i hmark
    exact .marked hmark
  · rename_i hmark
    split
    · rename_i hcontrol
      exact .coded hcontrol rfl (Text.hexNumber?_hexDigits (lt_of_isControl hcontrol))
    · rename_i hcontrol
      exact .plain hmark (by simpa using hcontrol)

theorem quotes_quote (text : String) : Quotes text (quote text) := by
  have hpieces : List.Forall₂ Spells text.toList (text.toList.map escape) := by
    rw [List.forall₂_map_right_iff]
    exact List.forall₂_same.mpr fun c _ => spells_escape c
  have h := Quotes.intro hpieces
  rwa [← List.flatMap_def] at h

theorem entryLine_entryLine (entry : String × String) :
    EntryLine entry (entryLine entry.1 entry.2) := by
  have h := EntryLine.intro (quotes_quote entry.1) (quotes_quote entry.2)
  rwa [← List.append_assoc, ← List.append_assoc] at h

theorem tableText_tableLines (name : String) (entries : List (String × String)) :
    TableText name entries (tableLines name entries) := by
  have hlines : List.Forall₂ EntryLine entries
      (entries.map fun entry => entryLine entry.1 entry.2) := by
    rw [List.forall₂_map_right_iff]
    exact List.forall₂_same.mpr fun entry _ => entryLine_entryLine entry
  have h : TableText name entries _ := .intro hlines
  rwa [← List.flatMap_def] at h

end Changelog.Toml
