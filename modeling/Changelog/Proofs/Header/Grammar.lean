import Changelog.Change.Basic
import Mathlib

/-!
# The grammar of conventional headers

A header is conventional when it can be written as a type code, a scope in parentheses or nothing,
a colon, and a rest that has a message.  The reader never tries two ways, and yet this is all of the
grammar: the code and the scope end where they must, so a header has at most one such reading.

The message is not what follows the blanks after the colon.  A rest of blanks only still has one,
unless it consists of line feeds, and then the message is a single blank.
-/

namespace Changelog

namespace Header

/-- A type code is a nonempty text of small ASCII letters. -/
def IsCode (code : List Char) : Prop :=
  code ≠ [] ∧ ∀ c ∈ code, 'a' ≤ c ∧ c ≤ 'z'

/-- A scope is a nonempty text of ASCII letters and digits, underscores, hyphens and blanks. -/
def IsScope (scope : List Char) : Prop :=
  scope ≠ [] ∧ ∀ c ∈ scope,
    ('A' ≤ c ∧ c ≤ 'Z') ∨ ('a' ≤ c ∧ c ≤ 'z') ∨ ('0' ≤ c ∧ c ≤ '9') ∨
      c = '_' ∨ c = '-' ∨ Text.isBlank c = true

/-- A scope as it stands in front of the colon. -/
def bracketed : Option (List Char) → List Char
  | none => []
  | some scope => '(' :: (scope ++ [')'])

/-- Some character other than a line feed has only blanks in front of it. -/
def HasMessage (rest : List Char) : Prop :=
  ∃ before c after, rest = before ++ c :: after ∧ (∀ b ∈ before, Text.isBlank b = true) ∧ c ≠ '\n'

/-- A way to write a header as code, scope and rest. -/
structure Reading
    (header code : List Char) (scope? : Option (List Char)) (rest : List Char) : Prop where
  isCode : IsCode code
  isScope : ∀ scope ∈ scope?, IsScope scope
  hasMessage : HasMessage rest
  header_eq : header = code ++ (bracketed scope? ++ ':' :: rest)

/-- The message of a rest.  It begins with the first character that is not blank and goes on to the
end of the line; if all is blank, it is the last character that is not a line feed. -/
inductive IsMessage : List Char → List Char → Prop
  | line {blanks run after : List Char} {c : Char} :
    (∀ b ∈ blanks, Text.isBlank b = true) → Text.isBlank c = false → (∀ d ∈ run, d ≠ '\n') →
      (∀ d ∈ after.head?, d = '\n') → IsMessage (blanks ++ (c :: run ++ after)) (c :: run)
  | blank {before after : List Char} {c : Char} :
    (∀ b ∈ before ++ c :: after, Text.isBlank b = true) → c ≠ '\n' → (∀ d ∈ after, d = '\n') →
      IsMessage (before ++ c :: after) [c]

theorem isCodeChar_iff {c : Char} : isCodeChar c = true ↔ 'a' ≤ c ∧ c ≤ 'z' := by
  simp [isCodeChar, Char.isLower, Char.le_def]

theorem isScopeChar_iff {c : Char} :
    isScopeChar c = true ↔
      ('A' ≤ c ∧ c ≤ 'Z') ∨ ('a' ≤ c ∧ c ≤ 'z') ∨ ('0' ≤ c ∧ c ≤ '9') ∨
        c = '_' ∨ c = '-' ∨ Text.isBlank c = true := by
  simp [isScopeChar, Char.isAlphanum, Char.isAlpha, Char.isUpper, Char.isLower, Char.isDigit,
    Char.le_def, or_assoc]

/-- A code is read exactly if a character that no code contains follows it. -/
theorem run?_code_iff {header code rest : List Char} :
    Text.run? isCodeChar header = some (code, rest) ↔
      IsCode code ∧ header = code ++ rest ∧ ∀ c, rest.head? = some c → isCodeChar c = false := by
  rw [Text.run?_eq_some_iff]
  constructor
  · rintro ⟨hne, htext, hcode, hrest⟩
    exact ⟨⟨hne, fun c hc => isCodeChar_iff.mp (hcode c hc)⟩, htext, hrest⟩
  · rintro ⟨⟨hne, hcode⟩, htext, hrest⟩
    exact ⟨hne, htext, fun c hc => isCodeChar_iff.mpr (hcode c hc), hrest⟩

theorem run?_scope_of_isScope
    {scope : List Char} (h : IsScope scope) (rest : List Char) :
    Text.run? isScopeChar (scope ++ ')' :: rest) = some (scope, ')' :: rest) := by
  rw [Text.run?_eq_some_iff]
  refine ⟨h.1, rfl, fun c hc => isScopeChar_iff.mpr (h.2 c hc), ?_⟩
  intro c hc
  cases hc
  decide

theorem isScope_of_run?
    {cs scope rest : List Char} (h : Text.run? isScopeChar cs = some (scope, rest)) :
    IsScope scope ∧ cs = scope ++ rest := by
  obtain ⟨hne, htext, hscope, -⟩ := Text.run?_eq_some_iff.mp h
  exact ⟨⟨hne, fun c hc => isScopeChar_iff.mp (hscope c hc)⟩, htext⟩

theorem scopeAndColon?_bracketed
    {scope? : Option (List Char)} (h : ∀ scope ∈ scope?, IsScope scope) (rest : List Char) :
    scopeAndColon? (bracketed scope? ++ ':' :: rest) = some (scope?, rest) := by
  cases scope? with
  | none => rfl
  | some scope =>
      have hrun := run?_scope_of_isScope (h scope rfl) (':' :: rest)
      simp only [bracketed, List.cons_append, List.append_assoc, List.nil_append]
      simp only [scopeAndColon?, hrun]

/-- What is read up to the colon is a scope in parentheses or nothing. -/
theorem scopeAndColon?_eq_some_iff
    {cs rest : List Char} {scope? : Option (List Char)} :
    scopeAndColon? cs = some (scope?, rest) ↔
      (∀ scope ∈ scope?, IsScope scope) ∧ cs = bracketed scope? ++ ':' :: rest := by
  constructor
  · intro h
    unfold scopeAndColon? at h
    split at h
    · cases h
      exact ⟨by simp, rfl⟩
    next text =>
      split at h
      next scope after hrun =>
        cases h
        obtain ⟨hscope, htext⟩ := isScope_of_run? hrun
        refine ⟨?_, ?_⟩
        · intro other hother
          cases hother
          exact hscope
        · simp [bracketed, htext]
      · cases h
    · cases h
  · rintro ⟨hscope, rfl⟩
    exact scopeAndColon?_bracketed hscope rest

/-! ## The message -/

theorem isBlank_lineFeed : Text.isBlank '\n' = true := by decide

theorem ne_lineFeed_of_not_isBlank {c : Char} (h : Text.isBlank c = false) : c ≠ '\n' := by
  rintro rfl
  simp [isBlank_lineFeed] at h

/-- A rest that is not blank has the message that begins with its first character that is not. -/
theorem message?_of_dropWhile_cons
    {rest text : List Char} {c : Char} (h : rest.dropWhile Text.isBlank = c :: text) :
    message? rest = some (c :: text.takeWhile (· != '\n')) ∧ Text.isBlank c = false := by
  have hblank : Text.isBlank c = false := by
    have hhead := List.head?_dropWhile_not Text.isBlank rest
    rw [h] at hhead
    simpa using hhead
  have hne := ne_lineFeed_of_not_isBlank hblank
  exact ⟨by simp [message?, h, hne], hblank⟩

/-- A blank rest has its last character that is no line feed for a message. -/
theorem message?_of_dropWhile_nil
    {rest : List Char} (h : rest.dropWhile Text.isBlank = []) :
    message? rest = (rest.reverse.find? (· != '\n')).map ([·]) := by
  simp only [message?, h]

theorem isMessage_of_message?
    {rest message : List Char} (h : message? rest = some message) : IsMessage rest message := by
  cases hdrop : rest.dropWhile Text.isBlank with
  | nil =>
      rw [message?_of_dropWhile_nil hdrop] at h
      obtain ⟨c, hfind, rfl⟩ := Option.map_eq_some_iff.mp h
      obtain ⟨hc, after, before, hreverse, hafter⟩ := List.find?_eq_some_iff_append.mp hfind
      have hrest : rest = before.reverse ++ c :: after.reverse := by
        have := congrArg List.reverse hreverse
        simpa using this
      rw [List.dropWhile_eq_nil_iff, hrest] at hdrop
      rw [hrest]
      refine .blank hdrop (by simpa using hc) ?_
      intro d hd
      simpa using hafter d (List.mem_reverse.mp hd)
  | cons c text =>
      obtain ⟨hmessage, hblank⟩ := message?_of_dropWhile_cons hdrop
      rw [hmessage] at h
      cases h
      have hrest : rest = rest.takeWhile Text.isBlank ++
          (c :: text.takeWhile (· != '\n') ++ text.dropWhile (· != '\n')) := by
        rw [List.cons_append, List.takeWhile_append_dropWhile, ← hdrop,
          List.takeWhile_append_dropWhile]
      rw [hrest]
      refine .line ?_ hblank ?_ ?_
      · exact List.all_eq_true.mp List.all_takeWhile
      · intro d hd
        simpa using List.all_eq_true.mp List.all_takeWhile d hd
      · intro d hd
        have hhead := List.head?_dropWhile_not (· != '\n') text
        rw [Option.mem_def.mp hd] at hhead
        simpa using hhead

theorem message?_of_isMessage
    {rest message : List Char} (h : IsMessage rest message) : message? rest = some message := by
  cases h with
  | @line blanks run after c hblanks hc hrun hafter =>
      have hdrop : (blanks ++ (c :: run ++ after)).dropWhile Text.isBlank =
          c :: (run ++ after) := by
        rw [List.dropWhile_append_of_pos hblanks, List.cons_append,
          List.dropWhile_cons_of_neg (by simp [hc])]
      have htake : (run ++ after).takeWhile (· != '\n') = run := by
        rw [List.takeWhile_append_of_pos (by simpa using hrun)]
        cases after with
        | nil => simp
        | cons d after => simp [hafter d rfl]
      rw [(message?_of_dropWhile_cons hdrop).1, htake]
  | @blank before after c hblanks hc hafter =>
      rw [message?_of_dropWhile_nil (List.dropWhile_eq_nil_iff.mpr hblanks)]
      have hfind : (before ++ c :: after).reverse.find? (· != '\n') = some c := by
        rw [List.find?_eq_some_iff_append]
        refine ⟨by simpa using hc, after.reverse, before.reverse, by simp, ?_⟩
        intro d hd
        simpa using hafter d (List.mem_reverse.mp hd)
      rw [hfind]
      rfl

/-- The reader finds the message and nothing else. -/
theorem message?_eq_some_iff {rest message : List Char} :
    message? rest = some message ↔ IsMessage rest message :=
  ⟨isMessage_of_message?, message?_of_isMessage⟩

theorem hasMessage_iff {rest : List Char} :
    HasMessage rest ↔ ∃ message, IsMessage rest message := by
  constructor
  · rintro ⟨before, c, after, rfl, hbefore, hc⟩
    cases hmessage : message? (before ++ c :: after) with
    | some message => exact ⟨message, message?_eq_some_iff.mp hmessage⟩
    | none =>
        exfalso
        cases hdrop : (before ++ c :: after).dropWhile Text.isBlank with
        | nil =>
            rw [message?_of_dropWhile_nil hdrop, Option.map_eq_none_iff,
              List.find?_eq_none] at hmessage
            exact hc (by simpa using hmessage c (by simp))
        | cons d text =>
            rw [(message?_of_dropWhile_cons hdrop).1] at hmessage
            cases hmessage
  · rintro ⟨message, hmessage⟩
    cases hmessage with
    | @line blanks run after c hblanks hc _ _ =>
        exact ⟨blanks, c, run ++ after, rfl, hblanks, ne_lineFeed_of_not_isBlank hc⟩
    | @blank before after c hblanks hc _ =>
        exact ⟨before, c, after, rfl, fun b hb => hblanks b (List.mem_append_left _ hb), hc⟩

/-! ## Whole headers -/

/-- What follows a code begins with no character of a code. -/
theorem isCodeChar_head?_bracketed
    (scope? : Option (List Char)) (rest : List Char) {c : Char}
    (h : (bracketed scope? ++ ':' :: rest).head? = some c) : isCodeChar c = false := by
  cases scope? with
  | none =>
      cases h
      decide
  | some scope =>
      cases h
      decide

/-- The reader takes the only way to read a header. -/
theorem Reading.run?_eq
    {header code rest : List Char} {scope? : Option (List Char)}
    (h : Reading header code scope? rest) :
    Text.run? isCodeChar header = some (code, bracketed scope? ++ ':' :: rest) := by
  rw [run?_code_iff]
  exact ⟨h.isCode, h.header_eq, fun c => isCodeChar_head?_bracketed scope? rest⟩

theorem Reading.unique
    {header code code' rest rest' : List Char} {scope? scope?' : Option (List Char)}
    (h : Reading header code scope? rest) (h' : Reading header code' scope?' rest') :
    code' = code ∧ scope?' = scope? ∧ rest' = rest := by
  have hrun := h'.run?_eq
  rw [h.run?_eq] at hrun
  obtain ⟨hcode, htail⟩ := Prod.mk.inj (Option.some.inj hrun)
  have hscope := scopeAndColon?_bracketed h.isScope rest
  rw [htail, scopeAndColon?_bracketed h'.isScope rest'] at hscope
  obtain ⟨hscope, hrest⟩ := Prod.mk.inj (Option.some.inj hscope)
  exact ⟨hcode.symm, hscope, hrest⟩

/-- A header is conventional exactly if it has a reading, and the reading gives its parts. -/
theorem parse?_eq_some_iff {cs : List Char} {header : Header} :
    parse? cs = some header ↔
      ∃ code scope? rest message, Reading cs code scope? rest ∧ IsMessage rest message ∧
        header = ⟨.ofList code, scope?.map .ofList, .ofList message⟩ := by
  constructor
  · intro h
    obtain ⟨⟨code, tail⟩, hcode, h⟩ := Option.bind_eq_some_iff.mp h
    obtain ⟨⟨scope?, rest⟩, hscope, h⟩ := Option.bind_eq_some_iff.mp h
    obtain ⟨message, hmessage, h⟩ := Option.bind_eq_some_iff.mp h
    obtain ⟨hisCode, htext, -⟩ := run?_code_iff.mp hcode
    obtain ⟨hisScope, htail⟩ := scopeAndColon?_eq_some_iff.mp hscope
    have hisMessage := message?_eq_some_iff.mp hmessage
    refine ⟨code, scope?, rest, message, ?_, hisMessage, ?_⟩
    · exact ⟨hisCode, hisScope, hasMessage_iff.mpr ⟨message, hisMessage⟩, htail ▸ htext⟩
    · exact (Option.some.inj h).symm
  · rintro ⟨code, scope?, rest, message, hreading, hmessage, rfl⟩
    have hscope := scopeAndColon?_bracketed hreading.isScope rest
    simp [parse?, hreading.run?_eq, hscope, message?_eq_some_iff.mpr hmessage]

end Header

namespace HeadingTable

/-- An entry is a change exactly if its header has a reading.  There is no second reading, and the
change is what the first one says: the heading of the code, the scope if there is one, and the
message of the rest. -/
theorem change?_reads_header
    (table : HeadingTable) (entry : LogEntry) :
    ((table.change? entry).isSome ↔
        ∃ code scope? rest, Header.Reading entry.header.toList code scope? rest) ∧
      ∀ code scope? rest, Header.Reading entry.header.toList code scope? rest →
        (∀ code' scope?' rest', Header.Reading entry.header.toList code' scope?' rest' →
          code' = code ∧ scope?' = scope? ∧ rest' = rest) ∧
        ∀ change, table.change? entry = some change ↔
          ∃ message, Header.IsMessage rest message ∧
            change =
              { hash := entry.hash
                heading := table.resolve (.ofList code)
                scope? := scope?.map .ofList
                message := .ofList message
                issues := Issue.ofTexts entry.header entry.body } := by
  constructor
  · rw [change?, Option.isSome_map, Option.isSome_iff_exists]
    constructor
    · rintro ⟨header, hheader⟩
      obtain ⟨code, scope?, rest, -, hreading, -⟩ := Header.parse?_eq_some_iff.mp hheader
      exact ⟨code, scope?, rest, hreading⟩
    · rintro ⟨code, scope?, rest, hreading⟩
      obtain ⟨message, hmessage⟩ := Header.hasMessage_iff.mp hreading.hasMessage
      exact ⟨_, Header.parse?_eq_some_iff.mpr
        ⟨code, scope?, rest, message, hreading, hmessage, rfl⟩⟩
  · intro code scope? rest hreading
    refine ⟨fun code' scope?' rest' hother => hreading.unique hother, fun change => ?_⟩
    rw [change?, Option.map_eq_some_iff]
    constructor
    · rintro ⟨header, hheader, rfl⟩
      obtain ⟨code', scope?', rest', message, hother, hmessage, rfl⟩ :=
        Header.parse?_eq_some_iff.mp hheader
      obtain ⟨rfl, rfl, rfl⟩ := hreading.unique hother
      exact ⟨message, hmessage, rfl⟩
    · rintro ⟨message, hmessage, rfl⟩
      exact ⟨_, Header.parse?_eq_some_iff.mpr
        ⟨code, scope?, rest, message, hreading, hmessage, rfl⟩, rfl⟩

/-- The message may begin on a later line than the code, and it ends with its own line. -/
theorem change?_reads_header_over_lines :
    Header.Reading "fix(io_v2 x):\n tweak\nmore".toList "fix".toList
        (some "io_v2 x".toList) "\n tweak\nmore".toList ∧
      builtin.change? ⟨"1a2b", "fix(io_v2 x):\n tweak\nmore", "closes #7"⟩ =
        some ⟨"1a2b", .labelled "Bug fixes", some "io_v2 x", "tweak", ["#7"]⟩ := by
  have hreading : Header.Reading "fix(io_v2 x):\n tweak\nmore".toList "fix".toList
      (some "io_v2 x".toList) "\n tweak\nmore".toList := by
    refine ⟨⟨by decide, by simp⟩, ?_, ?_, by decide⟩
    · intro scope hscope
      cases hscope
      exact ⟨by decide, by simp [Text.isBlank, Text.blankRanges]⟩
    · exact ⟨"\n ".toList, 't', "weak\nmore".toList, by decide,
        by simp [Text.isBlank, Text.blankRanges], by decide⟩
  refine ⟨hreading, ?_⟩
  refine ((change?_reads_header builtin
    ⟨"1a2b", "fix(io_v2 x):\n tweak\nmore", "closes #7"⟩).2 _ _ _ hreading).2 _ |>.mpr ?_
  refine ⟨"tweak".toList, ?_, by decide +kernel⟩
  exact @Header.IsMessage.line "\n ".toList "weak".toList "\nmore".toList 't'
    (by simp [Text.isBlank, Text.blankRanges]) (by decide) (by simp) (by simp)

end HeadingTable

end Changelog
