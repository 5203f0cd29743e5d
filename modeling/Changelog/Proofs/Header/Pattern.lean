import Changelog.Proofs.Header.Grammar
import Changelog.Proofs.Text.Pattern

/-!
# The pattern of conventional headers

A header stands at the beginning of a text as a pattern says that keeps the code, the scope and the
message.  The reader of headers finds what the first match of this pattern keeps, for each text.

A code and a scope are longest runs, since what follows them refuses their characters.  The blanks in
front of a message are the only ones that are given back.  If something else follows them they are
all skipped; if nothing does, they are given back one by one, until a character other than a line
feed can be the message.
-/

namespace Changelog.Header

open Pattern

/-- The parts of a header that are kept. -/
inductive Part
  | code
  | scope
  | message
  deriving DecidableEq, Repr

/-- The pattern of a message, with the blanks in front of it. -/
def messagePattern : Pattern Part :=
  both (many Text.isBlank) (named .message (plus (· != '\n')))

/-- The pattern of a scope in parentheses. -/
def scopePattern : Pattern Part :=
  both (char '(') (both (named .scope (plus isScopeChar)) (char ')'))

/-- The pattern of what follows a code. -/
def tailPattern : Pattern Part :=
  both (optional scopePattern) (both (char ':') messagePattern)

/-- The pattern of a header. -/
def pattern : Pattern Part := both (named .code (plus isCodeChar)) tailPattern

/-- The header that is made of kept parts. -/
def ofKept? (kept : List (Part × List Char)) : Option Header := do
  return {
    code := .ofList (← kept.lookup .code)
    scope? := (kept.lookup .scope).map .ofList
    message := .ofList (← kept.lookup .message) }

/-! ## The message -/

theorem run?_of_lineFeeds {rest : List Char} (h : ∀ d ∈ rest, d = '\n') (c : Char) :
    Text.run? (· != '\n') (c :: rest) = if c = '\n' then none else some ([c], rest) := by
  have hsplit : rest.takeWhile (· != '\n') = [] ∧ rest.dropWhile (· != '\n') = rest := by
    cases rest with
    | nil => exact ⟨rfl, rfl⟩
    | cons d rest => simp [h d]
  rw [Text.run?_cons, hsplit.1, hsplit.2]
  by_cases hc : c = '\n' <;> simp [hc]

/-- Where all is blank, the first run that can be a message is the last character that is no line
feed. -/
theorem findSome?_runs_of_blank {rest : List Char} (h : ∀ c ∈ rest, Text.isBlank c = true) :
    ((runs Text.isBlank rest).findSome? fun run => (Text.run? (· != '\n') run.2).map Prod.fst) =
      (rest.reverse.find? (· != '\n')).map ([·]) := by
  induction rest with
  | nil => rfl
  | cons c rest ih =>
      obtain ⟨hc, hrest⟩ := List.forall_mem_cons.mp h
      rw [runs, if_pos hc, List.findSome?_append, List.findSome?_map, Function.comp_def, ih hrest,
        List.reverse_cons, List.find?_append]
      cases hfind : rest.reverse.find? (· != '\n') with
      | some d => rfl
      | none =>
          have hfeeds : ∀ d ∈ rest, d = '\n' := by simpa using hfind
          rw [List.findSome?_singleton, run?_of_lineFeeds hfeeds]
          by_cases hline : c = '\n' <;> simp [hline]

theorem kept?_messagePattern (rest : List Char) :
    messagePattern.kept? rest = (message? rest).map fun message => [(.message, message)] := by
  have hruns : messagePattern.kept? rest =
      ((runs Text.isBlank rest).findSome? fun run =>
        (Text.run? (· != '\n') run.2).map Prod.fst).map fun message => [(.message, message)] := by
    rw [messagePattern, kept?_both, attempts, List.findSome?_map, List.map_findSome?]
    congr 1
    funext run
    simp [kept?_named_plus, Function.comp_def]
  rw [hruns]
  congr 1
  cases hdrop : rest.dropWhile Text.isBlank with
  | nil =>
      rw [message?_of_dropWhile_nil hdrop,
        findSome?_runs_of_blank (List.dropWhile_eq_nil_iff.mp hdrop)]
  | cons c text =>
      obtain ⟨hmessage, hc⟩ := message?_of_dropWhile_cons hdrop
      obtain ⟨shorter, hlongest, -⟩ := exists_runs_eq_cons Text.isBlank rest
      have hrun : Text.run? (· != '\n') (c :: text) =
          some (c :: text.takeWhile (· != '\n'), text.dropWhile (· != '\n')) := by
        rw [Text.run?_cons, if_pos (by simpa using ne_lineFeed_of_not_isBlank hc)]
      rw [hmessage, hlongest, hdrop, List.findSome?_cons, hrun]
      rfl

/-! ## The scope -/

variable {cs : List Char} {kept : List (Part × List Char)}

/-- No character of a scope is a parenthesis, so the longest run in parentheses is the scope. -/
theorem kept?_both_scopePattern_eq_some_iff {second : Pattern Part} :
    (both scopePattern second).kept? cs = some kept ↔
      ∃ scope rest others, IsScope scope ∧ cs = bracketed (some scope) ++ rest ∧
        second.kept? rest = some others ∧ kept = (.scope, scope) :: others := by
  have hrefused : ∀ c rest, isScopeChar c = true →
      (both (char ')') second).kept? (c :: rest) = none := by
    intro c rest hc
    rw [Option.eq_none_iff_forall_ne_some]
    intro others hothers
    obtain ⟨after, hcons, -⟩ := kept?_both_char_eq_some_iff.mp hothers
    obtain rfl := (List.cons.inj hcons).1
    exact absurd hc (by decide)
  rw [scopePattern, kept?_both_assoc, kept?_both_char_eq_some_iff]
  simp only [kept?_both_assoc, kept?_both_named_plus hrefused, Option.bind_eq_some_iff,
    Option.map_eq_some_iff, kept?_both_char_eq_some_iff]
  constructor
  · rintro ⟨text, rfl, ⟨scope, after⟩, hrun, others, ⟨rest, hafter, hothers⟩, rfl⟩
    obtain ⟨hscope, rfl⟩ := isScope_of_run? hrun
    obtain rfl : after = ')' :: rest := hafter
    exact ⟨scope, rest, others, hscope, by simp [bracketed], hothers, rfl⟩
  · rintro ⟨scope, rest, others, hscope, rfl, hothers, rfl⟩
    exact ⟨scope ++ ')' :: rest, by simp [bracketed], (scope, ')' :: rest),
      run?_scope_of_isScope hscope rest, others, ⟨rest, rfl, hothers⟩, rfl⟩

/-- Behind a code are kept the scope in front of the colon, if there is one, and the message. -/
theorem kept?_tailPattern (cs : List Char) :
    tailPattern.kept? cs = (scopeAndColon? cs).bind fun tail =>
      (message? tail.2).map fun message =>
        (tail.1.toList.map fun scope => (Part.scope, scope)) ++ [(Part.message, message)] := by
  apply Option.ext
  intro kept
  rw [tailPattern, kept?_both_optional, Option.orElse_eq_some]
  simp only [Option.bind_eq_some_iff, Option.map_eq_some_iff, Prod.exists,
    kept?_both_scopePattern_eq_some_iff, kept?_both_char_eq_some_iff, kept?_messagePattern,
    scopeAndColon?_eq_some_iff]
  constructor
  · rintro (⟨scope, text, others, hscope, rfl, ⟨rest, rfl, message, hmessage, rfl⟩, rfl⟩ |
      ⟨-, rest, rfl, message, hmessage, rfl⟩)
    · refine ⟨some scope, rest, ⟨?_, rfl⟩, message, hmessage, rfl⟩
      rintro other ⟨⟩
      exact hscope
    · exact ⟨none, rest, ⟨by simp, rfl⟩, message, hmessage, rfl⟩
  · rintro ⟨scope?, rest, ⟨hscope, rfl⟩, message, hmessage, rfl⟩
    cases scope? with
    | some scope =>
        exact Or.inl ⟨scope, ':' :: rest, _, hscope scope rfl, rfl,
          ⟨rest, rfl, message, hmessage, rfl⟩, rfl⟩
    | none =>
        refine Or.inr ⟨?_, rest, rfl, message, hmessage, rfl⟩
        rw [Option.eq_none_iff_forall_ne_some]
        intro others hothers
        obtain ⟨scope, after, -, -, hcons, -⟩ := kept?_both_scopePattern_eq_some_iff.mp hothers
        exact absurd (List.cons.inj hcons).1 (by decide)

/-! ## Whole headers -/

theorem kept?_tailPattern_of_isCodeChar {c : Char} (hc : isCodeChar c = true) (rest : List Char) :
    tailPattern.kept? (c :: rest) = none := by
  rw [kept?_tailPattern, Option.bind_eq_none_iff]
  rintro ⟨scope?, after⟩ htail
  obtain ⟨-, hcons⟩ := scopeAndColon?_eq_some_iff.mp htail
  have hhead : (bracketed scope? ++ ':' :: after).head? = some c := hcons ▸ rfl
  rw [isCodeChar_head?_bracketed scope? after hhead] at hc
  cases hc

/-- The reader finds what the first match of the pattern keeps, and nothing if there is no match. -/
theorem parse?_eq_ofKept?_pattern (cs : List Char) :
    parse? cs = (pattern.kept? cs).bind ofKept? := by
  rw [pattern, parse?,
    kept?_both_named_plus fun c rest hc => kept?_tailPattern_of_isCodeChar hc rest]
  cases Text.run? isCodeChar cs with
  | none => rfl
  | some run =>
      obtain ⟨code, after⟩ := run
      simp only [Option.bind_eq_bind, Option.bind_some, kept?_tailPattern]
      cases scopeAndColon? after with
      | none => rfl
      | some tail =>
          obtain ⟨scope?, rest⟩ := tail
          simp only [Option.bind_some]
          cases message? rest with
          | none => rfl
          | some message => cases scope? <;> rfl

example :
    pattern.kept? "fix: \n ".toList = some [(.code, "fix".toList), (.message, " ".toList)] := by
  decide +kernel

end Changelog.Header
