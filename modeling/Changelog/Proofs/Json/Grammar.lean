import Changelog.Proofs.Json.Printed

/-!
# Texts of values

A value has many texts.  Blanks may stand around each token, a character of a string may be written
as itself or as an escape, and a number is written in the four parts of its grammar.  Each such text is
read as the value, whatever the value holds and however deep it is nested.

Only the end of a number depends on what comes next: it must be nothing that would make the number
longer.  In the text of a value this is never in question, since a number stands before a blank, a
comma, a closing bracket or the end.
-/

namespace Changelog.Json

/-! ## Numbers -/

/-- One or more decimal digits. -/
def IsDigits (cs : List Char) : Prop := cs ≠ [] ∧ ∀ c ∈ cs, c.isDigit

/-- The whole part of a number: a single zero, or digits that do not begin with one. -/
inductive IsWhole : List Char → Prop
  | zero : IsWhole ['0']
  | digits {cs : List Char} (hdigits : IsDigits cs) (hzero : cs.head? ≠ some '0') : IsWhole cs

/-- The fraction of a number, which may be missing. -/
inductive IsFraction : List Char → Prop
  | absent : IsFraction []
  | digits {cs : List Char} (hdigits : IsDigits cs) : IsFraction ('.' :: cs)

/-- The exponent of a number, which may be missing. -/
inductive IsExponent : List Char → Prop
  | absent : IsExponent []
  | unsigned {e : Char} {cs : List Char} (he : e = 'e' ∨ e = 'E') (hdigits : IsDigits cs) :
      IsExponent (e :: cs)
  | signed {e s : Char} {cs : List Char} (he : e = 'e' ∨ e = 'E') (hs : s = '+' ∨ s = '-')
      (hdigits : IsDigits cs) : IsExponent (e :: s :: cs)

/-- A number without its sign. -/
inductive IsMagnitude : List Char → Prop
  | intro {whole fraction exponent : List Char} (hwhole : IsWhole whole)
      (hfraction : IsFraction fraction) (hexponent : IsExponent exponent) :
      IsMagnitude (whole ++ fraction ++ exponent)

/-- A number. -/
inductive IsNumber : List Char → Prop
  | unsigned {cs : List Char} (h : IsMagnitude cs) : IsNumber cs
  | negative {cs : List Char} (h : IsMagnitude cs) : IsNumber ('-' :: cs)

/-- A text that does not go on with a number: it begins with no digit, no point and no exponent. -/
def EndsNumber (rest : List Char) : Prop :=
  ∀ c, rest.head? = some c → c.isDigit = false ∧ c ≠ '.' ∧ c ≠ 'e' ∧ c ≠ 'E'

variable {whole fraction exponent rest cs : List Char}

theorem IsDigits.run?_append
    (h : IsDigits cs) (hrest : ∀ c, rest.head? = some c → c.isDigit = false) :
    Text.run? Char.isDigit (cs ++ rest) = some (cs, rest) :=
  Text.run?_eq_some_iff.mpr ⟨h.1, rfl, h.2, hrest⟩

theorem wholePart?_eq_run? (hzero : cs.head? ≠ some '0') :
    wholePart? cs = Text.run? Char.isDigit cs := by
  unfold wholePart?
  split
  · exact absurd rfl hzero
  · rfl

theorem IsWhole.wholePart?_append
    (h : IsWhole whole) (hrest : ∀ c, rest.head? = some c → c.isDigit = false) :
    wholePart? (whole ++ rest) = some (whole, rest) := by
  cases h with
  | zero => rfl
  | digits hdigits hzero =>
      rw [wholePart?_eq_run?, hdigits.run?_append hrest]
      rwa [List.head?_append_of_ne_nil _ hdigits.1]

theorem fraction?_eq_absent (h : cs.head? ≠ some '.') : fraction? cs = some ([], cs) := by
  unfold fraction?
  split
  · exact absurd rfl h
  · rfl

theorem IsFraction.fraction?_append
    (h : IsFraction fraction) (hdigit : ∀ c, rest.head? = some c → c.isDigit = false)
    (hpoint : rest.head? ≠ some '.') : fraction? (fraction ++ rest) = some (fraction, rest) := by
  cases h with
  | absent => exact fraction?_eq_absent hpoint
  | digits hdigits =>
      rw [List.cons_append, fraction?, hdigits.run?_append hdigit]
      rfl

/-- Digits do not begin with a sign. -/
theorem IsDigits.exists_cons (h : IsDigits cs) :
    ∃ c tail, cs = c :: tail ∧ c.isDigit ∧ c ≠ '+' ∧ c ≠ '-' := by
  obtain ⟨c, tail, rfl⟩ := List.exists_cons_of_ne_nil h.1
  have hc := h.2 c List.mem_cons_self
  refine ⟨c, tail, rfl, hc, ?_, ?_⟩
  · rintro rfl
    exact absurd hc (by decide)
  · rintro rfl
    exact absurd hc (by decide)

theorem IsExponent.exponent?_append (h : IsExponent exponent) (hrest : EndsNumber rest) :
    exponent? (exponent ++ rest) = some (exponent, rest) := by
  cases h with
  | absent =>
      cases rest with
      | nil => rfl
      | cons c rest =>
          obtain ⟨-, -, hlower, hupper⟩ := hrest c rfl
          rw [List.nil_append, exponent?.eq_def]
          exact if_neg (not_or.mpr ⟨hlower, hupper⟩)
  | unsigned he hdigits =>
      obtain ⟨c, tail, rfl, -, hplus, hminus⟩ := hdigits.exists_cons
      have hrun := hdigits.run?_append fun c hc => (hrest c hc).1
      rw [List.cons_append] at hrun
      rw [List.cons_append, List.cons_append, exponent?, if_pos he,
        if_neg (not_or.mpr ⟨hplus, hminus⟩), hrun]
      rfl
  | signed he hs hdigits =>
      have hrun := hdigits.run?_append fun c hc => (hrest c hc).1
      rw [List.cons_append, List.cons_append, exponent?, if_pos he, if_pos hs, hrun]
      rfl

/-- An exponent, and what follows it, do not go on with the digits before it. -/
theorem IsExponent.head?_append (h : IsExponent exponent) (hrest : EndsNumber rest) {c : Char}
    (hc : (exponent ++ rest).head? = some c) : c.isDigit = false ∧ c ≠ '.' := by
  cases h with
  | absent => exact ⟨(hrest c hc).1, (hrest c hc).2.1⟩
  | unsigned he _ | signed he _ _ =>
      obtain rfl := Option.some.inj hc
      rcases he with rfl | rfl <;> decide

theorem IsMagnitude.magnitude?_append (h : IsMagnitude cs) (hrest : EndsNumber rest) :
    magnitude? (cs ++ rest) = some (cs, rest) := by
  obtain ⟨hwhole, hfraction, hexponent⟩ := h
  rename_i whole fraction exponent
  have hend : ∀ c, (exponent ++ rest).head? = some c → c.isDigit = false ∧ c ≠ '.' :=
    fun c hc => hexponent.head?_append hrest hc
  have hpoint : (exponent ++ rest).head? ≠ some '.' := fun hc => (hend '.' hc).2 rfl
  have hdigit : ∀ c, (fraction ++ (exponent ++ rest)).head? = some c → c.isDigit = false := by
    intro c hc
    cases hfraction with
    | absent => exact (hend c hc).1
    | digits _ =>
        obtain rfl := Option.some.inj hc
        rfl
  rw [List.append_assoc, List.append_assoc, magnitude?, hwhole.wholePart?_append hdigit]
  change (fraction? (fraction ++ (exponent ++ rest)) >>= _) = _
  rw [hfraction.fraction?_append (fun c hc => (hend c hc).1) hpoint]
  change (exponent? (exponent ++ rest) >>= _) = _
  rw [hexponent.exponent?_append hrest]
  rfl

/-- A number without its sign begins with a digit. -/
theorem IsMagnitude.exists_cons (h : IsMagnitude cs) : ∃ c tail, cs = c :: tail ∧ c.isDigit := by
  obtain ⟨hwhole, -, -⟩ := h
  cases hwhole with
  | zero => exact ⟨_, _, rfl, rfl⟩
  | digits hdigits _ =>
      obtain ⟨c, tail, rfl, hc, -⟩ := hdigits.exists_cons
      exact ⟨_, _, rfl, hc⟩

/-! ## Strings -/

/-- The ways to write a piece of a string: a character as itself, a character behind a backslash, and
any code by four digits. -/
inductive Piece : StringUnit → List Char → Prop
  | plain {c : Char} (hquote : c ≠ '"') (hslash : c ≠ '\\') (hcontrol : ¬c.toNat < 0x20) :
      Piece (.char c) [c]
  | marked {e c : Char} (h : escaped? e = some c) : Piece (.char c) ['\\', e]
  | coded {x y z w : Char} {unit : StringUnit}
      (h : (Text.hexNumber? [x, y, z, w]).map StringUnit.ofCode = some unit) :
      Piece unit ['\\', 'u', x, y, z, w]

theorem Piece.stringUnits?_append {unit : StringUnit} (h : Piece unit cs) (rest : List Char) :
    stringUnits? (cs ++ rest) =
      (stringUnits? rest).map fun (units, rest) => (unit :: units, rest) := by
  cases h with
  | plain hquote hslash hcontrol => exact stringUnits?_plain hquote hslash hcontrol rest
  | marked hmark => exact stringUnits?_escaped hmark rest
  | coded hcode => exact stringUnits?_coded hcode rest

theorem stringUnits?_flatten_append
    {units : List StringUnit} {pieces : List (List Char)} (h : List.Forall₂ Piece units pieces)
    (rest : List Char) : stringUnits? (pieces.flatten ++ '"' :: rest) = some (units, rest) := by
  induction h with
  | nil => rfl
  | cons hpiece _ ih =>
      rw [List.flatten_cons, List.append_assoc, hpiece.stringUnits?_append, ih]
      rfl

/-! ## Tokens -/

namespace Token

/-- The ways to write a token. -/
inductive Spells : Token → List Char → Prop
  | beginArray : Spells beginArray ['[']
  | endArray : Spells endArray [']']
  | beginObject : Spells beginObject ['{']
  | endObject : Spells endObject ['}']
  | colon : Spells colon [':']
  | comma : Spells comma [',']
  | string {units : List StringUnit} {pieces : List (List Char)}
      (h : List.Forall₂ Piece units pieces) :
      Spells (string (.ofUnits units)) ('"' :: (pieces.flatten ++ ['"']))
  | null : Spells (literal .null) ['n', 'u', 'l', 'l']
  | boolTrue : Spells (literal (.bool true)) ['t', 'r', 'u', 'e']
  | boolFalse : Spells (literal (.bool false)) ['f', 'a', 'l', 's', 'e']
  | number {cs : List Char} (h : IsNumber cs) : Spells (literal (.number (.ofList cs))) cs

/-- Whether a token is a number. -/
def isNumber : Token → Bool
  | literal (.number _) => true
  | _ => false

theorem next?_eq_magnitude? {c : Char} (h : c.isDigit) (cs : List Char) :
    next? (c :: cs) =
      (magnitude? (c :: cs)).map fun (digits, rest) =>
        (literal (.number (.ofList digits)), rest) := by
  unfold next?
  split
  case h_12 => rfl
  all_goals
    rename_i heq
    obtain ⟨rfl, -⟩ := List.cons.inj heq
    exact absurd h (by decide)

theorem Spells.next?_append
    {token : Token} (h : Spells token cs) (hend : token.isNumber → EndsNumber rest) :
    next? (cs ++ rest) = some (token, rest) := by
  cases h with
  | string hpieces =>
      rw [List.cons_append, List.append_assoc, List.singleton_append, next?,
        stringUnits?_flatten_append hpieces]
      rfl
  | number hnumber =>
      cases hnumber with
      | negative hmagnitude =>
          rw [List.cons_append, next?, hmagnitude.magnitude?_append (hend rfl)]
          rfl
      | unsigned hmagnitude =>
          obtain ⟨c, tail, rfl, hc⟩ := hmagnitude.exists_cons
          rw [List.cons_append, next?_eq_magnitude? hc, ← List.cons_append,
            hmagnitude.magnitude?_append (hend rfl)]
          rfl
  | _ => rfl

/-- No token begins with a blank. -/
theorem Spells.exists_cons {token : Token} (h : Spells token cs) :
    ∃ c tail, cs = c :: tail ∧ isSpace c = false := by
  cases h with
  | number hnumber =>
      cases hnumber with
      | negative _ => exact ⟨_, _, rfl, rfl⟩
      | unsigned hmagnitude =>
          obtain ⟨c, tail, rfl, hc⟩ := hmagnitude.exists_cons
          refine ⟨c, tail, rfl, ?_⟩
          by_contra hspace
          simp only [isSpace, Bool.not_eq_false, Bool.or_eq_true, beq_iff_eq] at hspace
          rcases hspace with ((rfl | rfl) | rfl) | rfl <;> exact absurd hc (by decide)
  | _ => exact ⟨_, _, rfl, rfl⟩

/-- The ways to write tokens one after the other, with blanks around them. -/
inductive SpellAll : List Token → List Char → Prop
  | nil : SpellAll [] []
  | blank {tokens : List Token} {c : Char} {cs : List Char} (hc : isSpace c)
      (h : SpellAll tokens cs) : SpellAll tokens (c :: cs)
  | cons {token : Token} {tokens : List Token} {cs rest : List Char} (htoken : Spells token cs)
      (h : SpellAll tokens rest) : SpellAll (token :: tokens) (cs ++ rest)

/-- Whether a token may stand directly behind a number. -/
def mayFollowNumber : Token → Bool
  | endArray | endObject | comma => true
  | _ => false

/-- Numbers have such tokens behind them that their ends are plain. -/
def NumbersEnd (tokens : List Token) : Prop :=
  tokens.IsChain fun token follower => token.isNumber → follower.mayFollowNumber

theorem endsNumber_of_isSpace {c : Char} (h : isSpace c) (cs : List Char) : EndsNumber (c :: cs) := by
  rintro c ⟨⟩
  simp only [isSpace, Bool.or_eq_true, beq_iff_eq] at h
  rcases h with ((rfl | rfl) | rfl) | rfl <;> decide

theorem SpellAll.endsNumber {tokens : List Token} (h : SpellAll tokens cs)
    (hhead : ∀ token, tokens.head? = some token → token.mayFollowNumber) : EndsNumber cs := by
  cases h with
  | nil => exact nofun
  | blank hc _ => exact endsNumber_of_isSpace hc _
  | cons htoken _ =>
      have hfollows := hhead _ rfl
      cases htoken with
      | endArray | endObject | comma =>
          rintro c ⟨⟩
          decide
      | _ => cases hfollows

theorem SpellAll.scan? {tokens : List Token} (h : SpellAll tokens cs) (hends : NumbersEnd tokens) :
    scan? cs = some tokens := by
  induction h with
  | nil => rw [Token.scan?]
  | blank hc _ ih => rw [Token.scan?, if_pos hc, ih hends]
  | cons htoken hrest ih =>
      have hnext := htoken.next?_append fun hnumber => hrest.endsNumber fun follower hfollower =>
        (List.isChain_cons.mp hends).1 follower hfollower hnumber
      obtain ⟨c, tail, rfl, hspace⟩ := htoken.exists_cons
      rw [List.cons_append] at hnext ⊢
      rw [scan?_of_next? hspace hnext, ih (List.isChain_cons.mp hends).2]
      rfl

end Token

/-! ## Values -/

namespace Token

theorem numbersEnd_singleton (token : Token) : NumbersEnd [token] := List.isChain_singleton token

theorem NumbersEnd.append
    {tokens followers : List Token} (h : NumbersEnd tokens) (h' : NumbersEnd followers)
    (hhead : ∀ token, followers.head? = some token → token.mayFollowNumber) :
    NumbersEnd (tokens ++ followers) :=
  List.isChain_append.mpr ⟨h, h', fun _ _ follower hfollower _ => hhead follower hfollower⟩

theorem NumbersEnd.cons
    {token : Token} {tokens : List Token} (h : NumbersEnd tokens) (htoken : token.isNumber = false) :
    NumbersEnd (token :: tokens) := by
  refine List.isChain_cons.mpr ⟨fun _ _ hnumber => ?_, h⟩
  rw [htoken] at hnumber
  cases hnumber

theorem numbersEnd_itemTokens
    {items : List Json} (h : ∀ item ∈ items, NumbersEnd item.tokens) :
    NumbersEnd (itemTokens items ++ [endArray]) ∧
      ∀ token, (itemTokens items ++ [endArray]).head? = some token → token.mayFollowNumber := by
  induction items with
  | nil =>
      refine ⟨numbersEnd_singleton _, ?_⟩
      rintro token ⟨⟩
      rfl
  | cons item items ih =>
      obtain ⟨hitems, hhead⟩ := ih fun other hother => h other (List.mem_cons_of_mem _ hother)
      have hitem := h item List.mem_cons_self
      constructor
      · rw [itemTokens, List.cons_append, List.cons_append, List.append_assoc]
        exact (hitem.append hitems hhead).cons rfl
      · rintro token ⟨⟩
        rfl

theorem numbersEnd_memberTokens
    {members : List (Str × Json)} (h : ∀ member ∈ members, NumbersEnd member.2.tokens) :
    NumbersEnd (memberTokens members ++ [endObject]) ∧
      ∀ token, (memberTokens members ++ [endObject]).head? = some token →
        token.mayFollowNumber := by
  induction members with
  | nil =>
      refine ⟨numbersEnd_singleton _, ?_⟩
      rintro token ⟨⟩
      rfl
  | cons member members ih =>
      obtain ⟨hmembers, hhead⟩ := ih fun other hother => h other (List.mem_cons_of_mem _ hother)
      have hmember := h member List.mem_cons_self
      constructor
      · rw [memberTokens, List.append_assoc, List.append_assoc]
        exact (((hmember.append hmembers hhead).cons rfl).cons rfl).cons rfl
      · rintro token ⟨⟩
        rfl

/-- In the tokens of a value a number stands before a comma, a closing bracket or nothing. -/
theorem numbersEnd_tokens (v : Json) : NumbersEnd v.tokens := by
  induction v using induction with
  | null | bool _ | number _ | string _ => exact numbersEnd_singleton _
  | array items ih =>
      cases items with
      | nil => exact (numbersEnd_singleton _).cons rfl
      | cons item items =>
          obtain ⟨hitems, hhead⟩ :=
            numbersEnd_itemTokens fun other hother => ih other (List.mem_cons_of_mem _ hother)
          have hitem := ih item List.mem_cons_self
          rw [tokens, List.cons_append, List.cons_append, List.append_assoc]
          exact (hitem.append hitems hhead).cons rfl
  | object members ih =>
      cases members with
      | nil => exact (numbersEnd_singleton _).cons rfl
      | cons member members =>
          obtain ⟨hmembers, hhead⟩ :=
            numbersEnd_memberTokens fun other hother => ih other (List.mem_cons_of_mem _ hother)
          have hmember := ih member List.mem_cons_self
          rw [tokens, List.append_assoc, List.append_assoc]
          exact (((hmember.append hmembers hhead).cons rfl).cons rfl).cons rfl

end Token

/-- A text of a value: the tokens of the value, with blanks around them. -/
def IsText (v : Json) (text : String) : Prop := Token.SpellAll v.tokens text.toList

/-- Every text of a value is read as the value. -/
theorem IsText.parse? {v : Json} {text : String} (h : v.IsText text) : parse? text = some v := by
  rw [Json.parse?, Token.SpellAll.scan? h (Token.numbersEnd_tokens v), Option.bind_some, ofTokens?,
    takes]
  rfl

end Changelog.Json
