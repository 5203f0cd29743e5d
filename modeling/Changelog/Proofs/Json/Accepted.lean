import Changelog.Proofs.Json.Grammar

/-!
# Texts that are read are texts of values

The scanner takes each piece of a text for what the grammar says it is, and a state of the reader knows
the tokens that led to it: those of the containers that are still open, with everything they hold so
far.  A token that is read is added to them.  So the tokens that end in a value are the tokens of the
value, and the reader accepts just the texts of values.
-/

namespace Changelog.Json

variable {whole fraction exponent rest cs : List Char}

/-! ## From characters to tokens -/

/-- The units of a string are read from pieces of the text.  A character that stands for itself is no
backslash, which would begin an escape, as at least the closing quote is behind it. -/
theorem exists_pieces_of_stringUnits?
    {units : List StringUnit} (h : stringUnits? cs = some (units, rest)) :
    ∃ pieces, List.Forall₂ Piece units pieces ∧ cs = pieces.flatten ++ '"' :: rest := by
  fun_induction stringUnits? cs generalizing units rest with
  | case1 => cases h
  | case2 tail =>
      cases h
      exact ⟨[], .nil, rfl⟩
  | case3 x y z w tail ih =>
      obtain ⟨code, hcode, h⟩ := Option.bind_eq_some_iff.mp h
      obtain ⟨⟨_, _⟩, htail, h⟩ := Option.bind_eq_some_iff.mp h
      obtain ⟨rfl, rfl⟩ := Prod.mk.inj (Option.some.inj h)
      obtain ⟨pieces, hpieces, rfl⟩ := ih htail
      exact ⟨_, .cons (.coded (Option.map_eq_some_iff.mpr ⟨code, hcode, rfl⟩)) hpieces, rfl⟩
  | case4 e tail _ ih =>
      obtain ⟨c, hmark, h⟩ := Option.bind_eq_some_iff.mp h
      obtain ⟨⟨_, _⟩, htail, h⟩ := Option.bind_eq_some_iff.mp h
      obtain ⟨rfl, rfl⟩ := Prod.mk.inj (Option.some.inj h)
      obtain ⟨pieces, hpieces, rfl⟩ := ih htail
      exact ⟨_, .cons (.marked hmark) hpieces, rfl⟩
  | case5 => cases h
  | case6 c tail hquote _ hmark hcontrol ih =>
      obtain ⟨⟨_, _⟩, htail, h⟩ := Option.bind_eq_some_iff.mp h
      obtain ⟨rfl, rfl⟩ := Prod.mk.inj (Option.some.inj h)
      obtain ⟨pieces, hpieces, rfl⟩ := ih htail
      refine ⟨_, .cons (.plain ?_ ?_ hcontrol) hpieces, rfl⟩
      · exact hquote
      · rintro rfl
        cases hhead : pieces.flatten with
        | nil => exact hmark '"' _ rfl (by rw [hhead]; rfl)
        | cons e tail => exact hmark e _ rfl (by rw [hhead]; rfl)

theorem isDigits_of_run? (h : Text.run? Char.isDigit cs = some (whole, rest)) :
    IsDigits whole ∧ cs = whole ++ rest := by
  obtain ⟨hne, hcs, hdigits, -⟩ := Text.run?_eq_some_iff.mp h
  exact ⟨⟨hne, hdigits⟩, hcs⟩

theorem isWhole_of_wholePart? (h : wholePart? cs = some (whole, rest)) :
    IsWhole whole ∧ cs = whole ++ rest := by
  unfold wholePart? at h
  split at h
  · cases h
    exact ⟨.zero, rfl⟩
  · rename_i hzero
    obtain ⟨hdigits, rfl⟩ := isDigits_of_run? h
    refine ⟨.digits hdigits fun hhead => ?_, rfl⟩
    obtain ⟨tail, rfl⟩ := List.head?_eq_some_iff.mp hhead
    exact hzero _ rfl

theorem isFraction_of_fraction? (h : fraction? cs = some (fraction, rest)) :
    IsFraction fraction ∧ cs = fraction ++ rest := by
  unfold fraction? at h
  split at h
  · obtain ⟨⟨digits, _⟩, hrun, heq⟩ := Option.map_eq_some_iff.mp h
    obtain ⟨rfl, rfl⟩ := Prod.mk.inj heq
    obtain ⟨hdigits, rfl⟩ := isDigits_of_run? hrun
    exact ⟨.digits hdigits, rfl⟩
  · cases h
    exact ⟨.absent, rfl⟩

theorem isExponent_of_exponent? (h : exponent? cs = some (exponent, rest)) :
    IsExponent exponent ∧ cs = exponent ++ rest := by
  unfold exponent? at h
  split at h
  · rename_i e tail
    split_ifs at h with he
    · split at h
      · rename_i s digits
        split_ifs at h with hs
        · obtain ⟨⟨_, _⟩, hrun, heq⟩ := Option.map_eq_some_iff.mp h
          obtain ⟨rfl, rfl⟩ := Prod.mk.inj heq
          obtain ⟨hdigits, rfl⟩ := isDigits_of_run? hrun
          exact ⟨.signed he hs hdigits, rfl⟩
        · obtain ⟨⟨_, _⟩, hrun, heq⟩ := Option.map_eq_some_iff.mp h
          obtain ⟨rfl, rfl⟩ := Prod.mk.inj heq
          obtain ⟨hdigits, hcs⟩ := isDigits_of_run? hrun
          refine ⟨.unsigned he hdigits, ?_⟩
          rw [hcs]
          rfl
      · cases h
    · cases h
      exact ⟨.absent, rfl⟩
  · cases h
    exact ⟨.absent, rfl⟩

theorem isMagnitude_of_magnitude? {digits : List Char} (h : magnitude? cs = some (digits, rest)) :
    IsMagnitude digits ∧ cs = digits ++ rest := by
  obtain ⟨⟨whole, _⟩, hwhole, h⟩ := Option.bind_eq_some_iff.mp h
  obtain ⟨⟨fraction, _⟩, hfraction, h⟩ := Option.bind_eq_some_iff.mp h
  obtain ⟨⟨exponent, _⟩, hexponent, h⟩ := Option.bind_eq_some_iff.mp h
  obtain ⟨rfl, rfl⟩ := Prod.mk.inj (Option.some.inj h)
  obtain ⟨hiswhole, rfl⟩ := isWhole_of_wholePart? hwhole
  obtain ⟨hisfraction, rfl⟩ := isFraction_of_fraction? hfraction
  obtain ⟨hisexponent, rfl⟩ := isExponent_of_exponent? hexponent
  refine ⟨.intro hiswhole hisfraction hisexponent, ?_⟩
  simp only [List.append_assoc]

namespace Token

theorem exists_spells_of_next? {token : Token} (h : next? cs = some (token, rest)) :
    ∃ piece, Spells token piece ∧ cs = piece ++ rest := by
  unfold next? at h
  split at h
  case h_7 =>
    obtain ⟨⟨_, _⟩, hunits, heq⟩ := Option.map_eq_some_iff.mp h
    obtain ⟨rfl, rfl⟩ := Prod.mk.inj heq
    obtain ⟨pieces, hpieces, rfl⟩ := exists_pieces_of_stringUnits? hunits
    exact ⟨_, .string hpieces, by simp⟩
  case h_11 =>
    obtain ⟨⟨_, _⟩, hdigits, heq⟩ := Option.map_eq_some_iff.mp h
    obtain ⟨rfl, rfl⟩ := Prod.mk.inj heq
    obtain ⟨hmagnitude, rfl⟩ := isMagnitude_of_magnitude? hdigits
    exact ⟨_, .number (.negative hmagnitude), rfl⟩
  case h_12 =>
    obtain ⟨⟨_, _⟩, hdigits, heq⟩ := Option.map_eq_some_iff.mp h
    obtain ⟨rfl, rfl⟩ := Prod.mk.inj heq
    obtain ⟨hmagnitude, rfl⟩ := isMagnitude_of_magnitude? hdigits
    exact ⟨_, .number (.unsigned hmagnitude), rfl⟩
  all_goals
    cases h
    exact ⟨_, by constructor, rfl⟩

theorem spellAll_of_scan? {tokens : List Token} (h : scan? cs = some tokens) :
    SpellAll tokens cs := by
  fun_induction scan? cs generalizing tokens with
  | case1 =>
      cases h
      exact .nil
  | case2 c cs hspace ih => exact .blank hspace (ih h)
  | case3 => cases h
  | case4 c cs _ token rest hnext ih =>
      obtain ⟨tokens, hrest, rfl⟩ := Option.map_eq_some_iff.mp h
      obtain ⟨piece, hpiece, heq⟩ := exists_spells_of_next? hnext
      rw [heq]
      exact .cons hpiece (ih hrest)

theorem SpellAll.exists_spells {tokens : List Token} (h : SpellAll tokens cs) {token : Token}
    (htoken : token ∈ tokens) : ∃ piece, Spells token piece := by
  induction h with
  | nil => cases htoken
  | blank _ _ ih => exact ih htoken
  | cons hpiece _ ih =>
      rcases List.mem_cons.mp htoken with rfl | htoken
      · exact ⟨_, hpiece⟩
      · exact ih htoken

end Token

/-! ## From tokens to values -/

namespace State

/-- The tokens of an array that has items and is still open. -/
def openArray (items : List Json) : List Token :=
  .beginArray :: items.flatMap fun item => item.tokens ++ [.comma]

/-- The tokens of an object that has members and is still open. -/
def openObject (members : List (Str × Json)) : List Token :=
  .beginObject :: members.flatMap fun member =>
    [.string member.1, .colon] ++ member.2.tokens ++ [.comma]

/-- The tokens of containers that are still open. -/
def openFrames : List Frame → List Token
  | [] => []
  | .array items :: stack => openFrames stack ++ openArray items
  | .object members k :: stack => openFrames stack ++ openObject members ++ [.string k, .colon]

/-- The tokens that lead to a state. -/
def readTokens : State → List Token
  | value stack => openFrames stack
  | arrayStart stack => openFrames stack ++ [.beginArray]
  | objectStart stack => openFrames stack ++ [.beginObject]
  | key members stack => openFrames stack ++ openObject members
  | colon members k stack => openFrames stack ++ openObject members ++ [.string k]
  | after v stack => openFrames stack ++ v.tokens

theorem tokens_append_itemTokens (first : Json) (items : List Json) (v : Json) :
    tokens first ++ itemTokens (items ++ [v]) =
      ((first :: items).flatMap fun item => item.tokens ++ [.comma]) ++ v.tokens := by
  induction items generalizing first with
  | nil => simp [itemTokens]
  | cons item items ih =>
      rw [List.cons_append, itemTokens, List.flatMap_cons, List.append_assoc, ← ih]
      simp

theorem tokens_array_append (items : List Json) (v : Json) :
    (Json.array (items ++ [v])).tokens = openArray items ++ v.tokens ++ [.endArray] := by
  cases items with
  | nil => simp [tokens, itemTokens, openArray]
  | cons first items =>
      rw [List.cons_append, tokens, List.cons_append, tokens_append_itemTokens]
      rfl

theorem tokens_append_memberTokens
    (first : Str × Json) (members : List (Str × Json)) (k : Str) (v : Json) :
    [.string first.1, .colon] ++ tokens first.2 ++ memberTokens (members ++ [(k, v)]) =
      ((first :: members).flatMap fun member =>
        [.string member.1, .colon] ++ member.2.tokens ++ [.comma]) ++
        [.string k, .colon] ++ v.tokens := by
  induction members generalizing first with
  | nil => simp [memberTokens]
  | cons member members ih =>
      have hmembers := ih member
      simp only [List.cons_append, memberTokens, List.flatMap_cons, List.append_assoc,
        List.nil_append] at hmembers ⊢
      rw [← hmembers]

theorem tokens_object_append (members : List (Str × Json)) (k : Str) (v : Json) :
    (Json.object (members ++ [(k, v)])).tokens =
      openObject members ++ [.string k, .colon] ++ v.tokens ++ [.endObject] := by
  cases members with
  | nil => simp [tokens, memberTokens, openObject]
  | cons first members =>
      have hmembers := congrArg (· ++ [Token.endObject])
        (tokens_append_memberTokens first members k v)
      simpa [tokens, openObject] using hmembers

/-- A token that is a value by itself is one of the literals, whose own tokens are the literal alone. -/
theorem readTokens_beginValue
    {stack : List Frame} {state : State} {token : Token} (htoken : Token.Spells token cs)
    (h : beginValue stack token = some state) :
    state.readTokens = openFrames stack ++ [token] := by
  cases htoken <;> cases h <;> rfl

/-- A token that is read is the last of those that lead to the next state.  The end of a container makes
a value of it, and any other token adds to the container that is open. -/
theorem readTokens_next?
    {state state' : State} {token : Token} (htoken : Token.Spells token cs)
    (h : state.next? token = some state') : state'.readTokens = state.readTokens ++ [token] := by
  cases state with
  | value stack => exact readTokens_beginValue htoken h
  | arrayStart stack =>
      by_cases hend : token = .endArray
      · subst hend
        cases h
        simp [readTokens, tokens]
      · have hbegin : beginValue (.array [] :: stack) token = some state' := by
          cases htoken <;> first | exact absurd rfl hend | exact h
        exact readTokens_beginValue htoken hbegin
  | objectStart stack =>
      cases htoken <;> cases h
      · simp [readTokens, tokens]
      · rfl
  | key members stack =>
      cases htoken <;> cases h
      rfl
  | colon members k stack =>
      cases htoken <;> cases h
      simp [readTokens, openFrames]
  | after v stack =>
      cases stack with
      | nil => cases h
      | cons frame stack =>
          cases frame with
          | array items =>
              cases htoken <;> cases h
              · simp [readTokens, openFrames, tokens_array_append]
              · simp [readTokens, openFrames, openArray]
          | object members k =>
              cases htoken <;> cases h
              · simp [readTokens, openFrames, tokens_object_append]
              · simp [readTokens, openFrames, openObject]

/-- Tokens that are read are, in order, those that lead to the state they end in. -/
theorem readTokens_run?
    {state state' : State} {tokens : List Token}
    (htokens : ∀ token ∈ tokens, ∃ piece, Token.Spells token piece)
    (h : state.run? tokens = some state') : state'.readTokens = state.readTokens ++ tokens := by
  induction tokens generalizing state with
  | nil =>
      obtain rfl := Option.some.inj h
      exact (List.append_nil _).symm
  | cons token tokens ih =>
      rw [run?_cons] at h
      obtain ⟨middle, hfirst, hrest⟩ := Option.bind_eq_some_iff.mp h
      obtain ⟨piece, hpiece⟩ := htokens token List.mem_cons_self
      rw [ih (fun other hother => htokens other (List.mem_cons_of_mem _ hother)) hrest,
        readTokens_next? hpiece hfirst, List.append_assoc, List.singleton_append]

end State

/-- Tokens that stand for a value are the tokens of the value. -/
theorem eq_tokens_of_ofTokens?
    {tokens : List Token} {v : Json} (htokens : ∀ token ∈ tokens, ∃ piece, Token.Spells token piece)
    (h : ofTokens? tokens = some v) : tokens = v.tokens := by
  obtain ⟨state, hrun, hresult⟩ := Option.bind_eq_some_iff.mp h
  have hread := State.readTokens_run? htokens hrun
  unfold State.result? at hresult
  split at hresult
  · obtain rfl := Option.some.inj hresult
    exact hread.symm
  · cases hresult

/-- The reader accepts the texts of values and no others, each as the value that it is a text of. -/
theorem parse?_eq_some_iff {v : Json} {text : String} : parse? text = some v ↔ v.IsText text := by
  constructor
  · intro h
    obtain ⟨tokens, hscan, htokens⟩ := Option.bind_eq_some_iff.mp h
    have hspell := Token.spellAll_of_scan? hscan
    rwa [eq_tokens_of_ofTokens? (fun token => hspell.exists_spells) htokens] at hspell
  · exact IsText.parse?

end Changelog.Json
