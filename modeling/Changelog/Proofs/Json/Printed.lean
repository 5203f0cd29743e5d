import Changelog.Json.Printer
import Changelog.Json.Reader
import Mathlib

/-!
# Values that are written are read back

Between a value and its text stand the tokens.  The text of a value is divided into the tokens of the
value, whatever follows the text, and these tokens turn a reader that waits for a value into one that
has it, whatever containers are open.  Both facts need the freedom in what surrounds the value for
their inductions.

Only numbers are left out.  The end of a number is not marked, so a number is read back only where no
digit follows.
-/

namespace Changelog.Json

/-! ## Strings -/

variable {c : Char}

theorem stringUnits?_escaped {e : Char} (h : escaped? e = some c) (rest : List Char) :
    stringUnits? ('\\' :: e :: rest) =
      (stringUnits? rest).map fun (units, rest) => (.char c :: units, rest) := by
  have hcoded : e ≠ 'u' := by
    rintro rfl
    cases h
  rw [stringUnits?, h]
  · cases stringUnits? rest <;> rfl
  · exact fun _ _ _ _ _ heq => absurd heq hcoded

theorem stringUnits?_coded
    {x y z w : Char} {unit : StringUnit}
    (h : (Text.hexNumber? [x, y, z, w]).map StringUnit.ofCode = some unit) (rest : List Char) :
    stringUnits? ('\\' :: 'u' :: x :: y :: z :: w :: rest) =
      (stringUnits? rest).map fun (units, rest) => (unit :: units, rest) := by
  obtain ⟨code, hcode, hunit⟩ := Option.map_eq_some_iff.mp h
  rw [stringUnits?, hcode, ← hunit]
  cases stringUnits? rest <;> rfl

theorem stringUnits?_plain
    (hquote : c ≠ '"') (hslash : c ≠ '\\') (hcontrol : ¬c.toNat < 0x20) (rest : List Char) :
    stringUnits? (c :: rest) =
      (stringUnits? rest).map fun (units, rest) => (.char c :: units, rest) := by
  rw [stringUnits?, if_neg hcontrol]
  · cases stringUnits? rest <;> rfl
  · exact hquote
  · exact fun _ _ _ _ _ heq => absurd heq hslash
  · exact fun _ _ heq => absurd heq hslash

/-- A character is read back, whatever follows it. -/
theorem stringUnits?_escape_append (c : Char) (rest : List Char) :
    stringUnits? (escape c ++ rest) =
      (stringUnits? rest).map fun (units, rest) => (.char c :: units, rest) := by
  unfold escape
  split
  case h_8 hquote hslash _ _ _ _ _ =>
    split
    · rename_i hcontrol
      apply stringUnits?_coded
      rw [Text.hexNumber?_hexDigits (by omega), Option.map_some, StringUnit.ofCode,
        if_neg (by omega), Char.ofNat_toNat]
    · rename_i hcontrol
      exact stringUnits?_plain hquote hslash hcontrol rest
  all_goals exact stringUnits?_escaped rfl rest

theorem stringUnits?_flatMap_escape_append (cs rest : List Char) :
    stringUnits? (cs.flatMap escape ++ '"' :: rest) = some (cs.map .char, rest) := by
  induction cs with
  | nil => rfl
  | cons c cs ih =>
      rw [List.flatMap_cons, List.append_assoc, stringUnits?_escape_append, ih]
      rfl

theorem joinUnits?_map_char (cs : List Char) : joinUnits? (cs.map .char) = some cs := by
  induction cs with
  | nil => rfl
  | cons c cs ih =>
      rw [List.map_cons, joinUnits?, ih]
      rfl

theorem Str.ofUnits_map_char (s : String) : Str.ofUnits (s.toList.map .char) = .text s := by
  simp only [Str.ofUnits, joinUnits?_map_char, String.ofList_toList]

namespace Token

/-- A string is read back, whatever follows it. -/
theorem next?_render_append (s : Str) (rest : List Char) :
    next? (s.render ++ rest) = some (string s, rest) := by
  cases s with
  | unpaired => rfl
  | text s =>
      rw [Str.render, List.cons_append, List.cons_append, List.append_assoc, List.singleton_append,
        next?, stringUnits?_flatMap_escape_append, Option.map_some]
      change some (string (Str.ofUnits _), rest) = _
      rw [Str.ofUnits_map_char]

theorem scan?_of_next?
    {cs rest : List Char} {token : Token} (hspace : isSpace c = false)
    (h : next? (c :: cs) = some (token, rest)) :
    scan? (c :: cs) = (scan? rest).map (token :: ·) := by
  rw [scan?, if_neg (by simp [hspace])]
  split
  · rename_i hnone
    rw [h] at hnone
    cases hnone
  · rename_i hsome
    rw [h] at hsome
    cases hsome
    rfl

end Token

/-! ## Tokens -/

mutual

/-- The tokens of a value. -/
def tokens : Json → List Token
  | string s => [.string s]
  | array [] => [.beginArray, .endArray]
  | array (item :: items) => .beginArray :: tokens item ++ itemTokens items ++ [.endArray]
  | object [] => [.beginObject, .endObject]
  | object ((k, v) :: members) =>
    [.beginObject, .string k, .colon] ++ tokens v ++ memberTokens members ++ [.endObject]
  | v => [.literal v]

/-- The tokens of further items, each after a comma. -/
def itemTokens : List Json → List Token
  | [] => []
  | item :: items => .comma :: tokens item ++ itemTokens items

/-- The tokens of further members, each after a comma. -/
def memberTokens : List (Str × Json) → List Token
  | [] => []
  | (k, v) :: members => [.comma, .string k, .colon] ++ tokens v ++ memberTokens members

end

/-- What holds of a container if it holds of what is in it, and of every other value, holds of all. -/
@[elab_as_elim]
theorem induction {motive : Json → Prop}
    (null : motive null) (bool : ∀ b, motive (bool b)) (number : ∀ literal, motive (number literal))
    (string : ∀ s, motive (string s))
    (array : ∀ items, (∀ item ∈ items, motive item) → motive (array items))
    (object : ∀ members, (∀ member ∈ members, motive member.2) → motive (object members)) :
    ∀ v, motive v
  | .null => null
  | .bool b => bool b
  | .number literal => number literal
  | .string s => string s
  | .array items => array items fun item _ =>
      induction null bool number string array object item
  | .object members => object members fun member _ =>
      induction null bool number string array object member.2
  termination_by v => sizeOf v
  decreasing_by
    · have := List.sizeOf_lt_of_mem ‹item ∈ items›
      simp only [Json.array.sizeOf_spec]
      omega
    · have := List.sizeOf_lt_of_mem ‹member ∈ members›
      have : sizeOf member = 1 + sizeOf member.1 + sizeOf member.2 := by
        cases member
        rfl
      simp only [Json.object.sizeOf_spec]
      omega

/-- A value without numbers. -/
inductive Numberless : Json → Prop
  | null : Numberless null
  | bool (b : Bool) : Numberless (bool b)
  | string (s : Str) : Numberless (string s)
  | array {items : List Json} (h : ∀ item ∈ items, Numberless item) : Numberless (array items)
  | object {members : List (Str × Json)} (h : ∀ member ∈ members, Numberless member.2) :
      Numberless (object members)

/-! ## From texts to tokens -/

/-- A text is divided into tokens, whatever follows it. -/
def Divides (cs : List Char) (tokens : List Token) : Prop :=
  ∀ rest, Token.scan? (cs ++ rest) = (Token.scan? rest).map (tokens ++ ·)

theorem Divides.append
    {cs ds : List Char} {first second : List Token} (h : Divides cs first)
    (h' : Divides ds second) : Divides (cs ++ ds) (first ++ second) := by
  intro rest
  rw [List.append_assoc, h, h', Option.map_map]
  congr 1
  funext tokens
  exact (List.append_assoc first second tokens).symm

theorem divides_nil : Divides [] [] := by
  intro rest
  simp

theorem divides_of_next?
    {cs : List Char} {token : Token} (hspace : Token.isSpace c = false)
    (h : ∀ rest, Token.next? (c :: (cs ++ rest)) = some (token, rest)) :
    Divides (c :: cs) [token] :=
  fun rest => Token.scan?_of_next? hspace (h rest)

theorem divides_str (s : Str) : Divides s.render [.string s] := by
  have hnext := Token.next?_render_append s
  cases s with
  | text s => exact divides_of_next? (by decide) hnext
  | unpaired => exact divides_of_next? (by decide) hnext

theorem divides_comma : Divides [','] [.comma] :=
  divides_of_next? (by decide) fun _ => rfl

theorem divides_renderItems
    {items : List Json} (h : ∀ item ∈ items, Divides item.render item.tokens) :
    Divides (renderItems items) (itemTokens items) := by
  induction items with
  | nil => exact divides_nil
  | cons item items ih =>
      have hitems := ih fun other hother => h other (List.mem_cons_of_mem _ hother)
      rw [renderItems, itemTokens]
      exact (divides_comma.append (h item List.mem_cons_self)).append hitems

/-- A member is divided into its key, the colon and its value. -/
theorem divides_member
    {v : Json} (k : Str) (h : Divides v.render v.tokens) :
    Divides (k.render ++ ':' :: v.render) ([.string k, .colon] ++ v.tokens) := by
  have hcolon : Divides [':'] [.colon] := divides_of_next? (by decide) fun _ => rfl
  exact (divides_str k).append (hcolon.append h)

theorem divides_renderMembers
    {members : List (Str × Json)} (h : ∀ member ∈ members, Divides member.2.render member.2.tokens) :
    Divides (renderMembers members) (memberTokens members) := by
  induction members with
  | nil => exact divides_nil
  | cons member members ih =>
      have hmember := divides_member member.1 (h member List.mem_cons_self)
      have hmembers := ih fun other hother => h other (List.mem_cons_of_mem _ hother)
      rw [renderMembers, memberTokens]
      exact (divides_comma.append hmember).append hmembers

theorem divides_array {items : List Json} (h : ∀ item ∈ items, Divides item.render item.tokens) :
    Divides (array items).render (array items).tokens := by
  have hbegin : Divides ['['] [.beginArray] := divides_of_next? (by decide) fun _ => rfl
  have hend : Divides [']'] [.endArray] := divides_of_next? (by decide) fun _ => rfl
  cases items with
  | nil => exact hbegin.append hend
  | cons item items =>
      have hitems := divides_renderItems fun other hother => h other (List.mem_cons_of_mem _ hother)
      rw [render, tokens]
      exact ((hbegin.append (h item List.mem_cons_self)).append hitems).append hend

theorem divides_object
    {members : List (Str × Json)} (h : ∀ member ∈ members, Divides member.2.render member.2.tokens) :
    Divides (object members).render (object members).tokens := by
  have hbegin : Divides ['{'] [.beginObject] := divides_of_next? (by decide) fun _ => rfl
  have hend : Divides ['}'] [.endObject] := divides_of_next? (by decide) fun _ => rfl
  cases members with
  | nil => exact hbegin.append hend
  | cons member members =>
      have hmember := divides_member member.1 (h member List.mem_cons_self)
      have hmembers := divides_renderMembers fun other hother =>
        h other (List.mem_cons_of_mem _ hother)
      rw [render, tokens]
      exact ((hbegin.append hmember).append hmembers).append hend

/-- The text of a value is divided into the tokens of the value. -/
theorem Numberless.divides_render {v : Json} (h : v.Numberless) : Divides v.render v.tokens := by
  induction h with
  | null => exact divides_of_next? (by decide) fun _ => rfl
  | bool b => cases b <;> exact divides_of_next? (by decide) fun _ => rfl
  | string s => exact divides_str s
  | array _ ih => exact divides_array ih
  | object _ ih => exact divides_object ih

/-! ## From tokens to values -/

namespace State

/-- The tokens of a value give the value to a reader that waits for one. -/
def Takes (v : Json) : Prop :=
  ∀ stack, run? (value stack) v.tokens = some (after v stack)

/-- The first token of a value is not the end of an array. -/
theorem exists_tokens_eq_cons (v : Json) :
    ∃ first more, v.tokens = first :: more ∧ first ≠ .endArray := by
  match v with
  | .null | .bool _ | .number _ => exact ⟨_, _, rfl, nofun⟩
  | .string _ => exact ⟨_, _, rfl, nofun⟩
  | .array [] | .array (_ :: _) => exact ⟨_, _, rfl, nofun⟩
  | .object [] | .object (_ :: _) => exact ⟨_, _, rfl, nofun⟩

/-- The first item of an array is read like any value. -/
theorem run?_arrayStart (v : Json) (stack : List Frame) :
    run? (arrayStart stack) v.tokens = run? (value (.array [] :: stack)) v.tokens := by
  obtain ⟨first, more, htokens, hfirst⟩ := exists_tokens_eq_cons v
  have hnext : next? (arrayStart stack) first = next? (value (.array [] :: stack)) first := by
    cases first with
    | endArray => exact absurd rfl hfirst
    | _ => rfl
  rw [htokens, run?_cons, run?_cons, hnext]

theorem run?_itemTokens
    {items : List Json} (h : ∀ item ∈ items, Takes item) (v : Json) (done : List Json)
    (stack : List Frame) :
    run? (after v (.array done :: stack)) (itemTokens items ++ [.endArray]) =
      some (after (.array (done ++ v :: items)) stack) := by
  induction items generalizing v done with
  | nil => rfl
  | cons item items ih =>
      have hitems := ih fun other hother => h other (List.mem_cons_of_mem _ hother)
      rw [itemTokens, List.cons_append, List.cons_append, List.append_assoc, run?_cons]
      change run? (value (.array (done ++ [v]) :: stack)) _ = _
      rw [run?_append, h item List.mem_cons_self]
      change run? (after item (.array (done ++ [v]) :: stack)) _ = _
      rw [hitems, List.append_assoc]
      rfl

theorem run?_memberTokens
    {members : List (Str × Json)} (h : ∀ member ∈ members, Takes member.2) (k : Str) (v : Json)
    (done : List (Str × Json)) (stack : List Frame) :
    run? (after v (.object done k :: stack)) (memberTokens members ++ [.endObject]) =
      some (after (.object (done ++ (k, v) :: members)) stack) := by
  induction members generalizing k v done with
  | nil => rfl
  | cons member members ih =>
      have hmembers := ih fun other hother => h other (List.mem_cons_of_mem _ hother)
      rw [memberTokens, List.append_assoc, List.append_assoc, run?_append]
      change run? (value (.object (done ++ [(k, v)]) member.1 :: stack)) _ = _
      rw [run?_append, h member List.mem_cons_self]
      change run? (after member.2 (.object (done ++ [(k, v)]) member.1 :: stack)) _ = _
      rw [hmembers, List.append_assoc]
      rfl

theorem takes_array {items : List Json} (h : ∀ item ∈ items, Takes item) :
    Takes (.array items) := by
  intro stack
  cases items with
  | nil => rfl
  | cons item items =>
      rw [tokens, List.cons_append, List.cons_append, List.append_assoc, run?_cons]
      change run? (arrayStart stack) _ = _
      rw [run?_append, run?_arrayStart, h item List.mem_cons_self]
      exact run?_itemTokens (fun other hother => h other (List.mem_cons_of_mem _ hother)) item [] stack

theorem takes_object {members : List (Str × Json)} (h : ∀ member ∈ members, Takes member.2) :
    Takes (.object members) := by
  intro stack
  cases members with
  | nil => rfl
  | cons member members =>
      rw [tokens, List.append_assoc, List.append_assoc, run?_append]
      change run? (value (.object [] member.1 :: stack)) _ = _
      rw [run?_append, h member List.mem_cons_self]
      exact run?_memberTokens (fun other hother => h other (List.mem_cons_of_mem _ hother))
        member.1 member.2 [] stack

end State

/-- The tokens of a value give it to a reader that waits for one. -/
theorem takes (v : Json) : State.Takes v := by
  induction v using induction with
  | null | bool _ | number _ | string _ => exact fun _ => rfl
  | array items ih => exact State.takes_array ih
  | object members ih => exact State.takes_object ih

/-- A value without numbers is read back from its text. -/
theorem Numberless.parse?_print {v : Json} (h : v.Numberless) : parse? (print v) = some v := by
  have hscan := h.divides_render []
  have hend : Token.scan? [] = some [] := by rw [Token.scan?]
  rw [List.append_nil, hend, Option.map_some, List.append_nil] at hscan
  rw [parse?, print, String.toList_ofList, hscan, Option.bind_some, ofTokens?, takes]
  rfl

end Changelog.Json
