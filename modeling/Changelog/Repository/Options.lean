import Changelog.Text.Decimal
import Changelog.Text.Run

/-!
# Options of a repository

A repository has a file of options.  An option belongs to a section, which a line in brackets
begins, and has a name and mostly a value.  Quotes keep blanks and marks of comments in a value, a
backslash makes one character of the two that it begins, and one at the end of a line carries the
value on.  Of an option that is given more than once the last value counts.

Only a few options matter here: whether there are files checked out and where, how the first branch
is called, and of which version the repository is.
-/

namespace Changelog

/-- The options that matter. -/
structure Options where
  /-- Whether there is no directory of checked-out files. -/
  bare : Bool := false
  /-- The path of that directory, if it is not where it usually is. -/
  worktree? : Option String := none
  /-- The name of the first branch. -/
  branch : String := "master"
  deriving DecidableEq, Repr

namespace Options

/-- An option as it is given: section and name, and the value if there is one. -/
abbrev Entry := String × Option String

/-- Blanks within a line. -/
def isBlank (c : Char) : Bool :=
  c == ' ' || c == '\t' || c == '\r' || c == '\x0b' || c == '\x0c'

/-- Characters of a name. -/
def isNameChar (c : Char) : Bool := c.isAlphanum || c == '-'

/-- What an escaped character stands for. -/
def escaped? : Char → Option Char
  | 'n' => some '\n'
  | 't' => some '\t'
  | 'b' => some '\x08'
  | '"' => some '"'
  | '\\' => some '\\'
  | _ => none

/-- What follows on the next line, with the line break before it. -/
def skipLine (cs : List Char) : List Char := cs.dropWhile (· != '\n')

/-- Read a value up to the end of its line, with what follows.  The blanks before the current place
are part of the value only if more of it comes. -/
def value? (quoted : Bool) (blanks : List Char) : List Char → Option (List Char × List Char)
  | [] => some ([], [])
  | '\n' :: rest => some ([], '\n' :: rest)
  | '\\' :: '\n' :: rest => (value? quoted [] rest).map fun (v, rest) => (blanks ++ v, rest)
  | '\\' :: '\r' :: '\n' :: rest =>
    (value? quoted [] rest).map fun (v, rest) => (blanks ++ v, rest)
  | '\\' :: c :: rest =>
    match escaped? c with
    | some c => (value? quoted [] rest).map fun (v, rest) => (blanks ++ c :: v, rest)
    | none => none
  | '"' :: rest => (value? (!quoted) [] rest).map fun (v, rest) => (blanks ++ v, rest)
  | c :: rest =>
    if !quoted && (c == '#' || c == ';') then some ([], skipLine rest)
    else if !quoted && isBlank c then value? quoted (blanks ++ [c]) rest
    else (value? quoted [] rest).map fun (v, rest) => (blanks ++ c :: v, rest)

/-- Read the quoted part of a section, with what follows the closing quote. -/
def quotedPart? : List Char → Option (List Char × List Char)
  | '"' :: rest => some ([], rest)
  | '\\' :: c :: rest => (quotedPart? rest).map fun (part, rest) => (c :: part, rest)
  | '\n' :: _ => none
  | c :: rest => (quotedPart? rest).map fun (part, rest) => (c :: part, rest)
  | [] => none

/-- A name in lower case. -/
def lower (cs : List Char) : List Char := cs.map Char.toLower

/-- Read a section after its opening bracket, with what follows the closing one. -/
def section? (cs : List Char) : Option (List Char × List Char) :=
  match Text.run? (fun c => isNameChar c || c == '.') cs with
  | none => none
  | some (name, ']' :: rest) => some (lower name, rest)
  | some (name, c :: rest) =>
    if isBlank c then
      match rest.dropWhile isBlank with
      | '"' :: rest =>
        match quotedPart? rest with
        | some (part, ']' :: rest) => some (lower name ++ '.' :: part, rest)
        | _ => none
      | _ => none
    else none
  | some (_, []) => none

/-- Read an option within a section, with what follows. -/
def option? (sectionName : List Char) (cs : List Char) : Option (Entry × List Char) :=
  match Text.run? isNameChar cs with
  | none => none
  | some (name, rest) =>
    let key := String.ofList (if sectionName = [] then lower name
      else sectionName ++ '.' :: lower name)
    match rest.dropWhile isBlank with
    | [] => some ((key, none), [])
    | '\n' :: rest => some ((key, none), '\n' :: rest)
    | '#' :: rest => some ((key, none), skipLine rest)
    | ';' :: rest => some ((key, none), skipLine rest)
    | '=' :: rest =>
      (value? false [] (rest.dropWhile isBlank)).map fun (v, rest) =>
        ((key, some (.ofList v)), rest)
    | _ => none

theorem length_skipLine_le (cs : List Char) : (skipLine cs).length ≤ cs.length :=
  (List.dropWhile_suffix (· != '\n')).length_le

theorem length_dropBlanks_le (cs : List Char) : (cs.dropWhile isBlank).length ≤ cs.length :=
  (List.dropWhile_suffix isBlank).length_le

theorem length_le_of_value?
    {quoted : Bool} {blanks cs v rest : List Char} (h : value? quoted blanks cs = some (v, rest)) :
    rest.length ≤ cs.length := by
  fun_induction value? quoted blanks cs generalizing v rest with
  | case1 =>
    cases h
    exact Nat.le_refl _
  | case2 =>
    cases h
    exact Nat.le_refl _
  | case6 => cases h
  | case8 quoted blanks c tail =>
    cases h
    have := length_skipLine_le tail
    simp only [List.length_cons]
    omega
  | case9 quoted blanks c tail _ _ _ _ _ _ _ ih =>
    have := ih h
    simp only [List.length_cons]
    omega
  | _ =>
    rename_i ih
    obtain ⟨⟨v', rest'⟩, hv, heq⟩ := Option.map_eq_some_iff.mp h
    have := ih hv
    cases heq
    simp only [List.length_cons]
    omega

theorem length_lt_of_quotedPart?
    {cs part rest : List Char} (h : quotedPart? cs = some (part, rest)) :
    rest.length < cs.length := by
  fun_induction quotedPart? cs generalizing part rest with
  | case1 =>
    cases h
    simp
  | case3 => cases h
  | case5 => cases h
  | _ =>
    rename_i ih
    obtain ⟨⟨part', rest'⟩, hpart, heq⟩ := Option.map_eq_some_iff.mp h
    have := ih hpart
    cases heq
    simp only [List.length_cons]
    omega

theorem length_lt_of_section?
    {cs name rest : List Char} (h : section? cs = some (name, rest)) :
    rest.length < cs.length := by
  unfold section? at h
  split at h
  · cases h
  · rename_i hrun
    have := Text.length_lt_of_run? hrun
    cases h
    simp only [List.length_cons] at this
    omega
  · rename_i c tail _ hrun
    have := Text.length_lt_of_run? hrun
    have := length_dropBlanks_le tail
    split at h
    · split at h
      · rename_i after heq
        split at h
        · rename_i hpart
          have := length_lt_of_quotedPart? hpart
          cases h
          simp_all only [List.length_cons]
          omega
        · cases h
      · cases h
    · cases h
  · cases h

theorem length_lt_of_option?
    {sectionName cs rest : List Char} {entry : Entry}
    (h : option? sectionName cs = some (entry, rest)) : rest.length < cs.length := by
  unfold option? at h
  split at h
  · cases h
  · rename_i name after hrun
    have := Text.length_lt_of_run? hrun
    have hblanks := length_dropBlanks_le after
    dsimp only at h
    split at h
    · cases h
      simp only [List.length_nil]
      omega
    · rename_i heq
      rw [heq] at hblanks
      cases h
      omega
    · rename_i tail heq
      rw [heq] at hblanks
      have := length_skipLine_le tail
      cases h
      simp only [List.length_cons] at hblanks
      omega
    · rename_i tail heq
      rw [heq] at hblanks
      have := length_skipLine_le tail
      cases h
      simp only [List.length_cons] at hblanks
      omega
    · rename_i tail heq
      rw [heq] at hblanks
      obtain ⟨⟨v, rest'⟩, hv, hrest⟩ := Option.map_eq_some_iff.mp h
      have := length_le_of_value? hv
      have := length_dropBlanks_le tail
      cases hrest
      simp only [List.length_cons] at hblanks
      dsimp only
      omega
    · cases h

/-- Read all options, the last one first. -/
def entries? (sectionName : List Char) (found : List Entry) (cs : List Char) :
    Option (List Entry) :=
  match _hs : cs.dropWhile isBlank with
  | [] => some found
  | '\n' :: rest => entries? sectionName found rest
  | '#' :: rest => entries? sectionName found (skipLine rest)
  | ';' :: rest => entries? sectionName found (skipLine rest)
  | '[' :: rest =>
    match _h : section? rest with
    | some (name, rest) => entries? name found rest
    | none => none
  | c :: rest =>
    match _h : option? sectionName (c :: rest) with
    | some (entry, rest) => entries? sectionName (entry :: found) rest
    | none => none
  termination_by cs.length
  decreasing_by
    all_goals
      have hblanks := length_dropBlanks_le cs
      rw [_hs] at hblanks
      simp only [List.length_cons] at hblanks
    · omega
    · have := length_skipLine_le rest
      omega
    · have := length_skipLine_le rest
      omega
    · have := length_lt_of_section? _h
      omega
    · have := length_lt_of_option? _h
      simp only [List.length_cons] at this
      omega

/-- What a text says as a number.  A letter at the end multiplies it. -/
def int? (text : String) : Option Int :=
  match text.toList with
  | '-' :: cs => (magnitude? cs).map fun n => -(n : Int)
  | '+' :: cs => (magnitude? cs).map Int.ofNat
  | cs => (magnitude? cs).map Int.ofNat
where
  /-- The number without its sign. -/
  magnitude? (cs : List Char) : Option Nat :=
    match Text.run? Char.isDigit cs with
    | some (digits, []) => some (Text.decimal digits)
    | some (digits, [c]) => (factor? c.toLower).map (Text.decimal digits * ·)
    | _ => none
  /-- What a letter multiplies by. -/
  factor? : Char → Option Nat
    | 'k' => some 1024
    | 'm' => some 1048576
    | 'g' => some 1073741824
    | _ => none

/-- What a value says as yes or no.  An option without a value says yes. -/
def bool? : Option String → Option Bool
  | none => some true
  | some text =>
    let word := String.ofList (lower text.toList)
    if ["true", "yes", "on"].contains word then some true
    else if ["false", "no", "off", ""].contains word then some false
    else (int? text).map (· != 0)

/-- Whether a repository of a version, which may need more than every repository, can be opened. -/
def isSupported (entries : List Entry) (version : Int) : Bool :=
  if version = 0 then true
  else if version = 1 then entries.all fun entry =>
    match "extensions.".toList.isPrefixOf? entry.1.toList with
    | none => true
    | some name =>
      ["noop", "worktreeconfig", "preciousobjects"].contains (String.ofList name) ||
        (name == "objectformat".toList && entry.2 == some "sha1")
  else false

/-- The options that entries give.  There are none if the repository cannot be opened. -/
def ofEntries? (entries : List Entry) : Option Options := do
  let version ← (entries.lookup "core.repositoryformatversion").elim (some 0) (·.bind int?)
  if !isSupported entries version then none
  let bare ← (entries.lookup "core.bare").elim (some false) bool?
  let worktree? := (entries.lookup "core.worktree").join
  if !bare && worktree? == some "" then none
  let branch := ((entries.lookup "init.defaultbranch").join.filter (· != "")).getD "master"
  return { bare, worktree?, branch }

/-- The options of a text, which may begin with a byte order mark. -/
def ofChars? (cs : List Char) : Option Options :=
  (entries? [] [] (if cs.head? = some '\uFEFF' then cs.drop 1 else cs)).bind ofEntries?

end Options

end Changelog
