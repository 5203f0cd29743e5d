import Changelog.Text.Run
import Mathlib.Data.List.Basic

/-!
# Patterns

A pattern says how a text may begin, and which parts of the beginning are kept.  Where it leaves a
choice, more characters are tried before fewer and an optional part before nothing, and the first
match that goes through is the one that counts.

A reader that takes longest runs and never goes back does the same as long as nothing shorter can go
through.  The statement `kept?_both_named_plus` says when this is so: what follows a run must refuse
each character of the class.
-/

namespace Changelog

/-- How a text may begin.  Kept parts have names. -/
inductive Pattern (γ : Type)
  /-- A character of a class. -/
  | one (inClass : Char → Bool)
  /-- Any number of characters of a class. -/
  | many (inClass : Char → Bool)
  /-- A pattern and then another. -/
  | both (first second : Pattern γ)
  /-- A pattern or nothing. -/
  | optional (part : Pattern γ)
  /-- A pattern whose text is kept. -/
  | named (name : γ) (part : Pattern γ)

namespace Pattern

variable {γ : Type}

/-- A beginning of a text that fits a pattern. -/
structure Match (γ : Type) where
  /-- The beginning. -/
  text : List Char
  /-- What follows it. -/
  rest : List Char
  /-- The parts that are kept. -/
  kept : List (γ × List Char)
  deriving DecidableEq, Repr

/-- A match and another one of what follows it. -/
def Match.append (m n : Match γ) : Match γ := ⟨m.text ++ n.text, n.rest, m.kept ++ n.kept⟩

/-- The beginnings of a text that lie in a class, the longest first, each with what follows it. -/
def runs (inClass : Char → Bool) : List Char → List (List Char × List Char)
  | [] => [([], [])]
  | c :: cs =>
    if inClass c then (runs inClass cs).map (fun run => (c :: run.1, run.2)) ++ [([], c :: cs)]
    else [([], c :: cs)]

/-- All matches, in the order in which they are tried. -/
def attempts : Pattern γ → List Char → List (Match γ)
  | one _, [] => []
  | one inClass, c :: cs => if inClass c then [⟨[c], cs, []⟩] else []
  | many inClass, cs => (runs inClass cs).map fun run => ⟨run.1, run.2, []⟩
  | both first second, cs =>
    (first.attempts cs).flatMap fun m => (second.attempts m.rest).map m.append
  | optional part, cs => part.attempts cs ++ [⟨[], cs, []⟩]
  | named name part, cs =>
    (part.attempts cs).map fun m => { m with kept := (name, m.text) :: m.kept }

/-- The parts that the first match keeps. -/
def kept? (pattern : Pattern γ) (cs : List Char) : Option (List (γ × List Char)) :=
  (pattern.attempts cs).head?.map Match.kept

/-- A given character. -/
def char (c : Char) : Pattern γ := one (· == c)

/-- At least one character of a class. -/
def plus (inClass : Char → Bool) : Pattern γ := both (one inClass) (many inClass)

/-! ## Patterns in a row -/

/-- A match of two patterns begins with the first match of one after which the other goes through. -/
theorem kept?_both (first second : Pattern γ) (cs : List Char) :
    (both first second).kept? cs =
      (first.attempts cs).findSome? fun m => (second.kept? m.rest).map (m.kept ++ ·) := by
  simp only [kept?, attempts, List.head?_flatMap, List.map_findSome?, List.head?_map]
  congr 1
  funext m
  simp [Match.append, Function.comp_def]

theorem Match.append_assoc (m n o : Match γ) : (m.append n).append o = m.append (n.append o) := by
  simp only [append, List.append_assoc]

theorem attempts_both_assoc (first second third : Pattern γ) (cs : List Char) :
    (both (both first second) third).attempts cs = (both first (both second third)).attempts cs := by
  simp only [attempts, List.flatMap_assoc, List.flatMap_map, List.map_flatMap, List.map_map]
  refine List.flatMap_congr fun m _ => List.flatMap_congr fun n _ => ?_
  exact List.map_congr_left fun o _ => Match.append_assoc m n o

theorem kept?_both_assoc (first second third : Pattern γ) (cs : List Char) :
    (both (both first second) third).kept? cs = (both first (both second third)).kept? cs := by
  rw [kept?, attempts_both_assoc, kept?]

/-- An optional part is left out only if nothing goes through with it. -/
theorem kept?_both_optional (first second : Pattern γ) (cs : List Char) :
    (both (optional first) second).kept? cs =
      ((both first second).kept? cs <|> second.kept? cs) := by
  rw [kept?_both, kept?_both, attempts, List.findSome?_append]
  simp

theorem kept?_both_char_eq_some_iff
    {c : Char} {second : Pattern γ} {cs : List Char} {kept : List (γ × List Char)} :
    (both (char c) second).kept? cs = some kept ↔
      ∃ rest, cs = c :: rest ∧ second.kept? rest = some kept := by
  rw [kept?_both]
  cases cs with
  | nil => simp [char, attempts]
  | cons d rest => by_cases hd : d = c <;> simp [char, attempts, hd]

/-! ## Runs -/

variable {inClass : Char → Bool} {name : γ} {c : Char} {cs : List Char}

/-- The longest run is tried first, and any other one leaves a character of the class behind. -/
theorem exists_runs_eq_cons (inClass : Char → Bool) (cs : List Char) :
    ∃ shorter, runs inClass cs = (cs.takeWhile inClass, cs.dropWhile inClass) :: shorter ∧
      ∀ run ∈ shorter, ∃ c rest, run.2 = c :: rest ∧ inClass c = true := by
  induction cs with
  | nil => exact ⟨[], rfl, by simp⟩
  | cons c cs ih =>
      obtain ⟨shorter, hruns, hshorter⟩ := ih
      by_cases hc : inClass c = true
      · refine ⟨shorter.map (fun run => (c :: run.1, run.2)) ++ [([], c :: cs)], ?_, ?_⟩
        · rw [runs, if_pos hc, hruns, List.takeWhile_cons_of_pos hc, List.dropWhile_cons_of_pos hc]
          rfl
        · intro run hrun
          rcases List.mem_append.mp hrun with hrun | hrun
          · obtain ⟨other, hother, rfl⟩ := List.mem_map.mp hrun
            exact hshorter other hother
          · obtain rfl := List.mem_singleton.mp hrun
            exact ⟨c, cs, rfl, hc⟩
      · refine ⟨[], ?_, by simp⟩
        rw [runs, if_neg hc, List.takeWhile_cons_of_neg hc, List.dropWhile_cons_of_neg hc]

theorem attempts_named_plus_of_pos (hc : inClass c = true) :
    (named name (plus inClass)).attempts (c :: cs) =
      (runs inClass cs).map fun run => ⟨c :: run.1, run.2, [(name, c :: run.1)]⟩ := by
  simp [plus, attempts, hc, Match.append, Function.comp_def]

theorem attempts_named_plus_of_neg (hc : ¬inClass c = true) :
    (named name (plus inClass)).attempts (c :: cs) = [] := by
  simp [plus, attempts, hc]

/-- At the end of a pattern the longest run is kept. -/
theorem kept?_named_plus :
    (named name (plus inClass)).kept? cs = (Text.run? inClass cs).map fun run => [(name, run.1)] := by
  cases cs with
  | nil => rfl
  | cons c cs =>
      rw [kept?, Text.run?_cons]
      by_cases hc : inClass c = true
      · obtain ⟨shorter, hruns, -⟩ := exists_runs_eq_cons inClass cs
        rw [attempts_named_plus_of_pos hc, hruns, if_pos hc]
        rfl
      · rw [attempts_named_plus_of_neg hc, if_neg hc]
        rfl

/-- In front of a pattern that refuses each character of the class, only the longest run is kept. -/
theorem kept?_both_named_plus {second : Pattern γ}
    (hrefused : ∀ c rest, inClass c = true → second.kept? (c :: rest) = none) :
    (both (named name (plus inClass)) second).kept? cs =
      (Text.run? inClass cs).bind fun run => (second.kept? run.2).map ((name, run.1) :: ·) := by
  rw [kept?_both]
  cases cs with
  | nil => rfl
  | cons c cs =>
      rw [Text.run?_cons]
      by_cases hc : inClass c = true
      · obtain ⟨shorter, hruns, hshorter⟩ := exists_runs_eq_cons inClass cs
        have hothers : (shorter.findSome? fun run =>
            (second.kept? run.2).map ((name, c :: run.1) :: ·)) = none := by
          rw [List.findSome?_eq_none_iff]
          intro run hrun
          obtain ⟨d, rest, hrest, hd⟩ := hshorter run hrun
          rw [hrest, hrefused d rest hd]
          rfl
        rw [attempts_named_plus_of_pos hc, hruns, if_pos hc, Option.bind_some, List.findSome?_map,
          List.findSome?_cons]
        dsimp only [Function.comp_apply, List.cons_append, List.nil_append]
        cases second.kept? (cs.dropWhile inClass) with
        | some kept => rfl
        | none => exact hothers
      · rw [attempts_named_plus_of_neg hc, if_neg hc]
        rfl

end Pattern

end Changelog
