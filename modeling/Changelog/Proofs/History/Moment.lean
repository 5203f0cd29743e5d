import Changelog.History.Walk
import Mathlib.Logic.Relation

/-!
# A search as a run

A search takes one commit after the other from its queue.  Here the taking of one commit is a
relation between two moments of a search, and the whole search is a run of that relation up to a
moment at which it ends.  What one step keeps is then kept by every search.

A moment without patience has no next one, so a run from a moment that still has patience ends where
the search ends, and nowhere else.
-/

namespace Changelog

/-- A search between the taking of two commits. -/
structure Moment (ι : Type) where
  /-- The progress of the walk. -/
  walk : Walk ι
  /-- The time of the last commit found. -/
  last : Int
  /-- How many more hidden commits are taken in vain. -/
  patience : Nat
  /-- The commits found so far. -/
  found : List ι

/-- A search ends when there is nothing left to take or when it has lost its patience. -/
def Moment.Ended {ι : Type} (m : Moment ι) : Prop := m.walk.queue = [] ∨ m.patience = 0

namespace History

variable {ι : Type} [DecidableEq ι]

/-- The first commit of the queue is taken.  It is found, unless it is hidden. -/
inductive Takes (history : History ι) : Moment ι → Moment ι → Prop
  | found {m : Moment ι} {id : ι} {queue : List ι} {walk : Walk ι} :
    m.patience ≠ 0 → m.walk.queue = id :: queue →
      history.expand { m.walk with queue } id = .ok walk → id ∉ walk.hidden →
      Takes history m ⟨walk, history.time id, m.patience, m.found ++ [id]⟩
  | hidden {m : Moment ι} {id : ι} {queue : List ι} {walk walk' : Walk ι} :
    m.patience ≠ 0 → m.walk.queue = id :: queue →
      history.expand { m.walk with queue } id = .ok walk → id ∈ walk.hidden →
      walk' = { walk with
        hidden := history.spread walk.known walk.hidden (history.parents id) } →
      Takes history m ⟨walk', m.last, history.patienceAfter walk' m.last m.patience, m.found⟩

variable {history : History ι}

/-- The moment at which the search between two ends begins. -/
def opening (history : History ι) (base? : Option ι) (tip : ι) : Moment ι where
  walk := history.start base? tip
  last := startTime
  patience := fullPatience
  found := []

/-- What a search finds and hides from a moment on. -/
def outcome (history : History ι) (m : Moment ι) : Except ι (List ι × List ι) :=
  if m.patience = 0 then .ok (m.found, m.walk.hidden)
  else history.search m.walk m.last m.patience m.found

theorem outcome_of_ended {m : Moment ι} (h : m.Ended) :
    history.outcome m = .ok (m.found, m.walk.hidden) := by
  unfold outcome
  split
  · rfl
  next hpatience =>
    rcases h with h | h
    · rw [search]
      split
      · rfl
      next hqueue =>
        rw [h] at hqueue
        cases hqueue
    · exact absurd h hpatience

/-- A search first takes the first commit of its queue. -/
theorem search_cons
    {walk expanded : Walk ι} {id : ι} {queue : List ι} (hqueue : walk.queue = id :: queue)
    (hexpand : history.expand { walk with queue } id = .ok expanded) (last : Int) (patience : Nat)
    (found : List ι) :
    history.search walk last patience found =
      if id ∈ expanded.hidden then
        history.outcome
          ⟨{ expanded with
              hidden := history.spread expanded.known expanded.hidden (history.parents id) }, last,
            history.patienceAfter { expanded with
              hidden := history.spread expanded.known expanded.hidden (history.parents id) }
              last patience, found⟩
      else history.search expanded (history.time id) patience (found ++ [id]) := by
  rw [search]
  split
  next h =>
    rw [hqueue] at h
    cases h
  next h =>
    rw [hqueue] at h
    cases h
    split
    next h =>
      rw [hexpand] at h
      cases h
    next h =>
      rw [hexpand] at h
      cases h
      rfl

/-- Taking a commit does not change what a search comes to. -/
theorem Takes.outcome_eq {m m' : Moment ι} (h : Takes history m m') :
    history.outcome m = history.outcome m' := by
  cases h with
  | found hpatience hqueue hexpand hshown =>
      rw [outcome, if_neg hpatience, search_cons hqueue hexpand, if_neg hshown, outcome,
        if_neg hpatience]
  | hidden hpatience hqueue hexpand hhidden hwalk =>
      rw [outcome, if_neg hpatience, search_cons hqueue hexpand, if_pos hhidden, hwalk]

theorem outcome_eq_of_run {m m' : Moment ι} (h : Relation.ReflTransGen (Takes history) m m') :
    history.outcome m = history.outcome m' := by
  induction h with
  | refl => rfl
  | tail _ hstep ih => exact ih.trans hstep.outcome_eq

/-- A search that succeeds is a run up to a moment at which it ends. -/
theorem exists_run_of_search
    {walk : Walk ι} {last : Int} {patience : Nat} {found : List ι} {result : List ι × List ι}
    (hpatience : patience ≠ 0)
    (h : history.search walk last patience found = .ok result) :
    ∃ m', Relation.ReflTransGen (Takes history) ⟨walk, last, patience, found⟩ m' ∧ m'.Ended ∧
      (m'.found, m'.walk.hidden) = result := by
  fun_induction search history walk last patience found with
  | case1 walk last patience found hqueue =>
      exact ⟨_, Relation.ReflTransGen.refl, Or.inl hqueue, Except.ok.inj h⟩
  | case2 => cases h
  | case3 walk last patience found id queue hqueue walk' hexpand hhidden _ _ hend =>
      exact ⟨_, Relation.ReflTransGen.single (Takes.hidden hpatience hqueue hexpand hhidden rfl),
        Or.inr hend, Except.ok.inj h⟩
  | case4 walk last patience found id queue hqueue walk' hexpand hhidden _ _ hgoesOn ih =>
      obtain ⟨m', hrun, hend, hresult⟩ := ih hgoesOn h
      exact ⟨m', hrun.head (Takes.hidden hpatience hqueue hexpand hhidden rfl), hend, hresult⟩
  | case5 walk last patience found id queue hqueue walk' hexpand hshown ih =>
      obtain ⟨m', hrun, hend, hresult⟩ := ih hpatience h
      exact ⟨m', hrun.head (Takes.found hpatience hqueue hexpand hshown), hend, hresult⟩

/-- A search succeeds if each commit that it comes to can be expanded. -/
theorem exists_search_eq_ok
    {P : Moment ι → Prop} (hkept : ∀ {m m' : Moment ι}, P m → Takes history m m' → P m')
    (hexpands : ∀ {m : Moment ι} {id : ι} {queue : List ι}, P m → m.walk.queue = id :: queue →
      ∃ walk, history.expand { m.walk with queue } id = .ok walk)
    {walk : Walk ι} {last : Int} {patience : Nat} {found : List ι} (hpatience : patience ≠ 0)
    (h : P ⟨walk, last, patience, found⟩) :
    ∃ result, history.search walk last patience found = .ok result := by
  fun_induction search history walk last patience found with
  | case1 walk last patience found hqueue => exact ⟨_, rfl⟩
  | case2 walk last patience found id queue hqueue missing hexpand =>
      obtain ⟨walk', hwalk⟩ := hexpands h hqueue
      rw [hexpand] at hwalk
      cases hwalk
  | case3 => exact ⟨_, rfl⟩
  | case4 walk last patience found id queue hqueue walk' hexpand hhidden _ _ hgoesOn ih =>
      exact ih hgoesOn (hkept h (Takes.hidden hpatience hqueue hexpand hhidden rfl))
  | case5 walk last patience found id queue hqueue walk' hexpand hshown ih =>
      exact ih hpatience (hkept h (Takes.found hpatience hqueue hexpand hshown))

end History

end Changelog
