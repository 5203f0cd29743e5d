import Changelog.History.Basic
import Changelog.History.Heap

/-!
# Walking a history

The walk that finds the commits between two ends: those that the tip reaches and the base does
not.  It goes by time.  A queue holds commits in descending order of time; each step takes the
first one and puts its parents into the queue.  Commits that the base reaches are hidden.  Hiding
spreads over the graph as far as commits are known, and a hidden commit is followed as well, so
that hiding can overtake what was found before it was known to be hidden.

With times that descend along the graph the queue tells when hiding is over: nothing but hidden
commits is left, all of them older than the last commit found.  The walk goes on for a few more
steps, its patience, in case a time is wrong, and then stops.  At the end the commits found are put
in order by a heap, and those that were hidden after they had been found are left out.
-/

namespace Changelog

/-- The progress of a walk. -/
structure Walk (ι : Type) where
  /-- The commits to take next. -/
  queue : List ι
  /-- Commits that are or were in the queue. -/
  seen : List ι
  /-- Commits whose parents are known. -/
  known : List ι
  /-- Commits whose parents were put into the queue. -/
  expanded : List ι
  /-- Commits that the base reaches, as far as is known. -/
  hidden : List ι
  deriving Repr

namespace History

variable {ι : Type} [DecidableEq ι]

/-- The time that counts as that of the last commit before one was found: no time is later. -/
def startTime : Int := 9223372036854775807

/-- How many hidden commits are taken after the last one that was found. -/
def fullPatience : Nat := 5

/-- Put a commit into a queue, before the first one of an earlier time. -/
def enqueue (history : History ι) (id : ι) : List ι → List ι
  | [] => [id]
  | next :: queue =>
    if history.time next < history.time id then id :: next :: queue
    else next :: enqueue history id queue

/-- Identifiers that are not in a list yet. -/
def fresh (ids done : List ι) : List ι := ids.filter fun id => id ∉ done

/-- Done commits are never fresh. -/
theorem mem_fresh {ids done : List ι} {id : ι} : id ∈ fresh ids done ↔ id ∈ ids ∧ id ∉ done := by
  simp [fresh]

theorem fresh_cons (ids done : List ι) (id : ι) :
    fresh ids (id :: done) = (fresh ids done).filter (· ≠ id) := by
  simp only [fresh, List.filter_filter]
  exact List.filter_congr fun x _ => by by_cases x = id <;> simp [*]

theorem length_fresh_cons_le (ids done : List ι) (id : ι) :
    (fresh ids (id :: done)).length ≤ (fresh ids done).length := by
  rw [fresh_cons]
  exact List.length_filter_le _ _

theorem length_fresh_cons_lt
    {ids done : List ι} {id : ι} (hid : id ∈ ids) (hdone : id ∉ done) :
    (fresh ids (id :: done)).length < (fresh ids done).length := by
  rw [fresh_cons]
  exact List.length_filter_lt_length_iff_exists.2 ⟨id, mem_fresh.2 ⟨hid, hdone⟩, by simp⟩

/-- Hide commits and what they reach.  The spreading stops at commits that are hidden already and
at those whose parents are not known. -/
def spread (history : History ι) (known hidden : List ι) : List ι → List ι
  | [] => hidden
  | id :: others =>
    if id ∈ hidden then spread history known hidden others
    else if id ∈ known then spread history known (id :: hidden) (history.parents id ++ others)
    else spread history known (id :: hidden) others
  termination_by others => ((fresh known hidden).length, others.length)
  decreasing_by
    · simp [Prod.lex_def]
    · rename_i hhidden hknown
      exact Prod.Lex.left _ _ (length_fresh_cons_lt hknown hhidden)
    · have := length_fresh_cons_le known hidden id
      rw [Prod.lex_def]
      simp only [List.length_cons]
      omega

/-- Put a parent of a hidden commit into the queue.  It becomes hidden with all that it is known to
reach, and it is taken again if it was taken before. -/
def enterHidden (history : History ι) (walk : Walk ι) (parent : ι) : Except ι (Walk ι) :=
  match history.node? parent with
  | none => .error parent
  | some node =>
    let known := walk.known.insert parent
    .ok { walk with
      queue := history.enqueue parent walk.queue
      seen := walk.seen.insert parent
      known
      hidden := history.spread known (walk.hidden.insert parent) node.parents }

/-- Put a parent of any other commit into the queue, unless it was there before. -/
def enter (history : History ι) (walk : Walk ι) (parent : ι) : Except ι (Walk ι) :=
  match history.node? parent with
  | none => .error parent
  | some _ =>
    let walk := { walk with known := walk.known.insert parent }
    if parent ∈ walk.seen then .ok walk
    else .ok { walk with
      queue := history.enqueue parent walk.queue
      seen := parent :: walk.seen }

/-- Put the parents of a commit into the queue.  This is done once for each commit.  A commit that
is missing ends the walk. -/
def expand (history : History ι) (walk : Walk ι) (id : ι) : Except ι (Walk ι) :=
  if id ∈ walk.expanded then .ok walk
  else
    match history.node? id with
    | none => .error id
    | some node =>
      let walk := { walk with expanded := id :: walk.expanded }
      if id ∈ walk.hidden then node.parents.foldlM history.enterHidden walk
      else node.parents.foldlM history.enter walk

/-- The patience after a hidden commit, given the time of the last commit found.  It is restored
while there may be more to find, and there is none left when the queue is empty. -/
def patienceAfter (history : History ι) (walk : Walk ι) (last : Int) (patience : Nat) : Nat :=
  match walk.queue with
  | [] => 0
  | next :: _ =>
    if last ≤ history.time next ||
        walk.queue.any (fun id => id ∉ walk.hidden || last < history.time id) then
      fullPatience
    else patience - 1

theorem expanded_of_enterHidden
    {history : History ι} {walk walk' : Walk ι} {parent : ι}
    (h : history.enterHidden walk parent = .ok walk') : walk'.expanded = walk.expanded := by
  unfold enterHidden at h
  split at h <;> grind

theorem expanded_of_enter
    {history : History ι} {walk walk' : Walk ι} {parent : ι}
    (h : history.enter walk parent = .ok walk') : walk'.expanded = walk.expanded := by
  unfold enter at h
  split at h
  · simp at h
  · dsimp only at h
    split at h <;> grind

omit [DecidableEq ι] in
theorem expanded_of_foldlM
    {next : Walk ι → ι → Except ι (Walk ι)}
    (hnext : ∀ {walk walk' parent}, next walk parent = .ok walk' →
      walk'.expanded = walk.expanded)
    {parents : List ι} {walk walk' : Walk ι} (h : parents.foldlM next walk = .ok walk') :
    walk'.expanded = walk.expanded := by
  induction parents generalizing walk with
  | nil =>
    cases h
    rfl
  | cons parent parents ih =>
    rw [List.foldlM_cons] at h
    cases hstep : next walk parent with
    | error missing =>
      rw [hstep] at h
      cases h
    | ok middle =>
      rw [hstep] at h
      rw [ih h, hnext hstep]

/-- Expanding a commit either finds that it was done before or does it now. -/
theorem expand_cases
    {history : History ι} {walk walk' : Walk ι} {id : ι}
    (h : history.expand walk id = .ok walk') :
    walk' = walk ∨
      (walk'.expanded = id :: walk.expanded ∧ id ∉ walk.expanded ∧
        ∃ node, history.node? id = some node) := by
  unfold expand at h
  split at h
  · left
    cases h
    rfl
  · rename_i hdone
    right
    split at h
    · simp at h
    · rename_i node hnode
      refine ⟨?_, hdone, node, hnode⟩
      dsimp only at h
      split at h
      · exact expanded_of_foldlM expanded_of_enterHidden h
      · exact expanded_of_foldlM expanded_of_enter h

/-- Take commits from the queue until nothing more is to be expected.  The results are the commits
found, in the order in which they were taken, and all hidden commits. -/
def search (history : History ι) (walk : Walk ι) (last : Int) (patience : Nat)
    (found : List ι) : Except ι (List ι × List ι) :=
  match _hq : walk.queue with
  | [] => .ok (found, walk.hidden)
  | id :: queue =>
    match _h : history.expand { walk with queue } id with
    | .error missing => .error missing
    | .ok walk =>
      if id ∈ walk.hidden then
        let walk := { walk with
          hidden := history.spread walk.known walk.hidden (history.parents id) }
        let patience := history.patienceAfter walk last patience
        if patience = 0 then .ok (found, walk.hidden)
        else search history walk last patience found
      else search history walk (history.time id) patience (found ++ [id])
  termination_by ((fresh (history.nodes.map Prod.fst) walk.expanded).length, walk.queue.length)
  decreasing_by
    all_goals
      rcases expand_cases _h with heq | ⟨hexpanded, hfresh, node, hnode⟩
      · subst heq
        apply Prod.Lex.right
        rw [_hq]
        simp
      · apply Prod.Lex.left
        simp only [hexpanded]
        refine length_fresh_cons_lt ?_ hfresh
        exact List.mem_map.mpr ⟨(id, node), mem_nodes_of_node? hnode, rfl⟩

/-- The start of a walk.  The base is hidden from the beginning, and when it is the tip there is
nothing to find. -/
def start (history : History ι) (base? : Option ι) (tip : ι) : Walk ι :=
  match base? with
  | none => { queue := [tip], seen := [tip], known := [tip], expanded := [], hidden := [] }
  | some base =>
    let listed := if base = tip then [tip] else [base, tip]
    { queue := listed
      seen := listed
      known := listed
      expanded := []
      hidden := history.spread listed [base] (history.parents base) }

/-- The commits that the tip reaches and the base does not, newest first, as the walk finds them. -/
def between (history : History ι) (base? : Option ι) (tip : ι) : Except ι (List ι) := do
  let (found, hidden) ← history.search (history.start base? tip) startTime fullPatience []
  return (Heap.order history.time found).filter fun id => id ∉ hidden

end History

end Changelog
