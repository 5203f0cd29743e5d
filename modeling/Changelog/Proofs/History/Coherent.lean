import Changelog.Proofs.History.Expand
import Changelog.Proofs.History.Moment

/-!
# What holds throughout a search

Four facts hold at every moment of a search.  What is known of the graph is closed under parents
except at the commits that still wait in the queue.  What is hidden is reachable from the base, and
hiding has stopped only at commits that still wait.  A commit that is not hidden stands only once
among those that wait and those that were found.  And a search without patience has only hidden
commits left to take.

Each is kept when a commit is taken.  So a commit of the base that is not hidden can still be
reached from the queue, and when only hidden commits wait, all that was to be found has been found.
-/

namespace Changelog.History

variable {ι : Type} [DecidableEq ι] {history : History ι} {base? : Option ι} {tip : ι}

/-! ## Taking a commit -/

/-- The three ways of taking the first commit of a queue: once more, for the first time while it is
hidden, and for the first time while it is not. -/
inductive Taken (history : History ι) (m : Moment ι) : Moment ι → Prop
  | again {id : ι} {queue : List ι} :
    m.walk.queue = id :: queue → id ∈ m.walk.expanded → id ∈ m.walk.hidden →
      Taken history m ⟨{ m.walk with queue }, m.last,
        history.patienceAfter { m.walk with queue } m.last m.patience, m.found⟩
  | hidden {id : ι} {queue : List ι} {walk : Walk ι} :
    m.walk.queue = id :: queue → id ∉ m.walk.expanded → id ∈ m.walk.hidden →
      EnteredHidden history (history.parents id)
        { m.walk with queue, expanded := id :: m.walk.expanded } walk →
      Taken history m ⟨walk, m.last, history.patienceAfter walk m.last m.patience, m.found⟩
  | shown {id : ι} {queue : List ι} {walk : Walk ι} :
    m.patience ≠ 0 → m.walk.queue = id :: queue → id ∉ m.walk.expanded → id ∉ m.walk.hidden →
      Entered history (history.parents id)
        { m.walk with queue, expanded := id :: m.walk.expanded } walk →
      Taken history m ⟨walk, history.time id, m.patience, m.found ++ [id]⟩

/-! ## What is known -/

/-- What is known of the graph.  A commit that is known waits in the queue until it is expanded. -/
structure Traced (history : History ι) (walk : Walk ι) : Prop where
  seen : ∀ x, x ∈ walk.seen ↔ x ∈ walk.known
  queued : ∀ x ∈ walk.queue, x ∈ walk.known
  expanded : ∀ x ∈ walk.expanded, x ∈ walk.known
  waits : ∀ x ∈ walk.known, x ∈ walk.queue ∨ x ∈ walk.expanded
  parents : ∀ x ∈ walk.expanded, ∀ parent ∈ history.parents x, parent ∈ walk.known

/-- The first commit of the queue is expanded.  Its parents become known, and those that have not
been seen wait. -/
theorem Traced.add
    {walk walk' : Walk ι} {id : ι} {queue : List ι} (h : Traced history walk)
    (hqueue : walk.queue = id :: queue) (hexpanded : walk'.expanded = id :: walk.expanded)
    (hknown : ∀ x, x ∈ walk'.known ↔ x ∈ walk.known ∨ x ∈ history.parents id)
    (hseen : ∀ x, x ∈ walk'.seen ↔ x ∈ walk.seen ∨ x ∈ history.parents id)
    (hsub : ∀ x ∈ walk'.queue, x ∈ queue ∨ x ∈ history.parents id)
    (hsup : ∀ x, x ∈ queue ∨ x ∈ history.parents id ∧ x ∉ walk.seen → x ∈ walk'.queue) :
    Traced history walk' := by
  have hmem : ∀ x, x ∈ walk.queue ↔ x = id ∨ x ∈ queue := by
    intro x
    rw [hqueue, List.mem_cons]
  have hid : id ∈ walk.known := h.queued id ((hmem id).mpr (Or.inl rfl))
  have hwaits : ∀ x ∈ walk.known, x ∈ walk'.queue ∨ x ∈ walk'.expanded := by
    intro x hx
    rw [hexpanded, List.mem_cons]
    rcases h.waits x hx with hx | hx
    · rcases (hmem x).mp hx with rfl | hx
      · exact Or.inr (Or.inl rfl)
      · exact Or.inl (hsup x (Or.inl hx))
    · exact Or.inr (Or.inr hx)
  refine ⟨?_, ?_, ?_, ?_, ?_⟩
  · intro x
    rw [hseen x, hknown x, h.seen x]
  · intro x hx
    rw [hknown x]
    rcases hsub x hx with hx | hx
    · exact Or.inl (h.queued x ((hmem x).mpr (Or.inr hx)))
    · exact Or.inr hx
  · intro x hx
    rw [hexpanded, List.mem_cons] at hx
    rw [hknown x]
    rcases hx with rfl | hx
    · exact Or.inl hid
    · exact Or.inl (h.expanded x hx)
  · intro x hx
    rcases (hknown x).mp hx with hx | hx
    · exact hwaits x hx
    · by_cases hxseen : x ∈ walk.seen
      · exact hwaits x ((h.seen x).mp hxseen)
      · exact Or.inl (hsup x (Or.inr ⟨hx, hxseen⟩))
  · intro x hx parent hparent
    rw [hexpanded, List.mem_cons] at hx
    rw [hknown parent]
    rcases hx with rfl | hx
    · exact Or.inr hparent
    · exact Or.inl (h.parents x hx parent hparent)

theorem Traced.taken
    {m m' : Moment ι} (h : Traced history m.walk) (htaken : Taken history m m') :
    Traced history m'.walk := by
  cases htaken with
  | @again id queue hqueue hdone _ =>
      have hmem : ∀ x, x ∈ m.walk.queue ↔ x = id ∨ x ∈ queue := by
        intro x
        rw [hqueue, List.mem_cons]
      refine ⟨h.seen, fun x hx => h.queued x ((hmem x).mpr (Or.inr hx)), h.expanded, ?_, h.parents⟩
      intro x hx
      rcases h.waits x hx with hx | hx
      · rcases (hmem x).mp hx with rfl | hx
        · exact Or.inr hdone
        · exact Or.inl hx
      · exact Or.inr hx
  | hidden hqueue _ _ hwalk =>
      refine h.add hqueue hwalk.expanded hwalk.known hwalk.seen (fun x => (hwalk.queue x).mp) ?_
      rintro x (hx | ⟨hx, _⟩)
      · exact (hwalk.queue x).mpr (Or.inl hx)
      · exact (hwalk.queue x).mpr (Or.inr hx)
  | shown _ hqueue _ _ hwalk =>
      refine h.add hqueue hwalk.expanded hwalk.known hwalk.seen ?_ fun x => (hwalk.mem_queue x).mpr
      intro x hx
      rcases (hwalk.mem_queue x).mp hx with hx | ⟨hx, _⟩
      · exact Or.inl hx
      · exact Or.inr hx

/-! ## What is hidden -/

/-- What is hidden.  Hiding goes on below a hidden commit that is expanded, and it has come to each
commit from a known one. -/
structure Shaded (history : History ι) (base? : Option ι) (tip : ι) (walk : Walk ι) : Prop where
  bases : ∀ base ∈ base?, base ∈ walk.hidden
  sound : ∀ x ∈ walk.hidden, ∃ base ∈ base?, history.Reachable base x
  closed : ∀ x ∈ walk.hidden, x ∈ walk.expanded →
    ∀ parent ∈ history.parents x, parent ∈ walk.hidden
  origin : ∀ x ∈ walk.hidden, x ∈ walk.known ∨
    ∃ child ∈ walk.hidden, child ∈ walk.known ∧ x ∈ history.parents child
  tipKnown : tip ∈ walk.known
  shown : ∀ x ∈ walk.known, x ∉ walk.hidden → history.Reachable tip x

/-- Taking a commit goes on with hiding.  An expanded commit that is hidden only now was known, so
hiding went on to its parents. -/
theorem Shaded.taken
    {m m' : Moment ι} (h : Shaded history base? tip m.walk) (htraced : Traced history m.walk)
    (htaken : Taken history m m') : Shaded history base? tip m'.walk := by
  cases htaken with
  | again => exact ⟨h.bases, h.sound, h.closed, h.origin, h.tipKnown, h.shown⟩
  | @hidden id queue walk hqueue _ hhidden hwalk =>
      refine ⟨?_, ?_, ?_, ?_, ?_, ?_⟩
      · intro base hbase
        exact hwalk.still base (h.bases base hbase)
      · intro x hx
        rcases hwalk.sound x hx with hx | ⟨parent, hparent, hreach⟩
        · exact h.sound x hx
        · obtain ⟨base, hbase, hid⟩ := h.sound id hhidden
          exact ⟨base, hbase, (hid.step hparent).trans hreach⟩
      · intro x hx hxexpanded
        rw [hwalk.expanded] at hxexpanded
        rcases List.mem_cons.mp hxexpanded with rfl | hxexpanded
        · exact hwalk.hides
        · rcases hwalk.closed x hx (htraced.expanded x hxexpanded) with hx | hparents
          · intro parent hparent
            exact hwalk.still parent (h.closed x hx hxexpanded parent hparent)
          · exact hparents
      · intro x hx
        rcases hwalk.origin x hx with hx | hx | hchild
        · rcases h.origin x hx with hx | ⟨child, hchild, hknown, hx⟩
          · exact Or.inl ((hwalk.known x).mpr (Or.inl hx))
          · exact Or.inr ⟨child, hwalk.still child hchild,
              (hwalk.known child).mpr (Or.inl hknown), hx⟩
        · exact Or.inl ((hwalk.known x).mpr (Or.inr hx))
        · exact Or.inr hchild
      · exact (hwalk.known tip).mpr (Or.inl h.tipKnown)
      · intro x hx hxshown
        rcases (hwalk.known x).mp hx with hx | hx
        · exact h.shown x hx fun hxhidden => hxshown (hwalk.still x hxhidden)
        · exact absurd (hwalk.hides x hx) hxshown
  | @shown id queue walk _ hqueue _ hshown hwalk =>
      have hidden : walk.hidden = m.walk.hidden := hwalk.hidden
      have hid : id ∈ m.walk.known := htraced.queued id (hqueue ▸ List.mem_cons_self)
      refine ⟨?_, ?_, ?_, ?_, ?_, ?_⟩
      · rw [hidden]
        exact h.bases
      · rw [hidden]
        exact h.sound
      · rw [hidden, hwalk.expanded]
        intro x hx hxexpanded
        rcases List.mem_cons.mp hxexpanded with rfl | hxexpanded
        · exact absurd hx hshown
        · exact h.closed x hx hxexpanded
      · rw [hidden]
        intro x hx
        rcases h.origin x hx with hx | ⟨child, hchild, hknown, hx⟩
        · exact Or.inl ((hwalk.known x).mpr (Or.inl hx))
        · exact Or.inr ⟨child, hchild, (hwalk.known child).mpr (Or.inl hknown), hx⟩
      · exact (hwalk.known tip).mpr (Or.inl h.tipKnown)
      · rw [hidden]
        intro x hx hxshown
        rcases (hwalk.known x).mp hx with hx | hx
        · exact h.shown x hx hxshown
        · exact (h.shown id hid hshown).step hx

/-! ## What is found -/

/-- What is found.  A commit that is not hidden waits or was found, and only once. -/
structure Counted (history : History ι) (tip : ι) (m : Moment ι) : Prop where
  once : ∀ x, x ∉ m.walk.hidden → m.walk.queue.count x + m.found.count x ≤ 1
  nodup : m.found.Nodup
  expanded : ∀ x ∈ m.found, x ∈ m.walk.expanded
  found : ∀ x ∈ m.walk.expanded, x ∉ m.walk.hidden → x ∈ m.found
  reached : ∀ x ∈ m.found, history.Reachable tip x

/-- A commit that is not hidden is not taken again. -/
theorem Counted.not_mem_expanded
    {m : Moment ι} (h : Counted history tip m) {id : ι} {queue : List ι}
    (hqueue : m.walk.queue = id :: queue) (hshown : id ∉ m.walk.hidden) :
    id ∉ m.walk.expanded := by
  intro hdone
  have hfound : 0 < m.found.count id := List.count_pos_iff.mpr (h.found id hdone hshown)
  have hwaits : 0 < m.walk.queue.count id :=
    List.count_pos_iff.mpr (hqueue ▸ List.mem_cons_self)
  have honce := h.once id hshown
  omega

/-- A commit that has not been seen neither waits nor was found. -/
theorem Counted.count_eq_zero_of_not_mem_seen
    {m : Moment ι} (h : Counted history tip m) (htraced : Traced history m.walk) {x : ι}
    (hx : x ∉ m.walk.seen) : m.walk.queue.count x = 0 ∧ m.found.count x = 0 := by
  have hunknown : x ∉ m.walk.known := fun hknown => hx ((htraced.seen x).mpr hknown)
  constructor
  · exact List.count_eq_zero.mpr fun hx => hunknown (htraced.queued x hx)
  · exact List.count_eq_zero.mpr fun hx => hunknown (htraced.expanded x (h.expanded x hx))

/-- Taking a commit keeps the counts.  What waits once more are parents: those of a hidden commit are
hidden as well, and those of another one only wait if they have not been seen. -/
theorem Counted.taken
    {m m' : Moment ι} (h : Counted history tip m) (htraced : Traced history m.walk)
    (hshaded : Shaded history base? tip m.walk) (htaken : Taken history m m') :
    Counted history tip m' := by
  cases htaken with
  | @again id queue hqueue _ _ =>
      refine ⟨?_, h.nodup, h.expanded, h.found, h.reached⟩
      intro x hx
      have honce := h.once x hx
      rw [hqueue, List.count_cons] at honce
      dsimp only
      omega
  | @hidden id queue walk hqueue _ hhidden hwalk =>
      have hstill : ∀ x, x ∉ walk.hidden → x ∉ m.walk.hidden := by
        intro x hx hxhidden
        exact hx (hwalk.still x hxhidden)
      refine ⟨?_, h.nodup, ?_, ?_, h.reached⟩
      · intro x hx
        have honce := h.once x (hstill x hx)
        have hcount : walk.queue.count x = queue.count x :=
          hwalk.count x fun hparent => hx (hwalk.hides x hparent)
        rw [hqueue, List.count_cons] at honce
        dsimp only
        omega
      · intro x hx
        rw [hwalk.expanded]
        exact List.mem_cons_of_mem id (h.expanded x hx)
      · intro x hx hxshown
        rw [hwalk.expanded] at hx
        rcases List.mem_cons.mp hx with rfl | hx
        · exact absurd hhidden (hstill x hxshown)
        · exact h.found x hx (hstill x hxshown)
  | @shown id queue walk _ hqueue hfresh hshown hwalk =>
      have hidden : walk.hidden = m.walk.hidden := hwalk.hidden
      have hid : id ∈ m.walk.known := htraced.queued id (hqueue ▸ List.mem_cons_self)
      refine ⟨?_, ?_, ?_, ?_, ?_⟩
      · intro x hx
        have hcount := hwalk.count x
        have honce := h.once x (hidden ▸ hx)
        rw [hqueue, List.count_cons] at honce
        rw [List.count_append, List.count_singleton]
        dsimp only at hcount ⊢
        by_cases hnew : x ∈ history.parents id ∧ x ∉ m.walk.seen
        · obtain ⟨hwaits, hfound⟩ := h.count_eq_zero_of_not_mem_seen htraced hnew.2
          rw [hqueue, List.count_cons] at hwaits
          rw [if_pos hnew] at hcount
          omega
        · rw [if_neg hnew] at hcount
          omega
      · refine List.nodup_append.mpr ⟨h.nodup, List.pairwise_singleton _ id, ?_⟩
        rintro x hx y hy rfl
        rw [List.mem_singleton.mp hy] at hx
        exact hfresh (h.expanded id hx)
      · intro x hx
        rw [hwalk.expanded, List.mem_cons]
        rcases List.mem_append.mp hx with hx | hx
        · exact Or.inr (h.expanded x hx)
        · exact Or.inl (List.mem_singleton.mp hx)
      · intro x hx hxshown
        rw [hwalk.expanded] at hx
        rcases List.mem_cons.mp hx with rfl | hx
        · exact List.mem_append_right _ List.mem_cons_self
        · exact List.mem_append_left _ (h.found x hx (hidden ▸ hxshown))
      · intro x hx
        rcases List.mem_append.mp hx with hx | hx
        · exact h.reached x hx
        · rw [List.mem_singleton.mp hx]
          exact hshaded.shown id hid hshown

/-! ## When patience is lost -/

/-- When patience is lost only hidden commits wait, none of them later than the last commit found
and the first one earlier. -/
theorem of_patienceAfter_eq_zero
    {walk : Walk ι} {last : Int} {patience : Nat}
    (h : history.patienceAfter walk last patience = 0) :
    (∀ x ∈ walk.queue, x ∈ walk.hidden ∧ history.time x ≤ last) ∧
      ∀ next ∈ walk.queue.head?, history.time next < last := by
  unfold patienceAfter at h
  split at h
  next hqueue => simp [hqueue]
  next next queue hqueue =>
    split at h
    · cases h
    next hlost =>
      rw [Bool.or_eq_true, not_or, decide_eq_true_eq, List.any_eq_true] at hlost
      refine ⟨?_, ?_⟩
      · intro x hx
        have hnone : ¬(x ∉ walk.hidden ∨ last < history.time x) := by
          intro hor
          exact hlost.2 ⟨x, hx, by simpa using hor⟩
        obtain ⟨hhidden, hlate⟩ := not_or.mp hnone
        exact ⟨Decidable.not_not.mp hhidden, Int.not_lt.mp hlate⟩
      · intro x hx
        rw [hqueue] at hx
        obtain rfl := Option.some.inj hx
        exact Int.not_le.mp hlost.1

/-! ## All of it -/

/-- What holds at every moment of the search between a base and a tip. -/
structure Coherent (history : History ι) (base? : Option ι) (tip : ι) (m : Moment ι) : Prop where
  traced : Traced history m.walk
  shaded : Shaded history base? tip m.walk
  counted : Counted history tip m
  impatient : m.patience = 0 → ∀ x ∈ m.walk.queue, x ∈ m.walk.hidden

/-- Whatever way a commit is taken, it is one of the three. -/
theorem Coherent.taken_of_takes
    {m m' : Moment ι} (h : Coherent history base? tip m) (htakes : Takes history m m') :
    Taken history m m' := by
  cases htakes with
  | @found id queue walk hpatience hqueue hexpand hshown =>
      rcases expand_spec hexpand with
        ⟨hdone, hwalk⟩ | ⟨_, hhidden, hwalk⟩ | ⟨hfresh, hshown', hwalk⟩
      · rw [hwalk] at hshown
        exact absurd hdone (h.counted.not_mem_expanded hqueue hshown)
      · exact absurd (hwalk.still id hhidden) hshown
      · exact Taken.shown hpatience hqueue hfresh hshown' hwalk
  | @hidden id queue walk walk' _ hqueue hexpand hhidden hwalk' =>
      rcases expand_spec hexpand with
        ⟨hdone, hwalk⟩ | ⟨hfresh, hhidden', hwalk⟩ | ⟨_, hshown, hwalk⟩
      · subst hwalk
        rw [spread_eq_of_hidden (h.shaded.closed id hhidden hdone)] at hwalk'
        rw [hwalk']
        exact Taken.again hqueue hdone hhidden
      · rw [spread_eq_of_hidden hwalk.hides] at hwalk'
        rw [hwalk']
        exact Taken.hidden hqueue hfresh hhidden' hwalk
      · rw [hwalk.hidden] at hhidden
        exact absurd hhidden hshown

/-- Taking a commit keeps a search coherent. -/
theorem Coherent.takes
    {m m' : Moment ι} (h : Coherent history base? tip m) (htakes : Takes history m m') :
    Coherent history base? tip m' := by
  have htaken := h.taken_of_takes htakes
  refine ⟨h.traced.taken htaken, h.shaded.taken h.traced htaken,
    h.counted.taken h.traced h.shaded htaken, ?_⟩
  cases htaken with
  | again => exact fun hlost x hx => ((of_patienceAfter_eq_zero hlost).1 x hx).1
  | hidden => exact fun hlost x hx => ((of_patienceAfter_eq_zero hlost).1 x hx).1
  | shown hpatience => exact fun hlost => absurd hlost hpatience

/-- At the start the ends wait, and they are all that is known. -/
theorem start_eq (history : History ι) (base? : Option ι) (tip : ι) :
    ∃ ends hidden : List ι, ends.Nodup ∧ history.start base? tip =
      { queue := ends, seen := ends, known := ends, expanded := [], hidden } := by
  cases base? with
  | none => exact ⟨[tip], [], List.pairwise_singleton _ tip, rfl⟩
  | some base =>
      refine ⟨if base = tip then [tip] else [base, tip], _, ?_, rfl⟩
      split
      · exact List.pairwise_singleton _ tip
      next hne => simp [hne]

theorem shaded_start (history : History ι) (base? : Option ι) (tip : ι) :
    Shaded history base? tip (history.start base? tip) := by
  cases base? with
  | none =>
      refine ⟨?_, ?_, ?_, ?_, List.mem_singleton_self tip, ?_⟩
      · intro base hbase
        cases hbase
      · intro x hx
        cases hx
      · intro x hx
        cases hx
      · intro x hx
        cases hx
      · intro x hx _
        rw [List.mem_singleton.mp hx]
        exact Reachable.refl
  | some base =>
      obtain ⟨ends, hends⟩ : ∃ ends, ends = if base = tip then [tip] else [base, tip] := ⟨_, rfl⟩
      have hmem : ∀ x, x ∈ ends ↔ x = base ∨ x = tip := by
        intro x
        rw [hends]
        split <;> simp_all
      have hstart : history.start (some base) tip =
          { queue := ends, seen := ends, known := ends, expanded := []
            hidden := history.spread ends [base] (history.parents base) } := by
        rw [hends]
        rfl
      have hbase : base ∈ history.spread ends [base] (history.parents base) :=
        mem_spread_of_mem List.mem_cons_self
      rw [hstart]
      refine ⟨?_, ?_, ?_, ?_, (hmem tip).mpr (Or.inr rfl), ?_⟩
      · intro other hother
        rw [← Option.some.inj hother]
        exact hbase
      · intro x hx
        refine ⟨base, rfl, ?_⟩
        rcases reachable_of_mem_spread hx with hx | ⟨parent, hparent, hreach⟩
        · rw [List.mem_singleton.mp hx]
          exact Reachable.refl
        · exact (Reachable.of_mem_parents hparent).trans hreach
      · intro x _ hx
        cases hx
      · intro x hx
        rcases origin_of_mem_spread hx with hx | hx | hchild
        · exact Or.inl ((hmem x).mpr (Or.inl (List.mem_singleton.mp hx)))
        · exact Or.inr ⟨base, hbase, (hmem base).mpr (Or.inl rfl), hx⟩
        · exact Or.inr hchild
      · intro x hx hxshown
        rcases (hmem x).mp hx with rfl | rfl
        · exact absurd hbase hxshown
        · exact Reachable.refl

/-- A search is coherent when it begins. -/
theorem coherent_opening (history : History ι) (base? : Option ι) (tip : ι) :
    Coherent history base? tip (history.opening base? tip) := by
  obtain ⟨ends, hidden, hends, hstart⟩ := start_eq history base? tip
  have hshaded := shaded_start history base? tip
  unfold opening
  rw [hstart] at hshaded ⊢
  refine ⟨⟨?_, ?_, ?_, ?_, ?_⟩, hshaded, ⟨?_, List.nodup_nil, ?_, ?_, ?_⟩, ?_⟩
  · exact fun x => Iff.rfl
  · exact fun x hx => hx
  · intro x hx
    cases hx
  · exact fun x hx => Or.inl hx
  · intro x hx
    cases hx
  · intro x _
    exact List.nodup_iff_count.mp hends x
  · intro x hx
    cases hx
  · intro x hx
    cases hx
  · intro x hx
    cases hx
  · intro hlost
    cases hlost

/-- A search is coherent at every moment. -/
theorem coherent_of_run
    {m : Moment ι}
    (h : Relation.ReflTransGen (Takes history) (history.opening base? tip) m) :
    Coherent history base? tip m := by
  induction h with
  | refl => exact coherent_opening history base? tip
  | tail _ htakes ih => exact ih.takes htakes

/-! ## What follows -/

/-- What is known is reachable from the tip or from the base. -/
theorem Coherent.reachable_of_mem_known
    {m : Moment ι} (h : Coherent history base? tip m) {x : ι} (hx : x ∈ m.walk.known) :
    history.Reachable tip x ∨ ∃ base ∈ base?, history.Reachable base x := by
  by_cases hhidden : x ∈ m.walk.hidden
  · exact Or.inr (h.shaded.sound x hhidden)
  · exact Or.inl (h.shaded.shown x hx hhidden)

/-- A hidden commit with a parent that is not hidden waits, or a hidden child of it does. -/
theorem Coherent.waits_of_hidden
    {m : Moment ι} (h : Coherent history base? tip m) {x parent : ι} (hx : x ∈ m.walk.hidden)
    (hparent : parent ∈ history.parents x) (hshown : parent ∉ m.walk.hidden) :
    ∃ id ∈ m.walk.queue, id ∈ m.walk.hidden ∧ history.Reachable id x := by
  by_cases hknown : x ∈ m.walk.known
  · rcases h.traced.waits x hknown with hwaits | hdone
    · exact ⟨x, hwaits, hx, Reachable.refl⟩
    · exact absurd (h.shaded.closed x hx hdone parent hparent) hshown
  · rcases h.shaded.origin x hx with hx | ⟨child, hchild, hchildKnown, hx⟩
    · exact absurd hx hknown
    · rcases h.traced.waits child hchildKnown with hwaits | hdone
      · exact ⟨child, hwaits, hchild, Reachable.of_mem_parents hx⟩
      · exact absurd (h.traced.parents child hdone x hx) hknown

/-- A commit that is reachable from a hidden one but is not hidden is reachable from a hidden commit
that waits. -/
theorem Coherent.exists_waiting
    {m : Moment ι} (h : Coherent history base? tip m) {start x : ι}
    (hstart : start ∈ m.walk.hidden) (hreach : history.Reachable start x)
    (hx : x ∉ m.walk.hidden) :
    ∃ id ∈ m.walk.queue, id ∈ m.walk.hidden ∧ history.Reachable id x := by
  induction hreach with
  | refl => exact absurd hstart hx
  | @step child parent _ hparent ih =>
      by_cases hchild : child ∈ m.walk.hidden
      · obtain ⟨id, hid, hhidden, hreach⟩ := h.waits_of_hidden hchild hparent hx
        exact ⟨id, hid, hhidden, hreach.step hparent⟩
      · obtain ⟨id, hid, hhidden, hreach⟩ := ih hchild
        exact ⟨id, hid, hhidden, hreach.step hparent⟩

/-- When only hidden commits wait, whatever the tip reaches and the base does not has been found:
along a path from the tip each commit is known, so it was found, so the next one is known. -/
theorem Coherent.mem_found
    {m : Moment ι} (h : Coherent history base? tip m)
    (hqueue : ∀ x ∈ m.walk.queue, x ∈ m.walk.hidden) {x : ι} (hx : history.Reachable tip x)
    (hbase : ∀ base ∈ base?, ¬history.Reachable base x) :
    x ∈ m.found ∧ x ∉ m.walk.hidden := by
  have hfound : ∀ y ∈ m.walk.known, (∀ base ∈ base?, ¬history.Reachable base y) →
      y ∉ m.walk.hidden ∧ y ∈ m.walk.expanded := by
    intro y hy hfree
    have hshown : y ∉ m.walk.hidden := by
      intro hhidden
      obtain ⟨base, hbase, hreach⟩ := h.shaded.sound y hhidden
      exact hfree base hbase hreach
    refine ⟨hshown, ?_⟩
    rcases h.traced.waits y hy with hwaits | hdone
    · exact absurd (hqueue y hwaits) hshown
    · exact hdone
  have hknown : x ∈ m.walk.known := by
    induction hx with
    | refl => exact h.shaded.tipKnown
    | @step child parent _ hparent ih =>
        have hfree : ∀ base ∈ base?, ¬history.Reachable base child :=
          fun base hbase' hreach => hbase base hbase' (hreach.step hparent)
        exact h.traced.parents child (hfound child (ih hfree) hfree).2 parent hparent
  obtain ⟨hshown, hdone⟩ := hfound x hknown hbase
  exact ⟨h.counted.found x hdone hshown, hshown⟩

end Changelog.History
