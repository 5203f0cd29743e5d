import Changelog.Proofs.History.Between

/-!
# Histories whose times agree with the graph

If no parent is later than a commit that follows it, then the order of the queue can be trusted:
nothing that waits is later than what was found.  When the search loses its patience all that waits
is earlier than all that was found, so nothing that was found can be reached from there, and the
search does not stop short.
-/

namespace Changelog.History

variable {ι : Type} [DecidableEq ι] {history : History ι} {base? : Option ι} {tip : ι}

/-- No commit that is reachable has a later parent. -/
def Timely (history : History ι) (id : ι) : Prop :=
  ∀ x, history.Reachable id x → ∀ parent ∈ history.parents x, history.time parent ≤ history.time x

theorem Timely.time_le
    {id x y : ι} (h : Timely history id) (hx : history.Reachable id x)
    (hy : history.Reachable x y) : history.time y ≤ history.time x := by
  induction hy with
  | refl => exact Int.le_refl _
  | @step child parent hchild hparent ih =>
      exact Int.le_trans (h child (hx.trans hchild) parent hparent) ih

/-- How times stand in a search.  At the start the base waits before the tip even if it is earlier;
the first commit that is taken makes the order right. -/
structure Chronological (history : History ι) (m : Moment ι) : Prop where
  rest : ∀ id queue, m.walk.queue = id :: queue → Descending history queue
  first : ∀ id queue, m.walk.queue = id :: queue → id ∉ m.walk.hidden →
    ∀ x ∈ queue, history.time x ≤ history.time id
  found : ∀ x ∈ m.walk.queue, ∀ y ∈ m.found, history.time x ≤ history.time y
  last : ∀ y ∈ m.found, m.last ≤ history.time y
  impatient : m.patience = 0 → ∀ x ∈ m.walk.queue, history.time x < m.last

/-- A queue in descending order is in order from the first commit on. -/
theorem Descending.rest_and_first
    {ids queue : List ι} {id : ι} (h : Descending history ids) (hqueue : ids = id :: queue) :
    Descending history queue ∧ ∀ x ∈ queue, history.time x ≤ history.time id := by
  subst hqueue
  obtain ⟨hfirst, hrest⟩ := List.pairwise_cons.mp h
  exact ⟨hrest, hfirst⟩

/-- When patience is lost all that waits in descending order is earlier than the last commit
found. -/
theorem Descending.time_lt_of_patienceAfter_eq_zero
    {walk : Walk ι} {last : Int} {patience : Nat} (h : Descending history walk.queue)
    (hlost : history.patienceAfter walk last patience = 0) :
    ∀ x ∈ walk.queue, history.time x < last := by
  intro x hx
  have hhead := (of_patienceAfter_eq_zero hlost).2
  cases hqueue : walk.queue with
  | nil =>
      rw [hqueue] at hx
      cases hx
  | cons next queue =>
      rw [hqueue] at hhead hx
      have hnext : history.time next < last := hhead next rfl
      rcases List.mem_cons.mp hx with rfl | hx
      · exact hnext
      · exact Int.lt_of_le_of_lt ((h.rest_and_first hqueue).2 x hx) hnext

theorem Chronological.of_descending
    {m : Moment ι} (h : Descending history m.walk.queue)
    (hfound : ∀ x ∈ m.walk.queue, ∀ y ∈ m.found, history.time x ≤ history.time y)
    (hlast : ∀ y ∈ m.found, m.last ≤ history.time y)
    (himpatient : m.patience = 0 → ∀ x ∈ m.walk.queue, history.time x < m.last) :
    Chronological history m where
  rest := fun _ _ hqueue => (h.rest_and_first hqueue).1
  first := fun _ _ hqueue _ => (h.rest_and_first hqueue).2
  found := hfound
  last := hlast
  impatient := himpatient

/-- Taking a commit whose parents are not later keeps the order, since a commit that is found is the
latest of those that waited. -/
theorem Chronological.taken
    {m m' : Moment ι} (h : Chronological history m) (htaken : Taken history m m')
    (htimely : ∀ id ∈ m.walk.queue, ∀ parent ∈ history.parents id,
      history.time parent ≤ history.time id) :
    Chronological history m' := by
  cases htaken with
  | @again id queue hqueue _ _ =>
      have hrest : Descending history queue := h.rest id queue hqueue
      refine Chronological.of_descending hrest ?_ h.last
        fun hlost => hrest.time_lt_of_patienceAfter_eq_zero hlost
      intro x hx y hy
      exact h.found x (hqueue ▸ List.mem_cons_of_mem id hx) y hy
  | @hidden id queue walk hqueue _ _ hwalk =>
      have hdescending : Descending history walk.queue := hwalk.descending (h.rest id queue hqueue)
      have hid : id ∈ m.walk.queue := hqueue ▸ List.mem_cons_self
      refine Chronological.of_descending hdescending ?_ h.last
        fun hlost => hdescending.time_lt_of_patienceAfter_eq_zero hlost
      intro x hx y hy
      rcases (hwalk.queue x).mp hx with hx | hx
      · exact h.found x (hqueue ▸ List.mem_cons_of_mem id hx) y hy
      · exact Int.le_trans (htimely id hid x hx) (h.found id hid y hy)
  | @shown id queue walk hpatience hqueue _ hshown hwalk =>
      have hdescending : Descending history walk.queue := hwalk.descending (h.rest id queue hqueue)
      have hid : id ∈ m.walk.queue := hqueue ▸ List.mem_cons_self
      have hbelow : ∀ x ∈ walk.queue, history.time x ≤ history.time id := by
        intro x hx
        rcases (hwalk.mem_queue x).mp hx with hx | ⟨hx, _⟩
        · exact h.first id queue hqueue hshown x hx
        · exact htimely id hid x hx
      refine Chronological.of_descending hdescending ?_ ?_ fun hlost => absurd hlost hpatience
      · intro x hx y hy
        rcases List.mem_append.mp hy with hy | hy
        · exact Int.le_trans (hbelow x hx) (h.found id hid y hy)
        · rw [List.mem_singleton.mp hy]
          exact hbelow x hx
      · intro y hy
        rcases List.mem_append.mp hy with hy | hy
        · exact h.found id hid y hy
        · obtain rfl := List.mem_singleton.mp hy
          exact Int.le_refl _

theorem queue_start (history : History ι) (base? : Option ι) (tip : ι) :
    (history.start base? tip).queue = [tip] ∨
      ∃ base ∈ (history.start base? tip).hidden,
        (history.start base? tip).queue = [base, tip] := by
  cases base? with
  | none => exact Or.inl rfl
  | some base =>
      by_cases hbase : base = tip
      · exact Or.inl (if_pos hbase)
      · exact Or.inr ⟨base, mem_spread_of_mem List.mem_cons_self, if_neg hbase⟩

theorem chronological_opening (history : History ι) (base? : Option ι) (tip : ι) :
    Chronological history (history.opening base? tip) := by
  have hstart : ∀ id queue, (history.start base? tip).queue = id :: queue →
      queue = [] ∨ queue = [tip] ∧ id ∈ (history.start base? tip).hidden := by
    intro id queue hqueue
    rcases queue_start history base? tip with hends | ⟨base, hbase, hends⟩
    · rw [hends] at hqueue
      exact Or.inl (List.cons.inj hqueue).2.symm
    · rw [hends] at hqueue
      obtain ⟨rfl, rfl⟩ := List.cons.inj hqueue
      exact Or.inr ⟨rfl, hbase⟩
  refine ⟨?_, ?_, ?_, ?_, ?_⟩
  · intro id queue hqueue
    rcases hstart id queue hqueue with rfl | ⟨rfl, _⟩
    · exact List.Pairwise.nil
    · exact List.pairwise_singleton _ tip
  · intro id queue hqueue hshown x hx
    rcases hstart id queue hqueue with rfl | ⟨_, hhidden⟩
    · cases hx
    · exact absurd hhidden hshown
  · intro _ _ y hy
    cases hy
  · intro y hy
    cases hy
  · intro hlost
    cases hlost

theorem chronological_of_run
    (htip : Timely history tip) (hbase : ∀ base ∈ base?, Timely history base) {m : Moment ι}
    (h : Relation.ReflTransGen (Takes history) (history.opening base? tip) m) :
    Chronological history m := by
  induction h with
  | refl => exact chronological_opening history base? tip
  | @tail m m' hrun htakes ih =>
      have hcoherent := coherent_of_run hrun
      refine ih.taken (hcoherent.taken_of_takes htakes) ?_
      intro id hid
      rcases hcoherent.reachable_of_mem_known (hcoherent.traced.queued id hid) with
        hid | ⟨base, hmem, hid⟩
      · exact htip id hid
      · exact hbase base hmem id hid

/-- With times that agree with the graph a search does not stop short. -/
theorem Timely.not_stopsShort
    {base : ι} (htip : Timely history tip) (hbase : Timely history base) :
    ¬StopsShort history base tip := by
  rintro ⟨m, hrun, hlost, id, hid, x, hfound, -, hreach⟩
  have hcoherent := coherent_of_run hrun
  have hchronological : Chronological history m :=
    chronological_of_run htip (fun other hother => Option.some.inj hother ▸ hbase) hrun
  obtain ⟨other, hother, hidReach⟩ :=
    hcoherent.shaded.sound id (hcoherent.impatient hlost id hid)
  obtain rfl := Option.some.inj hother
  have hle : history.time x ≤ history.time id := hbase.time_le hidReach hreach
  have hlt : history.time id < m.last := hchronological.impatient hlost id hid
  have hlast : m.last ≤ history.time x := hchronological.last x hfound
  omega

end Changelog.History
