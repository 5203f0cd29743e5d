import Changelog.Proofs.History.Coherent
import Changelog.Proofs.History.HeapOrder

/-!
# The commits between two ends

For arbitrary times the commits between a base and a tip are distinct, stand in descending order of
time, are all reachable from the tip, and lack nothing that the tip reaches and the base does not.

Whether they leave out all that the base reaches is another matter.  The search goes by time, and it
may lose its patience while a hidden commit still waits from which something that was found is
reachable.  This is the only way in which a commit of the base stays in.
-/

namespace Changelog.History

variable {ι : Type} [DecidableEq ι] {history : History ι} {base? : Option ι} {tip : ι}

/-- All that is reachable from a commit is present. -/
def Complete (history : History ι) (id : ι) : Prop :=
  ∀ x, history.Reachable id x → (history.node? x).isSome

/-- Commits that cover what lies between a base and a tip. -/
structure Covers (history : History ι) (base? : Option ι) (tip : ι) (ids : List ι) : Prop where
  distinct : ids.Nodup
  descending : Descending history ids
  reached : ∀ x ∈ ids, history.Reachable tip x
  nothingLost : ∀ x, history.Reachable tip x →
    (∀ base ∈ base?, ¬history.Reachable base x) → x ∈ ids

/-- The search between two ends stops short: it has lost its patience, and a commit waits that
reaches a commit that was found and is not hidden. -/
def StopsShort (history : History ι) (base tip : ι) : Prop :=
  ∃ m, Relation.ReflTransGen (Takes history) (history.opening (some base) tip) m ∧
    m.patience = 0 ∧
      ∃ id ∈ m.walk.queue, ∃ x ∈ m.found, x ∉ m.walk.hidden ∧ history.Reachable id x

theorem outcome_opening (history : History ι) (base? : Option ι) (tip : ι) :
    history.outcome (history.opening base? tip) =
      history.search (history.start base? tip) startTime fullPatience [] :=
  if_neg (Nat.succ_ne_zero 4)

theorem between_of_search
    {found hidden : List ι}
    (h : history.search (history.start base? tip) startTime fullPatience [] =
      .ok (found, hidden)) :
    history.between base? tip =
      .ok ((Heap.order history.time found).filter fun id => id ∉ hidden) := by
  rw [between, h]
  rfl

/-- The commits between two ends are those found at the end of a run, in order of time and without
those that were hidden later. -/
theorem exists_run_of_between
    {ids : List ι} (h : history.between base? tip = .ok ids) :
    ∃ m, Relation.ReflTransGen (Takes history) (history.opening base? tip) m ∧ m.Ended ∧
      ids = (Heap.order history.time m.found).filter fun id => id ∉ m.walk.hidden := by
  obtain ⟨result, hsearch, -⟩ := Steps.bind_eq_ok_iff.mp h
  obtain ⟨m, hrun, hend, hresult⟩ := exists_run_of_search (by decide) hsearch
  refine ⟨m, hrun, hend, ?_⟩
  rw [← hresult] at hsearch
  rw [between_of_search hsearch] at h
  exact (Except.ok.inj h).symm

theorem mem_filter_order
    {m : Moment ι} {x : ι} :
    x ∈ ((Heap.order history.time m.found).filter fun id => id ∉ m.walk.hidden) ↔
      x ∈ m.found ∧ x ∉ m.walk.hidden := by
  rw [List.mem_filter, (Heap.order_perm history.time m.found).mem_iff, decide_eq_true_eq]

/-- No commit stands twice between two ends. -/
theorem nodup_of_between
    {ids : List ι} (h : history.between base? tip = .ok ids) : ids.Nodup := by
  obtain ⟨m, hrun, -, rfl⟩ := exists_run_of_between h
  have hfound : m.found.Nodup := (coherent_of_run hrun).counted.nodup
  exact ((Heap.order_perm history.time m.found).nodup_iff.mpr hfound).filter _

/-- The commits between two ends are in descending order of time. -/
theorem descending_of_between
    {ids : List ι} (h : history.between base? tip = .ok ids) : Descending history ids := by
  obtain ⟨m, -, -, rfl⟩ := exists_run_of_between h
  exact (Heap.pairwise_order history.time m.found).filter _

/-- The tip reaches all commits between two ends. -/
theorem reachable_of_mem_between
    {ids : List ι} (h : history.between base? tip = .ok ids) {x : ι} (hx : x ∈ ids) :
    history.Reachable tip x := by
  obtain ⟨m, hrun, -, rfl⟩ := exists_run_of_between h
  exact (coherent_of_run hrun).counted.reached x (mem_filter_order.mp hx).1

/-- Whatever the tip reaches and the base does not is between the two. -/
theorem mem_between_of_reachable
    {ids : List ι} (h : history.between base? tip = .ok ids) {x : ι}
    (hx : history.Reachable tip x) (hbase : ∀ base ∈ base?, ¬history.Reachable base x) :
    x ∈ ids := by
  obtain ⟨m, hrun, hend, rfl⟩ := exists_run_of_between h
  have hcoherent := coherent_of_run hrun
  have hqueue : ∀ x ∈ m.walk.queue, x ∈ m.walk.hidden := by
    rcases hend with hempty | hlost
    · simp [hempty]
    · exact hcoherent.impatient hlost
  exact mem_filter_order.mpr (hcoherent.mem_found hqueue hx hbase)

theorem covers_of_between
    {ids : List ι} (h : history.between base? tip = .ok ids) : Covers history base? tip ids where
  distinct := nodup_of_between h
  descending := descending_of_between h
  reached := fun _ => reachable_of_mem_between h
  nothingLost := fun _ => mem_between_of_reachable h

/-- Between two ends that are complete the search succeeds. -/
theorem exists_between_eq_ok
    (htip : Complete history tip) (hbase : ∀ base ∈ base?, Complete history base) :
    ∃ ids, history.between base? tip = .ok ids := by
  have hpresent : ∀ x, history.Reachable tip x ∨ (∃ base ∈ base?, history.Reachable base x) →
      (history.node? x).isSome := by
    rintro x (hx | ⟨base, hmem, hx⟩)
    · exact htip x hx
    · exact hbase base hmem x hx
  have hreach : ∀ x, history.Reachable tip x ∨ (∃ base ∈ base?, history.Reachable base x) →
      ∀ parent ∈ history.parents x,
        history.Reachable tip parent ∨ ∃ base ∈ base?, history.Reachable base parent := by
    rintro x (hx | ⟨base, hmem, hx⟩) parent hparent
    · exact Or.inl (hx.step hparent)
    · exact Or.inr ⟨base, hmem, hx.step hparent⟩
  have hexpands : ∀ {m : Moment ι} {id : ι} {queue : List ι}, Coherent history base? tip m →
      m.walk.queue = id :: queue →
        ∃ walk, history.expand { m.walk with queue } id = .ok walk := by
    intro m id queue hcoherent hqueue
    have hid := hcoherent.reachable_of_mem_known
      (hcoherent.traced.queued id (hqueue ▸ List.mem_cons_self))
    exact exists_expand_eq_ok (hpresent id hid)
      (fun parent hparent => hpresent parent (hreach id hid parent hparent)) _
  obtain ⟨⟨found, hidden⟩, hsearch⟩ := exists_search_eq_ok (P := Coherent history base? tip)
    Coherent.takes hexpands (by decide) (coherent_opening history base? tip)
  exact ⟨_, between_of_search hsearch⟩

/-- A commit of the base is between the two ends exactly if the search stops short.  A run has no other
end than the moment without patience, so the result can be read off there. -/
theorem exists_mem_between_iff
    {base : ι} {ids : List ι} (h : history.between (some base) tip = .ok ids) :
    (∃ x ∈ ids, history.Reachable base x) ↔ StopsShort history base tip := by
  constructor
  · rintro ⟨x, hx, hreach⟩
    obtain ⟨m, hrun, hend, rfl⟩ := exists_run_of_between h
    obtain ⟨hfound, hshown⟩ := mem_filter_order.mp hx
    have hcoherent := coherent_of_run hrun
    obtain ⟨id, hid, -, hidReach⟩ :=
      hcoherent.exists_waiting (hcoherent.shaded.bases base rfl) hreach hshown
    refine ⟨m, hrun, ?_, id, hid, x, hfound, hshown, hidReach⟩
    rcases hend with hempty | hlost
    · rw [hempty] at hid
      cases hid
    · exact hlost
  · rintro ⟨m, hrun, hlost, id, hid, x, hfound, hshown, hreach⟩
    have hcoherent := coherent_of_run hrun
    have houtcome := outcome_eq_of_run hrun
    rw [outcome_opening, outcome_of_ended (Or.inr hlost)] at houtcome
    rw [between_of_search houtcome] at h
    obtain rfl := Except.ok.inj h
    obtain ⟨other, hother, hid⟩ := hcoherent.shaded.sound id (hcoherent.impatient hlost id hid)
    obtain rfl := Option.some.inj hother
    exact ⟨x, mem_filter_order.mpr ⟨hfound, hshown⟩, hid.trans hreach⟩

end Changelog.History
