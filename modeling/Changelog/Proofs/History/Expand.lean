import Changelog.Proofs.History.Spread
import Changelog.Proofs.Steps

/-!
# What expanding a commit does to a walk

The parents of a commit are put into the queue one after the other.  What this does depends on
whether the commit is hidden.  Each of the two ways is described by a relation between the walk
before and the walk after, which holds for a single parent and is kept when one more parent follows.

Parents of a hidden commit enter the queue whether they were there before or not, and they are
hidden.  Any other parents enter it only if they have not been seen, and nothing is hidden.
-/

namespace Changelog.History

variable {ι : Type} [DecidableEq ι] {history : History ι}

/-! ## The queue -/

/-- Commits stand in descending order of time. -/
def Descending (history : History ι) (ids : List ι) : Prop :=
  ids.Pairwise fun x y => history.time y ≤ history.time x

theorem enqueue_perm (id : ι) (queue : List ι) :
    (history.enqueue id queue).Perm (id :: queue) := by
  induction queue with
  | nil => exact List.Perm.refl _
  | cons next queue ih =>
      rw [enqueue]
      split
      · exact List.Perm.refl _
      · exact (ih.cons next).trans (List.Perm.swap id next queue)

theorem mem_enqueue {id x : ι} {queue : List ι} :
    x ∈ history.enqueue id queue ↔ x = id ∨ x ∈ queue := by
  rw [(enqueue_perm id queue).mem_iff, List.mem_cons]

theorem count_enqueue (id x : ι) (queue : List ι) :
    (history.enqueue id queue).count x = queue.count x + if x = id then 1 else 0 := by
  rw [(enqueue_perm id queue).count_eq, List.count_cons]
  by_cases hx : x = id
  · simp [hx]
  · rw [if_neg hx, if_neg (by simpa using fun hid => hx hid.symm)]

/-- Putting a commit into a queue keeps it in order. -/
theorem Descending.enqueue
    {queue : List ι} (h : Descending history queue) (id : ι) :
    Descending history (history.enqueue id queue) := by
  induction queue with
  | nil => exact List.pairwise_singleton _ _
  | cons next queue ih =>
      obtain ⟨hnext, hqueue⟩ := List.pairwise_cons.mp h
      rw [History.enqueue]
      split
      next hlt =>
        refine List.pairwise_cons.mpr ⟨?_, h⟩
        intro x hx
        rcases List.mem_cons.mp hx with rfl | hx
        · exact Int.le_of_lt hlt
        · exact Int.le_trans (hnext x hx) (Int.le_of_lt hlt)
      next hle =>
        refine List.pairwise_cons.mpr ⟨?_, ih hqueue⟩
        intro x hx
        rcases mem_enqueue.mp hx with rfl | hx
        · exact Int.not_lt.mp hle
        · exact hnext x hx

theorem mem_of_count_add
    {xs ys : List ι} {x : ι} {c : Prop} [Decidable c]
    (h : ys.count x = xs.count x + if c then 1 else 0) : x ∈ ys ↔ x ∈ xs ∨ c := by
  rw [← List.count_pos_iff, ← List.count_pos_iff, h]
  by_cases hc : c
  · simp [hc]
  · simp [hc]

/-! ## One parent after the other -/

omit [DecidableEq ι] in
/-- A relation that one more parent extends holds for any number of parents. -/
theorem of_foldlM
    {next : Walk ι → ι → Except ι (Walk ι)} {R : List ι → Walk ι → Walk ι → Prop}
    (hnil : ∀ walk : Walk ι, R [] walk walk)
    (hcons : ∀ {parent : ι} {parents : List ι} {walk middle walk' : Walk ι},
      next walk parent = .ok middle → R parents middle walk' → R (parent :: parents) walk walk')
    {parents : List ι} {walk walk' : Walk ι} (h : parents.foldlM next walk = .ok walk') :
    R parents walk walk' := by
  induction parents generalizing walk with
  | nil =>
      cases h
      exact hnil _
  | cons parent parents ih =>
      rw [List.foldlM_cons] at h
      obtain ⟨middle, hnext, hrest⟩ := Steps.bind_eq_ok_iff.mp h
      exact hcons hnext (ih hrest)

omit [DecidableEq ι] in
theorem exists_foldlM_eq_ok
    {next : Walk ι → ι → Except ι (Walk ι)} {parents : List ι}
    (h : ∀ parent ∈ parents, ∀ walk, ∃ walk', next walk parent = .ok walk') (walk : Walk ι) :
    ∃ walk', parents.foldlM next walk = .ok walk' := by
  induction parents generalizing walk with
  | nil => exact ⟨walk, rfl⟩
  | cons parent parents ih =>
      obtain ⟨middle, hmiddle⟩ := h parent List.mem_cons_self walk
      obtain ⟨walk', hwalk⟩ :=
        ih (fun other hother => h other (List.mem_cons_of_mem parent hother)) middle
      refine ⟨walk', ?_⟩
      rw [List.foldlM_cons, hmiddle]
      exact hwalk

/-- What the parents of a hidden commit do to a walk. -/
structure EnteredHidden
    (history : History ι) (parents : List ι) (walk walk' : Walk ι) : Prop where
  expanded : walk'.expanded = walk.expanded
  known : ∀ x, x ∈ walk'.known ↔ x ∈ walk.known ∨ x ∈ parents
  seen : ∀ x, x ∈ walk'.seen ↔ x ∈ walk.seen ∨ x ∈ parents
  queue : ∀ x, x ∈ walk'.queue ↔ x ∈ walk.queue ∨ x ∈ parents
  count : ∀ x, x ∉ parents → walk'.queue.count x = walk.queue.count x
  descending : Descending history walk.queue → Descending history walk'.queue
  still : ∀ x ∈ walk.hidden, x ∈ walk'.hidden
  hides : ∀ x ∈ parents, x ∈ walk'.hidden
  sound : ∀ x ∈ walk'.hidden, x ∈ walk.hidden ∨ ∃ parent ∈ parents, history.Reachable parent x
  closed : ∀ x ∈ walk'.hidden, x ∈ walk.known →
    x ∈ walk.hidden ∨ ∀ parent ∈ history.parents x, parent ∈ walk'.hidden
  origin : ∀ x ∈ walk'.hidden, x ∈ walk.hidden ∨ x ∈ parents ∨
    ∃ child ∈ walk'.hidden, child ∈ walk'.known ∧ x ∈ history.parents child

theorem EnteredHidden.nil (walk : Walk ι) : EnteredHidden history [] walk walk where
  expanded := rfl
  known := by simp
  seen := by simp
  queue := by simp
  count := fun _ _ => rfl
  descending := id
  still := fun _ hx => hx
  hides := by simp
  sound := fun _ hx => Or.inl hx
  closed := fun _ hx _ => Or.inl hx
  origin := fun _ hx => Or.inl hx

omit [DecidableEq ι] in
theorem mem_cons_iff_or {x y : ι} {ys : List ι} {c : Prop} :
    (c ∨ x = y) ∨ x ∈ ys ↔ c ∨ x ∈ y :: ys := by
  rw [List.mem_cons, or_assoc]

theorem parents_of_node?
    {id : ι} {node : HistoryNode ι} (h : history.node? id = some node) :
    history.parents id = node.parents := by
  simp [parents, h]

/-- One more parent of a hidden commit. -/
theorem EnteredHidden.cons
    {parent : ι} {parents : List ι} {walk middle walk' : Walk ι}
    (hparent : history.enterHidden walk parent = .ok middle)
    (h : EnteredHidden history parents middle walk') :
    EnteredHidden history (parent :: parents) walk walk' := by
  unfold enterHidden at hparent
  split at hparent
  · cases hparent
  next node hnode =>
    dsimp only at hparent
    rw [← parents_of_node? hnode] at hparent
    generalize hspread : history.spread (walk.known.insert parent) (walk.hidden.insert parent)
      (history.parents parent) = spreadHidden at hparent
    obtain rfl := (Except.ok.inj hparent).symm
    have hparentHidden : parent ∈ spreadHidden := by
      rw [← hspread]
      exact mem_spread_of_mem List.mem_insert_self
    have hstill : ∀ x ∈ walk.hidden, x ∈ spreadHidden := by
      intro x hx
      rw [← hspread]
      exact mem_spread_of_mem (List.mem_insert_of_mem hx)
    refine
      { expanded := h.expanded
        known := ?_
        seen := ?_
        queue := ?_
        count := ?_
        descending := fun hqueue => h.descending (hqueue.enqueue parent)
        still := fun x hx => h.still x (hstill x hx)
        hides := ?_
        sound := ?_
        closed := ?_
        origin := ?_ }
    · intro x
      rw [h.known, List.mem_insert_iff, or_comm (a := x = parent), mem_cons_iff_or]
    · intro x
      rw [h.seen, List.mem_insert_iff, or_comm (a := x = parent), mem_cons_iff_or]
    · intro x
      rw [h.queue, mem_enqueue, or_comm (a := x = parent), mem_cons_iff_or]
    · intro x hx
      obtain ⟨hne, hx⟩ := not_or.mp (fun hor => hx (List.mem_cons.mpr hor))
      rw [h.count x hx, count_enqueue, if_neg hne, Nat.add_zero]
    · intro x hx
      rcases List.mem_cons.mp hx with rfl | hx
      · exact h.still x hparentHidden
      · exact h.hides x hx
    · intro x hx
      rcases h.sound x hx with hx | ⟨start, hstart, hreach⟩
      · rw [← hspread] at hx
        rcases reachable_of_mem_spread hx with hx | ⟨start, hstart, hreach⟩
        · rcases List.mem_insert_iff.mp hx with rfl | hx
          · exact Or.inr ⟨x, List.mem_cons_self, Reachable.refl⟩
          · exact Or.inl hx
        · exact Or.inr ⟨parent, List.mem_cons_self,
            (Reachable.of_mem_parents hstart).trans hreach⟩
      · exact Or.inr ⟨start, List.mem_cons_of_mem parent hstart, hreach⟩
    · intro x hx hxknown
      have hxknown' : x ∈ walk.known.insert parent := List.mem_insert_of_mem hxknown
      rcases h.closed x hx hxknown' with hx | hparents
      · rw [← hspread] at hx
        rcases parents_mem_spread hx hxknown' with hx | hparents
        · rcases List.mem_insert_iff.mp hx with rfl | hx
          · right
            intro p hp
            exact h.still p (hspread ▸ mem_spread_of_mem_starts hp)
          · exact Or.inl hx
        · right
          intro p hp
          exact h.still p (hspread ▸ hparents p hp)
      · exact Or.inr hparents
    · intro x hx
      rcases h.origin x hx with hx | hx | hchild
      · rw [← hspread] at hx
        rcases origin_of_mem_spread hx with hx | hx | ⟨child, hchild, hchildKnown, hx⟩
        · rcases List.mem_insert_iff.mp hx with rfl | hx
          · exact Or.inr (Or.inl List.mem_cons_self)
          · exact Or.inl hx
        · exact Or.inr (Or.inr ⟨parent, h.still parent hparentHidden,
            (h.known parent).mpr (Or.inl List.mem_insert_self), hx⟩)
        · exact Or.inr (Or.inr ⟨child, h.still child (hspread ▸ hchild),
            (h.known child).mpr (Or.inl hchildKnown), hx⟩)
      · exact Or.inr (Or.inl (List.mem_cons_of_mem parent hx))
      · exact Or.inr (Or.inr hchild)

theorem enteredHidden_of_foldlM
    {parents : List ι} {walk walk' : Walk ι}
    (h : parents.foldlM history.enterHidden walk = .ok walk') :
    EnteredHidden history parents walk walk' :=
  of_foldlM (R := EnteredHidden history) EnteredHidden.nil EnteredHidden.cons h

/-- What the parents of any other commit do to a walk. -/
structure Entered (history : History ι) (parents : List ι) (walk walk' : Walk ι) : Prop where
  expanded : walk'.expanded = walk.expanded
  hidden : walk'.hidden = walk.hidden
  known : ∀ x, x ∈ walk'.known ↔ x ∈ walk.known ∨ x ∈ parents
  seen : ∀ x, x ∈ walk'.seen ↔ x ∈ walk.seen ∨ x ∈ parents
  count : ∀ x, walk'.queue.count x =
    walk.queue.count x + if x ∈ parents ∧ x ∉ walk.seen then 1 else 0
  descending : Descending history walk.queue → Descending history walk'.queue

theorem Entered.mem_queue
    {parents : List ι} {walk walk' : Walk ι} (h : Entered history parents walk walk') (x : ι) :
    x ∈ walk'.queue ↔ x ∈ walk.queue ∨ x ∈ parents ∧ x ∉ walk.seen :=
  mem_of_count_add (h.count x)

theorem Entered.nil (walk : Walk ι) : Entered history [] walk walk where
  expanded := rfl
  hidden := rfl
  known := by simp
  seen := by simp
  count := by simp
  descending := id

/-- One more parent of a commit that is not hidden. -/
theorem Entered.cons
    {parent : ι} {parents : List ι} {walk middle walk' : Walk ι}
    (hparent : history.enter walk parent = .ok middle)
    (h : Entered history parents middle walk') :
    Entered history (parent :: parents) walk walk' := by
  have hknown : ∀ x, x ∈ walk.known.insert parent ∨ x ∈ parents ↔
      x ∈ walk.known ∨ x ∈ parent :: parents := by
    intro x
    rw [List.mem_insert_iff, or_comm (a := x = parent), mem_cons_iff_or]
  unfold enter at hparent
  split at hparent
  · cases hparent
  · dsimp only at hparent
    split at hparent
    next hseen =>
      obtain rfl := (Except.ok.inj hparent).symm
      refine ⟨h.expanded, h.hidden, fun x => (h.known x).trans (hknown x), ?_, ?_, h.descending⟩
      · intro x
        rw [h.seen x, List.mem_cons]
        constructor
        · rintro (hx | hx)
          · exact Or.inl hx
          · exact Or.inr (Or.inr hx)
        · rintro (hx | rfl | hx)
          · exact Or.inl hx
          · exact Or.inl hseen
          · exact Or.inr hx
      · intro x
        rw [h.count x]
        congr 1
        by_cases hx : x = parent
        · subst hx
          simp [hseen]
        · simp [hx]
    next hseen =>
      obtain rfl := (Except.ok.inj hparent).symm
      refine ⟨h.expanded, h.hidden, fun x => (h.known x).trans (hknown x), ?_, ?_,
        fun hqueue => h.descending (hqueue.enqueue parent)⟩
      · intro x
        rw [h.seen x, List.mem_cons, or_comm (a := x = parent), mem_cons_iff_or]
      · intro x
        rw [h.count x, count_enqueue, Nat.add_assoc]
        congr 1
        by_cases hx : x = parent
        · subst hx
          simp [hseen]
        · simp [hx]

theorem entered_of_foldlM
    {parents : List ι} {walk walk' : Walk ι}
    (h : parents.foldlM history.enter walk = .ok walk') : Entered history parents walk walk' :=
  of_foldlM (R := Entered history) Entered.nil Entered.cons h

/-! ## Expanding -/

/-- Expanding a commit puts its parents into the queue, unless this was done before. -/
theorem expand_spec
    {walk walk' : Walk ι} {id : ι} (h : history.expand walk id = .ok walk') :
    (id ∈ walk.expanded ∧ walk' = walk) ∨
      (id ∉ walk.expanded ∧ id ∈ walk.hidden ∧
        EnteredHidden history (history.parents id)
          { walk with expanded := id :: walk.expanded } walk') ∨
      (id ∉ walk.expanded ∧ id ∉ walk.hidden ∧
        Entered history (history.parents id)
          { walk with expanded := id :: walk.expanded } walk') := by
  unfold expand at h
  split at h
  next hdone => exact Or.inl ⟨hdone, (Except.ok.inj h).symm⟩
  next hdone =>
    split at h
    · cases h
    next node hnode =>
      dsimp only at h
      rw [← parents_of_node? hnode] at h
      split at h
      next hhidden => exact Or.inr (Or.inl ⟨hdone, hhidden, enteredHidden_of_foldlM h⟩)
      next hhidden => exact Or.inr (Or.inr ⟨hdone, hhidden, entered_of_foldlM h⟩)

/-- A commit can be expanded if it is present with all its parents. -/
theorem exists_expand_eq_ok
    {id : ι} (hid : (history.node? id).isSome)
    (hparents : ∀ parent ∈ history.parents id, (history.node? parent).isSome) (walk : Walk ι) :
    ∃ walk', history.expand walk id = .ok walk' := by
  obtain ⟨node, hnode⟩ := Option.isSome_iff_exists.mp hid
  rw [parents_of_node? hnode] at hparents
  unfold expand
  split
  · exact ⟨walk, rfl⟩
  · rw [hnode]
    dsimp only
    split
    · refine exists_foldlM_eq_ok (fun parent hparent walk => ?_) _
      obtain ⟨other, hother⟩ := Option.isSome_iff_exists.mp (hparents parent hparent)
      exact ⟨_, by rw [enterHidden, hother]⟩
    · refine exists_foldlM_eq_ok (fun parent hparent walk => ?_) _
      obtain ⟨other, hother⟩ := Option.isSome_iff_exists.mp (hparents parent hparent)
      by_cases hseen : parent ∈ walk.seen
      · exact ⟨_, by rw [enter, hother]; exact if_pos hseen⟩
      · exact ⟨_, by rw [enter, hother]; exact if_neg hseen⟩

end Changelog.History
