import Changelog.History.Heap

/-!
# The order in which a heap gives its entries back

A heap gives back what was put in, the largest keys first.  While an entry rises or sinks, the heap
is in order except around that entry.  What is broken is one pair on its way up and two pairs on its
way down; in both cases the entries below the moving one are still in order with the one above it.
-/

namespace Changelog.Heap

variable {α : Type} (key : α → Int)

/-- The key at a position, zero where there is no entry. -/
def level (heap : Array α) (i : Nat) : Int :=
  if h : i < heap.size then key heap[i] else 0

/-- One position is directly below another. -/
def IsChild (child parent : Nat) : Prop :=
  child = 2 * parent + 1 ∨ child = 2 * parent + 2

theorem IsChild.lt {child parent : Nat} (h : IsChild child parent) : parent < child := by
  unfold IsChild at h
  omega

theorem IsChild.parent_unique
    {child p q : Nat} (hp : IsChild child p) (hq : IsChild child q) : p = q := by
  unfold IsChild at hp hq
  omega

theorem isChild_parent {i : Nat} (h : 0 < i) : IsChild i ((i - 1) / 2) := by
  unfold IsChild
  omega

/-- No entry has a smaller key than an entry below it. -/
def Ordered (heap : Array α) : Prop :=
  ∀ child parent, IsChild child parent → child < heap.size →
    level key heap child ≤ level key heap parent

/-- A heap is in order except for an entry that may have to rise. -/
structure OrderedAbove (heap : Array α) (i : Nat) : Prop where
  pairs : ∀ child parent, IsChild child parent → child < heap.size → child ≠ i →
    level key heap child ≤ level key heap parent
  across : ∀ child parent, IsChild child i → IsChild i parent → child < heap.size →
    level key heap child ≤ level key heap parent

/-- A heap is in order except for an entry that may have to sink. -/
structure OrderedBelow (heap : Array α) (i : Nat) : Prop where
  pairs : ∀ child parent, IsChild child parent → child < heap.size → parent ≠ i →
    level key heap child ≤ level key heap parent
  across : ∀ child parent, IsChild child i → IsChild i parent → child < heap.size →
    level key heap child ≤ level key heap parent

variable {key}

theorem level_of_lt {heap : Array α} {i : Nat} (h : i < heap.size) :
    level key heap i = key heap[i] :=
  dif_pos h

theorem level_swap
    {heap : Array α} {i j : Nat} (hi : i < heap.size) (hj : j < heap.size) (k : Nat) :
    level key (heap.swap i j) k =
      if k = i then level key heap j else if k = j then level key heap i else level key heap k := by
  by_cases hk : k < heap.size
  · have hk' : k < (heap.swap i j).size := by simpa using hk
    rw [level_of_lt hk', level_of_lt hi, level_of_lt hj, level_of_lt hk, Array.getElem_swap]
    split
    · rfl
    · split <;> rfl
  · have hki : k ≠ i := by omega
    have hkj : k ≠ j := by omega
    rw [if_neg hki, if_neg hkj]
    simp [level, hk]

theorem level_push_of_lt {heap : Array α} {x : α} {i : Nat} (h : i < heap.size) :
    level key (heap.push x) i = level key heap i := by
  have h' : i < (heap.push x).size := by
    rw [Array.size_push]
    omega
  rw [level_of_lt h', level_of_lt h, Array.getElem_push_lt h]

theorem level_pop_of_lt {heap : Array α} {i : Nat} (h : i < heap.size - 1) :
    level key heap.pop i = level key heap i := by
  have h' : i < heap.pop.size := by simpa using h
  have h'' : i < heap.size := by omega
  rw [level_of_lt h', level_of_lt h'', Array.getElem_pop]

/-! ## Rising -/

/-- An entry that is larger than the one above it changes places with it and may rise further. -/
theorem OrderedAbove.swap
    {heap : Array α} {i parent : Nat} (h : OrderedAbove key heap i) (hparent : IsChild i parent)
    (hi : i < heap.size) (hp : parent < heap.size)
    (hlt : level key heap parent < level key heap i) :
    OrderedAbove key (heap.swap i parent) parent := by
  have hpi := hparent.lt
  constructor
  · intro c p hc hsize hne
    rw [Array.size_swap] at hsize
    have hcp := hc.lt
    rw [level_swap, level_swap, if_neg hne]
    by_cases hci : c = i
    · subst hci
      have hpp := hc.parent_unique hparent
      subst hpp
      rw [if_pos rfl, if_neg (by omega), if_pos rfl]
      omega
    · rw [if_neg hci]
      have hpair := h.pairs c p hc hsize hci
      by_cases hpi' : p = i
      · subst hpi'
        rw [if_pos rfl]
        exact h.across c parent hc hparent hsize
      · rw [if_neg hpi']
        by_cases hpp : p = parent
        · subst hpp
          rw [if_pos rfl]
          omega
        · rw [if_neg hpp]
          exact hpair
  · intro c p hc hp' hsize
    rw [Array.size_swap] at hsize
    have hcp := hc.lt
    have hpp := hp'.lt
    have habove := h.pairs parent p hp' (by omega) (by omega)
    rw [level_swap, level_swap, if_neg (by omega : p ≠ i), if_neg (by omega : p ≠ parent)]
    by_cases hci : c = i
    · rw [if_pos hci]
      exact habove
    · rw [if_neg hci, if_neg (by omega)]
      exact Int.le_trans (h.pairs c parent hc hsize hci) habove

/-- An entry that is not larger than the one above it is in order. -/
theorem OrderedAbove.ordered
    {heap : Array α} {i : Nat} (h : OrderedAbove key heap i)
    (hle : ∀ parent, IsChild i parent → level key heap i ≤ level key heap parent) :
    Ordered key heap := by
  intro c p hc hsize
  by_cases hci : c = i
  · subst hci
    exact hle p hc
  · exact h.pairs c p hc hsize hci

/-- Rising brings a heap in order. -/
theorem ordered_rise
    {heap : Array α} {i : Nat} (h : OrderedAbove key heap i) (hi : i < heap.size) :
    Ordered key (rise key heap i) := by
  fun_induction rise key heap i with
  | case1 heap i hbounds hlt ih =>
      have hchild := isChild_parent hbounds.1
      have hparent : (i - 1) / 2 < heap.size := by
        have := hchild.lt
        omega
      refine ih (h.swap hchild hi hparent ?_) (by simpa using hparent)
      rw [level_of_lt hparent, level_of_lt hi]
      exact hlt
  | case2 heap i hbounds hle =>
      refine h.ordered fun parent hparent => ?_
      have heq := hparent.parent_unique (isChild_parent hbounds.1)
      subst heq
      have hp : (i - 1) / 2 < heap.size := by
        have := hparent.lt
        omega
      rw [level_of_lt hi, level_of_lt hp]
      omega
  | case3 heap i hbounds =>
      refine h.ordered fun parent hparent => ?_
      have := hparent.lt
      omega

variable (key) in
theorem rise_perm (heap : Array α) (i : Nat) : (rise key heap i).Perm heap := by
  fun_induction rise key heap i with
  | case1 heap i hbounds hlt ih => exact ih.trans (Array.swap_perm _ _)
  | case2 => exact Array.Perm.refl _
  | case3 => exact Array.Perm.refl _

/-- Adding an entry keeps a heap in order. -/
theorem Ordered.push {heap : Array α} (h : Ordered key heap) (x : α) :
    Ordered key (Heap.push key heap x) := by
  refine ordered_rise ⟨?_, ?_⟩ (by simp)
  · intro c p hc hsize hne
    rw [Array.size_push] at hsize
    have := hc.lt
    rw [level_push_of_lt (by omega), level_push_of_lt (by omega)]
    exact h c p hc (by omega)
  · intro c p hc _ hsize
    have := hc.lt
    rw [Array.size_push] at hsize
    omega

/-! ## Sinking -/

variable (key) in
theorem isChild_larger (heap : Array α) (i : Nat) (h : 2 * i + 1 < heap.size) :
    IsChild (larger key heap i h) i := by
  unfold larger IsChild
  split
  · split
    · exact Or.inr rfl
    · exact Or.inl rfl
  · exact Or.inl rfl

/-- No entry directly below a position is larger than the one to which it would sink. -/
theorem level_le_larger
    {heap : Array α} {i child : Nat} (h : 2 * i + 1 < heap.size) (hchild : IsChild child i)
    (hsize : child < heap.size) :
    level key heap child ≤ level key heap (larger key heap i h) := by
  have hlarger := (larger_bounds key heap i h).2
  rw [level_of_lt hsize, level_of_lt hlarger]
  unfold IsChild at hchild
  by_cases hr : 2 * i + 2 < heap.size
  · by_cases hlt : key heap[2 * i + 1] < key heap[2 * i + 2]
    · have heq : larger key heap i h = 2 * i + 2 := by simp [larger, hr, hlt]
      rcases hchild with rfl | rfl
      · simp only [heq]
        omega
      · simp only [heq]
        omega
    · have heq : larger key heap i h = 2 * i + 1 := by simp [larger, hr, hlt]
      rcases hchild with rfl | rfl
      · simp only [heq]
        omega
      · simp only [heq]
        omega
  · have heq : larger key heap i h = 2 * i + 1 := by simp [larger, hr]
    rcases hchild with rfl | rfl
    · simp only [heq]
      omega
    · omega

/-- An entry that is smaller than the largest one directly below it changes places with it and may
sink further. -/
theorem OrderedBelow.swap
    {heap : Array α} {i l : Nat} (h : OrderedBelow key heap i) (hi : i < heap.size)
    (hl : l < heap.size) (hchild : IsChild l i)
    (hlargest : ∀ child, IsChild child i → child < heap.size →
      level key heap child ≤ level key heap l)
    (hlt : level key heap i < level key heap l) :
    OrderedBelow key (heap.swap i l) l := by
  have hil := hchild.lt
  constructor
  · intro c p hc hcsize hne
    rw [Array.size_swap] at hcsize
    have hcp := hc.lt
    rw [level_swap, level_swap, if_neg hne]
    by_cases hpi : p = i
    · subst hpi
      rw [if_pos rfl, if_neg (by omega)]
      by_cases hcl : c = l
      · rw [if_pos hcl]
        omega
      · rw [if_neg hcl]
        exact hlargest c hc hcsize
    · rw [if_neg hpi]
      by_cases hci : c = i
      · subst hci
        rw [if_pos rfl]
        exact h.across l p hchild hc hl
      · rw [if_neg hci]
        have hcl : c ≠ l := by
          rintro rfl
          exact hpi (hc.parent_unique hchild)
        rw [if_neg hcl]
        exact h.pairs c p hc hcsize hpi
  · intro c p hc hp hcsize
    rw [Array.size_swap] at hcsize
    have heq := hp.parent_unique hchild
    subst heq
    have hcl := hc.lt
    rw [level_swap, level_swap, if_pos rfl, if_neg (by omega), if_neg (by omega)]
    exact h.pairs c l hc hcsize (by omega)

/-- An entry that is not smaller than any entry directly below it is in order. -/
theorem OrderedBelow.ordered
    {heap : Array α} {i : Nat} (h : OrderedBelow key heap i)
    (hle : ∀ child, IsChild child i → child < heap.size →
      level key heap child ≤ level key heap i) :
    Ordered key heap := by
  intro c p hc hsize
  by_cases hpi : p = i
  · subst hpi
    exact hle c hc hsize
  · exact h.pairs c p hc hsize hpi

/-- Sinking brings a heap in order. -/
theorem ordered_sink {heap : Array α} {i : Nat} (h : OrderedBelow key heap i) :
    Ordered key (sink key heap i) := by
  fun_induction sink key heap i with
  | case1 heap i hsize hbounds hlt ih =>
      refine ih (h.swap (by omega) hbounds.2 (isChild_larger key heap i hsize)
        (fun child hchild hc => level_le_larger hsize hchild hc) ?_)
      rw [level_of_lt (by omega), level_of_lt hbounds.2]
      exact hlt
  | case2 heap i hsize hbounds hle =>
      refine h.ordered fun child hchild hc => ?_
      refine Int.le_trans (level_le_larger hsize hchild hc) ?_
      rw [level_of_lt hbounds.2, level_of_lt (by omega)]
      omega
  | case3 heap i hsize =>
      refine h.ordered fun child hchild hc => ?_
      unfold IsChild at hchild
      omega

variable (key) in
theorem sink_perm (heap : Array α) (i : Nat) : (sink key heap i).Perm heap := by
  fun_induction sink key heap i with
  | case1 heap i hsize hbounds hlt ih => exact ih.trans (Array.swap_perm _ _)
  | case2 => exact Array.Perm.refl _
  | case3 => exact Array.Perm.refl _

/-! ## Giving entries back -/

/-- The entry at the top of a heap is the largest. -/
theorem Ordered.level_le_top {heap : Array α} (h : Ordered key heap) {i : Nat}
    (hi : i < heap.size) : level key heap i ≤ level key heap 0 := by
  induction i using Nat.strongRecOn with
  | ind i ih =>
      by_cases hzero : i = 0
      · subst hzero
        exact Int.le_refl _
      · have hchild := isChild_parent (Nat.pos_of_ne_zero hzero)
        have hlt := hchild.lt
        exact Int.le_trans (h i _ hchild hi) (ih _ hlt (by omega))

/-- The top and what is left after the last entry has taken its place are all entries. -/
theorem top_cons_pop_swap_perm {heap : Array α} (hsize : 0 < heap.size) :
    (heap[0] :: (heap.swap 0 (heap.size - 1) hsize (Nat.sub_one_lt_of_lt hsize)).pop.toList).Perm
      heap.toList := by
  have hne : (heap.swap 0 (heap.size - 1)).toList ≠ [] := by
    rw [← List.length_pos_iff, Array.length_toList, Array.size_swap]
    exact hsize
  have hlast : (heap.swap 0 (heap.size - 1)).toList.getLast hne = heap[0] := by
    simp [List.getLast_eq_getElem]
  have hsplit := List.dropLast_concat_getLast hne
  rw [hlast, ← Array.toList_pop] at hsplit
  have hswap := (@Array.swap_perm α heap 0 (heap.size - 1) hsize (by omega)).toList
  rw [← hsplit] at hswap
  exact (List.perm_append_singleton _ _).symm.trans hswap

/-- The heap is in order except at the top when the last entry has taken the place of the first. -/
theorem Ordered.pop_swap {heap : Array α} (h : Ordered key heap) (hsize : 0 < heap.size) :
    OrderedBelow key (heap.swap 0 (heap.size - 1) hsize (Nat.sub_one_lt_of_lt hsize)).pop 0 := by
  constructor
  · intro c p hc hcsize hne
    rw [Array.size_pop, Array.size_swap] at hcsize
    have hcp := hc.lt
    have hc' : c < (heap.swap 0 (heap.size - 1)).size - 1 := by
      rw [Array.size_swap]
      omega
    rw [level_pop_of_lt hc', level_pop_of_lt (by omega), level_swap, level_swap,
      if_neg (by omega), if_neg (by omega), if_neg hne, if_neg (by omega)]
    exact h c p hc (by omega)
  · intro c p _ hp _
    have := hp.lt
    omega

/-- Removing an entry gives the largest one, and leaves all others in a heap that is in order. -/
theorem Ordered.pop?
    {heap rest : Array α} {x : α} (h : Ordered key heap)
    (hpop : Heap.pop? key heap = some (x, rest)) :
    Ordered key rest ∧ (x :: rest.toList).Perm heap.toList ∧
      ∀ y ∈ heap.toList, key y ≤ key x := by
  unfold Heap.pop? at hpop
  split at hpop
  next hsize =>
    obtain ⟨rfl, rfl⟩ := Prod.mk.inj (Option.some.inj hpop)
    refine ⟨ordered_sink (h.pop_swap hsize), ?_, ?_⟩
    · have hsink := (sink_perm key (heap.swap 0 (heap.size - 1)).pop 0).toList
      exact (hsink.cons heap[0]).trans (top_cons_pop_swap_perm hsize)
    · intro y hy
      obtain ⟨i, hi, rfl⟩ := List.mem_iff_getElem.mp hy
      have hi' : i < heap.size := by simpa using hi
      have hle := h.level_le_top hi'
      rw [level_of_lt hi', level_of_lt hsize] at hle
      simpa using hle
  · cases hpop

theorem pop?_eq_none_iff {heap : Array α} : Heap.pop? key heap = none ↔ heap = #[] := by
  unfold Heap.pop?
  split
  next hsize =>
    constructor
    · intro h
      cases h
    · rintro rfl
      simp at hsize
  next hsize => simpa using Array.eq_empty_of_size_eq_zero (by omega)

/-- A heap that is in order gives back all its entries, the largest keys first. -/
theorem Ordered.drain {heap : Array α} (h : Ordered key heap) :
    (Heap.drain key heap).Perm heap.toList ∧
      (Heap.drain key heap).Pairwise fun x y => key y ≤ key x := by
  fun_induction Heap.drain key heap with
  | case1 heap hpop =>
      rw [pop?_eq_none_iff] at hpop
      subst hpop
      exact ⟨List.Perm.refl _, List.Pairwise.nil⟩
  | case2 heap x rest hpop ih =>
      obtain ⟨hrest, hperm, hlargest⟩ := h.pop? hpop
      obtain ⟨hdrain, hsorted⟩ := ih hrest
      refine ⟨(hdrain.cons x).trans hperm, List.pairwise_cons.mpr ⟨?_, hsorted⟩⟩
      intro y hy
      exact hlargest y (hperm.subset (List.mem_cons_of_mem x (hdrain.subset hy)))

variable (key) in
theorem push_perm (heap : Array α) (x : α) :
    (Heap.push key heap x).toList.Perm (heap.toList ++ [x]) := by
  have h := (rise_perm key (heap.push x) heap.size).toList
  rw [Array.toList_push] at h
  exact h

theorem foldl_push
    {heap : Array α} (h : Ordered key heap) (xs : List α) :
    Ordered key (xs.foldl (Heap.push key) heap) ∧
      (xs.foldl (Heap.push key) heap).toList.Perm (heap.toList ++ xs) := by
  induction xs generalizing heap with
  | nil => exact ⟨h, by simp⟩
  | cons x xs ih =>
      obtain ⟨hordered, hperm⟩ := ih (h.push x)
      refine ⟨hordered, hperm.trans ?_⟩
      have hstep := (push_perm key heap x).append_right xs
      rwa [List.append_assoc] at hstep

variable (key) in
theorem ordered_empty : Ordered key (#[] : Array α) := by
  intro c p _ hsize
  simp at hsize

variable (key) in
/-- The order of a heap loses no entry, adds none and repeats none. -/
theorem order_perm (xs : List α) : (order key xs).Perm xs := by
  obtain ⟨hordered, hperm⟩ := foldl_push (ordered_empty key) xs
  exact hordered.drain.1.trans (by simpa using hperm)

variable (key) in
/-- The order of a heap descends. -/
theorem pairwise_order (xs : List α) : (order key xs).Pairwise fun x y => key y ≤ key x :=
  (foldl_push (ordered_empty key) xs).1.drain.2

end Changelog.Heap
