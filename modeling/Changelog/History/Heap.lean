/-!
# A binary heap

A heap keeps its entries in an array: the entries below position `i` are those at `2 * i + 1` and
`2 * i + 2`, and no entry has a smaller key than an entry below it.  Entries of equal keys have no
order of their own; which of them comes out first depends on the exchanges made so far, so these
are fixed: an entry rises past strictly smaller ones only, sinks below strictly larger ones only,
and sinks to the left when both sides are equal.
-/

namespace Changelog.Heap

variable {α : Type} (key : α → Int)

/-- Let the entry at a position rise past smaller ones. -/
def rise (heap : Array α) (i : Nat) : Array α :=
  if h : 0 < i ∧ i < heap.size then
    if key heap[(i - 1) / 2] < key heap[i] then
      rise (heap.swap i ((i - 1) / 2)) ((i - 1) / 2)
    else heap
  else heap
  termination_by i
  decreasing_by omega

/-- Add an entry. -/
def push (heap : Array α) (x : α) : Array α :=
  rise key (heap.push x) heap.size

/-- The position of the larger entry directly below a position, given that there is one. -/
def larger (heap : Array α) (i : Nat) (h : 2 * i + 1 < heap.size) : Nat :=
  if hr : 2 * i + 2 < heap.size then
    if key heap[2 * i + 1] < key heap[2 * i + 2] then 2 * i + 2 else 2 * i + 1
  else 2 * i + 1

theorem larger_bounds
    (heap : Array α) (i : Nat) (h : 2 * i + 1 < heap.size) :
    i < larger key heap i h ∧ larger key heap i h < heap.size := by
  unfold larger
  split
  · split <;> omega
  · omega

/-- Let the entry at a position sink below larger ones. -/
def sink (heap : Array α) (i : Nat) : Array α :=
  if h : 2 * i + 1 < heap.size then
    have hlarger := larger_bounds key heap i h
    if key heap[i] < key heap[larger key heap i h] then
      sink (heap.swap i (larger key heap i h)) (larger key heap i h)
    else heap
  else heap
  termination_by heap.size - i
  decreasing_by
    have := larger_bounds key heap i h
    simp only [Array.size_swap]
    omega

@[simp] theorem size_sink (heap : Array α) (i : Nat) : (sink key heap i).size = heap.size := by
  fun_induction sink key heap i <;> simp_all

/-- Remove the largest entry. -/
def pop? (heap : Array α) : Option (α × Array α) :=
  if h : 0 < heap.size then
    some (heap[0], sink key ((heap.swap 0 (heap.size - 1)).pop) 0)
  else none

theorem size_of_pop?
    {heap rest : Array α} {x : α} (h : pop? key heap = some (x, rest)) :
    rest.size < heap.size := by
  unfold pop? at h
  split at h
  · simp only [Option.some.injEq, Prod.mk.injEq] at h
    rw [← h.2, size_sink, Array.size_pop, Array.size_swap]
    omega
  · simp at h

/-- All entries, in the order in which they are removed. -/
def drain (heap : Array α) : List α :=
  match _h : pop? key heap with
  | none => []
  | some (x, rest) => x :: drain rest
  termination_by heap.size
  decreasing_by exact size_of_pop? key _h

/-- A list in the order in which a heap gives its entries back. -/
def order (xs : List α) : List α :=
  drain key (xs.foldl (push key) #[])

example : order Int.ofNat [3, 1, 4, 1, 5] = [5, 4, 3, 1, 1] := by decide +kernel

end Changelog.Heap
