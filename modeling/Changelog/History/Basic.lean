/-!
# Histories

A history is a graph of commits, each with a time and the identifiers of its parents.  It is all
that a walk needs to know of a repository.  A parent need not be present, and times need not agree
with the graph: a commit may claim to be older than its parents.
-/

namespace Changelog

/-- What a walk needs to know of a commit. -/
structure HistoryNode (ι : Type) where
  /-- When the commit was made. -/
  time : Int
  /-- The commits that it follows. -/
  parents : List ι
  deriving DecidableEq, Repr

/-- Commits by identifier. -/
structure History (ι : Type) where
  /-- The commits that are present. -/
  nodes : List (ι × HistoryNode ι)
  deriving DecidableEq, Repr

namespace History

variable {ι : Type} [DecidableEq ι]

/-- The commit of an identifier. -/
def node? (history : History ι) (id : ι) : Option (HistoryNode ι) :=
  history.nodes.lookup id

/-- The parents of a commit, none if it is missing. -/
def parents (history : History ι) (id : ι) : List ι :=
  (history.node? id).elim [] HistoryNode.parents

/-- The time of a commit, zero if it is missing. -/
def time (history : History ι) (id : ι) : Int :=
  (history.node? id).elim 0 HistoryNode.time

/-- A commit is reachable from itself and from whatever reaches one of its children. -/
inductive Reachable (history : History ι) (start : ι) : ι → Prop
  | refl : Reachable history start start
  | step {child parent : ι} :
    Reachable history start child → parent ∈ history.parents child →
      Reachable history start parent

/-- Reachability is transitive. -/
theorem Reachable.trans
    {history : History ι} {a b c : ι}
    (hab : history.Reachable a b) (hbc : history.Reachable b c) : history.Reachable a c := by
  induction hbc with
  | refl => exact hab
  | step _ hparent ih => exact ih.step hparent

/-- What is reachable stays within commits that have all their parents among them. -/
theorem mem_of_reachable
    {history : History ι} {ids : List ι}
    (h : ∀ id ∈ ids, ∀ parent ∈ history.parents id, parent ∈ ids)
    {start x : ι} (hstart : start ∈ ids) (hx : history.Reachable start x) : x ∈ ids := by
  induction hx with
  | refl => exact hstart
  | @step child parent _ hparent ih => exact h child ih parent hparent

/-- A commit that is present is among the nodes. -/
theorem mem_nodes_of_node?
    {history : History ι} {id : ι} {node : HistoryNode ι} (h : history.node? id = some node) :
    (id, node) ∈ history.nodes := by
  obtain ⟨nodes⟩ := history
  change nodes.lookup id = some node at h
  induction nodes with
  | nil => simp at h
  | cons first others ih =>
    obtain ⟨key, value⟩ := first
    rw [List.lookup_cons] at h
    split at h
    · simp_all
    · exact List.mem_cons_of_mem _ (ih h)

end History

end Changelog
