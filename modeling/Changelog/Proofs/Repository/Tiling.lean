import Changelog.Proofs.Repository.Log
import Mathlib

/-!
# Consecutive ranges

Three commits that follow each other bound three ranges.  Each of their logs comes from a walk of its
own, with its own tip and its own hidden commits.  Where times agree with the graph a walk finds
exactly what its tip reaches and its base does not.  So the two shorter ranges tile the long one:
what the long log reports, one of the others reports, and never both.
-/

namespace Changelog

namespace History

variable {ι : Type} [DecidableEq ι] {history : History ι} {base tip : ι}

theorem timely_of_parents_mem
    {ids : List ι}
    (h : ∀ id ∈ ids, ∀ parent ∈ history.parents id,
      parent ∈ ids ∧ history.time parent ≤ history.time id)
    {start : ι} (hstart : start ∈ ids) : Timely history start := by
  intro x hx
  have hmem : x ∈ ids :=
    mem_of_reachable (fun id hid parent hparent => (h id hid parent hparent).1) hstart hx
  exact fun parent hparent => (h x hmem parent hparent).2

theorem Timely.of_reachable
    {x y : ι} (h : Timely history x) (hy : history.Reachable x y) : Timely history y :=
  fun z hz => h z (hy.trans hz)

/-- With times that agree with the graph the commits between two ends are those that the tip reaches
and the base does not. -/
theorem Timely.mem_between_iff
    {ids : List ι} (htip : Timely history tip) (hbase : Timely history base)
    (h : history.between (some base) tip = .ok ids) {x : ι} :
    x ∈ ids ↔ history.Reachable tip x ∧ ¬history.Reachable base x := by
  constructor
  · intro hx
    refine ⟨reachable_of_mem_between h hx, fun hreach => ?_⟩
    exact htip.not_stopsShort hbase ((exists_mem_between_iff h).mp ⟨x, hx, hreach⟩)
  · rintro ⟨hx, hfree⟩
    exact mem_between_of_reachable h hx fun other hother => Option.some.inj hother ▸ hfree

/-- The commits between the outer two of three that follow each other are those between the middle
one and either of them. -/
theorem Timely.between_perm
    {first middle last : ι} {whole later earlier : List ι} (htimely : Timely history last)
    (hmiddle : history.Reachable last middle) (hfirst : history.Reachable middle first)
    (hwhole : history.between (some first) last = .ok whole)
    (hlater : history.between (some middle) last = .ok later)
    (hearlier : history.between (some first) middle = .ok earlier) :
    whole.Perm (later ++ earlier) := by
  have hmiddleTimely : Timely history middle := htimely.of_reachable hmiddle
  have hfirstTimely : Timely history first := hmiddleTimely.of_reachable hfirst
  have hdisjoint : ∀ x ∈ later, ∀ y ∈ earlier, x ≠ y := by
    rintro x hx _ hy rfl
    exact ((htimely.mem_between_iff hmiddleTimely hlater).mp hx).2
      ((hmiddleTimely.mem_between_iff hfirstTimely hearlier).mp hy).1
  have hnodup : (later ++ earlier).Nodup :=
    List.nodup_append.mpr ⟨nodup_of_between hlater, nodup_of_between hearlier, hdisjoint⟩
  refine (List.perm_ext_iff_of_nodup (nodup_of_between hwhole) hnodup).mpr fun x => ?_
  rw [List.mem_append, htimely.mem_between_iff hfirstTimely hwhole,
    htimely.mem_between_iff hmiddleTimely hlater,
    hmiddleTimely.mem_between_iff hfirstTimely hearlier]
  constructor
  · rintro ⟨hlast, hfree⟩
    by_cases hx : history.Reachable middle x
    · exact Or.inr ⟨hx, hfree⟩
    · exact Or.inl ⟨hlast, hx⟩
  · rintro (⟨hlast, hfree⟩ | ⟨hx, hfree⟩)
    · exact ⟨hlast, fun hx => hfree (hfirst.trans hx)⟩
    · exact ⟨hmiddle.trans hx, hfree⟩

end History

namespace Repository

variable {repository : Repository} {range : Range} {base tip : ObjectId}

theorem Holds.of_reachable
    {x y : ObjectId} (h : repository.Holds x) (hy : repository.history.Reachable x y) :
    repository.Holds y :=
  fun z hz => h z (hy.trans hz)

theorem resolves_ofEnds
    {lower upper : String} (hbase : repository.resolve? lower = some base)
    (htip : repository.resolve? upper = some tip) :
    repository.Resolves (.ofEnds (some lower) (some upper)) (some base) tip := by
  refine ⟨htip, ?_⟩
  simp [Range.ofEnds, hbase]

/-- A range with complete ends, of which one is the base, has the log of the commits between them. -/
theorem exists_log_of_base
    (hresolves : repository.Resolves range (some base) tip) (htip : repository.Holds tip)
    (hbase : repository.Holds base) :
    ∃ ids entries, repository.history.between (some base) tip = .ok ids ∧
      repository.log range = .ok entries ∧
        entries.map LogEntry.hash = ids.map ObjectId.toString := by
  have hgiven : range ≠ .full := by
    rintro rfl
    cases hresolves.2
  exact exists_log_eq_ok hresolves htip (fun other hother => Option.some.inj hother ▸ hbase)
    (isAnsweredEmpty_eq_ok_false_iff.mpr fun h => absurd h hgiven)

/-- Consecutive ranges tile the history.  Let three revisions name commits of which each reaches the
one before, in a history that is complete below the last and has no parent later than its child.
Then all three logs succeed, the log of the outer two repeats nothing and reports what the two logs
between them report, which have no commit in common, and these are the commits that the last reaches
and the first does not. -/
theorem logs_tile
    {a b c : String} {first middle last : ObjectId} (ha : repository.resolve? a = some first)
    (hb : repository.resolve? b = some middle) (hc : repository.resolve? c = some last)
    (hfirst : repository.history.Reachable middle first)
    (hmiddle : repository.history.Reachable last middle) (hholds : repository.Holds last)
    (htimely : repository.history.Timely last) :
    ∃ whole later earlier,
      repository.log (.ofEnds (some a) (some c)) = .ok whole ∧
      repository.log (.ofEnds (some b) (some c)) = .ok later ∧
      repository.log (.ofEnds (some a) (some b)) = .ok earlier ∧
      (whole.map LogEntry.hash).Nodup ∧
      (whole.map LogEntry.hash).Perm
        (later.map LogEntry.hash ++ earlier.map LogEntry.hash) ∧
      (later.map LogEntry.hash).Disjoint (earlier.map LogEntry.hash) ∧
      ∀ id, id.toString ∈ whole.map LogEntry.hash ↔
        repository.history.Reachable last id ∧ ¬repository.history.Reachable first id := by
  have hmiddleHolds : repository.Holds middle := hholds.of_reachable hmiddle
  have hfirstHolds : repository.Holds first := hmiddleHolds.of_reachable hfirst
  obtain ⟨wholeIds, whole, hwhole, hwholeLog, hwholeHashes⟩ :=
    exists_log_of_base (resolves_ofEnds ha hc) hholds hfirstHolds
  obtain ⟨laterIds, later, hlater, hlaterLog, hlaterHashes⟩ :=
    exists_log_of_base (resolves_ofEnds hb hc) hholds hmiddleHolds
  obtain ⟨earlierIds, earlier, hearlier, hearlierLog, hearlierHashes⟩ :=
    exists_log_of_base (resolves_ofEnds ha hb) hmiddleHolds hfirstHolds
  have hnodup : (whole.map LogEntry.hash).Nodup := by
    rw [hwholeHashes]
    exact nodup_map_toString (History.nodup_of_between hwhole)
  have hperm : (whole.map LogEntry.hash).Perm
      (later.map LogEntry.hash ++ earlier.map LogEntry.hash) := by
    rw [hwholeHashes, hlaterHashes, hearlierHashes, ← List.map_append]
    exact (htimely.between_perm hmiddle hfirst hwhole hlater hearlier).map ObjectId.toString
  refine ⟨whole, later, earlier, hwholeLog, hlaterLog, hearlierLog, hnodup, hperm, ?_, ?_⟩
  · exact List.disjoint_of_nodup_append (hperm.nodup_iff.mp hnodup)
  · intro id
    rw [hwholeHashes, toString_mem_map_toString]
    exact htimely.mem_between_iff ((htimely.of_reachable hmiddle).of_reachable hfirst) hwhole

/-- Two tags on a history with a merge of two commits of one time, the second on the merge. -/
def tagged : Repository :=
  sketch 4 [("v1", 1), ("v2", 3)] [(0, 5, []), (1, 5, [0]), (2, 5, [0]), (3, 5, [1, 2]),
    (4, 7, [3, 2])]

/-- The branch that was merged is reported up to the second tag, though it is not above the first, below
which there is only the commit that both branches share. -/
theorem logs_tile_tagged :
    ∃ whole later earlier,
      tagged.log (.ofEnds (some "v1") (some "main")) = .ok whole ∧
      tagged.log (.ofEnds (some "v2") (some "main")) = .ok later ∧
      tagged.log (.ofEnds (some "v1") (some "v2")) = .ok earlier ∧
      (whole.map LogEntry.hash).Perm
        (later.map LogEntry.hash ++ earlier.map LogEntry.hash) ∧
      (numbered 2).toString ∈ whole.map LogEntry.hash := by
  have hclosed : ∀ id ∈ tagged.objects.map Prod.fst, (tagged.commit? id).isSome ∧
      ∀ parent ∈ tagged.history.parents id, parent ∈ tagged.objects.map Prod.fst := by
    decide +kernel
  have htimes : ∀ id ∈ tagged.objects.map Prod.fst, ∀ parent ∈ tagged.history.parents id,
      parent ∈ tagged.objects.map Prod.fst ∧
        tagged.history.time parent ≤ tagged.history.time id := by
    decide +kernel
  have hlast : numbered 4 ∈ tagged.objects.map Prod.fst := by decide +kernel
  have hv1 : tagged.resolve? "v1" = some (numbered 1) := by decide +kernel
  have hv2 : tagged.resolve? "v2" = some (numbered 3) := by decide +kernel
  have hmain : tagged.resolve? "main" = some (numbered 4) := by decide +kernel
  have hfirst : tagged.history.Reachable (numbered 3) (numbered 1) :=
    History.Reachable.of_mem_parents (by decide +kernel)
  have hmiddle : tagged.history.Reachable (numbered 4) (numbered 3) :=
    History.Reachable.of_mem_parents (by decide +kernel)
  obtain ⟨whole, later, earlier, hwhole, hlater, hearlier, -, hperm, -, hmem⟩ :=
    logs_tile hv1 hv2 hmain hfirst hmiddle (holds_of_parents_mem hclosed hlast)
      (History.timely_of_parents_mem htimes hlast)
  refine ⟨whole, later, earlier, hwhole, hlater, hearlier, hperm, (hmem (numbered 2)).mpr ⟨?_, ?_⟩⟩
  · exact History.Reachable.of_mem_parents (by decide +kernel)
  · intro hreach
    have hbelow : ∀ id ∈ [numbered 1, numbered 0], ∀ parent ∈ tagged.history.parents id,
        parent ∈ [numbered 1, numbered 0] := by
      decide +kernel
    exact absurd (History.mem_of_reachable hbelow List.mem_cons_self hreach) (by decide +kernel)

end Repository

end Changelog
