import Changelog.Proofs.FileTree.Path
import Changelog.Proofs.Steps
import Changelog.Repository.Log
import Mathlib

/-!
# An empty repository has no head

A repository counts as empty if its head waits for the initial branch and no file below the directory
of references is a reference.  Then no name in that directory leads to an object, so neither the head
nor any longer name that it may be short for is resolved.

The list of packed references is looked at as well.  If it cannot be read, the repository counts as
empty whatever the files are, and the head may be resolved all the same.
-/

namespace Changelog

namespace FileTree

variable {tree : FileTree} {location : Location} {content : ByteArray}

theorem mem_filesOf_of_lookup
    {entries : List (String × FileTree)} {name : String} (h : entries.lookup name = some tree)
    (hfile : (location, content) ∈ tree.files) :
    (name :: location, content) ∈ filesOf entries := by
  induction entries with
  | nil => cases h
  | cons first entries ih =>
      obtain ⟨other, found⟩ := first
      rw [filesOf]
      by_cases hname : name = other
      · subst hname
        rw [List.lookup_cons_self] at h
        obtain rfl := Option.some.inj h
        exact List.mem_append_left _ (List.mem_map.mpr ⟨_, hfile, rfl⟩)
      · have hother : (name == other) = false := beq_false_of_ne hname
        rw [List.lookup_cons, hother] at h
        exact List.mem_append_right _ (ih h)

theorem get?_of_contentAt? (h : tree.contentAt? location = some content) :
    tree.get? location = some (.file content) := by
  unfold contentAt? at h
  split at h
  next found hfound => rw [hfound, Option.some.inj h]
  · cases h

/-- A file that can be found is among all files. -/
theorem mem_files_of_get? (h : tree.get? location = some (.file content)) :
    (location, content) ∈ tree.files := by
  induction location generalizing tree with
  | nil =>
      obtain rfl := Option.some.inj h
      exact List.mem_singleton_self _
  | cons name location ih =>
      rw [get?_cons] at h
      obtain ⟨found, hentry, hrest⟩ := Option.bind_eq_some_iff.mp h
      cases tree with
      | file other => cases hentry
      | directory entries => exact mem_filesOf_of_lookup hentry (ih hrest)

/-- Parts that are all names lead straight down. -/
theorem locate_eq_append
    {found : Location} {parts : List String} (h : tree.locate location parts = .ok found)
    (hnames : ∀ part ∈ parts, ¬isIdle part ∧ part ≠ "..") : found = location ++ parts := by
  induction parts generalizing location with
  | nil => rw [List.append_nil, Except.ok.inj h]
  | cons part parts ih =>
      obtain ⟨⟨hidle, hparent⟩, hothers⟩ := List.forall_mem_cons.mp hnames
      have hname : ¬(part = "" ∨ part = ".") := by simpa [isIdle] using hidle
      by_cases hdirectory : tree.isDirectoryAt location
      · rw [locate, if_pos hdirectory, if_neg hname, if_neg hparent] at h
        split at h
        · cases h
        · split at h
          · rw [ih h hothers, List.append_assoc, List.singleton_append]
          · cases h
      · rw [locate_of_not_directory hdirectory (List.cons_ne_nil part parts)] at h
        cases h

end FileTree

namespace ReferenceName

theorem isPart_of_isName {name : String} (h : isName name = true) :
    ∀ part ∈ pathParts name, isPart part.toList = true := by
  intro part hpart
  obtain ⟨cs, hcs, rfl⟩ := List.mem_map.mp hpart
  rw [isName, Bool.and_eq_true, Bool.and_eq_true] at h
  rw [String.toList_ofList]
  exact List.all_eq_true.mp h.1.1 cs hcs

theorem not_idle_of_isPart {part : String} (h : isPart part.toList = true) :
    ¬isIdle part ∧ part ≠ ".." := by
  have hdots : ∀ other ∈ ["", ".", ".."], isPart other.toList = false := by decide +kernel
  have hother : ∀ other ∈ ["", ".", ".."], part ≠ other := by
    rintro other hmem rfl
    rw [hdots part hmem] at h
    cases h
  simp_all [isIdle]

theorem not_locked_of_isPart {part : String} (h : isPart part.toList = true) :
    Repository.lockMark.toList.isSuffixOf part.toList = false := by
  simp only [isPart, Bool.and_eq_true, Bool.not_eq_true'] at h
  exact h.2

end ReferenceName

namespace Repository

variable {repository : Repository}

/-! ## References -/

/-- Without references, and with a list of packed ones that can be read, no name in the directory of
references has one: a file that gave one would have been counted. -/
theorem reference_ne_ok
    (hnone : repository.hasReferences = false) (hlisted : repository.packed?.isSome) {rest : String}
    (hname : ReferenceName.isName (referencesName ++ "/" ++ rest) = true) (target : Reference) :
    repository.reference (referencesName ++ "/" ++ rest) ≠ .ok target := by
  obtain ⟨packed, hpacked⟩ := Option.isSome_iff_exists.mp hlisted
  rw [hasReferences, hpacked] at hnone
  simp only [Bool.or_eq_false_iff, Bool.not_eq_false', List.isEmpty_iff] at hnone
  obtain ⟨rfl, hfiles⟩ := hnone
  have hmissing : repository.packedReference (referencesName ++ "/" ++ rest) = .error .missing := by
    rw [packedReference, hpacked]
    rfl
  have hparts := ReferenceName.isPart_of_isName hname
  have hsplit : pathParts (referencesName ++ "/" ++ rest) = referencesName :: pathParts rest := by
    rw [pathParts_append_slash_append]
    rfl
  unfold Repository.reference
  split
  · nofun
  · rw [hmissing]
    nofun
  next location hlocated =>
    split
    next content hcontent =>
      intro hok
      have hplace := FileTree.locate_eq_append hlocated fun part hpart =>
        ReferenceName.not_idle_of_isPart (hparts part hpart)
      rw [List.nil_append, hsplit] at hplace
      subst hplace
      rw [hsplit] at hparts
      obtain ⟨references, hentry, hfile⟩ := Option.bind_eq_some_iff.mp
        ((FileTree.get?_cons _ _ _).symm.trans (FileTree.get?_of_contentAt? hcontent))
      have hread := Steps.mapError_eq_ok_iff.mp hok
      have hcounted := List.any_eq_false.mp hfiles (pathParts rest, content)
      rw [FileTree.get?_cons, hentry, Option.bind_some, FileTree.get?_nil, Option.elim_some,
        hread] at hcounted
      refine hcounted (FileTree.mem_files_of_get? hfile) ?_
      have hlast : (pathParts rest).getLast?.any
          (fun name => lockMark.toList.isSuffixOf name.toList) = false := by
        rw [Option.any_eq_false]
        intro part hpart
        have hmem := List.mem_cons_of_mem referencesName (List.mem_of_getLast? hpart)
        simp [ReferenceName.not_locked_of_isPart (hparts part hmem)]
      rw [hlast]
      rfl
    · rw [hmissing]
      nofun

theorem follow_ne_ok
    (hnone : repository.hasReferences = false) (hlisted : repository.packed?.isSome) {rest : String}
    (hname : ReferenceName.isName (referencesName ++ "/" ++ rest) = true) (depth : ℕ)
    (id : ObjectId) : repository.follow depth (referencesName ++ "/" ++ rest) ≠ .ok id := by
  unfold follow
  split
  · nofun
  next h => exact absurd h (reference_ne_ok hnone hlisted hname _)
  next h => exact absurd h (reference_ne_ok hnone hlisted hname _)

theorem followFirst_ne_ok
    {names : List String} {id : ObjectId}
    (h : ∀ name ∈ names, repository.follow symbolicDepth name ≠ .ok id) :
    repository.followFirst names ≠ .ok id := by
  induction names with
  | nil => nofun
  | cons name names ih =>
      obtain ⟨hname, hnames⟩ := List.forall_mem_cons.mp h
      rw [followFirst]
      split
      · nofun
      · split
        · exact ih hnames
        · exact hname

/-! ## The head -/

/-- What an answered emptiness test says about the head and the initial branch. -/
theorem isEmpty_eq_ok_iff {empty : Bool} :
    repository.isEmpty = .ok empty ↔
      ∃ head, repository.reference headName = .ok head ∧
        ReferenceName.isBranch repository.initialBranch = true ∧
          (head = .symbolic repository.initialBranch && !repository.hasReferences) = empty := by
  simp only [isEmpty, Steps.bind_eq_ok_iff, Steps.mapError_eq_ok_iff]
  refine exists_congr fun head => and_congr_right fun _ => ?_
  by_cases hbranch : ReferenceName.isBranch repository.initialBranch = true
  · rw [if_pos hbranch]
    exact ⟨fun h => ⟨hbranch, Except.ok.inj h⟩, fun h => congrArg Except.ok h.2⟩
  · rw [if_neg hbranch]
    exact ⟨nofun, fun h => absurd h.1 hbranch⟩

theorem exists_eq_append_of_isBranch {name : String} (h : ReferenceName.isBranch name = true) :
    ∃ rest, name = referencesName ++ "/" ++ rest ∧
      ReferenceName.isName (referencesName ++ "/" ++ rest) = true := by
  rw [ReferenceName.isBranch, Bool.and_eq_true, List.isPrefixOf_iff_prefix] at h
  obtain ⟨⟨others, hothers⟩, hname⟩ := h
  have heq : name = referencesName ++ "/" ++ String.ofList ("heads/".toList ++ others) := by
    apply String.toList_injective
    rw [← hothers, String.toList_append, String.toList_ofList, ← List.append_assoc]
    rfl
  exact ⟨_, heq, heq ▸ hname⟩

/-- The head of a repository that counts as empty is not resolved, if the list of packed references
can be read. -/
theorem resolve?_head_of_isEmpty
    (hempty : repository.isEmpty = .ok true) (hlisted : repository.packed?.isSome) :
    repository.resolve? headName = none := by
  obtain ⟨head, hhead, hbranch, hwaits⟩ := isEmpty_eq_ok_iff.mp hempty
  rw [Bool.and_eq_true, decide_eq_true_eq, Bool.not_eq_true'] at hwaits
  obtain ⟨rfl, hnone⟩ := hwaits
  obtain ⟨branch, hinitial, hpossible⟩ := exists_eq_append_of_isBranch hbranch
  have hcandidates : ReferenceName.candidates headName =
      headName :: ["HEAD", "tags/HEAD", "heads/HEAD", "remotes/HEAD", "remotes/HEAD/HEAD"].map
        (referencesName ++ "/" ++ ·) := by
    decide +kernel
  have hnames : ∀ rest ∈ ["HEAD", "tags/HEAD", "heads/HEAD", "remotes/HEAD", "remotes/HEAD/HEAD"],
      ReferenceName.isName (referencesName ++ "/" ++ rest) = true := by
    decide +kernel
  have hfollowed : ∀ id, ∀ name ∈ ReferenceName.candidates headName,
      repository.follow symbolicDepth name ≠ .ok id := by
    intro id name hname
    rw [hcandidates] at hname
    rcases List.mem_cons.mp hname with rfl | hname
    · rw [symbolicDepth, follow, hhead, hinitial]
      exact follow_ne_ok hnone hlisted hpossible 4 id
    · obtain ⟨rest, hrest, rfl⟩ := List.mem_map.mp hname
      exact follow_ne_ok hnone hlisted (hnames rest hrest) symbolicDepth id
  have hdigits : ObjectId.digits? headName.toList = none := by decide +kernel
  have hdescribed : Revision.described? headName.toList = none := by decide +kernel
  have hidentifier : ObjectId.ofChars? headName.toList = none := by
    rw [ObjectId.ofChars?, hdigits]
  have habbreviated : repository.abbreviated? headName.toList = none := by
    rw [abbreviated?, hdigits]
    rfl
  have hwellFormed : ReferenceName.isWellFormed headName = true := by decide +kernel
  have hbase : repository.base? headName = none := by
    simp only [base?, hidentifier, habbreviated, hdescribed, hwellFormed]
    cases hresult : repository.followFirst (ReferenceName.candidates headName) with
    | ok id => exact absurd hresult (followFirst_ne_ok (hfollowed id))
    | error cause => cases cause <;> rfl
  have hparsed : Revision.parse? headName = some ⟨headName, []⟩ := by decide +kernel
  rw [resolve?, hparsed, Option.bind_eq_bind, Option.bind_some, hbase]
  rfl

end Repository

end Changelog
