import Changelog.FileTree.Basic
import Mathlib

/-!
# Paths as they are written

The directories above a path are read off its text.  Taking the last name from a path gives the path
above it, and doing so again and again ends, since there are fewer names each time.  Two dots are a
name here like any other: whether they lead anywhere is for the tree to say.

A tree follows paths from its top.  Where a name comes last, it makes no difference whether the path
has empty parts or single dots before it.
-/

namespace Changelog

/-! ## Paths as texts -/

/-- The path of an entry of a directory. -/
def joinPath (directory name : String) : String :=
  match directory.toList.getLast? with
  | none | some '/' => directory ++ name
  | some _ => directory ++ "/" ++ name

/-- Whether a part of a path means the directory that it is in. -/
def isIdle (part : String) : Bool := part == "" || part == "."

/-- The parts of a path before its last name, without idle ones at the end. -/
def partsAbove? (parts : List String) : Option (List String) :=
  let named := parts.rdropWhile isIdle
  if named = [] then none else some (named.dropLast.rdropWhile isIdle)

/-- The path above a path.  A slash in front stays there, and so does a single dot, but a path that
is only a dot is in the empty path. -/
def parentPath? (path : String) : Option String :=
  match pathParts path with
  | "" :: second :: others =>
    (partsAbove? (second :: others)).map fun parts => "/" ++ "/".intercalate parts
  | "." :: others =>
    match partsAbove? others with
    | some parts => some ("/".intercalate ("." :: parts))
    | none => some ""
  | parts => (partsAbove? parts).map "/".intercalate

/-- The path that is so many steps above a path. -/
def ancestor? (path : String) : ℕ → Option String
  | 0 => some path
  | k + 1 => (ancestor? path k).bind parentPath?

/-! ## The names in a path -/

/-- The names that a path is made of. -/
def pathNames (path : String) : List String := plainParts (pathParts path)

theorem plainParts_append (parts parts' : List String) :
    plainParts (parts ++ parts') = plainParts parts ++ plainParts parts' :=
  List.filter_append ..

theorem plainParts_eq_filter_isIdle (parts : List String) :
    plainParts parts = parts.filter fun part => !isIdle part := by
  simp [plainParts, isIdle, bne]

theorem plainParts_cons_of_idle {part : String} (h : isIdle part) (parts : List String) :
    plainParts (part :: parts) = plainParts parts := by
  simp [plainParts_eq_filter_isIdle, h]

theorem plainParts_cons_of_named {part : String} (h : ¬isIdle part) (parts : List String) :
    plainParts (part :: parts) = part :: plainParts parts := by
  simp [plainParts_eq_filter_isIdle, h]

theorem plainParts_rdropWhile (parts : List String) :
    plainParts (parts.rdropWhile isIdle) = plainParts parts := by
  have hidle : plainParts (parts.rtakeWhile isIdle) = [] := by
    rw [plainParts_eq_filter_isIdle, List.filter_eq_nil_iff]
    intro part hpart
    simp [List.mem_rtakeWhile_imp hpart]
  conv_rhs => rw [← List.rdropWhile_append_rtakeWhile (p := isIdle) (l := parts)]
  rw [plainParts_append, hidle, List.append_nil]

theorem partsAbove?_concat (front : List String) (last : String) :
    partsAbove? (front ++ [last]) =
      if isIdle last then partsAbove? front else some (front.rdropWhile isIdle) := by
  by_cases hlast : isIdle last <;> simp [partsAbove?, hlast]

/-- Either all parts are idle, or one more name follows those of the parts above. -/
theorem partsAbove?_cases (parts : List String) :
    (partsAbove? parts = none ∧ plainParts parts = []) ∨
      ∃ above name, partsAbove? parts = some above ∧ above ⊆ parts ∧
        plainParts parts = plainParts above ++ [name] := by
  induction parts using List.reverseRecOn with
  | nil => exact .inl ⟨rfl, rfl⟩
  | append_singleton front last ih =>
      rw [partsAbove?_concat, plainParts_append]
      by_cases hlast : isIdle last
      · have hplain : plainParts [last] = [] := plainParts_cons_of_idle hlast []
        rw [if_pos hlast, hplain, List.append_nil]
        obtain h | ⟨above, name, habove, hsub, hnames⟩ := ih
        · exact .inl h
        · exact .inr ⟨above, name, habove, List.subset_append_of_subset_left _ hsub, hnames⟩
      · right
        refine ⟨front.rdropWhile isIdle, last, if_neg hlast, ?_, ?_⟩
        · exact List.subset_append_of_subset_left _ (List.rdropWhile_prefix ..).subset
        · rw [plainParts_rdropWhile]
          exact congrArg _ (plainParts_cons_of_named hlast [])

/-! ## Parts and texts -/

theorem slash_not_mem_of_mem_splitOn
    {cs part : List Char} (h : part ∈ cs.splitOn '/') : '/' ∉ part := by
  induction cs generalizing part with
  | nil =>
      obtain rfl := List.mem_singleton.mp h
      exact List.not_mem_nil
  | cons c cs ih =>
      rw [List.splitOn_cons_eq_if_modifyHead] at h
      by_cases hslash : c = '/'
      · rw [if_pos (by simpa using hslash), List.mem_cons] at h
        obtain rfl | h := h
        · exact List.not_mem_nil
        · exact ih h
      · rw [if_neg (by simpa using hslash)] at h
        obtain ⟨first, others, hsplit⟩ := List.exists_cons_of_ne_nil (List.splitOn_ne_nil '/' cs)
        rw [hsplit, List.modifyHead_cons, List.mem_cons] at h
        obtain rfl | h := h
        · have hfirst : '/' ∉ first := ih (hsplit ▸ List.mem_cons_self)
          simp [hfirst, Ne.symm hslash]
        · exact ih (hsplit ▸ List.mem_cons_of_mem _ h)

theorem slash_not_mem_of_mem_pathParts {path part : String} (h : part ∈ pathParts path) :
    '/' ∉ part.toList := by
  obtain ⟨cs, hcs, rfl⟩ := List.mem_map.mp h
  rw [String.toList_ofList]
  exact slash_not_mem_of_mem_splitOn hcs

theorem pathParts_eq_singleton {name : String} (h : '/' ∉ name.toList) :
    pathParts name = [name] := by
  rw [pathParts, List.splitOn_eq_singleton h, List.map_singleton, String.ofList_toList]

theorem pathParts_append_slash_append (front back : String) :
    pathParts (front ++ "/" ++ back) = pathParts front ++ pathParts back := by
  have hslash : "/".toList = ['/'] := rfl
  simp only [pathParts, String.toList_append, hslash, List.append_assoc, List.singleton_append,
    List.splitOn_append_cons_self, List.map_append]

theorem pathNames_intercalate {parts : List String} (h : ∀ part ∈ parts, '/' ∉ part.toList) :
    pathNames ("/".intercalate parts) = plainParts parts := by
  induction parts with
  | nil => rfl
  | cons part parts ih =>
      have hpart := pathParts_eq_singleton (h part List.mem_cons_self)
      have hparts := ih fun other hother => h other (List.mem_cons_of_mem _ hother)
      cases parts with
      | nil => rw [String.intercalate_singleton, pathNames, hpart]
      | cons second others =>
          rw [String.intercalate_cons_cons, pathNames, pathParts_append_slash_append, hpart,
            plainParts_append]
          rw [pathNames] at hparts
          rw [hparts, ← plainParts_append, List.singleton_append]

theorem pathNames_slash_append (path : String) : pathNames ("/" ++ path) = pathNames path := by
  have hparts := pathParts_append_slash_append "" path
  rw [String.empty_append] at hparts
  rw [pathNames, hparts]
  exact plainParts_cons_of_idle rfl _

/-- A path has either one more name than the path above it, or none at all.  In that case the walk
ends there or one step later. -/
theorem parentPath?_cases (path : String) :
    (pathNames path = [] ∧ (parentPath? path = none ∨ parentPath? path = some "")) ∨
      ∃ above name, parentPath? path = some above ∧
        pathNames path = pathNames above ++ [name] := by
  have hslash : ∀ part ∈ pathParts path, '/' ∉ part.toList :=
    fun part hpart => slash_not_mem_of_mem_pathParts hpart
  unfold parentPath? pathNames
  split
  case h_1 second others hpath =>
    rw [hpath, List.forall_mem_cons] at hslash
    rw [hpath, plainParts_cons_of_idle rfl]
    obtain ⟨hnone, hnames⟩ | ⟨above, name, habove, hsub, hnames⟩ :=
      partsAbove?_cases (second :: others)
    · exact .inl ⟨hnames, .inl (by rw [hnone]; rfl)⟩
    · have hread := pathNames_intercalate fun part hpart => hslash.2 part (hsub hpart)
      refine .inr ⟨"/" ++ "/".intercalate above, name, by rw [habove]; rfl, ?_⟩
      rw [hnames, ← pathNames, pathNames_slash_append, hread]
  case h_2 others hpath =>
    rw [hpath, List.forall_mem_cons] at hslash
    rw [hpath, plainParts_cons_of_idle rfl]
    obtain ⟨hnone, hnames⟩ | ⟨above, name, habove, hsub, hnames⟩ := partsAbove?_cases others
    · exact .inl ⟨hnames, .inr (by rw [hnone])⟩
    · have hread : pathNames ("/".intercalate ("." :: above)) = plainParts ("." :: above) := by
        apply pathNames_intercalate
        rw [List.forall_mem_cons]
        exact ⟨hslash.1, fun part hpart => hslash.2 part (hsub hpart)⟩
      refine .inr ⟨"/".intercalate ("." :: above), name, by rw [habove], ?_⟩
      rw [hnames, ← pathNames, hread, plainParts_cons_of_idle rfl]
  case h_3 hroot hdot =>
    obtain ⟨hnone, hnames⟩ | ⟨above, name, habove, hsub, hnames⟩ :=
      partsAbove?_cases (pathParts path)
    · exact .inl ⟨hnames, .inl (by rw [hnone]; rfl)⟩
    · have hread := pathNames_intercalate fun part hpart => hslash part (hsub hpart)
      refine .inr ⟨"/".intercalate above, name, by rw [habove]; rfl, ?_⟩
      rw [hnames, ← pathNames, hread]

example : parentPath? "/a//b/./../" = some "/a//b" := by decide +kernel

example : parentPath? "./a" = some "." ∧ parentPath? "." = some "" ∧ parentPath? "" = none := by
  decide +kernel

theorem ancestor?_succ' (path : String) (k : ℕ) :
    ancestor? path (k + 1) = (parentPath? path).bind (ancestor? · k) := by
  induction k with
  | zero => simp [ancestor?]
  | succ k ih =>
      rw [ancestor?, ih, Option.bind_assoc]
      rfl

/-- The walk towards the top ends. -/
theorem exists_ancestor?_eq_none (path : String) : ∃ n, ancestor? path n = none := by
  obtain ⟨hnames, hnone | hempty⟩ | ⟨above, name, habove, hnames⟩ := parentPath?_cases path
  · exact ⟨1, by rw [ancestor?_succ', hnone, Option.bind_none]⟩
  · exact ⟨2, by rw [ancestor?_succ', hempty]; rfl⟩
  · have hlt : (pathNames above).length < (pathNames path).length := by simp [hnames]
    obtain ⟨n, hn⟩ := exists_ancestor?_eq_none above
    exact ⟨n + 1, by rw [ancestor?_succ', habove, Option.bind_some, hn]⟩
termination_by (pathNames path).length

theorem pathParts_joinPath (directory : String) {name : String} (hname : '/' ∉ name.toList) :
    ∃ parts, pathParts (joinPath directory name) = parts ++ [name] ∧
      plainParts parts = pathNames directory := by
  rw [joinPath]
  split
  case h_1 hempty =>
    obtain rfl : directory = "" := by simpa using hempty
    refine ⟨[], ?_, rfl⟩
    simp [pathParts_eq_singleton hname]
  case h_2 hslash =>
    obtain ⟨front, hfront⟩ := List.getLast?_eq_some_iff.mp hslash
    obtain rfl : directory = .ofList front ++ "/" ++ "" := by
      apply String.toList_injective
      simp [hfront, String.toList_append]
    refine ⟨pathParts (.ofList front), ?_, ?_⟩
    · rw [String.append_empty, pathParts_append_slash_append, pathParts_eq_singleton hname]
    · rw [pathNames, pathParts_append_slash_append, plainParts_append]
      exact (List.append_nil _).symm
  case h_3 =>
    refine ⟨pathParts directory, ?_, rfl⟩
    rw [pathParts_append_slash_append, pathParts_eq_singleton hname]

namespace FileTree

variable {tree : FileTree}

/-! ## Following a path -/

theorem get?_append (tree : FileTree) (front back : Location) :
    tree.get? (front ++ back) = (tree.get? front).bind (·.get? back) :=
  List.foldlM_append ..

theorem isSome_get?_dropLast {location : Location} (h : (tree.get? location).isSome) :
    (tree.get? location.dropLast).isSome := by
  obtain rfl | ⟨front, name, rfl⟩ := location.eq_nil_or_concat'
  · exact h
  · rw [get?_append] at h
    rw [List.dropLast_concat]
    exact Option.isSome_of_isSome_bind h

/-- A path that leads to a location from something leads to something. -/
theorem isSome_get?_of_locate {location found : Location} {parts : List String}
    (hstart : (tree.get? location).isSome) (h : tree.locate location parts = .ok found) :
    (tree.get? found).isSome := by
  fun_induction locate tree location parts with
  | case1 location =>
      obtain rfl := Except.ok.inj h
      exact hstart
  | case2 location part parts hdir hidle ih => exact ih hstart h
  | case3 location parts hdir hidle ih => exact ih (isSome_get?_dropLast hstart) h
  | case5 location part parts hdir hidle hdots hlimit below hbelow ih =>
      exact ih (by rw [hbelow]; rfl) h
  | case4 | case6 | case7 => cases h

/-- Only a directory can be passed through. -/
theorem locate_of_not_directory {location : Location} (h : ¬tree.isDirectoryAt location)
    {parts : List String} (hparts : parts ≠ []) :
    tree.locate location parts = .error .missing := by
  cases parts with
  | nil => exact absurd rfl hparts
  | cons part parts => rw [locate, if_neg h]

/-- Idle parts in front of a name make no difference. -/
theorem locate_concat {name : String} (parts : List String) (location : Location) :
    tree.locate location (parts ++ [name]) = tree.locate location (plainParts parts ++ [name]) := by
  induction parts generalizing location with
  | nil => rfl
  | cons part parts ih =>
      by_cases hidle : isIdle part
      · rw [plainParts_cons_of_idle hidle, List.cons_append, locate]
        by_cases hdir : tree.isDirectoryAt location
        · rw [if_pos hdir, if_pos (by simpa [isIdle] using hidle), ih]
        · rw [if_neg hdir, locate_of_not_directory hdir (by simp)]
      · rw [plainParts_cons_of_named hidle, List.cons_append, List.cons_append, locate, locate]
        simp only [ih]

end FileTree

end Changelog
