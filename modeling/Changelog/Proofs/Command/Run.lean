import Changelog.Command.Run
import Changelog.Proofs.Command.Arguments
import Changelog.Proofs.Repository.Log
import Changelog.Proofs.Section.Lines
import Changelog.Proofs.Settings.Valid
import Changelog.Proofs.Storage.Wrap

/-!
# What a run of the command leaves behind

A run for a range finds settings, makes a table of them, finds a repository, and generates the
changelog of the range.  It succeeds exactly if each step does, and the first step that fails
decides the report.  Making the table never is this step, since settings that were found are valid.

What a successful run prints tells three kinds of log apart.  A log without entries has no changelog
and nothing is printed; a log without a single change has an empty one and a line feed is printed;
any other changelog has text.
-/

namespace Changelog.Command

/-- The step of a run that a failure belongs to. -/
inductive Stage
  | configuration
  | repository
  | changelog
  deriving DecidableEq, Repr

namespace Failure

/-- The step that fails. -/
def stage : Failure → Stage
  | settings _ => .configuration
  | headings _ => .configuration
  | repository _ => .repository
  | log _ _ => .changelog

/-- The letter that tells the stage: the eighteenth character of a report. -/
def letter : Failure → Char
  | settings _ => 'l'
  | headings _ => 'p'
  | repository _ => 'o'
  | log _ _ => 'g'

theorem context_toList_getElem? (failure : Failure) :
    failure.context.toList[10]? = some failure.letter := by
  cases failure with
  | settings cause =>
      change "failed to load configuration".toList[10]? = some 'l'
      decide
  | headings cause =>
      change "invalid type labels".toList[10]? = some 'p'
      decide
  | repository cause =>
      change "failed to open git repository".toList[10]? = some 'o'
      decide
  | log range cause =>
      change ("failed to generate changelog for " ++ range.toString).toList[10]? = some 'g'
      rw [String.toList_append, List.getElem?_append_left (by decide)]
      decide

theorem exists_report_toList (failure : Failure) :
    ∃ rest, failure.report.toList = "Error: ".toList ++ (failure.context.toList ++ rest) := by
  unfold report
  simp only [String.toList_append, List.append_assoc]
  exact ⟨_, rfl⟩

theorem report_toList_getElem? (failure : Failure) :
    failure.report.toList[17]? = some failure.letter := by
  obtain ⟨rest, hreport⟩ := failure.exists_report_toList
  have hcontext := failure.context_toList_getElem?
  obtain ⟨hlength, -⟩ := List.getElem?_eq_some_iff.mp hcontext
  have hmark : "Error: ".toList.length = 7 := by decide
  rw [hreport, List.getElem?_append_right (by omega), hmark, List.getElem?_append_left hlength,
    hcontext]

/-- A report tells at which step a run failed. -/
theorem stage_eq_of_report_eq {failure other : Failure} (h : other.report = failure.report) :
    other.stage = failure.stage := by
  have hletter : other.letter = failure.letter := by
    apply Option.some.inj
    rw [← report_toList_getElem?, h, report_toList_getElem?]
  cases failure <;> cases other <;> simp_all [stage, letter]

end Failure

variable {tree : FileTree} {here : Location} {range : Range}

/-- What a run finds for its working directory: the settings, the table they give, and the
repository. -/
structure Findings (tree : FileTree) (here : Location) where
  /-- The settings, if there are any. -/
  settings? : Option Settings
  /-- The table of the settings, or of the default ones. -/
  table : HeadingTable
  /-- Where the repository is. -/
  found : RepositoryAt
  findSettings_eq : tree.findSettings here = .ok settings?
  ofSettings_eq : HeadingTable.ofSettings (settings?.getD {}) = .ok table
  discoverRepository_eq : tree.discoverRepository here "." = .ok found

/-- The changelog of a range by what was found. -/
def Findings.generate (findings : Findings tree here) (range : Range) :
    Except LogError (Option String) :=
  findings.table.generate (tree.repository findings.found) range

theorem Findings.generate_of_log
    (findings : Findings tree here) {entries : List LogEntry}
    (h : (tree.repository findings.found).log range = .ok entries) :
    findings.generate range = .ok (findings.table.document? entries) :=
  Steps.map_eq_ok_iff.mpr ⟨entries, h, rfl⟩

/-- The failure of the first step that fails. -/
inductive FirstFailure (tree : FileTree) (here : Location) (range : Range) : Failure → Prop
  | settings {cause : Settings.LoadError} (h : tree.findSettings here = .error cause) :
      FirstFailure tree here range (.settings cause)
  | repository {settings? : Option Settings} {cause : NotARepository}
      (hsettings : tree.findSettings here = .ok settings?)
      (h : tree.discoverRepository here "." = .error cause) :
      FirstFailure tree here range (.repository cause)
  | log {cause : LogError} (findings : Findings tree here)
      (h : findings.generate range = .error cause) :
      FirstFailure tree here range (.log range cause)

/-- A run gets a changelog, or finds that there is none, exactly if each step succeeds. -/
theorem changelog_eq_ok_iff {text? : Option String} :
    changelog tree here range = .ok text? ↔
      ∃ findings : Findings tree here, findings.generate range = .ok text? := by
  simp only [changelog, Steps.bind_eq_ok_iff, Steps.mapError_eq_ok_iff]
  constructor
  · rintro ⟨settings?, hsettings, table, htable, found, hfound, h⟩
    exact ⟨⟨settings?, table, found, hsettings, htable, hfound⟩, h⟩
  · rintro ⟨⟨settings?, table, found, hsettings, htable, hfound⟩, h⟩
    exact ⟨settings?, hsettings, table, htable, found, hfound, h⟩

/-- A run fails with the failure of the first step that fails. -/
theorem changelog_eq_error_iff {failure : Failure} :
    changelog tree here range = .error failure ↔ FirstFailure tree here range failure := by
  simp only [changelog, Steps.bind_eq_error_iff, Steps.mapError_eq_ok_iff,
    Steps.mapError_eq_error_iff]
  constructor
  · rintro (⟨cause, h, rfl⟩ | ⟨settings?, hsettings, ⟨cause, h, rfl⟩ | ⟨table, htable, h⟩⟩)
    · exact FirstFailure.settings h
    · obtain ⟨table, htable⟩ := FileTree.exists_table_of_findSettings hsettings
      rw [htable] at h
      cases h
    · obtain ⟨cause, h, rfl⟩ | ⟨found, hfound, cause, h, rfl⟩ := h
      · exact FirstFailure.repository hsettings h
      · exact FirstFailure.log ⟨settings?, table, found, hsettings, htable, hfound⟩ h
  · rintro (⟨h⟩ | ⟨hsettings, h⟩ | ⟨findings, h⟩)
    · exact Or.inl ⟨_, h, rfl⟩
    · obtain ⟨table, htable⟩ := FileTree.exists_table_of_findSettings hsettings
      exact Or.inr ⟨_, hsettings, Or.inr ⟨table, htable, Or.inl ⟨_, h, rfl⟩⟩⟩
    · exact Or.inr ⟨_, findings.findSettings_eq, Or.inr ⟨_, findings.ofSettings_eq,
        Or.inr ⟨_, findings.discoverRepository_eq, _, h, rfl⟩⟩⟩

/-- Only one failure comes first. -/
theorem FirstFailure.unique {failure other : Failure}
    (h : FirstFailure tree here range failure) (hother : FirstFailure tree here range other) :
    failure = other := by
  rw [← changelog_eq_error_iff] at h hother
  rw [h] at hother
  exact Except.error.inj hother

/-- What a success prints: the changelog and a line feed, if there is a changelog. -/
def printed (text? : Option String) : String := text?.elim "" (· ++ "\n")

theorem printed_eq_empty_iff {text? : Option String} : printed text? = "" ↔ text? = none := by
  cases text? <;> simp [printed]

theorem printed_eq_lineFeed_iff {text? : Option String} :
    printed text? = "\n" ↔ text? = some "" := by
  constructor
  · intro h
    cases text? with
    | none => simp [printed] at h
    | some text =>
        have hchars := congrArg String.toList h
        simpa [printed, String.toList_append] using hchars
  · rintro rfl
    rfl

section
variable {base? tip? : Option String}

theorem carryOut_of_ok {text? : Option String}
    (h : changelog tree here (.ofEnds base? tip?) = .ok text?) :
    carryOut tree here (.changelog base? tip?) = ⟨0, printed text?, ""⟩ := by
  rw [carryOut, h]
  cases text? <;> rfl

theorem carryOut_of_error {failure : Failure}
    (h : changelog tree here (.ofEnds base? tip?) = .error failure) :
    carryOut tree here (.changelog base? tip?) = ⟨1, "", failure.report⟩ := by
  rw [carryOut, h]

theorem code_carryOut_eq_zero_iff :
    (carryOut tree here (.changelog base? tip?)).code = 0 ↔
      ∃ text?, changelog tree here (.ofEnds base? tip?) = .ok text? := by
  cases hresult : changelog tree here (.ofEnds base? tip?) with
  | ok text? => simp [carryOut_of_ok hresult]
  | error failure => simp [carryOut_of_error hresult]

end

theorem run_of_gives {arguments revisions : List String}
    (hgives : Gives arguments revisions) (hlength : revisions.length ≤ 2) :
    run tree here arguments = carryOut tree here (.changelog revisions[0]? revisions[1]?) := by
  have hrequest := Request.ofArguments_eq_changelog_iff.mpr ⟨_, hgives, hlength, rfl, rfl⟩
  rw [run, hrequest]

/-- Arguments that give at most two revisions run the steps for the range of these revisions.  The
exit code is zero exactly if all steps succeed, and a table can always be made of the settings that
were found.  What a success prints is the changelog and a line feed, and nothing if the range has no
entries; it is the line feed alone exactly if there are entries and none has a conventional header.
Otherwise the exit code is one, nothing is printed, and the report is that of the first step that
fails; no failure of another step has the same report. -/
theorem run_refines_generate
    (tree : FileTree) (here : Location) {arguments revisions : List String}
    (hgives : Gives arguments revisions) (hlength : revisions.length ≤ 2) :
    let range := Range.ofEnds revisions[0]? revisions[1]?
    let outcome := run tree here arguments
    (∀ settings?, tree.findSettings here = .ok settings? →
        ∃ table, HeadingTable.ofSettings (settings?.getD {}) = .ok table) ∧
      (outcome.code = 0 ↔
        ∃ (findings : Findings tree here) (text? : Option String),
          findings.generate range = .ok text?) ∧
      (∀ (findings : Findings tree here) (entries : List LogEntry),
        (tree.repository findings.found).log range = .ok entries →
          (outcome.stdout = "" ↔ entries = []) ∧
          (outcome.stdout = "\n" ↔
            entries ≠ [] ∧ ∀ entry ∈ entries, entry.isConventional = false) ∧
          (entries ≠ [] → ∃ text, findings.generate range = .ok (some text) ∧
            outcome.stdout = text ++ "\n")) ∧
      (outcome.code ≠ 0 → ∃ failure, FirstFailure tree here range failure ∧
        outcome = ⟨1, "", failure.report⟩ ∧
        ∀ other : Failure, other.report = outcome.stderr → other.stage = failure.stage) := by
  intro range outcome
  have hrun : outcome = carryOut tree here (.changelog revisions[0]? revisions[1]?) :=
    run_of_gives hgives hlength
  rw [hrun]
  refine ⟨fun settings? => FileTree.exists_table_of_findSettings, ?_, ?_, ?_⟩
  · rw [code_carryOut_eq_zero_iff]
    simp only [changelog_eq_ok_iff]
    exact exists_comm
  · intro findings entries hlog
    have hgenerate := findings.generate_of_log hlog
    rw [carryOut_of_ok (changelog_eq_ok_iff.mpr ⟨findings, hgenerate⟩)]
    refine ⟨?_, ?_, fun hentries => ?_⟩
    · rw [printed_eq_empty_iff]
      simp [HeadingTable.document?]
    · rw [printed_eq_lineFeed_iff, HeadingTable.document?_eq_some_empty_iff]
    · have hsome := (findings.table.document?_isSome_iff entries).mpr hentries
      obtain ⟨text, htext⟩ := Option.isSome_iff_exists.mp hsome
      rw [htext] at hgenerate ⊢
      exact ⟨text, hgenerate, rfl⟩
  · intro hcode
    cases hresult : changelog tree here range with
    | ok text? => exact absurd (code_carryOut_eq_zero_iff.mpr ⟨text?, hresult⟩) hcode
    | error failure =>
        rw [carryOut_of_error hresult]
        refine ⟨failure, changelog_eq_error_iff.mp hresult, rfl, ?_⟩
        intro other hreport
        exact Failure.stage_eq_of_report_eq hreport

/-- A new repository, whose head is at a branch without commits. -/
def unborn : FileTree :=
  .directory [(".git", .directory [
    ("HEAD", .file ⟨⟨(Reference.symbolic "refs/heads/master").octets⟩⟩),
    ("objects", .empty), ("refs", .empty)])]

/-- A directory in no repository, with something else in the place of its settings. -/
def unsettled : FileTree := .directory [(Settings.fileName, .empty)]

theorem log_unborn :
    (unborn.repository ⟨[".git"], [".git"], []⟩).log (.ofEnds none none) = .ok [] := by
  have hhead : (unborn.repository ⟨[".git"], [".git"], []⟩).reference Repository.headName =
      .ok (.symbolic "refs/heads/master") := by
    cbv
  have hbranch :
      (unborn.repository ⟨[".git"], [".git"], []⟩).initialBranch = "refs/heads/master" := by
    cbv
  have hreferences : (unborn.repository ⟨[".git"], [".git"], []⟩).hasReferences = false := by
    cbv
  have hpossible : ReferenceName.isBranch "refs/heads/master" = true := by decide +kernel
  have hempty : (unborn.repository ⟨[".git"], [".git"], []⟩).isEmpty = .ok true := by
    rw [Repository.isEmpty, hhead, hbranch, hreferences, hpossible]
    rfl
  have hanswered : (unborn.repository ⟨[".git"], [".git"], []⟩).isAnsweredEmpty
      (.ofEnds none none) = .ok true := by
    rw [Repository.isAnsweredEmpty, hempty]
    rfl
  rw [Repository.log, hanswered]
  rfl

/-- The identifier of a commit. -/
def firstId : ObjectId := .ofDigest ⟨0xe6800f76, 0x1507fa5f, 0xcfed6553, 0x1f89edba, 0x86a01b72⟩

/-- The commit as it is stored. -/
def firstOctets : List UInt8 :=
  ["tree 4b825dc642cb6eb9a060e54bf8d69288fbee4904", "author A <a@example.com> 5 +0000",
    "committer C <c@example.com> 5 +0000", "", "fix(ui): a", "", "closes #7"].flatMap fun line =>
      Text.toUtf8 line.toList ++ [Text.lineFeed]

/-- The commit as it is read. -/
def firstCommit : Commit where
  parents := []
  time := 5
  encoding? := none
  message := Text.toUtf8 "fix(ui): a\n\ncloses #7\n".toList

/-- The log of this commit. -/
def firstLog : List LogEntry :=
  [⟨"e6800f761507fa5fcfed65531f89edba86a01b72", "fix(ui): a", "closes #7"⟩]

/-- The directory that holds the commit. -/
def firstObjects : FileTree :=
  .directory [("e6", .directory [("800f761507fa5fcfed65531f89edba86a01b72",
    .file (Storage.objectFile .commit firstOctets))])]

/-- The home of a repository with its head at the commit. -/
def begunHome : FileTree :=
  .directory [("HEAD", Repository.referenceFile (.direct firstId)), ("objects", firstObjects),
    ("refs", .empty)]

/-- A repository whose only commit has a conventional header. -/
def begun : FileTree := .directory [(".git", begunHome)]

/-- What this repository holds. -/
def begunRepository : Repository where
  files := Storage.referenceFiles begunHome begunHome
  objects := [(firstId, .commit firstCommit)]

theorem looseObjects_firstObjects :
    Storage.looseObjects (some firstObjects) = [(firstId, .commit firstCommit)] := by
  have hpreamble : Storage.preamble?
      (ObjectKind.commit.preamble firstOctets.length ++ firstOctets).toByteArray =
        some (.commit, firstOctets.length, (ObjectKind.commit.preamble firstOctets.length).length) := by
    cbv
  have hread : Object.ofOctets .commit firstOctets = .commit firstCommit := by decide +kernel
  have hid : ObjectId.ofChars? ("e6" ++ "800f761507fa5fcfed65531f89edba86a01b72").toList =
      some firstId := by
    rw [String.toList_append]
    decide +kernel
  refine Storage.looseObjects_singleton hid ?_
  rw [Storage.objectOfFile?_objectFile (by decide +kernel) hpreamble, hread]

theorem repository_begun : begun.repository ⟨[".git"], [".git"], []⟩ = begunRepository := by
  have hentry : begunHome.entry? Storage.objectsName = some firstObjects := rfl
  change Storage.repositoryOf begunHome begunHome = _
  rw [Storage.repositoryOf, hentry, looseObjects_firstObjects]
  rfl

theorem log_begun :
    (begun.repository ⟨[".git"], [".git"], []⟩).log (.ofEnds none none) = .ok firstLog := by
  have hempty : begunRepository.isEmpty = .ok false :=
    Steps.eq_ok_of_toOption (by decide +kernel)
  have hresolves : begunRepository.Resolves (.ofEnds none none) none firstId :=
    ⟨by decide +kernel, rfl⟩
  have hhistory : begunRepository.history = ⟨[(firstId, ⟨5, []⟩)]⟩ := rfl
  have hbetween : begunRepository.history.between none firstId = .ok [firstId] := by
    rw [hhistory]
    cbv
  have hentries : [firstId].mapM begunRepository.entry = .ok firstLog :=
    Steps.eq_ok_of_toOption (by decide +kernel)
  rw [repository_begun, Repository.log,
    Repository.isAnsweredEmpty_eq_ok_false_iff.mpr fun _ => hempty,
    Repository.commitsOf_eq hresolves, hbetween]
  exact hentries

/-- Without arguments a run in the new repository succeeds and prints nothing, and a run in the other
one prints the only change.  Where neither the settings can be read nor a repository is found, the
settings are reported; the second revision looks like an option here. -/
theorem run_refines_generate_unborn :
    (run unborn [] []).code = 0 ∧ (run unborn [] []).stdout = "" ∧
      (run begun [] []).code = 0 ∧
      (run begun [] []).stdout =
        "\n### Bug fixes\n\n- **ui**: a [e6800f761507fa5fcfed65531f89edba86a01b72, #7]\n" ∧
      run unsettled [] ["v1", "--", "-x"] =
        ⟨1, "", (Failure.settings (.unreadable .isDirectory)).report⟩ := by
  have hgives : Gives ["v1", "--", "-x"] ["v1", "-x"] := Gives.revision (by decide) (Gives.rest _)
  obtain ⟨htable, hcode, hstdout, -⟩ := run_refines_generate unborn [] Gives.nil (by decide)
  obtain ⟨-, hcode', hstdout', -⟩ := run_refines_generate begun [] Gives.nil (by decide)
  obtain ⟨-, hcode'', -, hfailure⟩ := run_refines_generate unsettled [] hgives (by decide)
  have hsettings : unborn.findSettings [] = .ok none := rfl
  obtain ⟨table, htable⟩ := htable none hsettings
  let findings : Findings unborn [] := ⟨none, table, _, hsettings, htable, rfl⟩
  let findings' : Findings begun [] := ⟨none, .builtin, _, rfl, rfl, rfl⟩
  have hgenerate := findings'.generate_of_log log_begun
  refine ⟨hcode.mpr ⟨findings, _, findings.generate_of_log log_unborn⟩, ?_,
    hcode'.mpr ⟨findings', _, hgenerate⟩, ?_, ?_⟩
  · exact (hstdout findings [] log_unborn).1.mpr rfl
  · obtain ⟨-, -, hprints⟩ := hstdout' findings' firstLog log_begun
    obtain ⟨text, htext, hprinted⟩ := hprints (List.cons_ne_nil _ _)
    have hdocument : HeadingTable.builtin.document? firstLog = some
        "\n### Bug fixes\n\n- **ui**: a [e6800f761507fa5fcfed65531f89edba86a01b72, #7]" := by
      decide +kernel
    obtain rfl := Option.some.inj (hdocument.symm.trans (Except.ok.inj (hgenerate.symm.trans htext)))
    rw [hprinted]
    decide
  · have hunreadable : unsettled.findSettings [] = .error (.unreadable .isDirectory) := rfl
    have hfails : (run unsettled [] ["v1", "--", "-x"]).code ≠ 0 := by
      rw [Ne, hcode'']
      rintro ⟨findings, -, -⟩
      cases hunreadable.symm.trans findings.findSettings_eq
    obtain ⟨failure, hfirst, houtcome, -⟩ := hfailure hfails
    rw [houtcome, hfirst.unique (FirstFailure.settings hunreadable)]

end Changelog.Command
