import Changelog.Command.Arguments
import Changelog.FileTree.Repositories
import Changelog.FileTree.Settings
import Changelog.Generate

/-!
# Running the command

The command writes the changelog of a range to its standard output.  It finds the settings for its
working directory, then the repository that the directory is in, then the commits of the range, and
the first of these steps that fails decides the report on standard error.  Nothing is written to
standard output unless all of them succeed.
-/

namespace Changelog.Command

/-- What running the command leaves behind. -/
structure Outcome where
  /-- The exit code. -/
  code : Nat
  /-- The text on standard output. -/
  stdout : String
  /-- The text on standard error. -/
  stderr : String
  deriving DecidableEq, Repr

/-- Why there is no changelog. -/
inductive Failure
  /-- The settings cannot be loaded. -/
  | settings (cause : Settings.LoadError)
  /-- The settings give no table of headings. -/
  | headings (cause : Settings.Fault)
  /-- There is no repository. -/
  | repository (cause : NotARepository)
  /-- The range has no log. -/
  | log (range : Range) (cause : LogError)

namespace Failure

/-- What was being done. -/
def context : Failure → String
  | settings _ => "failed to load configuration"
  | headings _ => "invalid type labels"
  | repository _ => "failed to open git repository"
  | log range _ => "failed to generate changelog for " ++ range.toString

/-- What went wrong, from the outermost cause to the innermost. -/
def causes : Failure → List String
  | settings (.unreadable cause) =>
    [(Settings.LoadError.unreadable cause).message, cause.message]
  | settings cause => [cause.message]
  | headings cause =>
    ["config error: " ++ (Settings.LoadError.invalid cause).message,
      (Settings.LoadError.invalid cause).message]
  | repository cause => [cause.message]
  | log _ (.revisionNotFound revision) =>
    let message := (LogError.revisionNotFound revision).message
    ["git error: " ++ message, message]
  | log _ (.store cause) =>
    let message := (LogError.store cause).message
    ["git error: " ++ message, message, cause.message]

end Failure

/-- A text with each line but the first moved to the right. -/
def indentLines (indentation text : String) : String :=
  .ofList (text.toList.flatMap fun c => if c = '\n' then '\n' :: indentation.toList else [c])

/-- The lines of the causes.  A single cause has no number. -/
def causeLines : List String → List String
  | [cause] => ["    " ++ indentLines "    " cause]
  | causes => causes.zipIdx.map fun (cause, i) =>
    "    " ++ toString i ++ ": " ++ indentLines "       " cause

/-- What a report says about the causes.  For a malformed text it is only the beginning, as what
the reader of documents says is left out: the rest of the first cause, and the second one, which
repeats it. -/
def Failure.causeText : Failure → String
  | settings .malformed => "    0: " ++ Settings.LoadError.malformed.message
  | failure => String.join ((causeLines failure.causes).map (· ++ "\n"))

/-- The report of a failure. -/
def Failure.report (failure : Failure) : String :=
  "Error: " ++ failure.context ++ "\n\nCaused by:\n" ++ failure.causeText

/-- The text that names the version. -/
def versionText : String := "grouplog 0.1.0\n"

/-- The text that explains the command. -/
def helpText : String :=
  "Generate a grouped markdown changelog from conventional commits\n\n" ++
  "Usage: grouplog [FROM] [TO]\n\n" ++
  "Arguments:\n" ++
  "  [FROM]  Revision to start after (tag, branch or commit); excluded\n" ++
  "  [TO]    Revision to stop at (defaults to HEAD); included\n\n" ++
  "Options:\n" ++
  "  -h, --help     Print help\n" ++
  "  -V, --version  Print version\n"

/-- The report of a usage error. -/
def UsageError.report : UsageError → String
  | unknownOption argument => usage argument
  | surplusRevision argument => usage argument
where
  /-- The report that an argument is not expected. -/
  usage (argument : String) : String :=
    "error: unexpected argument '" ++ argument ++ "' found\n\n" ++
    "Usage: grouplog [FROM] [TO]\n\nFor more information, try '--help'.\n"

/-- The changelog of a range for a working directory. -/
def changelog (tree : FileTree) (here : Location) (range : Range) :
    Except Failure (Option String) := do
  let settings? ← (tree.findSettings here).mapError .settings
  let table ← (HeadingTable.ofSettings (settings?.getD {})).mapError .headings
  let found ← (tree.discoverRepository here ".").mapError .repository
  (table.generate (tree.repository found) range).mapError (.log range)

/-- Carry out a request in a working directory. -/
def carryOut (tree : FileTree) (here : Location) : Request → Outcome
  | .help => ⟨0, helpText, ""⟩
  | .version => ⟨0, versionText, ""⟩
  | .changelog base? tip? =>
    match changelog tree here (.ofEnds base? tip?) with
    | .ok (some text) => ⟨0, text ++ "\n", ""⟩
    | .ok none => ⟨0, "", ""⟩
    | .error failure => ⟨1, "", failure.report⟩

/-- Run the command with its arguments in a working directory. -/
def run (tree : FileTree) (here : Location) (arguments : List String) : Outcome :=
  match Request.ofArguments arguments with
  | .ok request => carryOut tree here request
  | .error e => ⟨2, "", e.report⟩

end Changelog.Command
