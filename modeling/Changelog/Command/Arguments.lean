/-!
# Arguments of the command

The command takes at most two revisions and no options but those for its help and its version.
Arguments are read in order, and the first one that settles the matter decides: a request for help
or version, or a mistake.  After two hyphens every argument is a revision; a single hyphen always
is one.
-/

namespace Changelog.Command

/-- What the command is asked to do. -/
inductive Request
  /-- Explain the command. -/
  | help
  /-- Name the version. -/
  | version
  /-- Write the changelog of a range. -/
  | changelog (base? tip? : Option String)
  deriving DecidableEq, Repr

/-- Arguments that cannot be understood. -/
inductive UsageError
  /-- An option that does not exist. -/
  | unknownOption (argument : String)
  /-- More than two revisions. -/
  | surplusRevision (argument : String)
  deriving DecidableEq, Repr

/-- The request for the revisions given. -/
def Request.ofRevisions : List String → Except UsageError Request
  | [] => .ok (changelog none none)
  | [base] => .ok (changelog (some base) none)
  | [base, tip] => .ok (changelog (some base) (some tip))
  | _ :: _ :: surplus :: _ => .error (.surplusRevision surplus)

/-- What an argument that begins with a hyphen asks for.  Short options may share one hyphen, and
the first of them decides. -/
def Request.ofOption (argument : String) : Except UsageError Request :=
  if argument = "--help" then .ok help
  else if argument = "--version" then .ok version
  else
    match argument.toList with
    | '-' :: 'h' :: _ => .ok help
    | '-' :: 'V' :: _ => .ok version
    | _ => .error (.unknownOption argument)

/-- Whether an argument is an option and no revision. -/
def isOption (argument : String) : Bool :=
  argument != "-" && argument.toList.head? == some '-'

/-- Read arguments after the revisions already read. -/
def readArguments (revisions : List String) : List String → Except UsageError Request
  | [] => Request.ofRevisions revisions
  | argument :: arguments =>
    if argument = "--" then Request.ofRevisions (revisions ++ arguments)
    else if isOption argument then Request.ofOption argument
    else if 2 ≤ revisions.length then .error (.surplusRevision argument)
    else readArguments (revisions ++ [argument]) arguments

/-- The request that arguments make. -/
def Request.ofArguments (arguments : List String) : Except UsageError Request :=
  readArguments [] arguments

end Changelog.Command
