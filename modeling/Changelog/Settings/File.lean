import Changelog.Settings.Document
import Changelog.Text.Utf8

/-!
# Settings files

What it takes to get settings out of the octets of a file: the octets must be text, the text must
be a document of settings, and the settings must be valid.  The first of these that fails decides
the error.
-/

namespace Changelog.Settings

/-- The name of a settings file. -/
def fileName : String := "grouplog.toml"

/-- Why a file could not be read. -/
inductive ReadError
  /-- Its octets are no text. -/
  | notText
  /-- It is a directory. -/
  | isDirectory
  deriving DecidableEq, Repr

/-- The wording of a read error. -/
def ReadError.message : ReadError → String
  | .notText => "stream did not contain valid UTF-8"
  | .isDirectory => "Is a directory (os error 21)"

/-- Why there are no settings. -/
inductive LoadError
  /-- There is no file at `path`. -/
  | notFound (path : String)
  /-- The file cannot be read. -/
  | unreadable (cause : ReadError)
  /-- The text is no document of settings. -/
  | malformed
  /-- The settings are invalid. -/
  | invalid (fault : Fault)
  deriving DecidableEq, Repr

/-- The wording of a load error.  What is wrong with a malformed text is for the reader of documents
to say and left out, so this wording ends where that would begin. -/
def LoadError.message : LoadError → String
  | .notFound path => "configuration file not found: " ++ path
  | .unreadable cause => "IO error: " ++ cause.message
  | .malformed => "invalid TOML: "
  | .invalid fault => "invalid configuration: " ++ fault.message

/-- The settings of a text. -/
def ofText (text : String) : Except LoadError Settings :=
  match ofDocument? text with
  | none => .error .malformed
  | some settings => settings.validate.mapError .invalid

/-- The settings of the octets of a file. -/
def ofOctets (octets : List UInt8) : Except LoadError Settings :=
  match Text.ofUtf8? octets with
  | none => .error (.unreadable .notText)
  | some cs => ofText (.ofList cs)

end Changelog.Settings
