import Changelog.Document
import Changelog.Repository.Log

/-!
# The changelog of a range

From a repository and a range to the text of a changelog.
-/

namespace Changelog.HeadingTable

/-- The changelog of a range.  There is none when the range has no commits. -/
def generate (table : HeadingTable) (repository : Repository) (range : Range) :
    Except LogError (Option String) :=
  (repository.log range).map table.document?

end Changelog.HeadingTable
