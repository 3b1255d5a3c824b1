/-!
# Paths

A package path is a sequence of segments separated by slashes; its last segment stands for it in short names.
-/

namespace GoSource.Text

/-- What follows the last slash of a path, or the whole path if it has none. -/
def lastSegment (path : String) : String :=
  String.ofList (path.toList.reverse.takeWhile (· != '/')).reverse

end GoSource.Text
