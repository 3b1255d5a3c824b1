import GoSource.CommandLine

/-!
# The program

Reads the file that the arguments name, and prints what `CommandLine.run` answers.
-/

namespace GoSource.CommandLine

/-- The reason why the system refused to read a file. -/
def readFault : IO.Error → ReadFault
  | .noFileOrDirectory .. => .notFound
  | .inappropriateType _ 21 _ => .isDirectory
  | .inappropriateType .. => .notDirectory
  | .invalidArgument .. => .nameTooLong
  | .permissionDenied .. => .refused "Permission denied" 13
  | failure => .refused (toString failure) 5

/-- The contents of a file. -/
def readSource (path : String) : IO (Except ReadFault String) := do
  try
    return decode (← IO.FS.readBinFile path)
  catch failure =>
    return .error (readFault failure)

end GoSource.CommandLine

open GoSource

/-- The program. -/
def main (args : List String) : IO UInt32 := do
  let content ←
    match args[1]? with
    | some path => CommandLine.readSource path
    | none => pure (.error .notFound)
  let outcome := CommandLine.run (fun _ => content) args
  IO.print outcome.output
  IO.eprint outcome.messages
  return outcome.status.toUInt32
