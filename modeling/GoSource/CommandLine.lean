import GoSource.CommandLine.FileTree
import GoSource.Listing
import GoSource.Package.Resolve

/-!
# The command line

The program reads a file and prints its tokens, its tree, or the types of its declarations.  What is wrong with
the file goes to the other channel, one line each, and makes the run fail.

Nothing here reads or prints: a run is a function of the arguments and of what is in the file.
-/

namespace GoSource.CommandLine

/-- How a run ends. -/
structure Outcome where
  /-- What was asked for. -/
  output : String := ""
  /-- What went wrong. -/
  messages : String := ""
  /-- Whether the run failed. -/
  failed : Bool := false
  /-- Whether the run broke down before its end. -/
  broken : Bool := false
  deriving DecidableEq, Repr, Inhabited

namespace Outcome

/-- The exit status of a run. -/
def status (o : Outcome) : Nat :=
  if o.broken then 101 else if o.failed then 1 else 0

/-- Reports diagnostics; any of them makes the run fail. -/
def report {κ : Type} [Describe κ] (o : Outcome) (ds : List (Diagnostic κ)) : Outcome :=
  { o with
      messages := o.messages ++ String.join (ds.map fun d => d.render ++ "\n")
      failed := o.failed || !ds.isEmpty }

/-- Reports an error of the run itself. -/
def error (o : Outcome) (message : String) : Outcome :=
  { o with messages := o.messages ++ "error: " ++ message ++ "\n", failed := true }

/-- Shows how the program is used, which makes the run fail. -/
def usage (o : Outcome) : Outcome :=
  { o with
      failed := true
      messages := o.messages ++
        "Usage: gofront <command> <file.go>\n\nCommands:\n" ++
        "  tokens   Print the token stream, with inserted semicolons\n" ++
        "  parse    Print the syntax tree\n" ++
        "  types    Resolve top-level declarations and print their types\n" }

end Outcome

/-- Prints the tokens of a text. -/
def tokens (name text : String) : Outcome :=
  let (listing, diagnostics) := tokenListing name text
  ({ output := listing } : Outcome).report diagnostics

/-- Prints the tree of a text. -/
def tree (name text : String) : Outcome :=
  let file := ParsedFile.ofString name text
  ({ output := file.render ++ "\n" } : Outcome).report file.diagnostics

/-- A declared entity as a line: position, role, name, type, and value if it has one. -/
def objectLine (file : ParsedFile) (types : TypeTable) (node : NodeId) (obj : Object) : String :=
  (file.file.position (file.tree.pos node)).render ++ "\t" ++ obj.role.label ++ "\t" ++ obj.name ++ "\t"
    ++ obj.typ.elim "-" types.spell ++ obj.value.elim "" (fun v => " = " ++ v.literal) ++ "\n"

/-- Prints the declarations of a text and their types. -/
def types (name text : String) : Outcome :=
  let file := ParsedFile.ofString name text
  let start := ({} : Outcome).report file.diagnostics
  match (Package.new (TypeTable.new .amd64)).resolveFile? file with
  | none => { start with broken := true }
  | some (.error failure, _) => start.error (describe failure)
  | some (.ok (), pkg) =>
      let lines := pkg.objects.toList.map fun (node, obj) => objectLine file pkg.types node obj
      { start with output := String.join lines }.report pkg.faults.toList

/-- Runs the program with the given arguments; `read` has the contents of files.  Arguments after the second
are ignored, and the file is read before the command is looked at. -/
def run (read : String → Except ReadFault String) : List String → Outcome
  | command :: path :: _ =>
      match read path with
      | .error fault => ({} : Outcome).error ("cannot read " ++ path ++ ": " ++ describe fault)
      | .ok text =>
          match command with
          | "tokens" => tokens path text
          | "parse" => tree path text
          | "types" => types path text
          | other => (({} : Outcome).error ("unknown command '" ++ other ++ "'")).usage
  | _ => ({} : Outcome).usage

end GoSource.CommandLine
