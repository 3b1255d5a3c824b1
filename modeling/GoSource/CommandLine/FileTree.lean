import GoSource.Diagnostic

/-!
# Files and the paths that name them

A path is read part by part, from the working directory or, after a leading slash, from the root.  Each part
is looked up in the directory reached so far, so the first part that leads nowhere decides why the file cannot
be read:

* `Entry`: a file with its bytes, or a directory with its names;
* `Place`: an entry together with the directories around it, which `..` goes back to;
* `Place.find`: the place that a path leads to;
* `Place.read`: the text of the file that a path names.
-/

namespace GoSource.CommandLine

/-- Why a file cannot be read. -/
inductive ReadFault where
  /-- A part of the path names nothing. -/
  | notFound
  /-- The path leads to a directory. -/
  | isDirectory
  /-- The path goes on after a file. -/
  | notDirectory
  /-- The path, or a part of it, is longer than names can be. -/
  | nameTooLong
  /-- The system refused, with its reason and the number of that reason. -/
  | refused (reason : String) (code : Nat)
  /-- The bytes of the file are no UTF-8. -/
  | notText
  deriving DecidableEq, Repr, Inhabited

namespace ReadFault

/-- A reason of the system with its number. -/
def systemMessage (reason : String) (code : Nat) : String :=
  reason ++ " (os error " ++ toString code ++ ")"

/-- The wording of a reason why a file cannot be read. -/
def message : ReadFault → String
  | .notFound => systemMessage "No such file or directory" 2
  | .isDirectory => systemMessage "Is a directory" 21
  | .notDirectory => systemMessage "Not a directory" 20
  | .nameTooLong => systemMessage "File name too long" 36
  | .refused reason code => systemMessage reason code
  | .notText => "stream did not contain valid UTF-8"

end ReadFault

instance : Describe ReadFault := ⟨ReadFault.message⟩

/-- The text of a file with the given bytes. -/
def decode (bytes : ByteArray) : Except ReadFault String :=
  match String.fromUTF8? bytes with
  | some text => .ok text
  | none => .error .notText

/-! ### Directories -/

/-- What a name in a directory stands for. -/
inductive Entry where
  /-- A file with its bytes. -/
  | file (content : ByteArray)
  /-- A directory with the names in it. -/
  | directory (entries : List (String × Entry))
  deriving Inhabited

/-- The most bytes that a name in a directory can have. -/
def nameLimit : Nat := 255

/-- The number of bytes at which a path is too long. -/
def pathLimit : Nat := 4096

/-- The entry of a name among those of a directory. -/
def Entry.lookup (entries : List (String × Entry)) (name : String) : Except ReadFault Entry :=
  if nameLimit < name.utf8ByteSize then .error .nameTooLong
  else
    match List.lookup name entries with
    | some entry => .ok entry
    | none => .error .notFound

/-- What every root directory has: the devices, of which one is an empty file, and room for what is not kept. -/
def Entry.root : Entry :=
  .directory [("dev", .directory [("null", .file .empty)]), ("tmp", .directory [])]

/-! ### Paths -/

/-- The parts of a path between its slashes. -/
def pathParts : List Char → List (List Char)
  | [] => [[]]
  | c :: rest =>
      if c = '/' then [] :: pathParts rest
      else
        match pathParts rest with
        | [] => [[c]]
        | part :: more => (c :: part) :: more

/-- A part that stays in the directory where it is met. -/
def staysPut (part : String) : Bool :=
  part = "" || part = "."

/-- A directory with nothing in it but a file of the given path. -/
def Entry.holding (path : String) (content : ByteArray) : Entry :=
  let names := ((pathParts path.toList).map String.ofList).filter (!staysPut ·)
  names.foldr (fun name entry => .directory [(name, entry)]) (.file content)

/-- An entry and the directories around it, the nearest first. -/
structure Place where
  /-- What stands here. -/
  entry : Entry
  /-- The directories around it. -/
  around : List Entry := [.root]
  deriving Inhabited

namespace Place

/-- The outermost directory. -/
def root (p : Place) : Place :=
  match p.around.getLast? with
  | some entry => { entry, around := [] }
  | none => p

/-- The directory around a place; the root is its own. -/
def parent (p : Place) : Place :=
  match p.around with
  | entry :: around => { entry, around }
  | [] => p

/-- Follows one part of a path.  Nothing follows a file, not even an empty part. -/
def step (p : Place) (part : String) : Except ReadFault Place :=
  match p.entry with
  | .file _ => .error .notDirectory
  | .directory entries =>
      if staysPut part then .ok p
      else if part = ".." then .ok p.parent
      else (Entry.lookup entries part).map fun entry => { entry, around := p.entry :: p.around }

/-- The place that a path leads to. -/
def find (here : Place) (path : String) : Except ReadFault Place :=
  if path = "" then .error .notFound
  else if pathLimit ≤ path.utf8ByteSize then .error .nameTooLong
  else
    let start := if path.toList.head? = some '/' then here.root else here
    ((pathParts path.toList).map String.ofList).foldlM step start

/-- The text of the file that a path names. -/
def read (here : Place) (path : String) : Except ReadFault String :=
  match here.find path with
  | .error fault => .error fault
  | .ok { entry := .file content, .. } => decode content
  | .ok { entry := .directory _, .. } => .error .isDirectory

end Place

end GoSource.CommandLine
