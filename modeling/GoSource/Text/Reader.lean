import GoSource.Diagnostic
import GoSource.Text.Rune

/-!
# Reading runes

A `Reader` hands out the runes of one file after another, enters the starts of lines into the file's line
table and reports bytes that start no character.

* `Reader.init` binds a file and its bytes; `Reader.rewind` starts the same file over.
* `Reader.next` gives the start mark once, then one rune a call, then the end mark for ever; when the
  journal is closed it gives a mark of its own instead of runes.
* `Reader.unread` puts a reading back.
* `Reader.readText` reads a file to its end, without a byte order mark in front.
-/

namespace GoSource

/-- What a reader hands out. -/
inductive Reading where
  /-- The start of the file. -/
  | start
  /-- The next rune. -/
  | rune (r : Rune)
  /-- The journal is closed, reading has stopped. -/
  | stopped
  /-- The end of the file. -/
  | finish
  deriving DecidableEq, Repr, Inhabited

/-- The character that a reading carries. -/
def Reading.char? : Reading → Option Char
  | .rune r => some r.char
  | _ => none

/-- The bytes that a source delivers, and the reason why it delivers no more if it broke off. -/
structure ByteSource where
  /-- All bytes delivered. -/
  bytes : ByteArray := ByteArray.empty
  /-- Why the source broke off, if it did. -/
  failure : Option String := none
  deriving Inhabited

/-- A reading that was put back, with its extent. -/
structure PutBack where
  /-- The reading. -/
  reading : Reading
  /-- Where it starts. -/
  offset : Nat
  /-- Where it ends. -/
  stop : Nat
  deriving DecidableEq, Repr, Inhabited

/-- The state of reading a file. -/
structure Reader where
  /-- The file and its line table. -/
  file : SourceFile := {}
  /-- The bytes of the file. -/
  bytes : ByteArray := ByteArray.empty
  /-- The first byte not yet read. -/
  cursor : Nat := 0
  /-- Where the last reading starts. -/
  offset : Nat := 0
  /-- Where the last reading ends. -/
  stop : Nat := 0
  /-- Whether the start mark was handed out. -/
  started : Bool := false
  /-- The reading that comes next, if one was put back. -/
  putBack : Option PutBack := none
  /-- What was reported, for this file and earlier ones. -/
  journal : Journal := {}
  deriving Inhabited

namespace Reader

/-- Adds a cause to the journal. -/
def report (r : Reader) (pos : Pos) (cause : SourceFault) : Reader :=
  { r with journal := r.journal.report (.make r.file pos cause) }

/-- Back to the first byte. -/
def toStart (r : Reader) : Reader :=
  { r with cursor := 0, offset := 0, stop := 0, started := false, putBack := none }

/-- Binds a file and its bytes.  Earlier diagnostics stay.  A source that broke off is reported just past
its last byte, budget or not. -/
def init (r : Reader) (file : SourceFile) (source : ByteSource) : Reader :=
  let size := source.bytes.size
  let entries :=
    match source.failure with
    | some reason =>
        r.journal.entries.push (.make file (file.pos size) (.unreadable reason))
    | none => r.journal.entries
  { r.toStart with
      file := file.setSize size
      bytes := source.bytes
      journal := { r.journal with entries }.openFile }

/-- Starts the bound file over and takes back what was reported about it since it was bound. -/
def rewind (r : Reader) : Reader :=
  { r.toStart with file := r.file.resetLines, journal := r.journal.rewind }

/-- Sets the number of diagnostics after which reading stops; 0 means never. -/
def setBudget (r : Reader) (budget : Nat) : Reader :=
  { r with journal := { r.journal with budget } }

/-- Puts a reading back: the next call returns it again with its extent. -/
def unread (r : Reader) (reading : Reading) : Reader :=
  { r with putBack := some { reading, offset := r.offset, stop := r.stop } }

/-- Reads the rune at the cursor. -/
def take (r : Reader) : Rune × Reader :=
  let rune := Rune.decodeAt r.bytes r.cursor
  let stop := r.cursor + rune.width
  let read := { r with offset := r.cursor, stop, cursor := stop }
  match rune with
  | .malformed => (rune, read.report (r.file.pos r.cursor) (.lexical .invalidUtf8))
  | .scalar c =>
      if c = '\n' then (rune, { read with file := r.file.addLine (r.file.base + stop) })
      else (rune, read)

/-- The next reading. -/
def next (r : Reader) : Reading × Reader :=
  match r.putBack with
  | some saved =>
      (saved.reading, { r with putBack := none, offset := saved.offset, stop := saved.stop })
  | none =>
      if !r.started then (.start, { r with started := true })
      else if r.journal.closed then (.stopped, { r with offset := r.cursor, stop := r.cursor })
      else if r.cursor < r.bytes.size then
        let (rune, r) := r.take
        (.rune rune, r)
      else (.finish, { r with offset := r.bytes.size, stop := r.bytes.size })

theorem bytes_take (r : Reader) : r.take.2.bytes = r.bytes := by
  simp only [take]
  split
  · rfl
  · split <;> rfl

theorem cursor_take (r : Reader) :
    r.take.2.cursor = r.cursor + (Rune.decodeAt r.bytes r.cursor).width := by
  simp only [take]
  split
  · rename_i h
    simp [report, h]
  · rename_i h
    split <;> simp [h]

/-- Reads runes until the file ends or the journal closes. -/
def drain (r : Reader) : List Rune × Reader :=
  if r.journal.closed then ([], r)
  else if hc : r.cursor < r.bytes.size then
    match h : r.take with
    | (rune, r') =>
        have : r'.bytes.size - r'.cursor < r.bytes.size - r.cursor := by
          have hr : r' = r.take.2 := by rw [h]
          have hw := (Rune.decodeAt r.bytes r.cursor).width_pos
          rw [hr, bytes_take, cursor_take]
          omega
        let (runes, last) := drain r'
        (rune :: runes, last)
  else ([], r)
termination_by r.bytes.size - r.cursor

/-- The runes of a file, without a byte order mark in front, and the offset of the first of them. -/
def readText (r : Reader) : (Nat × List Rune) × Reader :=
  match r.drain with
  | (.scalar c :: runes, r) =>
      if c = Rune.bom then ((c.utf8Size, runes), r) else ((0, .scalar c :: runes), r)
  | (runes, r) => ((0, runes), r)

end Reader

end GoSource
