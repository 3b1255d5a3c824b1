import GoSource.Proofs.Scanner.Positions

/-!
# The lines and columns of diagnostics

A diagnostic keeps the line and column that its place had when it was made, and diagnostics are made at all times: while
the bytes are decoded and the line table is half full, while tokens are handed out, and while the parser works.  Lines
that are entered later start behind all places that were read, so what was looked up stays right.

The failure of a source to deliver all its bytes is the exception.  It is reported before the first byte is decoded,
when the table knows no line but the first.

* **`SourceFile.Charts`**: a line table that is filled up to a byte; `SourceFile.position_pos_eq` compares two of them.
* **`Diagnostic.Located`**: a diagnostic that says of its place what the file says.
* **`Reader.Truthful`**: a reader whose diagnostics are of this kind; binding a file, reading and reporting keep it so,
  and so do all steps of productions.
* **`Parser.diagnostics_located`**: the journal after any calls; `diagnostics_located_differs` is the exception.
-/

namespace GoSource

theorem Pos.eq_ofOffset {pos : Pos} {n : Nat} (h : pos.offset? = some n) : pos = ofOffset n := by
  cases pos with
  | none => cases h
  | «at» offset =>
      obtain rfl : offset.val = n := Option.some.inj h
      have hmin : min offset.val (limit - 1) = offset.val := Nat.min_eq_left (by omega)
      rw [ofOffset, Pos.at.injEq]
      exact Fin.ext hmin.symm

/-! ### Line tables -/

/-- The line table of a file with these bytes is filled up to byte `reached`. -/
structure SourceFile.Charts (file : SourceFile) (bytes : ByteArray) (reached : Nat) : Prop where
  table_eq : file.laterLines.toList = (lineFeeds bytes reached).map (file.base + · + 1)
  size_eq : file.size = some bytes.size
  reached_le : reached ≤ bytes.size

namespace SourceFile

variable {f g : SourceFile} {bytes : ByteArray} {n m k : Nat}

theorem position_of_lt {offset : Fin Pos.limit} (h : offset.val < f.base) :
    f.position (.at offset) = { fileName := f.name, offset := offset } := by
  have hout : f.contains offset = false := by
    rw [contains, decide_eq_false (Nat.not_le.2 h), Bool.false_and]
  rw [position, hout, if_neg Bool.false_ne_true]

/-- More lines do not change the position of a byte that was reached before, even where the positions of the file's
bytes are clamped. -/
theorem position_pos_eq (hf : f.Charts bytes m) (hg : g.Charts bytes k) (hname : g.name = f.name)
    (hbase : g.base = f.base) (hn : n ≤ m) (hm : m ≤ k) : f.position (f.pos n) = g.position (f.pos n) := by
  rw [pos, Pos.ofOffset]
  by_cases hbefore : min (f.base + n) (Pos.limit - 1) < f.base
  · rw [position_of_lt hbefore, position_of_lt (hbase ▸ hbefore), hname]
  · obtain ⟨i, hi⟩ := Nat.exists_eq_add_of_le (Nat.not_lt.1 hbefore)
    have hin : i ≤ n := by omega
    rw [position_at hf.table_eq hf.size_eq (Nat.le_trans hin hn) hf.reached_le hi,
      position_at hg.table_eq hg.size_eq (Nat.le_trans hin (Nat.le_trans hn hm)) hg.reached_le (hbase ▸ hi), hname,
      hbase]

/-- Before anything is known of a file but where it starts, all of it seems to be one line. -/
theorem position_blank (name : String) {base n : Nat} (h : base + n < Pos.limit) :
    ({ name, base } : SourceFile).position (.ofOffset (base + n)) =
      { fileName := name, offset := base + n, line := 1, column := n + 1 } := by
  have hoffset : min (base + n) (Pos.limit - 1) = base + n := Nat.min_eq_left (by omega)
  have hin : ({ name, base } : SourceFile).contains (base + n) = true := by simp [contains]
  have hcount : countUpTo #[] (base + n) 0 0 = 0 := by
    rw [countUpTo]
    rfl
  simp only [Pos.ofOffset, position, hoffset, hin, if_true]
  simp [hcount, lineStart?]

end SourceFile

/-! ### Diagnostics -/

/-- A diagnostic says of its place what the file says, and if that is a byte of the file, what one counts. -/
structure Diagnostic.Located (file : SourceFile) (bytes : ByteArray) (d : Diagnostic SourceFault) : Prop where
  position_eq : d.position = file.position d.pos
  counted : file.base + bytes.size < Pos.limit → ∀ n ≤ bytes.size, d.pos = file.pos n →
    d.position = countedPosition file.name file.base bytes n

namespace Diagnostic

variable {f g : SourceFile} {bytes : ByteArray} {n m k : Nat}

/-- A diagnostic that was made at a byte that had been reached stays right when more bytes are read. -/
theorem located_reached (hf : f.Charts bytes m) (hg : g.Charts bytes k) (hname : g.name = f.name)
    (hbase : g.base = f.base) (hn : n ≤ m) (hm : m ≤ k) (cause : SourceFault) :
    (make f (f.pos n) cause).Located g bytes := by
  refine ⟨SourceFile.position_pos_eq hf hg hname hbase hn hm, fun hfits i hi hpos => ?_⟩
  have hlt : f.base + n < Pos.limit := by
    have := hf.reached_le
    omega
  have hsame := congrArg Pos.offset? hpos
  rw [show (make f (f.pos n) cause).pos = .ofOffset (f.base + n) from rfl, SourceFile.pos, Pos.offset?_ofOffset hlt,
    Pos.offset?_ofOffset (by omega), Option.some.injEq] at hsame
  obtain rfl : i = n := by omega
  rw [hname, hbase]
  exact SourceFile.position_eq_counted hf.table_eq hf.size_eq hn hf.reached_le (hbase ▸ hfits)

/-- When all bytes were read, every diagnostic is right. -/
theorem located_read (hf : f.Charts bytes bytes.size) (pos : Pos) (cause : SourceFault) :
    (make f pos cause).Located f bytes := by
  refine ⟨rfl, fun hfits n hn hpos => ?_⟩
  rw [show (make f pos cause).position = f.position (f.pos n) from congrArg f.position hpos]
  exact SourceFile.position_eq_counted hf.table_eq hf.size_eq hn (Nat.le_refl _) hfits

end Diagnostic

namespace Journal

/-- The entries of a journal after `old` are of some kind. -/
def Since (old : List (Diagnostic SourceFault)) (P : Diagnostic SourceFault → Prop) (j : Journal) : Prop :=
  ∃ added, j.entries.toList = old ++ added ∧ ∀ d ∈ added, P d

variable {old : List (Diagnostic SourceFault)} {P : Diagnostic SourceFault → Prop} {j : Journal}

/-- A report adds one entry, or two that differ in their causes, unless the journal is closed. -/
theorem Since.report (h : j.Since old P) (d : Diagnostic SourceFault)
    (hd : j.closed = false → ∀ cause, P { d with cause }) : (j.report d).Since old P := by
  cases hclosed : j.closed with
  | true =>
      rw [report_of_closed hclosed]
      exact h
  | false =>
      obtain ⟨added, hentries, hadded⟩ := h
      have hmore {more : List (Diagnostic SourceFault)} (hmore : ∀ x ∈ more, ∃ cause, x = { d with cause }) :
          ∀ x ∈ added ++ more, P x := by
        intro x hx
        rcases List.mem_append.1 hx with hx | hx
        · exact hadded x hx
        · obtain ⟨cause, rfl⟩ := hmore x hx
          exact hd hclosed cause
      rw [report_of_open hclosed]
      split
      · refine ⟨added ++ [d, { d with cause := .lexical .tooManyErrors }], by simp [hentries], hmore fun x hx => ?_⟩
        rcases List.mem_pair.1 hx with rfl | rfl
        · exact ⟨_, rfl⟩
        · exact ⟨_, rfl⟩
      · exact ⟨added ++ [d], by simp [hentries], hmore fun x hx => ⟨d.cause, List.mem_singleton.1 hx⟩⟩

end Journal

/-! ### Reading -/

namespace Reader

variable {r : Reader} {old : List (Diagnostic SourceFault)}

theorem size_take (r : Reader) : r.take.2.file.size = r.file.size := by
  have hsame := congrArg SourceFile.size (Continues.take r).file_eq
  exact hsame

theorem name_take (r : Reader) : r.take.2.file.name = r.file.name := by
  have hsame := congrArg SourceFile.name (Continues.take r).file_eq
  exact hsame

theorem charts_take (h : r.file.Charts r.bytes r.cursor) (hlt : r.cursor < r.bytes.size) :
    r.take.2.file.Charts r.take.2.bytes r.take.2.cursor := by
  have hcharted : r.Charted := h.table_eq
  refine ⟨hcharted.take, ?_, ?_⟩
  · rw [size_take, bytes_take, h.size_eq]
  · rw [cursor_take, bytes_take]
    exact Rune.add_width_le hlt

/-- A rune is read: if it is malformed, this is reported at its place. -/
theorem since_take {P : Diagnostic SourceFault → Prop} (h : r.journal.Since old P)
    (hP : ∀ cause, P (.make r.file (r.file.pos r.cursor) cause)) : r.take.2.journal.Since old P := by
  simp only [take]
  split
  · exact h.report _ fun _ => hP
  · split <;> exact h

/-- What is reported while a file is decoded is right about any table that reaches as far. -/
theorem since_drain {g : SourceFile} {k : Nat} (hg : g.Charts r.bytes k) (hname : g.name = r.file.name)
    (hbase : g.base = r.file.base) (hr : r.file.Charts r.bytes r.cursor)
    (h : r.journal.Since old (·.Located g r.bytes)) :
    r.drain.2.cursor ≤ k → r.drain.2.journal.Since old (·.Located g r.bytes) := by
  fun_induction drain r with
  | case1 r hclosed => exact fun _ => h
  | case2 r hclosed hcursor rune r' htake hless runes last hdrain ih =>
      intro hk
      have hr' : r' = r.take.2 := by rw [htake]
      have hbytes : r'.bytes = r.bytes := by rw [hr', bytes_take]
      have hcursor' : r.cursor ≤ r'.cursor := by rw [hr', cursor_take]; omega
      have hmore : r'.cursor ≤ r'.drain.2.cursor := by rw [cursor_drain]; omega
      rw [hdrain, hbytes] at ih
      rw [hdrain] at hmore
      refine ih hg ?_ ?_ ?_ ?_ hk
      · rw [hname, hr', name_take]
      · rw [hbase, hr', base_take]
      · rw [← hbytes, hr']
        exact charts_take hr hcursor
      · have hreached : r.cursor ≤ k := Nat.le_trans hcursor' (Nat.le_trans hmore hk)
        rw [hr']
        exact since_take h (Diagnostic.located_reached hr hg hname hbase (Nat.le_refl _) hreached)
  | case3 r hclosed hcursor => exact fun _ => h

/-- Reading stops at a full journal or at the end. -/
theorem le_cursor_drain (hopen : r.drain.2.journal.closed = false) : r.bytes.size ≤ r.drain.2.cursor := by
  fun_induction drain r with
  | case1 r hclosed => exact absurd hopen (by simp [hclosed])
  | case2 r hclosed hcursor rune r' htake hless runes last hdrain ih =>
      have hr' : r' = r.take.2 := by rw [htake]
      rw [hdrain, hr', bytes_take] at ih
      exact ih hopen
  | case3 r hclosed hcursor => exact Nat.le_of_not_lt hcursor

/-- A reader in a file with these bytes: after the entries `old`, its journal has diagnostics that say of their places
what the file says. -/
structure Truthful (name : String) (base : Nat) (bytes : ByteArray) (old : List (Diagnostic SourceFault)) (r : Reader) :
    Prop where
  bytes_eq : r.bytes = bytes
  name_eq : r.file.name = name
  base_eq : r.file.base = base
  charts : r.file.Charts bytes r.cursor
  read : r.journal.closed = false → r.cursor = bytes.size
  kept_eq : r.journal.kept = old.length
  since : r.journal.Since old (·.Located r.file bytes)

/-- A file is read from its start. -/
theorem truthful_drain (hcursor : r.cursor = 0) (hlines : r.file.laterLines = #[])
    (hsize : r.file.size = some r.bytes.size) (hentries : r.journal.entries.toList = old) (hkept : r.journal.kept = old.length) :
    r.drain.2.Truthful r.file.name r.file.base r.bytes old := by
  have hname := congrArg SourceFile.name (Continues.drain r).file_eq
  have hsame := congrArg SourceFile.size (Continues.drain r).file_eq
  have hle : r.drain.2.cursor ≤ r.bytes.size := cursor_drain_le (by omega)
  have hcharts : r.file.Charts r.bytes r.cursor := by
    refine ⟨?_, hsize, by omega⟩
    rw [hlines, hcursor]
    rfl
  have hcharted : r.Charted := hcharts.table_eq
  have htable := hcharted.drain
  rw [Charted, bytes_drain] at htable
  have hfinal : r.drain.2.file.Charts r.bytes r.drain.2.cursor := ⟨htable, hsame.trans hsize, hle⟩
  refine ⟨bytes_drain r, hname, base_drain r, hfinal, fun hopen => ?_, ?_, ?_⟩
  · exact Nat.le_antisymm hle (le_cursor_drain hopen)
  · rw [(Continues.drain r).journal.kept_eq, hkept]
  · have hnone : r.journal.Since old (·.Located r.drain.2.file r.bytes) :=
      ⟨[], by rw [hentries, List.append_nil], by simp⟩
    exact since_drain hfinal hname (base_drain r) hcharts hnone (Nat.le_refl _)

namespace Truthful

variable {name : String} {base : Nat} {bytes : ByteArray}

/-- A report about the file. -/
theorem report (h : r.Truthful name base bytes old) (pos : Pos) (cause : SourceFault) :
    (r.report pos cause).Truthful name base bytes old := by
  have hclosed : (r.report pos cause).journal.closed = false → r.journal.closed = false := by
    intro hopen
    by_contra hfull
    have hfull : r.journal.closed = true := by simpa using hfull
    rw [Reader.report, Journal.report_of_closed hfull, hfull] at hopen
    cases hopen
  refine ⟨h.bytes_eq, h.name_eq, h.base_eq, h.charts, fun hopen => h.read (hclosed hopen), ?_, ?_⟩
  · exact ((Continues.report r _).journal.kept_eq).trans h.kept_eq
  · refine h.since.report _ fun hopen cause => ?_
    have hread := h.charts
    rw [h.read hopen] at hread
    exact Diagnostic.located_read hread pos cause

/-- Another budget starts the file over. -/
theorem setBudget (h : r.Truthful name base bytes old) (budget : Nat) :
    (r.setBudget budget).rewind.drain.2.Truthful name base bytes old := by
  obtain ⟨added, hentries, -⟩ := h.since
  have hold : (r.setBudget budget).rewind.journal.entries.toList = old := by
    show (r.journal.entries.take r.journal.kept).toList = old
    rw [Array.take_eq_extract, Array.toList_extract, List.extract_eq_take_drop, List.drop_zero, Nat.sub_zero, hentries,
      h.kept_eq, List.take_left]
  have hagain := truthful_drain (r := (r.setBudget budget).rewind) rfl rfl
    (by show r.file.size = some r.bytes.size; rw [h.charts.size_eq, h.bytes_eq]) hold h.kept_eq
  rw [← h.bytes_eq, ← h.name_eq, ← h.base_eq]
  exact hagain

end Truthful

theorem Reports.truthful {r r' : Reader} {name : String} {base : Nat} {bytes : ByteArray} (h : r.Reports r')
    (hr : r.Truthful name base bytes old) : r'.Truthful name base bytes old :=
  h.keeps (fun _ pos cause hlast => hlast.report pos cause) hr

end Reader

/-! ### Parsing -/

namespace Parser

/-- What can be asked of a parser that has a file. -/
inductive Request where
  /-- Reads on. -/
  | call (call : Call)
  /-- Starts the file over under another budget. -/
  | setBudget (budget : Nat)
  deriving DecidableEq, Repr

/-- What a request leaves behind. -/
def Request.run (p : Parser) : Request → Parser
  | .call c => c.run p
  | .setBudget budget => p.setBudget budget

/-- What a sequence of requests leaves behind. -/
def afterRequests (p : Parser) (requests : List Request) : Parser :=
  requests.foldl Request.run p

variable {name : String} {base : Nat} {bytes : ByteArray} {old : List (Diagnostic SourceFault)} {p : Parser}

theorem truthful_restart (h : p.scanner.reader.Truthful name base bytes old) :
    p.restart.scanner.reader.Truthful name base bytes old :=
  (reports_advance { p with tree := {}, curr := {}, ahead := none, compositeOk := true }).truthful h

theorem truthful_request (h : p.scanner.reader.Truthful name base bytes old) (request : Request) :
    (request.run p).scanner.reader.Truthful name base bytes old := by
  cases request with
  | call call =>
      obtain ⟨st, hmoves⟩ := Grammar.moves_run [] p call
      exact hmoves.reports.truthful h
  | setBudget budget =>
      refine truthful_restart ?_
      show (Scanner.start (p.scanner.reader.setBudget budget).rewind).reader.Truthful name base bytes old
      rw [Scanner.reader_start]
      exact h.setBudget budget

theorem truthful_afterRequests (h : p.scanner.reader.Truthful name base bytes old) (requests : List Request) :
    (p.afterRequests requests).scanner.reader.Truthful name base bytes old := by
  induction requests generalizing p with
  | nil => exact h
  | cons request requests ih => exact ih (truthful_request h request)

/-- The lines and columns of diagnostics.  A parser is bound to a file, in whatever state it was before; then it parses
items, whole files, expressions and declarations, passes over tokens and is given other budgets, in any order.  Its
journal has the diagnostics from before, one for the failure of the source if it failed, and others.  Of these others
each shows the position that the file with its final line table gives for its place, and if the place is a byte of the
file, the position that one counts.  The diagnostic of a failure shows the first line, and so it is right exactly if no
line feed was delivered. -/
theorem diagnostics_located (p : Parser) (name : String) (base : Nat) (source : ByteSource) (mode : Mode)
    (requests : List Request) :
    let bytes := source.bytes
    let q := (p.init { name, base } source mode).afterRequests requests
    let failure (reason : String) : Diagnostic SourceFault :=
      .make { name, base } (.ofOffset (base + bytes.size)) (.unreadable reason)
    ∃ added,
      q.journal.entries.toList = p.journal.entries.toList ++ source.failure.toList.map failure ++ added ∧
      (∀ d ∈ added, d.position = q.file.position d.pos ∧
        (base + bytes.size < Pos.limit → ∀ n ≤ bytes.size, d.pos.offset? = some (base + n) →
          d.position = countedPosition name base bytes n)) ∧
      (base + bytes.size < Pos.limit → ∀ reason,
        (failure reason).position = countedPosition name base bytes bytes.size ↔ lineFeeds bytes bytes.size = []) := by
  intro bytes q failure
  have hentries : (p.scanner.reader.init { name, base } source).journal.entries.toList =
      p.journal.entries.toList ++ source.failure.toList.map failure := by
    cases hfailure : source.failure with
    | none => simp [Reader.init, Journal.openFile, hfailure, journal, Scanner.journal]
    | some reason =>
        simp [Reader.init, Journal.openFile, hfailure, journal, Scanner.journal, failure, SourceFile.pos, bytes]
  have hbound : (p.init { name, base } source mode).scanner.reader.Truthful name base bytes
      (p.journal.entries.toList ++ source.failure.toList.map failure) := by
    refine truthful_restart ?_
    show (Scanner.start (p.scanner.reader.init { name, base } source)).reader.Truthful _ _ _ _
    rw [Scanner.reader_start]
    refine Reader.truthful_drain (r := p.scanner.reader.init { name, base } source) rfl rfl rfl hentries ?_
    rw [← hentries, Array.length_toList]
    rfl
  have hq := truthful_afterRequests hbound requests
  obtain ⟨added, hadded, hlocated⟩ := hq.since
  refine ⟨added, hadded, fun d hd => ⟨(hlocated d hd).position_eq, fun hfits n hn hpos => ?_⟩, fun hfits reason => ?_⟩
  · have hcounted := (hlocated d hd).counted (by rw [hq.base_eq]; exact hfits) n hn
    rw [hq.name_eq, hq.base_eq] at hcounted
    refine hcounted ?_
    rw [Pos.eq_ofOffset hpos, SourceFile.pos, hq.base_eq]
  · rw [show (failure reason).position = _ from SourceFile.position_blank name hfits, countedPosition]
    constructor
    · intro hsame
      have hline := congrArg Position.line hsame
      dsimp only at hline
      exact List.eq_nil_of_length_eq_zero (by omega)
    · intro hnone
      rw [lineOrigin, hnone]
      rfl

/-- A closing bracket in the second line of a source that fails is reported where one counts it. -/
theorem diagnostics_located_bracket :
    let source : ByteSource := { bytes := "package p\n)".toUTF8, failure := some "gone" }
    let q := (({} : Parser).init { name := "f" } source {}).afterRequests [.call .parse, .setBudget 3, .call .parseFile]
    0 + source.bytes.size < Pos.limit ∧
    ∃ d ∈ q.journal.entries.toList, d.cause = .syntactic .expectingDecl ∧ 10 ≤ source.bytes.size ∧
      d.pos.offset? = some (0 + 10) ∧ d.position = countedPosition "f" 0 source.bytes 10 ∧
      countedPosition "f" 0 source.bytes 10 = { fileName := "f", offset := 10, line := 2, column := 1 } := by
  intro source q
  have hfits : 0 + source.bytes.size < Pos.limit := by decide +kernel
  have hsize : 10 ≤ source.bytes.size := by decide +kernel
  obtain ⟨added, hentries, hlocated, -⟩ :=
    diagnostics_located {} "f" 0 source {} [.call .parse, .setBudget 3, .call .parseFile]
  have hshown : q.journal.entries.toList.map (fun d => (d.pos.offset?, d.cause)) =
      [(some 11, .unreadable "gone"), (some 10, .syntactic .expectingDecl)] := by
    decide +kernel
  rw [hentries] at hshown
  have hadded : added.map (fun d => (d.pos.offset?, d.cause)) = [(some 10, .syntactic .expectingDecl)] :=
    (List.cons.inj hshown).2
  obtain ⟨d, hd, hpair⟩ := List.mem_map.1 (hadded ▸ List.mem_singleton_self _)
  obtain ⟨hpos, hcause⟩ := Prod.mk.inj hpair
  refine ⟨hfits, d, ?_, hcause, hsize, hpos, (hlocated d hd).2 hfits 10 hsize hpos, by decide +kernel⟩
  rw [hentries]
  exact List.mem_append_right _ hd

/-- A source delivers a line and its end and then fails.  The diagnostic stands in the second line, where the file ends,
and shows the first. -/
theorem diagnostics_located_differs :
    let source : ByteSource := { bytes := "package p\n".toUTF8, failure := some "gone" }
    let q := (({} : Parser).init { name := "f" } source {}).parseFile.2
    q.journal.entries.toList.map (·.render) = ["f:1:11: read error: gone"] ∧
    q.journal.entries.toList.map (fun d => (q.file.position d.pos).render) = ["f:2:1"] := by
  decide +kernel

end Parser

end GoSource
