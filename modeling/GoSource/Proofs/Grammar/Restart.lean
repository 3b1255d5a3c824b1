import GoSource.Proofs.Grammar.Forest

/-!
# Starting over

A parser that was used and is then given another budget parses its file from the start, and nothing of what
happened before is left.  Whatever a call does, it keeps the bytes, the name and the base of the file, and it
only adds to the journal; all else is set anew.

* **`Parser.Call`** are the calls that read on, **`Parser.after`** runs a sequence of them.
* **`Journal.Continues`**, **`Reader.Continues`**: what no call changes.
* **`rewind_setBudget_eq`**: of two readers of which one continues the other, both start over alike.
* **`setBudget_after`**: a parser that starts over is a new parser that had this budget from the beginning.
-/

namespace GoSource

/-! ### Calls -/

/-- The calls to a parser that read on. -/
inductive Parser.Call where
  /-- Parses the next item. -/
  | parse
  /-- Parses the rest of the file. -/
  | parseFile
  /-- Parses one expression. -/
  | parseExpression
  /-- Parses one declaration. -/
  | parseDeclaration
  /-- Passes over a token. -/
  | skip
  deriving DecidableEq, Repr

namespace Parser

/-- What a call leaves behind. -/
def Call.run (p : Parser) : Call → Parser
  | .parse => p.parse.2
  | .parseFile => p.parseFile.2
  | .parseExpression => p.parseExpression.2
  | .parseDeclaration => p.parseDeclaration.2
  | .skip => p.advance

/-- What a sequence of calls leaves behind. -/
def after (p : Parser) (calls : List Call) : Parser :=
  calls.foldl Call.run p

end Parser

namespace Grammar

/-- An action that reads on makes moves. -/
theorem Reads.moves {α : Type} [Holds α] {m : ParseM α} (h : ∀ n, Reads n m m) (st : Stack) (p : Parser) :
    Moves (st, p) (push (m p).1 st, (m p).2) :=
  (h (p.left + 1) _ (Nat.le_refl _) (st, p) st p (.refl (Nat.lt_succ_self _))).2.moves

theorem moves_run (st : Stack) (p : Parser) (call : Parser.Call) :
    ∃ st', Moves (st, p) (st', Parser.Call.run p call) := by
  cases call with
  | parse => exact ⟨_, Reads.moves item?_reads st p⟩
  | parseFile => exact ⟨_, Reads.moves (fun _ => fileNode_reads) st p⟩
  | parseExpression => exact ⟨_, Reads.moves expr_reads st p⟩
  | parseDeclaration => exact ⟨_, Reads.moves declaration_reads st p⟩
  | skip => exact ⟨_, .single .take⟩

/-- A sequence of calls makes moves. -/
theorem moves_after (st : Stack) (p : Parser) (calls : List Parser.Call) :
    ∃ st', Moves (st, p) (st', p.after calls) := by
  induction calls generalizing st p with
  | nil => exact ⟨st, .refl⟩
  | cons call calls ih =>
      obtain ⟨st', hcall⟩ := moves_run st p call
      obtain ⟨st'', hcalls⟩ := ih st' (Parser.Call.run p call)
      exact ⟨st'', hcall.trans hcalls⟩

end Grammar

/-! ### What calls keep -/

/-- `j'` is `j` with more entries. -/
structure Journal.Continues (j j' : Journal) : Prop where
  budget_eq : j'.budget = j.budget
  kept_eq : j'.kept = j.kept
  entries : j.entries.toList <+: j'.entries.toList

namespace Journal.Continues

variable {j j' j'' : Journal}

theorem refl (j : Journal) : j.Continues j :=
  ⟨rfl, rfl, List.prefix_rfl⟩

theorem trans (h : j.Continues j') (h' : j'.Continues j'') : j.Continues j'' :=
  ⟨h'.budget_eq.trans h.budget_eq, h'.kept_eq.trans h.kept_eq, h.entries.trans h'.entries⟩

theorem report (j : Journal) (d : Diagnostic SourceFault) : j.Continues (j.report d) := by
  unfold Journal.report
  split
  · exact refl j
  · dsimp only
    split
    · exact ⟨rfl, rfl, by simp⟩
    · exact ⟨rfl, rfl, by simp⟩

/-- Rewinding takes back all that was added since the file was opened. -/
theorem rewind_eq (h : j.Continues j') (hkept : j.kept ≤ j.entries.size) (budget : Nat) :
    ({ j' with budget } : Journal).rewind = ({ j with budget } : Journal).rewind := by
  have htake : j'.entries.take j.kept = j.entries.take j.kept := by
    obtain ⟨added, hadded⟩ := h.entries
    apply Array.toList_inj.1
    simp only [Array.take_eq_extract, Array.toList_extract, List.extract_eq_take_drop]
    rw [← hadded, List.drop_zero, List.drop_zero, List.take_append_of_le_length (by simpa using hkept)]
  simp only [Journal.rewind, h.kept_eq, htake]

end Journal.Continues

/-- `r'` reads the same file as `r`, and its journal has more entries. -/
structure Reader.Continues (r r' : Reader) : Prop where
  bytes_eq : r'.bytes = r.bytes
  file_eq : r'.file.resetLines = r.file.resetLines
  journal : r.journal.Continues r'.journal

namespace Reader.Continues

variable {r r' r'' : Reader}

theorem refl (r : Reader) : r.Continues r :=
  ⟨rfl, rfl, .refl _⟩

theorem trans (h : r.Continues r') (h' : r'.Continues r'') : r.Continues r'' :=
  ⟨h'.bytes_eq.trans h.bytes_eq, h'.file_eq.trans h.file_eq, h.journal.trans h'.journal⟩

/-- A diagnostic is added. -/
theorem report (r : Reader) (d : Diagnostic SourceFault) :
    r.Continues { r with journal := r.journal.report d } :=
  ⟨rfl, rfl, .report _ d⟩

theorem take (r : Reader) : r.Continues r.take.2 := by
  have hlines (file : SourceFile) (offset : Nat) : (file.addLine offset).resetLines = file.resetLines := by
    unfold SourceFile.addLine
    split <;> rfl
  unfold Reader.take
  dsimp only
  split
  · exact ⟨rfl, rfl, .report _ _⟩
  · split
    · exact ⟨rfl, hlines _ _, .refl _⟩
    · exact ⟨rfl, rfl, .refl _⟩

theorem drain (r : Reader) : r.Continues r.drain.2 := by
  fun_induction Reader.drain r with
  | case1 r hclosed => exact refl r
  | case2 r hclosed hcursor rune r' htake hless runes last hdrain ih =>
      rw [hdrain] at ih
      have hr' : r' = r.take.2 := by rw [htake]
      exact (hr' ▸ take r).trans ih
  | case3 r hclosed hcursor => exact refl r

/-- Two readers of which one continues the other start over alike. -/
theorem rewind_setBudget_eq (h : r.Continues r') (hkept : r.journal.kept ≤ r.journal.entries.size)
    (budget : Nat) : (r'.setBudget budget).rewind = (r.setBudget budget).rewind := by
  have hjournal := h.journal.rewind_eq hkept budget
  simp only [Reader.rewind, Reader.setBudget, Reader.toStart, h.bytes_eq, h.file_eq, hjournal]

end Reader.Continues

namespace Scanner

theorem continues_start (r : Reader) : r.Continues (start r).reader := by
  show r.Continues r.readText.2
  rw [Reader.readText_snd]
  exact .drain r

end Scanner

/-- Reports change nothing but the journal. -/
theorem Reader.Reports.continues {r r' : Reader} (h : r.Reports r') : r.Continues r' :=
  h.keeps (P := r.Continues) (fun last _ _ hlast => hlast.trans (.report last _)) (.refl r)

/-! ### New parsers -/

namespace Reader

/-- A reader without a file has nothing to read. -/
theorem readText_blank (budget : Nat) :
    ((({} : Reader).setBudget budget).rewind.readText) = ((0, []), ({} : Reader).setBudget budget) := by
  rw [readText, drain]
  rfl

/-- A file that is bound after the budget was set is a file that starts over under that budget. -/
theorem init_setBudget (name : String) (base : Nat) (source : ByteSource) (budget : Nat) :
    (({} : Reader).setBudget budget).init { name, base } source =
      ((({} : Reader).init { name, base } source).setBudget budget).rewind := by
  cases hfailure : source.failure with
  | none => simp [init, setBudget, rewind, toStart, Journal.openFile, Journal.rewind, SourceFile.setSize,
      SourceFile.resetLines, hfailure]
  | some reason => simp [init, setBudget, rewind, toStart, Journal.openFile, Journal.rewind, SourceFile.setSize,
      SourceFile.resetLines, hfailure]

end Reader

namespace Scanner

/-- At the end of the text there is nothing to report. -/
theorem reader_scanPast_of_items {s : Scanner} (comments : List String) (h : s.stream.items = []) :
    (s.scanPast comments).2.reader = s.reader := by
  fun_cases scanPast s comments with
  | case1 item rest hpop delivered hc => exact absurd ((TokenStream.items_pop? hpop).symm.trans h) nofun
  | case2 item rest hpop delivered hc => exact absurd ((TokenStream.items_pop? hpop).symm.trans h) nofun
  | case3 hpop token s' heq =>
      obtain ⟨rfl, rfl⟩ := Prod.mk.inj heq
      rfl

/-- Looking for a first token without a file changes nothing. -/
theorem reader_start_blank (budget : Nat) :
    ((start (({} : Reader).setBudget budget).rewind).scanPast []).2.reader = ({} : Reader).setBudget budget := by
  rw [start, Reader.readText_blank]
  refine reader_scanPast_of_items [] ?_
  show Item.ofLexemes 0 .illegal (Lexeme.split []) = []
  rw [Lexeme.split]
  rfl

end Scanner

namespace Parser

open Grammar

/-- A budget is all that a parser without a file takes over. -/
theorem reader_setBudget_blank (budget : Nat) :
    (({} : Parser).setBudget budget).scanner.reader = ({} : Reader).setBudget budget := by
  rw [setBudget, restart, advance_of_none rfl]
  exact Scanner.reader_start_blank budget

theorem continues_restart (p : Parser) : p.scanner.reader.Continues p.restart.scanner.reader :=
  (reports_advance { p with tree := {}, curr := {}, ahead := none, compositeOk := true }).continues

/-- The calls to a new parser keep its file and its bytes. -/
theorem continues_after (file : SourceFile) (source : ByteSource) (mode : Mode) (calls : List Call) :
    (({} : Reader).init file source).Continues ((new file source mode).after calls).scanner.reader := by
  obtain ⟨st, hmoves⟩ := moves_after [] (new file source mode) calls
  exact (Scanner.continues_start _).trans ((continues_restart _).trans hmoves.reports.continues)

/-- Starting over is starting: whatever was called before, a parser that is given another budget is in the state
of one that had this budget before its file was bound.  So from then on both give the same answers. -/
theorem setBudget_after (name : String) (base : Nat) (source : ByteSource) (mode : Mode) (calls : List Call)
    (budget : Nat) :
    ((new { name, base } source mode).after calls).setBudget budget =
      (({} : Parser).setBudget budget).init { name, base } source mode := by
  have hmode : ((new { name, base } source mode).after calls).mode = mode := by
    obtain ⟨st, hmoves⟩ := moves_after [] (new { name, base } source mode) calls
    rw [hmoves.mode_eq]
    exact mode_init {} _ _ _
  have hreader : (((new { name, base } source mode).after calls).scanner.reader.setBudget budget).rewind =
      (({} : Parser).setBudget budget).scanner.reader.init { name, base } source := by
    rw [reader_setBudget_blank, Reader.init_setBudget]
    refine (continues_after { name, base } source mode calls).rewind_setBudget_eq ?_ budget
    exact Nat.le_refl _
  simp only [setBudget, init, Scanner.setBudget, Scanner.init, restart, hmode, hreader]

end Parser

end GoSource
