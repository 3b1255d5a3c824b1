import GoSource.Proofs.Grammar.Restart
import GoSource.Proofs.Grammar.TwinRuns
import GoSource.Proofs.Scanner.Lines

/-!
# Error budgets change no parse

A budget closes the journal, and nothing else: where every byte of a text belongs to a character, a parser under a
budget makes the nodes that it makes without one, and its diagnostics are the first ones of those.

* **`withinBudget n`** is what a budget of `n` leaves of a list of diagnostics.
* **`Journal.Capped n`**: a journal beside one that has no budget.  Reports and complaints keep the two in step,
  though the last entries of the two, which decide about complaints, may differ.
* **`parseFile_budget`**: the two parses of a file.
-/

namespace GoSource

/-! ### Journals -/

/-- What a budget of `n` leaves of a list of diagnostics: all of them if there are fewer, or else the first `n` and
one more at the place of the last of these. -/
def withinBudget (n : Nat) (es : List (Diagnostic SourceFault)) : List (Diagnostic SourceFault) :=
  if n = 0 ∨ es.length < n then es
  else es.take n ++ (es[n - 1]?.map fun d => { d with cause := .lexical .tooManyErrors }).toList

namespace Journal

/-- `j'` has a budget of `n`, where `j` has none. -/
structure Capped (n : Nat) (j j' : Journal) : Prop where
  unlimited : j.Unlimited
  budget_eq : j'.budget = n
  closed_eq : j'.closed = decide (0 < n ∧ n ≤ j.entries.size)
  entries_eq : j'.entries.toList = withinBudget n j.entries.toList

namespace Capped

variable {n : Nat} {j j' : Journal}

/-- A journal that is still open has all entries. -/
theorem entries_of_open (h : Capped n j j') (hopen : j'.closed = false) : j'.entries = j.entries := by
  rw [h.closed_eq, decide_eq_false_iff_not] at hopen
  apply Array.toList_inj.1
  rw [h.entries_eq, withinBudget, if_pos]
  rw [Array.length_toList]
  omega

theorem report (h : Capped n j j') (d : Diagnostic SourceFault) : Capped n (j.report d) (j'.report d) := by
  rw [report_of_unlimited h.unlimited]
  by_cases hclosed : j'.closed = true
  · have hfull : 0 < n ∧ n ≤ j.entries.size := by simpa [h.closed_eq] using hclosed
    rw [report_of_closed hclosed]
    refine ⟨h.unlimited, h.budget_eq, ?_, ?_⟩
    · rw [hclosed, eq_comm, decide_eq_true_iff, Array.size_push]
      omega
    · rw [h.entries_eq, Array.toList_push, withinBudget, withinBudget]
      rw [if_neg (by simp; omega), if_neg (by simp; omega), List.take_append_of_le_length (by simpa using hfull.2),
        List.getElem?_append_left (by simp; omega)]
  · have hopen : j'.closed = false := by simpa using hclosed
    have hroom : ¬ (0 < n ∧ n ≤ j.entries.size) := by simpa [h.closed_eq] using hopen
    rw [Journal.report, if_neg hclosed, h.entries_of_open hopen, h.budget_eq]
    dsimp only
    rw [Array.size_push]
    split
    · rename_i hlast
      have hn : n = j.entries.size + 1 := by omega
      have htake : (j.entries.toList ++ [d]).take n = j.entries.toList ++ [d] :=
        List.take_of_length_le (by simp; omega)
      refine ⟨h.unlimited, rfl, ?_, ?_⟩
      · rw [eq_comm, decide_eq_true_iff, Array.size_push]
        exact hlast
      · rw [Array.toList_push, Array.toList_push, withinBudget, if_neg (by simp; omega), htake, hn]
        simp
    · rename_i hmore
      refine ⟨h.unlimited, rfl, ?_, ?_⟩
      · rw [hopen, eq_comm, decide_eq_false_iff_not, Array.size_push]
        exact hmore
      · rw [withinBudget, if_pos]
        rw [Array.length_toList, Array.size_push]
        omega

/-- A closed journal does not change, whatever its last entry is. -/
theorem complain (h : Capped n j j') (d : Diagnostic SourceFault) : Capped n (j.complain d) (j'.complain d) := by
  by_cases hclosed : j'.closed = true
  · have hstays : j'.complain d = j' := by
      unfold Journal.complain
      split
      · rfl
      · exact report_of_closed hclosed d
    rw [hstays]
    unfold Journal.complain
    split
    · exact h
    · exact report_of_closed hclosed d ▸ h.report d
  · unfold Journal.complain
    rw [h.entries_of_open (by simpa using hclosed)]
    split
    · exact h
    · exact h.report d

theorem refl_empty (n : Nat) : Capped n { budget := 0 } { budget := n } := by
  refine ⟨⟨rfl, rfl⟩, rfl, ?_, ?_⟩
  · rw [eq_comm, decide_eq_false_iff_not]
    show ¬ (0 < n ∧ n ≤ 0)
    omega
  · show [] = withinBudget n []
    simp [withinBudget]

end Capped

end Journal

/-! ### Reading -/

namespace Reader

theorem drain_of_lt {r : Reader} (hopen : r.journal.closed = false) (h : r.cursor < r.bytes.size) :
    r.drain = (r.take.1 :: r.take.2.drain.1, r.take.2.drain.2) := by
  rw [drain, if_neg (by simp [hopen]), dif_pos h]

theorem drain_of_le {r : Reader} (h : r.bytes.size ≤ r.cursor) : r.drain = ([], r) := by
  rw [drain, dif_neg (Nat.not_lt.2 h)]
  split <;> rfl

theorem take_withJournal {r : Reader} (j : Journal) (h : Rune.decodeAt r.bytes r.cursor ≠ .malformed) :
    { r with journal := j }.take = (r.take.1, { r.take.2 with journal := j }) := by
  unfold take
  dsimp only
  split
  · rename_i hrune
    exact absurd hrune h
  · split <;> rfl

/-- Where every byte belongs to a character, reading does not look at the journal. -/
theorem drain_withJournal {r : Reader} {j : Journal} (hopen : r.journal.closed = false) (hj : j.closed = false)
    (h : Rune.malformed ∉ Rune.decodeFrom r.bytes r.cursor) :
    { r with journal := j }.drain = (r.drain.1, { r.drain.2 with journal := j }) := by
  induction hleft : r.bytes.size - r.cursor using Nat.strongRecOn generalizing r with
  | ind n ih =>
    subst hleft
    by_cases hlt : r.cursor < r.bytes.size
    · rw [Rune.decodeFrom, if_pos hlt, List.mem_cons, not_or] at h
      have hfirst : Rune.decodeAt r.bytes r.cursor ≠ .malformed := Ne.symm h.1
      have hwidth := (Rune.decodeAt r.bytes r.cursor).width_pos
      have hrest := ih (r.take.2.bytes.size - r.take.2.cursor) (by rw [bytes_take, cursor_take]; omega)
        (by rw [journal_take_of_ne_malformed hfirst]; exact hopen) (by rw [bytes_take, cursor_take]; exact h.2) rfl
      rw [drain_of_lt (r := { r with journal := j }) hj hlt, drain_of_lt hopen hlt, take_withJournal j hfirst, hrest]
    · rw [drain_of_le (Nat.not_lt.1 hlt), drain_of_le (r := { r with journal := j }) (Nat.not_lt.1 hlt)]

theorem readText_withJournal {r : Reader} {j : Journal} (hopen : r.journal.closed = false) (hj : j.closed = false)
    (h : Rune.malformed ∉ Rune.decodeFrom r.bytes r.cursor) :
    { r with journal := j }.readText = (r.readText.1, { r.readText.2 with journal := j }) := by
  unfold readText
  rw [drain_withJournal hopen hj h]
  rcases r.drain with ⟨_ | ⟨c | _, runes⟩, last⟩
  · rfl
  · dsimp only
    split <;> rfl
  · rfl

end Reader

/-- So a text is cut into the same tokens, whatever the budget is. -/
theorem Scanner.start_withJournal {r : Reader} {j : Journal} (hopen : r.journal.closed = false)
    (hj : j.closed = false) (h : Rune.malformed ∉ Rune.decodeFrom r.bytes r.cursor) :
    start { r with journal := j } = (start r).withJournal j := by
  rw [start, start, Reader.readText_withJournal hopen hj h]
  rfl

/-! ### Parsing -/

namespace Grammar

/-- Two runs that differ in their budgets. -/
def budgetPairing (n : Nat) : Pairing where
  journals := Journal.Capped n
  comments := Eq
  modes := Eq
  journals_report d h := h.report d
  journals_complain d h := h.complain d
  comments_nil := rfl
  comments_kept h _ := by rw [h]

/-- Two parsers of the same text at its start. -/
theorem twins_restart {n : Nat} {r : Reader} (hjournal : r.journal = { budget := 0 })
    (h : Rune.malformed ∉ Rune.decodeFrom r.bytes r.cursor) {p q : Parser} (hp : p.scanner = Scanner.start r)
    (hq : q.scanner = Scanner.start { r with journal := { budget := n } }) (hmode : p.mode = q.mode) :
    (budgetPairing n).Twins p.restart q.restart := by
  have hopen : r.journal.closed = false := by rw [hjournal]
  have hstart := Scanner.start_withJournal (j := { budget := n }) hopen rfl h
  have hreported : p.journal = { budget := 0 } := by
    show p.scanner.reader.journal = _
    rw [hp, ← hjournal, ← (Reader.drain_wellFormed hopen h).2, ← Reader.readText_snd]
    rfl
  refine Pairing.Twins.advance ⟨?_, ?_, ⟨rfl, fun id => ⟨.bare rfl, rfl⟩⟩, hmode, .bare rfl, .none, rfl⟩
  · show q.scanner = p.scanner.withJournal q.scanner.journal
    rw [hq, hp, hstart]
    rfl
  · show Journal.Capped n p.journal q.scanner.journal
    rw [hreported, hq, hstart]
    exact .refl_empty n

/-- The outcome `y` of a parse under a budget of `n`, beside the outcome `x` without one. -/
structure Budgeted (n : Nat) (x y : NodeId × Parser) : Prop where
  root_eq : y.1 = x.1
  tree_eq : y.2.tree = x.2.tree
  file_eq : y.2.file = x.2.file
  entries_eq : y.2.journal.entries.toList = withinBudget n x.2.journal.entries.toList

theorem budgeted_of_twins {n : Nat} {p q : Parser} (h : (budgetPairing n).Twins p q) :
    Budgeted n p.parseFile q.parseFile := by
  obtain ⟨hroot, htwins⟩ := fileNode_alike (c := budgetPairing n) (fun h => by rw [h]; exact ⟨rfl, rfl⟩) p q h
  exact ⟨hroot, htwins.tree.eq id, htwins.file_eq, htwins.journals.entries_eq⟩

/-- A budget never changes a parse: of a text in which every byte belongs to a character, a parser makes the same
nodes and the same root under every budget, and its diagnostics are those that the budget leaves.  It does not
matter whether the budget is set before the file is bound or after. -/
theorem parseFile_budget (file : SourceFile) (text : String) (mode : Mode) (n : Nat) :
    Budgeted n ((({} : Parser).setBudget 0).init file { bytes := text.toUTF8 } mode).parseFile
      ((({} : Parser).setBudget n).init file { bytes := text.toUTF8 } mode).parseFile ∧
    Budgeted n ((Parser.new file { bytes := text.toUTF8 } mode).setBudget 0).parseFile
      ((Parser.new file { bytes := text.toUTF8 } mode).setBudget n).parseFile := by
  have hwellFormed : Rune.malformed ∉ Rune.decodeFrom text.toUTF8 0 := by
    rw [Rune.decodeFrom_toUTF8]
    simp
  -- Whether the budget was set before or after the file was bound, the reader at the start of the file is this one.
  have hbound (n : Nat) : (({} : Reader).setBudget n).init file { bytes := text.toUTF8 } =
      { (({} : Reader).setBudget 0).init file { bytes := text.toUTF8 } with journal := { budget := n } } := rfl
  have hrewound (n : Nat) : ((({} : Reader).init file { bytes := text.toUTF8 }).setBudget n).rewind =
      { ((({} : Reader).init file { bytes := text.toUTF8 }).setBudget 0).rewind with journal := { budget := n } } := rfl
  have hinit (n : Nat) : (({} : Parser).setBudget n).scanner.init file { bytes := text.toUTF8 } =
      Scanner.start ((({} : Reader).setBudget n).init file { bytes := text.toUTF8 }) := by
    rw [Scanner.init, Parser.reader_setBudget_blank]
  have hagain (n : Nat) : (Parser.new file { bytes := text.toUTF8 } mode).scanner.setBudget n =
      Scanner.start ((({} : Reader).init file { bytes := text.toUTF8 }).setBudget n).rewind := by
    have hcontinues := Parser.continues_after file { bytes := text.toUTF8 } mode []
    rw [Scanner.setBudget]
    exact congrArg Scanner.start (hcontinues.rewind_setBudget_eq (Nat.le_refl _) n)
  refine ⟨budgeted_of_twins (twins_restart rfl ?_ (hinit 0) ?_ rfl),
    budgeted_of_twins (twins_restart rfl ?_ (hagain 0) ?_ rfl)⟩
  · exact hwellFormed
  · exact (hinit n).trans (congrArg Scanner.start (hbound n))
  · exact hwellFormed
  · exact (hagain n).trans (congrArg Scanner.start (hrewound n))

end Grammar

end GoSource
