import GoSource.Proofs.Grammar.Budget

/-!
# A scanner that is bound again

A scanner that has read other files and is then bound to a new one reads it as a new scanner does, but under a smaller
budget: the diagnostics of the earlier files still count, though the journal was opened again.  So the new file may
be broken off at its first fault.

* **`remaining n k`**: what is left of a budget of `n` after `k` diagnostics.
* **`Journal.Link`**: two journals that are open together as long as the first stays inside; reading and scanning keep
  two runs together that differ in nothing but such journals.
* **`Journal.Carries`**: a journal with old diagnostics beside one without them.
* **`scanMany_init`**: what a scanner reads after it was bound again; `rebinding_differs` shows a file that is broken
  off.
-/

namespace GoSource

/-- What is left of a budget of `n` when there are `k` diagnostics already: the next one may be made in any case. -/
def remaining (n k : Nat) : Nat :=
  if n = 0 then 0 else max 1 (n - k)

namespace Scanner

/-- The next `k` tokens. -/
def scanMany (s : Scanner) : Nat → List Scanned × Scanner
  | 0 => ([], s)
  | k + 1 => (s.scan.1 :: (s.scan.2.scanMany k).1, (s.scan.2.scanMany k).2)

/-- A scanner with a budget that has read nothing. -/
def new (budget : Nat) : Scanner :=
  ({} : Scanner).setBudget budget

/-- The outcome `y` has the tokens and the lines of `x`, and the diagnostics of `x` after `kept`. -/
structure Resumed (kept : List (Diagnostic SourceFault)) (x y : List Scanned × Scanner) : Prop where
  tokens_eq : y.1 = x.1
  file_eq : y.2.file = x.2.file
  entries_eq : y.2.journal.entries.toList = kept ++ x.2.journal.entries.toList

theorem continues_scan (s : Scanner) : s.reader.Continues s.scan.2.reader := by
  unfold scan
  split
  · exact (s.reports_deliver _ _).continues
  · exact .refl _

theorem continues_scanMany (s : Scanner) (k : Nat) : s.reader.Continues (s.scanMany k).2.reader := by
  induction k generalizing s with
  | zero => exact .refl _
  | succ k ih => exact s.continues_scan.trans (ih s.scan.2)

end Scanner

theorem Reader.drain_of_closed {r : Reader} (h : r.journal.closed = true) : r.drain = ([], r) := by
  rw [drain, if_pos h]

/-! ### Journals that go together -/

/-- Two journals that are open and closed together, at least until the first of them has gone too far. -/
structure Journal.Link where
  /-- The two journals go together. -/
  together : Journal → Journal → Prop
  /-- The first journal has gone too far. -/
  beyond : Journal → Prop
  closed_eq : ∀ {j j' : Journal}, together j j' → j'.closed = j.closed
  report : ∀ {j j' : Journal} (d : Diagnostic SourceFault), together j j' →
    beyond (j.report d) ∨ together (j.report d) (j'.report d)
  beyond_of_continues : ∀ {j j' : Journal}, j.Continues j' → beyond j → beyond j'

namespace Journal.Link

variable (c : Journal.Link)

/-- Two outcomes of reading that differ in their journals only. -/
def Reads {α : Type} (x y : α × Reader) : Prop :=
  c.beyond x.2.journal ∨ ∃ j, y = (x.1, { x.2 with journal := j }) ∧ c.together x.2.journal j

/-- Two outcomes of scanning that differ in their journals only. -/
def Scans {α : Type} (x y : α × Scanner) : Prop :=
  c.beyond x.2.journal ∨ ∃ j, y = (x.1, x.2.withJournal j) ∧ c.together x.2.journal j

variable {c}

theorem reads_take {r : Reader} {j : Journal} (h : c.together r.journal j) :
    c.Reads r.take { r with journal := j }.take := by
  unfold Reader.take
  dsimp only
  split
  · rcases c.report _ h with hbeyond | htogether
    · exact .inl hbeyond
    · exact .inr ⟨_, rfl, htogether⟩
  · split
    · exact .inr ⟨j, rfl, h⟩
    · exact .inr ⟨j, rfl, h⟩

/-- Reading goes on in both runs or in none, so the same runes are read. -/
theorem reads_drain {r : Reader} {j : Journal} (h : c.together r.journal j) :
    c.Reads r.drain { r with journal := j }.drain := by
  induction hleft : r.bytes.size - r.cursor using Nat.strongRecOn generalizing r j with
  | ind n ih =>
    subst hleft
    by_cases hlt : r.cursor < r.bytes.size
    · cases hclosed : r.journal.closed with
      | true =>
          have hj : j.closed = true := by rw [c.closed_eq h, hclosed]
          rw [Reader.drain_of_closed hclosed, Reader.drain_of_closed (r := { r with journal := j }) hj]
          exact .inr ⟨j, rfl, h⟩
      | false =>
          have hj : j.closed = false := by rw [c.closed_eq h, hclosed]
          have hwidth := (Rune.decodeAt r.bytes r.cursor).width_pos
          rw [Reader.drain_of_lt hclosed hlt, Reader.drain_of_lt (r := { r with journal := j }) hj hlt]
          rcases reads_take h with hbeyond | ⟨j', htake, htogether⟩
          · exact .inl (c.beyond_of_continues (Reader.Continues.drain r.take.2).journal hbeyond)
          · rw [htake]
            have hless : r.take.2.bytes.size - r.take.2.cursor < r.bytes.size - r.cursor := by
              rw [Reader.bytes_take, Reader.cursor_take]
              omega
            rcases ih _ hless htogether rfl with hbeyond | ⟨j'', hdrain, htogether⟩
            · exact .inl hbeyond
            · rw [hdrain]
              exact .inr ⟨j'', rfl, htogether⟩
    · rw [Reader.drain_of_le (Nat.not_lt.1 hlt), Reader.drain_of_le (r := { r with journal := j }) (Nat.not_lt.1 hlt)]
      exact .inr ⟨j, rfl, h⟩

theorem reads_readText {r : Reader} {j : Journal} (h : c.together r.journal j) :
    c.Reads r.readText { r with journal := j }.readText := by
  rcases reads_drain h with hbeyond | ⟨j', hdrain, htogether⟩
  · left
    rw [Reader.readText_snd]
    exact hbeyond
  · right
    refine ⟨j', ?_, ?_⟩
    · unfold Reader.readText
      rw [hdrain]
      rcases r.drain with ⟨_ | ⟨c | _, runes⟩, last⟩
      · rfl
      · dsimp only
        split <;> rfl
      · rfl
    · rw [Reader.readText_snd]
      exact htogether

/-- So the text is cut into the same tokens. -/
theorem scans_start {r : Reader} {j : Journal} (h : c.together r.journal j) :
    c.Scans ((), Scanner.start r) ((), Scanner.start { r with journal := j }) := by
  rcases reads_readText h with hbeyond | ⟨j', hread, htogether⟩
  · exact .inl hbeyond
  · refine .inr ⟨j', ?_, htogether⟩
    rw [Scanner.start, Scanner.start, hread]
    rfl

theorem scans_scan {s : Scanner} {j : Journal} (h : c.together s.journal j) :
    c.Scans s.scan (s.withJournal j).scan := by
  unfold Scanner.scan
  rw [Scanner.stream_withJournal]
  split
  · unfold Scanner.deliver Scanner.reportFault
    split
    · rcases c.report _ h with hbeyond | htogether
      · exact .inl hbeyond
      · exact .inr ⟨_, rfl, htogether⟩
    · exact .inr ⟨j, rfl, h⟩
  · exact .inr ⟨j, rfl, h⟩

theorem scans_scanMany {s : Scanner} {j : Journal} (h : c.together s.journal j) (k : Nat) :
    c.Scans (s.scanMany k) ((s.withJournal j).scanMany k) := by
  induction k generalizing s j with
  | zero => exact .inr ⟨j, rfl, h⟩
  | succ k ih =>
      rw [Scanner.scanMany, Scanner.scanMany]
      rcases scans_scan h with hbeyond | ⟨j', hscan, htogether⟩
      · exact .inl (c.beyond_of_continues (s.scan.2.continues_scanMany k).journal hbeyond)
      · rw [hscan]
        rcases ih htogether with hbeyond | ⟨j'', hmany, htogether⟩
        · exact .inl hbeyond
        · rw [hmany]
          exact .inr ⟨j'', rfl, htogether⟩

/-- A file that is read from its start. -/
theorem scans_file {r : Reader} {j : Journal} (h : c.together r.journal j) (k : Nat) :
    c.Scans ((Scanner.start r).scanMany k) ((Scanner.start { r with journal := j }).scanMany k) := by
  rcases scans_start h with hbeyond | ⟨j', hstart, htogether⟩
  · exact .inl (c.beyond_of_continues ((Scanner.start r).continues_scanMany k).journal hbeyond)
  · obtain ⟨-, hstart⟩ := Prod.mk.inj hstart
    rw [hstart]
    exact scans_scanMany htogether k

end Journal.Link

/-! ### Old diagnostics -/

namespace Journal

/-- `j'` has the entries `kept` before those of `j`, which has as much room as these leave. -/
structure Carries (kept : List (Diagnostic SourceFault)) (j j' : Journal) : Prop where
  budget_eq : j.budget = remaining j'.budget kept.length
  closed_eq : j'.closed = j.closed
  entries_eq : j'.entries.toList = kept ++ j.entries.toList

theorem Carries.report {kept : List (Diagnostic SourceFault)} {j j' : Journal} (h : Carries kept j j')
    (d : Diagnostic SourceFault) : Carries kept (j.report d) (j'.report d) := by
  cases hclosed : j.closed with
  | true =>
      rw [report_of_closed hclosed, report_of_closed (h.closed_eq.trans hclosed)]
      exact h
  | false =>
      have hsize : j'.entries.size = kept.length + j.entries.size := by
        rw [← Array.length_toList, h.entries_eq, List.length_append, ← Array.length_toList]
      -- The two journals have the same room left, so the entry closes both or none.
      have hroom : (0 < j.budget ∧ j.budget ≤ j.entries.size + 1) ↔
          (0 < j'.budget ∧ j'.budget ≤ j'.entries.size + 1) := by
        rw [h.budget_eq, hsize, remaining]
        split
        · omega
        · omega
      rw [report_of_open hclosed, report_of_open (h.closed_eq.trans hclosed)]
      by_cases hfull : 0 < j.budget ∧ j.budget ≤ j.entries.size + 1
      · rw [if_pos hfull, if_pos (hroom.1 hfull)]
        exact ⟨h.budget_eq, rfl, by simp [h.entries_eq]⟩
      · rw [if_neg hfull, if_neg (mt hroom.2 hfull)]
        exact ⟨h.budget_eq, h.closed_eq, by simp [h.entries_eq]⟩

/-- A journal with old entries beside one without them. -/
def Link.carrying (kept : List (Diagnostic SourceFault)) : Link where
  together := Carries kept
  beyond _ := False
  closed_eq h := h.closed_eq
  report d h := .inr (h.report d)
  beyond_of_continues _ h := h

/-- Two open journals with the same entries, the one with a budget of `n` and the other with a budget of `m`. -/
structure Level (n m : Nat) (j j' : Journal) : Prop where
  budget_eq : j.budget = n
  budget_eq' : j'.budget = m
  entries_eq : j'.entries = j.entries
  isOpen : j.closed = false
  isOpen' : j'.closed = false

/-- As long as the smaller budget is not used up, it makes no difference. -/
theorem Level.report {n m : Nat} (hle : m ≤ n) {j j' : Journal} (h : Level n m j j') (d : Diagnostic SourceFault) :
    m ≤ (j.report d).entries.size ∨ Level n m (j.report d) (j'.report d) := by
  rw [report_of_open h.isOpen, report_of_open h.isOpen', h.budget_eq, h.budget_eq', h.entries_eq]
  by_cases hfull : m ≤ j.entries.size + 1
  · left
    split
    · simp
      omega
    · simpa using hfull
  · right
    rw [if_neg (by omega), if_neg (by omega)]
    exact ⟨rfl, rfl, rfl, h.isOpen, h.isOpen'⟩

/-- A journal with a smaller budget beside one with a larger one. -/
def Link.leveled {n m : Nat} (hle : m ≤ n) : Link where
  together := Level n m
  beyond j := m ≤ j.entries.size
  closed_eq h := h.isOpen'.trans h.isOpen.symm
  report d h := h.report hle d
  beyond_of_continues hcontinues h := by
    have hlength := hcontinues.entries.length_le
    rw [Array.length_toList, Array.length_toList] at hlength
    omega

end Journal

namespace Scanner

theorem reader_new (budget : Nat) : (new budget).reader = ({} : Reader).setBudget budget :=
  congrArg Prod.snd (Reader.readText_blank budget)

/-- Of an earlier file nothing but the journal is left when a new one is bound. -/
theorem init_withJournal (s s' : Scanner) (file : SourceFile) (source : ByteSource) :
    s.init file source =
      start { s'.reader.init file source with journal := (s.reader.init file source).journal } := rfl

/-- A scanner reads a file as a new scanner does whose budget is what is left. -/
theorem resumed_remaining (s : Scanner) (file : SourceFile) (source : ByteSource) (k : Nat) :
    Resumed s.journal.entries.toList
      (((new (remaining s.journal.budget s.journal.entries.size)).init file source).scanMany k)
      ((s.init file source).scanMany k) := by
  generalize hnew : new (remaining s.journal.budget s.journal.entries.size) = fresh
  have hbudget : fresh.reader.journal = { budget := remaining s.journal.budget s.journal.entries.size } := by
    rw [← hnew, reader_new]
    rfl
  have hcarries : Journal.Carries s.journal.entries.toList (fresh.reader.init file source).journal
      (s.reader.init file source).journal := by
    refine ⟨?_, rfl, ?_⟩
    · show fresh.reader.journal.budget = _
      rw [hbudget, Array.length_toList]
      rfl
    · simp only [Reader.init, hbudget, Journal.openFile]
      cases source.failure with
      | none => simp [journal]
      | some reason => simp [journal]
  rw [init_withJournal s fresh]
  rcases Journal.Link.scans_file (c := .carrying s.journal.entries.toList) hcarries k with hfalse | ⟨j, hmany, hlast⟩
  · exact hfalse.elim
  · rw [hmany]
    exact ⟨rfl, rfl, hlast.entries_eq⟩

/-- Two budgets make no difference if the file has fewer diagnostics than either. -/
theorem resumed_level {n m : Nat} (hle : m ≤ n) (file : SourceFile) (source : ByteSource) (k : Nat)
    (h : (((new n).init file source).scanMany k).2.journal.entries.size < m) :
    Resumed [] (((new n).init file source).scanMany k) (((new m).init file source).scanMany k) := by
  have hlevel : Journal.Level n m ((new n).reader.init file source).journal
      ((new m).reader.init file source).journal := by
    rw [reader_new, reader_new]
    exact ⟨rfl, rfl, rfl, rfl, rfl⟩
  rw [init_withJournal (new m) (new n)]
  rcases Journal.Link.scans_file (c := .leveled hle) hlevel k with hbeyond | ⟨j, hmany, hlast⟩
  · have hbeyond : m ≤ (((new n).init file source).scanMany k).2.journal.entries.size := hbeyond
    omega
  · rw [hmany]
    refine ⟨rfl, rfl, ?_⟩
    rw [List.nil_append, journal_withJournal, hlast.entries_eq]
    rfl

theorem scan_withJournal (s : Scanner) (j : Journal) :
    ∃ j', (s.withJournal j).scan = (s.scan.1, s.scan.2.withJournal j') := by
  unfold scan
  rw [stream_withJournal]
  split
  · unfold deliver reportFault
    split
    · exact ⟨_, rfl⟩
    · exact ⟨j, rfl⟩
  · exact ⟨j, rfl⟩

/-- Tokens do not depend on the journal. -/
theorem scanMany_withJournal (s : Scanner) (j : Journal) (k : Nat) :
    ∃ j', (s.withJournal j).scanMany k = ((s.scanMany k).1, (s.scanMany k).2.withJournal j') := by
  induction k generalizing s j with
  | zero => exact ⟨j, rfl⟩
  | succ k ih =>
      obtain ⟨j', hscan⟩ := s.scan_withJournal j
      obtain ⟨j'', hmany⟩ := ih s.scan.2 j'
      refine ⟨j'', ?_⟩
      rw [scanMany, scanMany, hscan, hmany]

/-- In a text in which every byte belongs to a character, reading is not broken off. -/
theorem tokens_of_wellFormed (s s' : Scanner) (file : SourceFile) (source : ByteSource) (k : Nat)
    (h : Rune.malformed ∉ Rune.decodeFrom source.bytes 0) :
    ((s.init file source).scanMany k).1 = ((s'.init file source).scanMany k).1 ∧
      ((s.init file source).scanMany k).2.file = ((s'.init file source).scanMany k).2.file := by
  obtain ⟨j, hmany⟩ := (s'.init file source).scanMany_withJournal (s.reader.init file source).journal k
  have hstart : s.init file source = (s'.init file source).withJournal (s.reader.init file source).journal :=
    start_withJournal (r := s'.reader.init file source) (j := (s.reader.init file source).journal) rfl rfl h
  rw [hstart, hmany]
  exact ⟨rfl, rfl⟩

/-- Binding a scanner again.  Whatever it has read before, it hands out the tokens of a new scanner, at the same
places and with the same lines, and adds the same diagnostics; but the budget of that new scanner is only what the
diagnostics kept from earlier files have left of its own.  A new scanner with the same budget does the same if there
is no limit, if nothing was kept, or if all diagnostics together stay below the budget; and tokens and lines are the
same anyway if every byte of the new file belongs to a character. -/
theorem scanMany_init (s : Scanner) (file : SourceFile) (source : ByteSource) (k : Nat) :
    let n := s.journal.budget
    let kept := s.journal.entries.toList
    let again := (s.init file source).scanMany k
    let fresh := ((new n).init file source).scanMany k
    Resumed kept (((new (remaining n kept.length)).init file source).scanMany k) again ∧
    (n = 0 ∨ kept = [] ∨ kept.length + fresh.2.journal.entries.size < n → Resumed kept fresh again) ∧
    (Rune.malformed ∉ Rune.decodeFrom source.bytes 0 → again.1 = fresh.1 ∧ again.2.file = fresh.2.file) := by
  intro n kept again fresh
  have hresumed : Resumed kept (((new (remaining n kept.length)).init file source).scanMany k) again := by
    have hremaining := s.resumed_remaining file source k
    rw [← Array.length_toList] at hremaining
    exact hremaining
  refine ⟨hresumed, ?_, s.tokens_of_wellFormed (new n) file source k⟩
  by_cases hsame : remaining n kept.length = n
  · intro _
    rw [hsame] at hresumed
    exact hresumed
  · intro hroom
    have hless : kept.length + fresh.2.journal.entries.size < n := by
      rcases hroom with hzero | hnil | hless
      · exact absurd (by rw [remaining, if_pos hzero, hzero]) hsame
      · rw [hnil] at hsame
        exact absurd (by rw [remaining, List.length_nil]; split <;> omega) hsame
      · exact hless
    have hleft : remaining n kept.length = n - kept.length := by
      rw [remaining]
      split <;> omega
    have hbelow : fresh.2.journal.entries.size < remaining n kept.length := by omega
    have hlevel := resumed_level (by omega) file source k hbelow
    exact ⟨hresumed.tokens_eq.trans hlevel.tokens_eq, hresumed.file_eq.trans hlevel.file_eq,
      by rw [hresumed.entries_eq, hlevel.entries_eq, List.nil_append]⟩

/-- One diagnostic is kept and one is made, which is below a budget of ten. -/
theorem scanMany_init_below :
    let used := (new 10).init {} { bytes := ⟨#[0xFF]⟩ }
    let fresh := ((new 10).init {} { bytes := ⟨#[0xFF, 0x20, 0x61]⟩ }).scanMany 3
    used.journal.entries.toList.length + fresh.2.journal.entries.size < 10 ∧
    Resumed used.journal.entries.toList fresh ((used.init {} { bytes := ⟨#[0xFF, 0x20, 0x61]⟩ }).scanMany 3) := by
  intro used fresh
  have hbelow : used.journal.entries.toList.length + fresh.2.journal.entries.size < 10 := by decide +kernel
  have hbudget : used.journal.budget = 10 := by decide +kernel
  have hresumed := (scanMany_init used {} { bytes := ⟨#[0xFF, 0x20, 0x61]⟩ } 3).2.1
  rw [hbudget] at hresumed
  exact ⟨hbelow, hresumed (.inr (.inr hbelow))⟩

/-- Nine diagnostics are kept, and the first fault of the next file is its last: the identifier after it is never seen.
A new scanner with the same budget hands it out. -/
theorem rebinding_differs :
    let used := (new 10).init {} { bytes := ⟨Array.replicate 9 0xFF⟩ }
    let again := (used.init {} { bytes := ⟨#[0xFF, 0x20, 0x61]⟩ }).scanMany 2
    let fresh := ((new 10).init {} { bytes := ⟨#[0xFF, 0x20, 0x61]⟩ }).scanMany 2
    used.journal.budget = 10 ∧
    again.1.map (·.token) = [.illegal, .eof] ∧ fresh.1.map (·.token) = [.illegal, .lit .ident] ∧
    (again.2.journal.entries.toList.drop 9).map (·.cause) = [.lexical .invalidUtf8, .lexical .tooManyErrors] ∧
    fresh.2.journal.entries.toList.map (·.cause) = [.lexical .invalidUtf8] ∧
    ¬ Resumed used.journal.entries.toList fresh again := by
  intro used again fresh
  have hagain : again.1.map (·.token) = [.illegal, .eof] := by decide +kernel
  have hfresh : fresh.1.map (·.token) = [.illegal, .lit .ident] := by decide +kernel
  refine ⟨by decide +kernel, hagain, hfresh, by decide +kernel, by decide +kernel, ?_⟩
  intro hresumed
  rw [hresumed.tokens_eq, hfresh] at hagain
  exact absurd hagain (by decide)

end Scanner

end GoSource
