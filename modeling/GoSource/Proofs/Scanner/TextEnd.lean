import GoSource.Proofs.Scanner.Lines
import GoSource.Proofs.Scanner.Positions
import GoSource.Proofs.Scanner.Rebinding

/-!
# Where the text ends

Without an error budget a file is read to its last byte, and the end of the text is reported behind that byte,
whatever is in front of it: blanks, bytes that start no character, a byte order mark at the start.  There is one
exception.  A file that is nothing but a byte order mark has no text, and its end is reported at the byte where the
mark starts.

* **`byteOrderMark`**, **`textEnd`**: the exception, and where the end of the text is reported.
* **`Scanner.EndKnown`**: a scanner that has read its file without a budget knows this place; every call keeps it so.
* **`Scanner.end_of_text`**: the end that is handed out; `end_of_text_differs` is the exception.
-/

namespace GoSource

/-- The bytes of a byte order mark. -/
def byteOrderMark : Array UInt8 :=
  #[0xEF, 0xBB, 0xBF]

theorem data_eq_byteOrderMark {bytes : ByteArray} : bytes.data = byteOrderMark ↔ bytes = "\uFEFF".toUTF8 := by
  rw [ByteArray.ext_iff]
  exact Iff.rfl

/-- Where the end of the text is reported in a file with these bytes. -/
def textEnd (bytes : ByteArray) : Nat :=
  if bytes.data = byteOrderMark then 0 else bytes.size

namespace Reader

variable {r : Reader}

/-- Without a budget the last byte is read. -/
theorem cursor_drain_unlimited (h : r.journal.Unlimited) (hstart : r.cursor = 0) :
    r.drain.2.cursor = r.bytes.size := by
  rw [cursor_drain, drain_eq_decodeFrom h, hstart]
  exact (Rune.liesAt_decodeFrom r.bytes 0 (Nat.zero_le _)).2

/-- A file without text is empty or a byte order mark. -/
theorem readText_eq_nil_iff (h : r.journal.Unlimited) (hstart : r.cursor = 0) :
    r.readText.1.2 = [] ↔ r.bytes.size = 0 ∨ r.bytes = "\uFEFF".toUTF8 := by
  constructor
  · intro hnil
    rcases readText_unlimited h hstart with hwhole | ⟨hmark, -, hrest⟩
    · have hwidths := (Rune.liesAt_decodeFrom r.bytes 0 (Nat.zero_le _)).2
      rw [hwhole] at hnil
      have hnone : Rune.decodeFrom r.bytes 0 = [] := hnil
      rw [hnone] at hwidths
      exact .inl hwidths.symm
    · right
      have hend := end_readText hstart
      rw [cursor_drain_unlimited h hstart, hnil, hrest] at hend
      rw [← hmark, show 3 = r.bytes.size from hend, ByteArray.extract_zero_size]
  · rintro (hempty | hmark)
    · have hend := end_readText hstart
      rw [cursor_drain_unlimited h hstart, hempty] at hend
      cases hrunes : r.readText.1.2 with
      | nil => rfl
      | cons rune runes =>
          have hpos := rune.width_pos
          rw [hrunes, Rune.widths_cons] at hend
          omega
    · have hdrain : r.drain.1 = [.scalar Rune.bom] := by
        rw [drain_eq_decodeFrom h, hstart, hmark, Rune.decodeFrom_toUTF8]
        rfl
      rw [readText]
      generalize r.drain = drained at hdrain ⊢
      obtain ⟨runes, last⟩ := drained
      subst hdrain
      rfl

end Reader

namespace Scanner

/-- A freshly bound file ends where the last byte was read, unless it has no text. -/
theorem finish_start {r : Reader} (h : r.journal.Unlimited) (hstart : r.cursor = 0) :
    (start r).finish = textEnd r.bytes := by
  have hend := Reader.end_readText hstart
  rw [Reader.cursor_drain_unlimited h hstart] at hend
  have hnil := Reader.readText_eq_nil_iff h hstart
  show (if r.readText.1.2.isEmpty then 0 else r.readText.1.1 + Rune.widths r.readText.1.2) = _
  rw [hend, textEnd]
  rw [← data_eq_byteOrderMark] at hnil
  by_cases hmark : r.bytes.data = byteOrderMark
  · rw [if_pos hmark, if_pos (List.isEmpty_iff.2 (hnil.2 (.inr hmark)))]
  · rw [if_neg hmark]
    split
    · next hempty => exact ((hnil.1 (List.isEmpty_iff.1 hempty)).resolve_right hmark).symm
    · rfl

/-- A scanner in a file with these bytes, which without a budget knows where the text ends. -/
structure EndKnown (base : Nat) (bytes : ByteArray) (s : Scanner) : Prop where
  bytes_eq : s.reader.bytes = bytes
  base_eq : s.file.base = base
  finish_eq : s.journal.budget = 0 → s.finish = textEnd bytes

theorem endKnown_start {r : Reader} (hstart : r.cursor = 0) (hopen : r.journal.closed = false) :
    EndKnown r.file.base r.bytes (start r) := by
  refine ⟨?_, ?_, fun hbudget => ?_⟩
  · rw [reader_start, Reader.bytes_drain]
  · rw [file, reader_start, Reader.base_drain]
  · have hsame : (start r).journal.budget = r.journal.budget := (continues_start r).journal.budget_eq
    exact finish_start ⟨hsame ▸ hbudget, hopen⟩ hstart

namespace EndKnown

variable {base : Nat} {bytes : ByteArray} {s : Scanner}

theorem scan (h : EndKnown base bytes s) : EndKnown base bytes s.scan.2 := by
  obtain ⟨-, hfinish, hfile⟩ := s.scan_items
  refine ⟨?_, ?_, fun hbudget => ?_⟩
  · rw [bytes_scan, h.bytes_eq]
  · rw [hfile, h.base_eq]
  · have hsame : s.scan.2.journal.budget = s.journal.budget := s.continues_scan.journal.budget_eq
    rw [hfinish]
    exact h.finish_eq (hsame ▸ hbudget)

/-- Another budget starts the file over. -/
theorem setBudget (h : EndKnown base bytes s) (budget : Nat) : EndKnown base bytes (s.setBudget budget) := by
  have hagain := endKnown_start (r := (s.reader.setBudget budget).rewind) rfl rfl
  rw [← h.bytes_eq, ← h.base_eq]
  exact hagain

theorem afterCalls (h : EndKnown base bytes s) (calls : List Call) : EndKnown base bytes (s.afterCalls calls) := by
  induction calls generalizing s with
  | nil => exact h
  | cons call calls ih =>
      cases call with
      | scan => exact ih h.scan
      | setBudget budget => exact ih (h.setBudget budget)

/-- The end of the text that is handed out. -/
theorem scan_eof (h : EndKnown base bytes s) (hbudget : s.journal.budget = 0) (heof : s.scan.1.token = .eof) :
    s.scan.1 = { token := .eof, pos := .ofOffset (base + textEnd bytes), stop := .ofOffset (base + textEnd bytes) } := by
  cases hitems : s.stream.items with
  | nil => rw [scan_of_items_nil hitems, SourceFile.pos, h.base_eq, h.finish_eq hbudget]
  | cons item rest =>
      rw [(scan_of_items hitems).1] at heof
      exact absurd heof (s.stream.token_ne_eof item (hitems ▸ List.mem_cons_self))

end EndKnown

/-- Where the end of the text is.  A scanner is bound to a file, in whatever state it was before; tokens are taken and
the budget is changed at will.  If there is no budget now, then the end of the text is handed out after finitely many
tokens, and wherever it is handed out it is the same: it starts and ends just past the last byte of the file, or at the
first byte if the file is nothing but a byte order mark. -/
theorem end_of_text (s : Scanner) (name : String) (base : Nat) (source : ByteSource)
    (hfits : base + source.bytes.size < Pos.limit) (calls : List Call)
    (hbudget : ((s.init { name, base } source).afterCalls calls).journal.budget = 0) :
    let t := (s.init { name, base } source).afterCalls calls
    ∃ pos : Pos,
      pos.offset? = some (if source.bytes.data = byteOrderMark then base else base + source.bytes.size) ∧
      (∃ n, (t.after n).scan.1.token = .eof) ∧
      ∀ n, (t.after n).scan.1.token = .eof → (t.after n).scan.1 = { token := .eof, pos, stop := pos } := by
  intro t
  have hinit : EndKnown base source.bytes (s.init { name, base } source) :=
    endKnown_start (r := s.reader.init { name, base } source) rfl rfl
  have hknown (n : Nat) : EndKnown base source.bytes (t.after n) ∧ (t.after n).journal.budget = 0 := by
    induction n with
    | zero => exact ⟨hinit.afterCalls calls, hbudget⟩
    | succ n ih =>
        rw [after_succ]
        exact ⟨ih.1.scan, (t.after n).continues_scan.journal.budget_eq.trans ih.2⟩
  refine ⟨.ofOffset (base + textEnd source.bytes), ?_, ⟨t.stream.items.length, ?_⟩,
    fun n heof => (hknown n).1.scan_eof (hknown n).2 heof⟩
  · rw [Pos.offset?_ofOffset, textEnd]
    · split <;> rfl
    · rw [textEnd]
      split <;> omega
  · rw [after, scan_exhausted t _ (Nat.le_refl _)]

/-- A byte order mark, a letter, a blank and a byte that starts no character: the text ends behind the sixth byte, at
which the file ends. -/
theorem end_of_text_drifted :
    let source : ByteSource := { bytes := ⟨#[0xEF, 0xBB, 0xBF, 0x78, 0x20, 0xFF]⟩ }
    let t := (({} : Scanner).init { name := "f", base := 7 } source).afterCalls [.scan, .setBudget 0]
    7 + source.bytes.size < Pos.limit ∧ t.journal.budget = 0 ∧ source.bytes.data ≠ byteOrderMark ∧
    ∃ pos : Pos, pos.offset? = some 13 ∧ (∃ n, (t.after n).scan.1.token = .eof) ∧
      ∀ n, (t.after n).scan.1.token = .eof → (t.after n).scan.1 = { token := .eof, pos, stop := pos } := by
  intro source t
  have hfits : 7 + source.bytes.size < Pos.limit := by decide
  have hbudget : t.journal.budget = 0 := by decide +kernel
  have hmark : source.bytes.data ≠ byteOrderMark := by decide +kernel
  obtain ⟨pos, hpos, hend⟩ := end_of_text {} "f" 7 source hfits [.scan, .setBudget 0] hbudget
  rw [if_neg hmark] at hpos
  exact ⟨hfits, hbudget, hmark, pos, hpos, hend⟩

/-- The end of a file of three bytes that are a byte order mark is handed out at its first byte, not at the last. -/
theorem end_of_text_differs :
    let source : ByteSource := { bytes := ⟨#[0xEF, 0xBB, 0xBF]⟩ }
    let t := (({} : Scanner).init { name := "f", base := 7 } source).setBudget 0
    7 + source.bytes.size < Pos.limit ∧ t.journal.budget = 0 ∧ t.scan.1.token = .eof ∧
    t.scan.1.pos.offset? = some 7 ∧ t.scan.1.stop.offset? = some 7 ∧ 7 + source.bytes.size = 10 := by
  decide +kernel

end Scanner

end GoSource
