import GoSource.Proofs.Grammar.Restart

/-!
# Rewinding a reader

A reader that starts its file over takes back what was reported since the file was bound.  It goes by a number, how
many diagnostics there were at that time, and cuts the journal off there.  As long as the journal is not cleared these
are the diagnostics that stood in it.  A journal that was cleared and has grown again is cut off at the same number,
and keeps diagnostics that were made after the file was bound.

* **`Reader.Call`** are the calls to a reader, **`Reader.after`** runs a sequence of them.
* **`Reader.Stood`**, **`Reader.stood`**: what stood in the journal when the file was bound, and what is left of it.
* **`Stood.Fits`**: how that shows in the journal at any time, by `Stood.Fits.run` for a call and `Stood.Fits.after`
  for a sequence of them.
* **`rewind_after`**: what a reader that is rewound has in its journal, and when it is what stood there;
  `rewind_spares_later` shows a diagnostic that survives.
-/

namespace GoSource

namespace Reader

/-- The calls to a reader. -/
inductive Call where
  /-- Binds a file and its bytes, which may break off. -/
  | init (file : SourceFile) (source : ByteSource)
  /-- Reads on. -/
  | next
  /-- Puts a reading back. -/
  | unread (reading : Reading)
  /-- Reports a fault of the text. -/
  | fault (pos : Pos) (cause : LexicalFault)
  /-- Reports a remark in the caller's words. -/
  | remark (pos : Pos) (text : String)
  /-- Forgets all diagnostics. -/
  | clear
  /-- Sets the budget. -/
  | setBudget (budget : Nat)
  /-- Starts the file over. -/
  | rewind

/-- What a call leaves behind. -/
def Call.run (r : Reader) : Call → Reader
  | .init file source => r.init file source
  | .next => r.next.2
  | .unread reading => r.unread reading
  | .fault pos cause => r.report pos (.lexical cause)
  | .remark pos text => r.report pos (.remark .lexical text)
  | .clear => { r with journal := r.journal.clear }
  | .setBudget budget => r.setBudget budget
  | .rewind => r.rewind

/-- What a sequence of calls leaves behind. -/
def after (r : Reader) (calls : List Call) : Reader :=
  calls.foldl Call.run r

/-- The diagnostics that stood in the journal when the current file was bound, one about its source included. -/
structure Stood where
  /-- How many there were. -/
  count : Nat := 0
  /-- Those that have not been cleared since. -/
  left : List (Diagnostic SourceFault) := []

/-- What becomes of them by a call to the reader `r`. -/
def Call.stood (r : Reader) (s : Stood) : Call → Stood
  | .init file source =>
      let entries := (r.init file source).journal.entries
      { count := entries.size, left := entries.toList }
  | .clear => { s with left := [] }
  | _ => s

/-- What becomes of them by a sequence of calls. -/
def stood (r : Reader) (s : Stood) : List Call → Stood
  | [] => s
  | call :: calls => stood (call.run r) (call.stood r s) calls

/-! ### What shows in the journal -/

/-- The journal begins with what is left, and counts what stood there.  Diagnostics are cleared together, so all are
left or none. -/
structure Stood.Fits (s : Stood) (j : Journal) : Prop where
  kept_eq : j.kept = s.count
  first : s.left <+: j.entries.toList
  whole : s.left = [] ∨ s.left.length = s.count

theorem toList_rewind (j : Journal) : j.rewind.entries.toList = j.entries.toList.take j.kept := by
  simp [Journal.rewind, Array.take_eq_extract, List.extract_eq_take_drop]

namespace Stood.Fits

variable {s : Stood} {j j' : Journal} {r : Reader}

theorem length_le (h : s.Fits j) : s.left.length ≤ s.count := by
  rcases h.whole with hnone | hall
  · rw [hnone]
    exact Nat.zero_le _
  · exact Nat.le_of_eq hall

/-- More diagnostics come after those that are left. -/
theorem continues (h : s.Fits j) (hmore : j.Continues j') : s.Fits j' :=
  ⟨hmore.kept_eq.trans h.kept_eq, h.first.trans hmore.entries, h.whole⟩

/-- What is left is never cut off. -/
theorem rewind (h : s.Fits j) : s.Fits j.rewind := by
  refine ⟨h.kept_eq, ?_, h.whole⟩
  rw [toList_rewind, h.kept_eq]
  exact List.prefix_take_iff.2 ⟨h.first, h.length_le⟩

theorem clear (h : s.Fits j) : Stood.Fits { s with left := [] } j.clear :=
  ⟨h.kept_eq, List.nil_prefix, .inl rfl⟩

theorem init (r : Reader) (file : SourceFile) (source : ByteSource) :
    (Call.stood r s (.init file source)).Fits (r.init file source).journal :=
  ⟨rfl, List.prefix_rfl, .inr (Array.length_toList)⟩

end Stood.Fits

/-- Reading on adds diagnostics, if it does anything to the journal. -/
theorem continues_next (r : Reader) : r.journal.Continues r.next.2.journal := by
  unfold next
  split
  · exact .refl _
  · split
    · exact .refl _
    · split
      · exact .refl _
      · split
        · exact (Reader.Continues.take r).journal
        · exact .refl _

namespace Stood.Fits

variable {s : Stood} {r : Reader}

/-- One call. -/
theorem run (h : s.Fits r.journal) (call : Call) : (call.stood r s).Fits (call.run r).journal := by
  cases call with
  | init file source => exact init r file source
  | next => exact h.continues r.continues_next
  | unread reading => exact h
  | fault pos cause => exact h.continues (.report _ _)
  | remark pos text => exact h.continues (.report _ _)
  | clear => exact h.clear
  | setBudget budget => exact ⟨h.kept_eq, h.first, h.whole⟩
  | rewind => exact h.rewind

/-- A sequence of calls. -/
theorem after (h : s.Fits r.journal) (calls : List Call) : (r.stood s calls).Fits (r.after calls).journal := by
  induction calls generalizing r s with
  | nil => exact h
  | cons call calls ih => exact ih (h.run call)

/-- The journal is cut off behind what is left, unless less is left than there was and more has come. -/
theorem take_eq_left_iff {j : Journal} (h : s.Fits j) :
    j.entries.toList.take s.count = s.left ↔ s.left.length = s.count ∨ j.entries.toList = s.left := by
  constructor
  · intro htake
    by_cases hshort : j.entries.toList.length ≤ s.count
    · right
      rw [← htake, List.take_of_length_le hshort]
    · left
      rw [← htake, List.length_take]
      omega
  · rintro (hall | hnone)
    · rw [← hall, ← List.prefix_iff_eq_take.1 h.first]
    · rw [hnone, List.take_of_length_le h.length_le]

end Stood.Fits

/-! ### Rewinding -/

/-- A reader that starts over after any calls.  It keeps as many diagnostics as stood in the journal when the file was
bound, if there are so many.  First among them are those that stood there and have not been cleared since.  There are
no others just if none was cleared, or nothing has been reported after it. -/
theorem rewind_after (calls : List Call) :
    let r := ({} : Reader).after calls
    let stood := ({} : Reader).stood {} calls
    stood.left <+: r.rewind.journal.entries.toList ∧
    r.rewind.journal.entries.toList = r.journal.entries.toList.take stood.count ∧
    (r.rewind.journal.entries.toList = stood.left ↔
      stood.left.length = stood.count ∨ r.journal.entries.toList = stood.left) := by
  intro r stood
  have hblank : Stood.Fits {} ({} : Reader).journal := ⟨rfl, List.nil_prefix, .inl rfl⟩
  have hfits : stood.Fits r.journal := hblank.after calls
  have htake : r.rewind.journal.entries.toList = r.journal.entries.toList.take stood.count := by
    rw [← hfits.kept_eq]
    exact toList_rewind r.journal
  refine ⟨hfits.rewind.first, htake, ?_⟩
  rw [htake]
  exact hfits.take_eq_left_iff

/-- A source that breaks off is reported when it is bound.  That diagnostic is cleared, and the one about a malformed
byte, which comes after it, takes its place when the reader is rewound. -/
theorem rewind_spares_later :
    let calls : List Call := [.init {} { bytes := ⟨#[0xFF]⟩, failure := some "gone" }, .clear, .next, .next]
    let r := ({} : Reader).after calls
    (({} : Reader).stood {} calls).left = [] ∧
    r.rewind.journal.entries.toList.map (·.cause) = [.lexical .invalidUtf8] ∧
    ¬ ∀ calls : List Call,
      (({} : Reader).after calls).rewind.journal.entries.toList = (({} : Reader).stood {} calls).left := by
  intro calls r
  have hcauses : r.rewind.journal.entries.toList.map (·.cause) = [.lexical .invalidUtf8] := by decide +kernel
  have hleft : (({} : Reader).stood {} calls).left = [] := rfl
  refine ⟨hleft, hcauses, fun hclaim => ?_⟩
  rw [hclaim calls, hleft] at hcauses
  cases hcauses

end Reader

end GoSource
