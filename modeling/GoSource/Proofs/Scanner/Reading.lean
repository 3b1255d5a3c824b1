import GoSource.Proofs.Scanner.Runes

/-!
# Runes as they are handed out

Call by call, a reader without a budget hands out the start mark, the runes of its bytes, and the end mark for ever.
Which runes these are can be said without decoding: a character wherever its encoding stands, and a malformed byte
wherever a byte is part of no encoding.

* **`EncodedAt`**: the encoding of a character stands at a place.
* **`Handout.runesFrom`**: the runes of the bytes from a place on, with their extents.  They cover the bytes, do not
  overlap, and none of them has the start of an encoding inside.
* **`Reader.Underway`**: a reader between the two marks; one step lemma for a rune, one for the end.
* **`Reader.runes_handed_out`**: what the calls hand out and report, and that putting back changes nothing.
-/

namespace GoSource

/-! ### Encodings -/

/-- The encoding of `c` stands in the bytes from byte `i` on. -/
def EncodedAt (bytes : ByteArray) (c : Char) (i : Nat) : Prop :=
  bytes.extract i (i + c.utf8Size) = (String.utf8EncodeChar c).toByteArray

namespace EncodedAt

variable {bytes : ByteArray} {c : Char} {i : Nat}

theorem add_le (h : EncodedAt bytes c i) : i + c.utf8Size ≤ bytes.size := by
  have hsize := congrArg ByteArray.size h
  have hpos := c.utf8Size_pos
  rw [ByteArray.size_extract, List.size_toByteArray, String.length_utf8EncodeChar] at hsize
  omega

theorem decode_eq (h : EncodedAt bytes c i) : bytes.utf8DecodeChar? i = some c := by
  have hle := h.add_le
  rw [ByteArray.utf8DecodeChar?_eq_utf8DecodeChar?_extract,
    ByteArray.extract_eq_extract_append_extract (i + c.utf8Size) (by omega) hle, h]
  exact ByteArray.utf8DecodeChar?_utf8EncodeChar_append

end EncodedAt

namespace Rune

variable {bytes : ByteArray} {c : Char} {i j : Nat}

/-- A character is read exactly where its encoding stands. -/
theorem decodeAt_eq_scalar_iff : decodeAt bytes i = .scalar c ↔ EncodedAt bytes c i := by
  constructor
  · intro h
    exact extract_of_decode (decode_of_decodeAt h)
  · intro h
    rw [decodeAt, h.decode_eq]

/-- A malformed byte is read exactly where no encoding starts. -/
theorem decodeAt_eq_malformed_iff : decodeAt bytes i = .malformed ↔ ∀ c, ¬ EncodedAt bytes c i := by
  constructor
  · intro h c hc
    rw [decodeAt_eq_scalar_iff.2 hc] at h
    cases h
  · intro h
    cases hrune : decodeAt bytes i with
    | malformed => rfl
    | scalar c => exact absurd (decodeAt_eq_scalar_iff.1 hrune) (h c)

/-- No encoding starts inside of another: its first byte is marked as such. -/
theorem eq_of_encodedAt (h : EncodedAt bytes c i) (hle : j ≤ i) (hlt : i < j + (decodeAt bytes j).width) : j = i := by
  refine (Nat.eq_or_lt_of_le hle).resolve_right fun hless => ?_
  have hinside : i - j < (decodeAt bytes j).width := by omega
  obtain ⟨b, hb, hinner⟩ := exists_byte_of_inside (by omega : 0 < i - j) hinside
  have hlength : 0 < (String.utf8EncodeChar c).length := by
    rw [String.length_utf8EncodeChar]
    exact c.utf8Size_pos
  have hfirst := byte_of_decode h.decode_eq hlength
  rw [Nat.add_zero] at hfirst
  rw [Nat.add_sub_of_le hle, hfirst, Option.some.injEq] at hb
  rw [← hb] at hinner
  exact hinner UInt8.isUTF8FirstByte_getElem_zero_utf8EncodeChar

end Rune

/-! ### Runes with their extents -/

/-- A reading that was handed out, with its extent. -/
structure Handout where
  /-- What was handed out. -/
  reading : Reading
  /-- Where it starts. -/
  offset : Nat
  /-- Where it ends. -/
  stop : Nat
  deriving DecidableEq, Repr

namespace Handout

/-- The start mark. -/
def start : Handout :=
  ⟨.start, 0, 0⟩

/-- The end mark of a file of some size. -/
def finish (size : Nat) : Handout :=
  ⟨.finish, size, size⟩

/-- Runes one after another, the first of them at byte `i`. -/
def ofRunes : Nat → List Rune → List Handout
  | _, [] => []
  | i, r :: rs => ⟨.rune r, i, i + r.width⟩ :: ofRunes (i + r.width) rs

/-- The runes of the bytes from `i` on. -/
def runesFrom (bytes : ByteArray) (i : Nat) : List Handout :=
  ofRunes i (Rune.decodeFrom bytes i)

variable {bytes : ByteArray} {c : Char} {i k : Nat} {x y : Handout}

theorem runesFrom_of_lt (h : i < bytes.size) :
    runesFrom bytes i = ⟨.rune (Rune.decodeAt bytes i), i, i + (Rune.decodeAt bytes i).width⟩ ::
      runesFrom bytes (i + (Rune.decodeAt bytes i).width) := by
  rw [runesFrom, Rune.decodeFrom, if_pos h]
  rfl

theorem runesFrom_of_le (h : bytes.size ≤ i) : runesFrom bytes i = [] := by
  rw [runesFrom, Rune.decodeFrom_of_le h]
  rfl

/-- What holds at the end of the bytes, and before a rune if it holds after it, holds everywhere. -/
theorem runesFrom_induction (bytes : ByteArray) {P : Nat → Prop} (hend : ∀ i, bytes.size ≤ i → P i)
    (hrune : ∀ i, i < bytes.size → P (i + (Rune.decodeAt bytes i).width) → P i) (i : Nat) : P i := by
  fun_induction Rune.decodeFrom bytes i with
  | case1 i hlt ih => exact hrune i hlt ih
  | case2 i hge => exact hend i (Nat.not_lt.1 hge)

/-- A rune is what is read at its place. -/
theorem eq_of_mem (h : x ∈ runesFrom bytes i) :
    i ≤ x.offset ∧ x.offset < bytes.size ∧
      x = ⟨.rune (Rune.decodeAt bytes x.offset), x.offset, x.offset + (Rune.decodeAt bytes x.offset).width⟩ := by
  induction i using runesFrom_induction bytes with
  | hend i hle =>
      rw [runesFrom_of_le hle] at h
      cases h
  | hrune i hlt ih =>
      rw [runesFrom_of_lt hlt] at h
      rcases List.mem_cons.1 h with rfl | h
      · exact ⟨Nat.le_refl i, hlt, rfl⟩
      · obtain ⟨hle, hlater⟩ := ih h
        exact ⟨by omega, hlater⟩

/-- Every byte belongs to a rune. -/
theorem exists_covering (hk : i ≤ k) (hlt : k < bytes.size) : ∃ x ∈ runesFrom bytes i, x.offset ≤ k ∧ k < x.stop := by
  induction i using runesFrom_induction bytes with
  | hend i hle => omega
  | hrune i hi ih =>
      rw [runesFrom_of_lt hi]
      by_cases hafter : i + (Rune.decodeAt bytes i).width ≤ k
      · obtain ⟨x, hx, hcovers⟩ := ih hafter
        exact ⟨x, List.mem_cons_of_mem _ hx, hcovers⟩
      · exact ⟨_, List.mem_cons_self, hk, Nat.not_le.1 hafter⟩

/-- Runes do not overlap. -/
theorem stop_le_offset (hx : x ∈ runesFrom bytes i) (hy : y ∈ runesFrom bytes i) (hlt : x.offset < y.offset) :
    x.stop ≤ y.offset := by
  induction i using runesFrom_induction bytes with
  | hend i hle =>
      rw [runesFrom_of_le hle] at hx
      cases hx
  | hrune i hi ih =>
      rw [runesFrom_of_lt hi] at hx hy
      rcases List.mem_cons.1 hy with rfl | hy
      · rcases List.mem_cons.1 hx with rfl | hx
        · exact absurd hlt (Nat.lt_irrefl _)
        · have hle := (eq_of_mem hx).1
          dsimp only at hlt
          omega
      · rcases List.mem_cons.1 hx with rfl | hx
        · exact (eq_of_mem hy).1
        · exact ih hx hy

/-- The characters are where their encodings are. -/
theorem mem_scalar_iff :
    ⟨.rune (.scalar c), k, k + c.utf8Size⟩ ∈ runesFrom bytes 0 ↔ EncodedAt bytes c k := by
  constructor
  · intro h
    obtain ⟨-, -, heq⟩ := eq_of_mem h
    injection heq with hreading
    injection hreading with hrune
    exact Rune.decodeAt_eq_scalar_iff.1 hrune.symm
  · intro h
    have hle := h.add_le
    have hpos := c.utf8Size_pos
    obtain ⟨x, hx, hbefore, hafter⟩ := exists_covering (Nat.zero_le k) (by omega : k < bytes.size)
    obtain ⟨-, -, heq⟩ := eq_of_mem hx
    have hplace : x.offset = k := by
      refine Rune.eq_of_encodedAt h hbefore ?_
      rw [heq] at hafter
      exact hafter
    rw [heq, hplace, Rune.decodeAt_eq_scalar_iff.2 h] at hx
    exact hx

/-- The malformed bytes are those that belong to no encoding. -/
theorem mem_malformed_iff :
    ⟨.rune .malformed, k, k + 1⟩ ∈ runesFrom bytes 0 ↔
      k < bytes.size ∧ ∀ c i, EncodedAt bytes c i → k < i ∨ i + c.utf8Size ≤ k := by
  constructor
  · intro h
    obtain ⟨-, hlt, heq⟩ := eq_of_mem h
    injection heq with hreading
    injection hreading with hrune
    refine ⟨hlt, fun c i hc => ?_⟩
    rcases Nat.lt_trichotomy k i with hlater | rfl | hearlier
    · exact .inl hlater
    · exact absurd hc (Rune.decodeAt_eq_malformed_iff.1 hrune.symm c)
    · exact .inr (stop_le_offset (mem_scalar_iff.2 hc) h hearlier)
  · rintro ⟨hlt, houtside⟩
    obtain ⟨x, hx, hbefore, hafter⟩ := exists_covering (Nat.zero_le k) hlt
    obtain ⟨-, -, heq⟩ := eq_of_mem hx
    cases hrune : Rune.decodeAt bytes x.offset with
    | scalar c =>
        rw [heq, hrune] at hafter
        rcases houtside c x.offset (Rune.decodeAt_eq_scalar_iff.1 hrune) with hlater | hearlier
        · omega
        · exact absurd hafter (Nat.not_lt.2 hearlier)
    | malformed =>
        rw [heq, hrune] at hafter
        have hplace : x.offset = k := Nat.le_antisymm hbefore (Nat.le_of_lt_succ hafter)
        rw [heq, hplace, ← hplace, hrune, hplace] at hx
        exact hx

end Handout

/-! ### Calls -/

namespace Reader

/-- The next `n` readings, with their extents. -/
def nextMany (r : Reader) : Nat → List Handout × Reader
  | 0 => ([], r)
  | n + 1 => (⟨r.next.1, r.next.2.offset, r.next.2.stop⟩ :: (r.next.2.nextMany n).1, (r.next.2.nextMany n).2)

theorem take_append_replicate (xs : List Handout) (x : Handout) (n : Nat) :
    (xs ++ List.replicate (n + 1) x).take n = (xs ++ List.replicate n x).take n := by
  rw [List.replicate_succ', ← List.append_assoc, List.take_append_of_le_length]
  simp

/-- A reader without a budget that has handed out its start mark, and to which nothing was put back. -/
structure Underway (r : Reader) : Prop where
  started : r.started = true
  putBack : r.putBack = none
  unlimited : r.journal.Unlimited

variable {r : Reader}

/-- A rune is read: besides the place, nothing but the line table and the journal can change. -/
theorem exists_take (r : Reader) :
    ∃ file journal, r.take.2 =
      { r with
          file, journal
          cursor := r.cursor + (Rune.decodeAt r.bytes r.cursor).width
          offset := r.cursor
          stop := r.cursor + (Rune.decodeAt r.bytes r.cursor).width } := by
  simp only [take]
  split
  · next hrune => exact ⟨r.file, _, by rw [hrune]; rfl⟩
  · next hrune =>
      split
      · exact ⟨_, r.journal, by rw [hrune]⟩
      · exact ⟨r.file, r.journal, by rw [hrune]⟩

theorem offset_take (r : Reader) : r.take.2.offset = r.cursor := by
  obtain ⟨file, journal, htake⟩ := r.exists_take
  rw [htake]

theorem stop_take (r : Reader) : r.take.2.stop = r.cursor + (Rune.decodeAt r.bytes r.cursor).width := by
  obtain ⟨file, journal, htake⟩ := r.exists_take
  rw [htake]

theorem started_take (r : Reader) : r.take.2.started = r.started := by
  obtain ⟨file, journal, htake⟩ := r.exists_take
  rw [htake]

theorem putBack_take (r : Reader) : r.take.2.putBack = r.putBack := by
  obtain ⟨file, journal, htake⟩ := r.exists_take
  rw [htake]

theorem next_of_none (h : r.putBack = none) :
    r.next =
      if !r.started then (.start, { r with started := true })
      else if r.journal.closed then (.stopped, { r with offset := r.cursor, stop := r.cursor })
      else if r.cursor < r.bytes.size then (.rune r.take.1, r.take.2)
      else (.finish, { r with offset := r.bytes.size, stop := r.bytes.size }) := by
  rw [next, h]

/-- A byte that starts no character is reported at its place. -/
theorem entries_take (h : r.journal.Unlimited) :
    r.take.2.journal.entries.toList = r.journal.entries.toList ++
      if Rune.decodeAt r.bytes r.cursor = .malformed then
        [.make r.file (r.file.pos r.cursor) (.lexical .invalidUtf8)]
      else [] := by
  simp only [take]
  split
  · next hrune => simp [report, Journal.report_of_unlimited h, hrune]
  · next hrune => split <;> simp [hrune]

namespace Underway

theorem take (h : r.Underway) : r.take.2.Underway := by
  refine ⟨?_, ?_, unlimited_take h.unlimited⟩
  · rw [started_take, h.started]
  · rw [putBack_take, h.putBack]

/-- One call: the next rune. -/
theorem next_of_lt (h : r.Underway) (hlt : r.cursor < r.bytes.size) :
    r.next = (.rune (Rune.decodeAt r.bytes r.cursor), r.take.2) := by
  rw [next_of_none h.putBack, h.started, h.unlimited.2, ← fst_take]
  exact if_pos hlt

/-- One call: the end. -/
theorem next_of_le (h : r.Underway) (hle : r.bytes.size ≤ r.cursor) :
    r.next = (.finish, { r with offset := r.bytes.size, stop := r.bytes.size }) := by
  rw [next_of_none h.putBack, h.started, h.unlimited.2]
  exact if_neg (Nat.not_lt.2 hle)

theorem finished (h : r.Underway) :
    Underway { r with offset := r.bytes.size, stop := r.bytes.size } :=
  ⟨h.started, h.putBack, h.unlimited⟩

/-- A run of calls hands out the runes from the cursor on, and then the end for ever. -/
theorem nextMany_fst (h : r.Underway) (n : Nat) :
    (r.nextMany n).1 =
      (Handout.runesFrom r.bytes r.cursor ++ List.replicate n (Handout.finish r.bytes.size)).take n := by
  induction n generalizing r with
  | zero => rfl
  | succ n ih =>
      rw [nextMany]
      by_cases hlt : r.cursor < r.bytes.size
      · have hrest := ih h.take
        rw [bytes_take, cursor_take] at hrest
        rw [h.next_of_lt hlt, hrest, offset_take, stop_take, Handout.runesFrom_of_lt hlt, List.cons_append,
          List.take_succ_cons, take_append_replicate]
      · have hle := Nat.not_lt.1 hlt
        have hrest := ih h.finished
        rw [Handout.runesFrom_of_le hle, List.nil_append] at hrest ⊢
        rw [h.next_of_le hle, hrest, List.replicate_succ, List.take_succ_cons]
        rfl

/-- A run of calls reports the malformed bytes that it hands out. -/
theorem entries_nextMany (h : r.Underway) (n : Nat) :
    ∃ added, (r.nextMany n).2.journal.entries.toList = r.journal.entries.toList ++ added ∧
      added.map (fun d => (d.pos, d.cause)) =
        ((r.nextMany n).1.filter (·.reading = .rune .malformed)).map
          fun x => (r.file.pos x.offset, .lexical .invalidUtf8) := by
  induction n generalizing r with
  | zero => exact ⟨[], by rw [nextMany, List.append_nil], rfl⟩
  | succ n ih =>
      rw [nextMany]
      by_cases hlt : r.cursor < r.bytes.size
      · obtain ⟨added, hentries, hadded⟩ := ih h.take
        have hpos (k : Nat) : r.take.2.file.pos k = r.file.pos k := by
          rw [SourceFile.pos, SourceFile.pos, base_take]
        simp only [hpos] at hadded
        rw [h.next_of_lt hlt, hentries, entries_take h.unlimited, List.append_assoc]
        refine ⟨_, rfl, ?_⟩
        rw [List.map_append, hadded, offset_take]
        by_cases hrune : Rune.decodeAt r.bytes r.cursor = .malformed
        · rw [if_pos hrune, hrune]
          rfl
        · rw [if_neg hrune, List.filter_cons_of_neg (by simpa using hrune)]
          rfl
      · rw [h.next_of_le (Nat.not_lt.1 hlt), List.filter_cons_of_neg (by simp)]
        exact ih h.finished

end Underway

/-- The first call hands out the start mark. -/
theorem next_init (r : Reader) (file : SourceFile) (source : ByteSource) :
    (r.init file source).next = (.start, { r.init file source with started := true }) := rfl

theorem putBack_next (r : Reader) : r.next.2.putBack = none := by
  cases hback : r.putBack with
  | some saved => rw [next, hback]
  | none =>
      rw [next_of_none hback]
      split
      · exact hback
      · split
        · exact hback
        · split
          · rw [putBack_take, hback]
          · exact hback

/-- What is put back is handed out again, and nothing else is changed. -/
theorem next_unread (r : Reader) : (r.next.2.unread r.next.1).next = r.next := by
  have hback := r.putBack_next
  generalize r.next = handed at hback ⊢
  obtain ⟨reading, s⟩ := handed
  rw [unread, next]
  dsimp only at hback ⊢
  rw [← hback]

/-- A reader without a budget takes the bytes of a file apart.  Its calls hand out the start mark once, then runes, and
then the end mark for ever.  The runes lie one after another and cover the bytes; a character is handed out exactly
where its encoding stands, and a byte is handed out as malformed exactly if it belongs to no encoding, which at the
place of a rune is to say that no encoding starts there.  For each malformed byte that is handed out there is one
diagnostic, at that byte.  What is put back after a call is handed out by the next call, which leaves the reader as
it was, so the calls after that hand out what they would have. -/
theorem runes_handed_out (r : Reader) (file : SourceFile) (source : ByteSource) :
    let bytes := source.bytes
    let fresh := (r.setBudget 0).init file source
    ∃ rs : List Rune,
      let runes := Handout.ofRunes 0 rs
      (∀ n, (fresh.nextMany n).1 = (Handout.start :: runes ++ List.replicate n (Handout.finish bytes.size)).take n) ∧
      Rune.widths rs = bytes.size ∧
      (∀ c i, ⟨.rune (.scalar c), i, i + c.utf8Size⟩ ∈ runes ↔ EncodedAt bytes c i) ∧
      (∀ i, ⟨.rune .malformed, i, i + 1⟩ ∈ runes ↔
        i < bytes.size ∧ ∀ c j, EncodedAt bytes c j → i < j ∨ j + c.utf8Size ≤ i) ∧
      (∀ x ∈ runes, x.reading = .rune .malformed ↔ ∀ c, ¬ EncodedAt bytes c x.offset) ∧
      (∀ n, ∃ added, (fresh.nextMany n).2.journal.entries.toList = fresh.journal.entries.toList ++ added ∧
        added.map (fun d => (d.pos, d.cause)) =
          ((fresh.nextMany n).1.filter (·.reading = .rune .malformed)).map
            fun x => (file.pos x.offset, .lexical .invalidUtf8)) ∧
      ∀ s : Reader, (s.next.2.unread s.next.1).next = s.next := by
  intro bytes fresh
  have hunderway : Underway { fresh with started := true } := ⟨rfl, rfl, rfl, rfl⟩
  refine ⟨Rune.decodeFrom bytes 0, fun n => ?_, ?_, fun c i => Handout.mem_scalar_iff,
    fun i => Handout.mem_malformed_iff, fun x hx => ?_, fun n => ?_, next_unread⟩
  · cases n with
    | zero => rfl
    | succ n =>
        have hrest := hunderway.nextMany_fst n
        rw [nextMany, next_init, hrest, List.cons_append, List.take_succ_cons, take_append_replicate]
        rfl
  · have hwidths := (Rune.liesAt_decodeFrom bytes 0 (Nat.zero_le _)).2
    rw [Nat.zero_add] at hwidths
    exact hwidths
  · obtain ⟨-, -, heq⟩ := Handout.eq_of_mem hx
    rw [heq, Reading.rune.injEq, Rune.decodeAt_eq_malformed_iff]
  · cases n with
    | zero => exact ⟨[], by rw [nextMany, List.append_nil], rfl⟩
    | succ n =>
        rw [nextMany, next_init, List.filter_cons_of_neg (by simp)]
        exact hunderway.entries_nextMany n

/-- An overlong form and a character that breaks off are malformed byte by byte: at the fourth byte no encoding starts. -/
theorem runes_handed_out_overlong :
    let source : ByteSource := { bytes := ⟨#[0x61, 0xC3, 0xA9, 0xC0, 0x80, 0xE2, 0x82]⟩ }
    let fresh := (({} : Reader).setBudget 0).init { name := "f" } source
    (fresh.nextMany 9).1.map (·.reading) =
      [.start, .rune (.scalar 'a'), .rune (.scalar 'é'), .rune .malformed, .rune .malformed, .rune .malformed,
        .rune .malformed, .finish, .finish] ∧
    ∃ rs : List Rune, ⟨.rune .malformed, 3, 4⟩ ∈ Handout.ofRunes 0 rs ∧
      (∀ x ∈ Handout.ofRunes 0 rs, x.reading = .rune .malformed ↔ ∀ c, ¬ EncodedAt source.bytes c x.offset) ∧
      ∀ c, ¬ EncodedAt source.bytes c 3 := by
  intro source fresh
  obtain ⟨rs, hcalls, -, -, -, hboundary, -⟩ := runes_handed_out {} { name := "f" } source
  have hhanded : (fresh.nextMany 5).1 = [Handout.start, ⟨.rune (.scalar 'a'), 0, 1⟩, ⟨.rune (.scalar 'é'), 1, 3⟩,
      ⟨.rune .malformed, 3, 4⟩, ⟨.rune .malformed, 4, 5⟩] := by
    decide +kernel
  have hmem : ⟨.rune .malformed, 3, 4⟩ ∈ Handout.ofRunes 0 rs := by
    have hin : ⟨.rune .malformed, 3, 4⟩ ∈ (fresh.nextMany 5).1 := by simp [hhanded]
    rw [hcalls 5] at hin
    simpa [Handout.start, Handout.finish] using List.mem_of_mem_take hin
  exact ⟨by decide +kernel, rs, hmem, hboundary, (hboundary _ hmem).1 rfl⟩

end Reader

end GoSource
