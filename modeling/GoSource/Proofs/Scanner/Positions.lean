import GoSource.Proofs.Grammar.Restart
import GoSource.Proofs.Grammar.Totality
import GoSource.Proofs.Scanner.Lossless

/-!
# Lines and columns

A position is shown as a line and a column.  The line table is filled while the bytes of a file are decoded, and a
position is looked up in it by halving; what is found is what one counts on the bytes.

* **`lineFeeds bytes n`** are the line feeds before byte `n`, **`countedPosition`** the position that they give.
* **`Reader.Charted`**: the line table knows the line feeds that were read, and no others.  Reading keeps it so,
  since no line feed lies inside a character.
* **`SourceFile.countUpTo_eq`**: halving finds what divides a table.
* **`scanned_position`**: the positions of all tokens of a file.
-/

namespace GoSource

/-! ### Counting -/

/-- Where the line feeds among the first `n` bytes stand. -/
def lineFeeds (bytes : ByteArray) (n : Nat) : List Nat :=
  (List.range n).filter fun i => bytes[i]? == some 0x0A

/-- Where the line of byte `n` starts: just after the last line feed before it, or at the first byte. -/
def lineOrigin (bytes : ByteArray) (n : Nat) : Nat :=
  ((lineFeeds bytes n).getLast?.map (· + 1)).getD 0

/-- The position of byte `n` of a file, as one counts it. -/
def countedPosition (name : String) (base : Nat) (bytes : ByteArray) (n : Nat) : Position :=
  { fileName := name
    offset := base + n
    line := 1 + (lineFeeds bytes n).length
    column := n - lineOrigin bytes n + 1 }

theorem lt_of_mem_lineFeeds {bytes : ByteArray} {n k : Nat} (h : k ∈ lineFeeds bytes n) : k < n := by
  simp only [lineFeeds, List.mem_filter, List.mem_range] at h
  exact h.1

theorem lineFeeds_succ (bytes : ByteArray) (n : Nat) :
    lineFeeds bytes (n + 1) = lineFeeds bytes n ++ if bytes[n]? = some 0x0A then [n] else [] := by
  rw [lineFeeds, List.range_succ, List.filter_append]
  by_cases h : bytes[n]? = some 0x0A
  · simp [lineFeeds, h]
  · simp [lineFeeds, h]

/-- Later line feeds come after the earlier ones. -/
theorem lineFeeds_append (bytes : ByteArray) {n m : Nat} (h : n ≤ m) :
    ∃ later, lineFeeds bytes m = lineFeeds bytes n ++ later ∧ ∀ k ∈ later, n ≤ k := by
  induction h with
  | refl => exact ⟨[], by simp, by simp⟩
  | @step m hle ih =>
      obtain ⟨later, hlater, hge⟩ := ih
      refine ⟨later ++ if bytes[m]? = some 0x0A then [m] else [], ?_, ?_⟩
      · rw [lineFeeds_succ, hlater, List.append_assoc]
      · intro k hk
        rcases List.mem_append.1 hk with hk | hk
        · exact hge k hk
        · split at hk
          · rw [List.mem_singleton.1 hk]
            exact hle
          · simp at hk

/-- Where no line feed is passed, none is added. -/
theorem lineFeeds_add {bytes : ByteArray} {i : Nat} (w : Nat)
    (h : ∀ k, i ≤ k → k < i + w → bytes[k]? ≠ some 0x0A) : lineFeeds bytes (i + w) = lineFeeds bytes i := by
  induction w with
  | zero => rfl
  | succ w ih =>
      rw [← Nat.add_assoc, lineFeeds_succ, if_neg (h (i + w) (by omega) (by omega)), List.append_nil]
      exact ih fun k hk hlt => h k hk (by omega)

/-! ### Line feeds and runes -/

namespace Rune

/-- A line feed is a rune of its own. -/
theorem decodeAt_eq_lineFeed_iff {bytes : ByteArray} {i : Nat} :
    decodeAt bytes i = .scalar '\n' ↔ bytes[i]? = some 0x0A := by
  constructor
  · intro h
    exact byte_of_decodeAt h (by decide)
  · intro h
    obtain ⟨hlt, hbyte⟩ := getElem?_eq_some_iff.1 h
    have hcut : bytes.extract i bytes.size =
        (String.utf8EncodeChar '\n').toByteArray ++ bytes.extract (i + 1) bytes.size := by
      rw [ByteArray.extract_eq_extract_append_extract (i + 1) (by omega) hlt, ByteArray.extract_add_one hlt, hbyte]
      rfl
    have hdecode : bytes.utf8DecodeChar? i = some '\n' := by
      rw [ByteArray.utf8DecodeChar?_eq_utf8DecodeChar?_extract, hcut]
      exact ByteArray.utf8DecodeChar?_utf8EncodeChar_append
    rw [decodeAt, hdecode]

/-- No line feed lies inside a rune. -/
theorem ne_lineFeed_of_inside {bytes : ByteArray} {i k : Nat} (hk : 0 < k) (hlt : k < (decodeAt bytes i).width) :
    bytes[i + k]? ≠ some 0x0A := by
  obtain ⟨b, hb, hinner⟩ := exists_byte_of_inside hk hlt
  rw [hb, ne_eq, Option.some.injEq]
  rintro rfl
  exact hinner (by decide)

/-- A rune adds itself to the line feeds if it is one. -/
theorem lineFeeds_add_width (bytes : ByteArray) (i : Nat) :
    lineFeeds bytes (i + (decodeAt bytes i).width) =
      lineFeeds bytes i ++ if decodeAt bytes i = .scalar '\n' then [i] else [] := by
  have hwidth := (decodeAt bytes i).width_pos
  obtain ⟨w, hw⟩ : ∃ w, (decodeAt bytes i).width = 1 + w := ⟨_, (Nat.add_sub_of_le hwidth).symm⟩
  have hinside : ∀ k, i + 1 ≤ k → k < i + 1 + w → bytes[k]? ≠ some 0x0A := by
    intro k hk hlt
    obtain ⟨d, rfl⟩ := Nat.exists_eq_add_of_le hk
    rw [Nat.add_assoc]
    exact ne_lineFeed_of_inside (by omega) (by omega)
  rw [hw, ← Nat.add_assoc, lineFeeds_add w hinside, lineFeeds_succ]
  simp only [decodeAt_eq_lineFeed_iff]

end Rune

/-! ### The line table -/

namespace Reader

/-- The line table knows the line feeds before the cursor, and no others. -/
def Charted (r : Reader) : Prop :=
  r.file.laterLines.toList = (lineFeeds r.bytes r.cursor).map (r.file.base + · + 1)

variable {r : Reader}

/-- The last line starts at the cursor or before it. -/
theorem Charted.lastLine_le (h : r.Charted) : r.file.lastLine ≤ r.file.base + r.cursor := by
  rw [SourceFile.lastLine, ← Array.getLast?_toList, h, List.getLast?_map]
  cases hlast : (lineFeeds r.bytes r.cursor).getLast? with
  | none => exact Nat.le_add_right _ _
  | some k =>
      have hlt := lt_of_mem_lineFeeds (List.mem_of_getLast? hlast)
      show r.file.base + k + 1 ≤ r.file.base + r.cursor
      omega

/-- A rune is read: if it is a line feed, the line after it is entered. -/
theorem Charted.take (h : r.Charted) : r.take.2.Charted := by
  unfold Charted
  rw [bytes_take, cursor_take, base_take, Rune.lineFeeds_add_width, List.map_append, ← h]
  have hle := h.lastLine_le
  simp only [Reader.take]
  split
  · next hrune => simp [Reader.report, hrune]
  · next c hrune =>
      split
      · next hfeed =>
          subst hfeed
          have hlater : r.file.lastLine < r.file.base + (r.cursor + Rune.width (.scalar '\n')) := by
            have := Rune.width_pos (.scalar '\n')
            omega
          rw [hrune, SourceFile.addLine, if_pos hlater, if_pos rfl]
          simp
          rfl
      · next hother =>
          rw [hrune, if_neg (by simpa using hother)]
          simp

theorem Charted.drain (h : r.Charted) : r.drain.2.Charted := by
  fun_induction Reader.drain r with
  | case1 r hclosed => exact h
  | case2 r hclosed hcursor rune r' htake hless runes last hdrain ih =>
      rw [hdrain] at ih
      have hr' : r' = r.take.2 := by rw [htake]
      exact ih (hr' ▸ h.take)
  | case3 r hclosed hcursor => exact h

/-- What was read lies before the cursor. -/
theorem cursor_drain (r : Reader) : r.drain.2.cursor = r.cursor + Rune.widths r.drain.1 := by
  fun_induction Reader.drain r with
  | case1 r hclosed => rfl
  | case2 r hclosed hcursor rune r' htake hless runes last hdrain ih =>
      have hr' : r' = r.take.2 := by rw [htake]
      have hrune : rune = Rune.decodeAt r.bytes r.cursor := by rw [← fst_take, htake]
      rw [hdrain, hr', cursor_take, ← hrune, Nat.add_assoc] at ih
      exact ih
  | case3 r hclosed hcursor => rfl

theorem cursor_drain_le (h : r.cursor ≤ r.bytes.size) : r.drain.2.cursor ≤ r.bytes.size := by
  fun_induction Reader.drain r with
  | case1 r hclosed => exact h
  | case2 r hclosed hcursor rune r' htake hless runes last hdrain ih =>
      have hr' : r' = r.take.2 := by rw [htake]
      rw [hdrain, hr', cursor_take, bytes_take] at ih
      exact ih (Rune.add_width_le hcursor)
  | case3 r hclosed hcursor => exact h

/-- The text ends where reading stopped. -/
theorem end_readText (h : r.cursor = 0) : r.readText.1.1 + Rune.widths r.readText.1.2 = r.drain.2.cursor := by
  rw [cursor_drain, h, Nat.zero_add]
  unfold readText
  split
  · next c runes r' hdrain =>
      rw [hdrain]
      split
      · rfl
      · exact Nat.zero_add _
  · next runes r' _ hdrain =>
      rw [hdrain]
      exact Nat.zero_add _

end Reader

namespace SourceFile

/-- Halving finds the place that divides a table into offsets up to `offset` and later ones. -/
theorem countUpTo_eq {starts : Array Nat} {offset m : Nat}
    (hdivides : ∀ i < starts.size, starts.getD i 0 ≤ offset ↔ i < m) {low high : Nat} (hlow : low ≤ m)
    (hm : m ≤ high) (hhigh : high ≤ starts.size) : countUpTo starts offset low high = m := by
  fun_induction countUpTo starts offset low high with
  | case1 low high hlt middle hle ih =>
      have hmiddle : middle = (low + high) / 2 := rfl
      have hbefore := (hdivides middle (by omega)).1 hle
      exact ih (by omega) hm hhigh
  | case2 low high hlt middle hgt ih =>
      have hmiddle : middle = (low + high) / 2 := rfl
      have hafter : ¬ middle < m := fun h => hgt ((hdivides middle (by omega)).2 h)
      exact ih hlow (by omega) (by omega)
  | case3 low high hge => omega

section

variable {f : SourceFile} {bytes : ByteArray} {n : Nat} {later : List Nat}

/-- An entry of the line table. -/
theorem getElem?_laterLines (htable : f.laterLines.toList = (lineFeeds bytes n ++ later).map (f.base + · + 1)) (i : Nat) :
    f.laterLines[i]? = ((lineFeeds bytes n ++ later)[i]?).map (f.base + · + 1) := by
  rw [← Array.getElem?_toList, htable, List.getElem?_map]

/-- The line feeds before byte `n` divide the line table. -/
theorem countUpTo_lineFeeds (htable : f.laterLines.toList = (lineFeeds bytes n ++ later).map (f.base + · + 1))
    (hlater : ∀ k ∈ later, n ≤ k) :
    countUpTo f.laterLines (f.base + n) 0 f.laterLines.size = (lineFeeds bytes n).length := by
  have hsize : f.laterLines.size = (lineFeeds bytes n).length + later.length := by
    rw [← Array.length_toList, htable, List.length_map, List.length_append]
  apply countUpTo_eq _ (Nat.zero_le _) (by omega) (Nat.le_refl _)
  intro i hi
  rw [Array.getD_eq_getD_getElem?, getElem?_laterLines htable]
  by_cases hin : i < (lineFeeds bytes n).length
  · have hlt := lt_of_mem_lineFeeds (List.getElem_mem hin)
    rw [List.getElem?_append_left hin, List.getElem?_eq_getElem hin]
    show f.base + _ + 1 ≤ f.base + n ↔ _
    omega
  · have hover : i - (lineFeeds bytes n).length < later.length := by omega
    have hge := hlater _ (List.getElem_mem hover)
    rw [List.getElem?_append_right (Nat.not_lt.1 hin), List.getElem?_eq_getElem hover]
    show f.base + _ + 1 ≤ f.base + n ↔ _
    omega

/-- The line that is found starts after the last line feed before byte `n`. -/
theorem lineStart?_lineFeeds (htable : f.laterLines.toList = (lineFeeds bytes n ++ later).map (f.base + · + 1)) :
    f.lineStart? ((lineFeeds bytes n).length + 1) = some (f.base + lineOrigin bytes n) := by
  rw [lineOrigin, List.getLast?_eq_getElem?]
  cases hlength : (lineFeeds bytes n).length with
  | zero =>
      rw [List.eq_nil_of_length_eq_zero hlength]
      rfl
  | succ k =>
      have hin : k < (lineFeeds bytes n).length := by omega
      show f.laterLines[k]? = _
      rw [getElem?_laterLines htable, List.getElem?_append_left hin, Nat.add_sub_cancel, List.getElem?_eq_getElem hin]
      rfl

end

/-- The position at an offset that the line table reaches is the one that is counted. -/
theorem position_at {f : SourceFile} {bytes : ByteArray} {n reached : Nat} {offset : Fin Pos.limit}
    (htable : f.laterLines.toList = (lineFeeds bytes reached).map (f.base + · + 1)) (hsize : f.size = some bytes.size)
    (hn : n ≤ reached) (hreached : reached ≤ bytes.size) (hoffset : offset.val = f.base + n) :
    f.position (.at offset) = countedPosition f.name f.base bytes n := by
  obtain ⟨later, happend, hlater⟩ := lineFeeds_append bytes hn
  rw [happend] at htable
  have hin : f.contains (f.base + n) = true := by
    have hle : n ≤ bytes.size := Nat.le_trans hn hreached
    simp [contains, hsize, hle]
  simp only [position, hoffset, hin, if_true, countUpTo_lineFeeds htable hlater, lineStart?_lineFeeds htable,
    Option.getD_some, countedPosition, Nat.add_sub_add_left, Nat.add_comm 1]

/-- The position of a byte that the line table reaches is the one that is counted. -/
theorem position_eq_counted {f : SourceFile} {bytes : ByteArray} {n reached : Nat}
    (htable : f.laterLines.toList = (lineFeeds bytes reached).map (f.base + · + 1)) (hsize : f.size = some bytes.size)
    (hn : n ≤ reached) (hreached : reached ≤ bytes.size) (hfits : f.base + bytes.size < Pos.limit) :
    f.position (f.pos n) = countedPosition f.name f.base bytes n :=
  position_at htable hsize hn hreached (Nat.min_eq_left (by omega))

end SourceFile

/-! ### The starts of tokens -/

theorem Rune.widths_takeWhile_le (p : Rune → Bool) (rs : List Rune) : widths (rs.takeWhile p) ≤ widths rs := by
  have hsplit := congrArg widths (List.takeWhile_append_dropWhile (p := p) (l := rs))
  rw [widths_append] at hsplit
  omega

/-- The entries of a stream start inside the text that it is made of. -/
theorem Item.start_le_of_mem {ls : List Lexeme} {offset : Nat} {last : Token} {item : Item}
    (h : item ∈ ofLexemes offset last ls) : item.start ≤ offset + Rune.widths (ls.flatMap Lexeme.runes) := by
  induction ls generalizing offset last with
  | nil => simp [ofLexemes] at h
  | cons l rest ih =>
      rw [List.flatMap_cons, Rune.widths_append, ← Nat.add_assoc]
      rw [ofLexemes] at h
      split at h
      · exact ih h
      · split at h
        · rcases List.mem_cons.1 h with rfl | h
          · show offset ≤ _
            omega
          · exact ih h
        · exact ih h
      · next token hkind =>
          have hitem : (ofLexeme offset token l).start ≤
              offset + Rune.widths l.runes + Rune.widths (rest.flatMap Lexeme.runes) := by
            show offset ≤ _
            omega
          dsimp only at h
          split at h
          · next n _ hcomment =>
              have hn : n ≤ Rune.widths l.runes := by
                unfold commentLineEnd? Lexeme.lineEnd? at hcomment
                split at hcomment
                · split at hcomment
                  · cases hcomment
                    exact Rune.widths_takeWhile_le _ _
                  · cases hcomment
                · cases hcomment
              rcases List.mem_cons.1 h with rfl | h
              · show offset + n ≤ _
                omega
              · rcases List.mem_cons.1 h with rfl | h
                · exact hitem
                · exact ih h
          · rcases List.mem_cons.1 h with rfl | h
            · exact hitem
            · exact ih h

namespace Scanner

/-- The calls to a scanner that stay with its file. -/
inductive Call where
  /-- Takes the next token. -/
  | scan
  /-- Starts the file over under another budget. -/
  | setBudget (budget : Nat)
  deriving DecidableEq, Repr

/-- What a call leaves behind. -/
def Call.run (s : Scanner) : Call → Scanner
  | .scan => s.scan.2
  | .setBudget budget => s.setBudget budget

/-- What a sequence of calls leaves behind. -/
def afterCalls (s : Scanner) (calls : List Call) : Scanner :=
  calls.foldl Call.run s

/-- A scanner in a file with these bytes: its line table reaches so far that no token to come starts later. -/
structure Placed (name : String) (base : Nat) (bytes : ByteArray) (reached : Nat) (s : Scanner) : Prop where
  bytes_eq : s.reader.bytes = bytes
  name_eq : s.file.name = name
  base_eq : s.file.base = base
  size_eq : s.file.size = some bytes.size
  table_eq : s.file.laterLines.toList = (lineFeeds bytes reached).map (base + · + 1)
  reached_le : reached ≤ bytes.size
  start_le : ∀ item ∈ s.stream.items, item.start ≤ reached
  finish_le : s.finish ≤ reached

theorem reader_start (r : Reader) : (start r).reader = r.drain.2 :=
  r.readText_snd

/-- A file is placed by reading it from its start, wherever reading stops. -/
theorem placed_start {r : Reader} (hcursor : r.cursor = 0) (hlines : r.file.laterLines = #[])
    (hsize : r.file.size = some r.bytes.size) :
    Placed r.file.name r.file.base r.bytes r.drain.2.cursor (start r) := by
  have hend := Reader.end_readText hcursor
  have hname := congrArg SourceFile.name (Reader.Continues.drain r).file_eq
  have hsame := congrArg SourceFile.size (Reader.Continues.drain r).file_eq
  have hcharted : r.drain.2.Charted := by
    apply Reader.Charted.drain
    rw [Reader.Charted, hlines, hcursor]
    rfl
  rw [Reader.Charted, Reader.bytes_drain, Reader.base_drain] at hcharted
  constructor
  case bytes_eq =>
    rw [reader_start, Reader.bytes_drain]
  case name_eq =>
    rw [file, reader_start]
    exact hname
  case base_eq =>
    rw [file, reader_start, Reader.base_drain]
  case size_eq =>
    rw [file, reader_start, ← hsize]
    exact hsame
  case table_eq =>
    rw [file, reader_start]
    exact hcharted
  case reached_le =>
    exact Reader.cursor_drain_le (by omega)
  case start_le =>
    intro item hitem
    have hle := Item.start_le_of_mem hitem
    rw [Lexeme.flatMap_runes_split] at hle
    rw [← hend]
    exact hle
  case finish_le =>
    rw [← hend]
    show (if r.readText.1.2.isEmpty then 0 else r.readText.1.1 + Rune.widths r.readText.1.2) ≤ _
    split
    · exact Nat.zero_le _
    · exact Nat.le_refl _

theorem bytes_scan (s : Scanner) : s.scan.2.reader.bytes = s.reader.bytes := by
  unfold scan
  split
  · exact (s.reports_deliver _ _).continues.bytes_eq
  · rfl

namespace Placed

variable {name : String} {base reached : Nat} {bytes : ByteArray} {s : Scanner}

theorem scan (h : Placed name base bytes reached s) : Placed name base bytes reached s.scan.2 := by
  obtain ⟨hitems, hfinish, hfile⟩ := s.scan_items
  refine ⟨?_, ?_, ?_, ?_, ?_, h.reached_le, ?_, ?_⟩
  · rw [bytes_scan, h.bytes_eq]
  · rw [hfile, h.name_eq]
  · rw [hfile, h.base_eq]
  · rw [hfile, h.size_eq]
  · rw [hfile, h.table_eq]
  · intro item hitem
    rw [hitems] at hitem
    exact h.start_le item (List.mem_of_mem_tail hitem)
  · rw [hfinish]
    exact h.finish_le

/-- Starting over fills the line table again. -/
theorem setBudget (h : Placed name base bytes reached s) (budget : Nat) :
    ∃ reached, Placed name base bytes reached (s.setBudget budget) := by
  have hsize : s.file.size = some s.reader.bytes.size := by rw [h.size_eq, h.bytes_eq]
  have hplaced := placed_start (r := (s.reader.setBudget budget).rewind) rfl rfl hsize
  rw [← h.bytes_eq, ← h.name_eq, ← h.base_eq]
  exact ⟨_, hplaced⟩

theorem afterCalls (h : Placed name base bytes reached s) (calls : List Call) :
    ∃ reached, Placed name base bytes reached (s.afterCalls calls) := by
  induction calls generalizing s reached with
  | nil => exact ⟨reached, h⟩
  | cons call calls ih =>
      cases call with
      | scan => exact ih h.scan
      | setBudget budget =>
          obtain ⟨reached, hagain⟩ := h.setBudget budget
          exact ih hagain

/-- Every token starts in the text. -/
theorem pos_scan (h : Placed name base bytes reached s) : ∃ n ≤ reached, s.scan.1.pos = s.file.pos n := by
  unfold Scanner.scan
  split
  · next item rest hpop =>
      have hitem : item ∈ s.stream.items := by
        rw [TokenStream.items_pop? hpop]
        exact List.mem_cons_self
      exact ⟨item.start, h.start_le item hitem, rfl⟩
  · exact ⟨s.finish, h.finish_le, rfl⟩

end Placed

/-- Token positions are what one counts.  Whatever the bytes of a file and the budget are, and whenever the budget is
changed, every token that is handed out, semicolons that are not written and the end of the text included, starts
at some byte `n` of the file, and the file shows this byte's position: the line is one more than the number of line
feeds before it, and the column counts from the last of these. -/
theorem scanned_position (s : Scanner) (name : String) (base : Nat) (source : ByteSource)
    (hfits : base + source.bytes.size < Pos.limit) (calls : List Call) :
    let scanned := ((s.init { name, base } source).afterCalls calls).scan
    ∃ n ≤ source.bytes.size, scanned.1.pos.offset? = some (base + n) ∧
      scanned.2.position scanned.1.pos = countedPosition name base source.bytes n ∧
      (scanned.2.position scanned.1.pos).isValid = true := by
  intro scanned
  have hinit : Placed name base source.bytes _ (s.init { name, base } source) :=
    placed_start (r := s.reader.init { name, base } source) rfl rfl rfl
  obtain ⟨reached, hplaced⟩ := hinit.afterCalls calls
  obtain ⟨n, hn, hpos⟩ := hplaced.pos_scan
  have hle : n ≤ source.bytes.size := Nat.le_trans hn hplaced.reached_le
  obtain ⟨-, -, hfile⟩ := Scanner.scan_items ((s.init { name, base } source).afterCalls calls)
  have hposition : scanned.2.position scanned.1.pos = countedPosition name base source.bytes n := by
    have hcounted := SourceFile.position_eq_counted (f := ((s.init { name, base } source).afterCalls calls).file)
      (by rw [hplaced.base_eq]; exact hplaced.table_eq) hplaced.size_eq hn hplaced.reached_le
      (by rw [hplaced.base_eq]; exact hfits)
    rw [hplaced.name_eq, hplaced.base_eq] at hcounted
    rw [position, hfile, hpos]
    exact hcounted
  refine ⟨n, hle, ?_, hposition, ?_⟩
  · rw [hpos, SourceFile.pos, hplaced.base_eq]
    exact Pos.offset?_ofOffset (by omega)
  · rw [hposition]
    show decide (0 < 1 + (lineFeeds source.bytes n).length) = true
    exact decide_eq_true (by omega)

/-- Under a budget of one, reading stops in the second line after a byte that starts no character, and the end of the
text stands there. -/
theorem scanned_position_stopped :
    let scanned := (((({} : Scanner).setBudget 1).init { name := "f", base := 7 }
      { bytes := ⟨#[0x78, 0x0A, 0x79, 0xFF, 0x0A, 0x7A]⟩ }).afterCalls [.scan, .scan, .scan, .scan]).scan
    7 + (ByteArray.mk #[0x78, 0x0A, 0x79, 0xFF, 0x0A, 0x7A]).size < Pos.limit ∧
    scanned.1.token = .eof ∧
    scanned.2.position scanned.1.pos = { fileName := "f", offset := 11, line := 2, column := 3 } ∧
    ∃ n ≤ 6, scanned.1.pos.offset? = some (7 + n) ∧
      scanned.2.position scanned.1.pos =
        countedPosition "f" 7 ⟨#[0x78, 0x0A, 0x79, 0xFF, 0x0A, 0x7A]⟩ n ∧
      (scanned.2.position scanned.1.pos).isValid = true :=
  ⟨by decide, by decide +kernel, by decide +kernel,
    scanned_position (({} : Scanner).setBudget 1) "f" 7 { bytes := ⟨#[0x78, 0x0A, 0x79, 0xFF, 0x0A, 0x7A]⟩ } (by decide)
      [.scan, .scan, .scan, .scan]⟩

end Scanner

end GoSource
