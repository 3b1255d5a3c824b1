import GoSource.Text.Reader

/-!
# The runes of a byte string

A byte string is cut into runes from the left, and a reader whose journal never closes hands out exactly these.
What a rune is depends on its own bytes only, so a piece of the text that is cut out between two runes has the
runes it had before.

* **`Rune.decodeFrom`** are the runes of the bytes from some place on.
* **`Rune.LiesAt`** says that some runes lie one after another from some place on.
* **`Rune.LiesAt.decode_extract`**: runes cut out of a text are the runes of what was cut out.
* **`Rune.LiesAt.extract_eq`**: characters that are read without a replacement are there in their encoding.
* **`Reader.drain_eq_decodeFrom`**: an unlimited reader misses nothing.
-/

namespace GoSource

namespace Rune

@[simp] theorem widths_nil : widths [] = 0 := rfl

@[simp] theorem widths_cons (r : Rune) (rs : List Rune) : widths (r :: rs) = r.width + widths rs := rfl

@[simp] theorem widths_append (rs rs' : List Rune) : widths (rs ++ rs') = widths rs + widths rs' := by
  induction rs with
  | nil => simp
  | cons r rs ih => simp [ih, Nat.add_assoc]

/-- The runes of the bytes from `i` on. -/
def decodeFrom (bytes : ByteArray) (i : Nat) : List Rune :=
  if i < bytes.size then decodeAt bytes i :: decodeFrom bytes (i + (decodeAt bytes i).width) else []
termination_by bytes.size - i
decreasing_by
  have := (decodeAt bytes i).width_pos
  omega

theorem decodeFrom_of_le {bytes : ByteArray} {i : Nat} (h : bytes.size ≤ i) : decodeFrom bytes i = [] := by
  rw [decodeFrom, if_neg (Nat.not_lt.2 h)]

/-- The runes `rs` lie one after another in `bytes`, the first of them at byte `i`. -/
def LiesAt (bytes : ByteArray) : Nat → List Rune → Prop
  | _, [] => True
  | i, r :: rs => i < bytes.size ∧ decodeAt bytes i = r ∧ LiesAt bytes (i + r.width) rs

theorem add_width_le {bytes : ByteArray} {i : Nat} (h : i < bytes.size) :
    i + (decodeAt bytes i).width ≤ bytes.size := by
  unfold decodeAt
  cases hdecode : bytes.utf8DecodeChar? i with
  | none => exact h
  | some c => exact ByteArray.le_size_of_utf8DecodeChar?_eq_some hdecode

/-- The runes from `i` on lie at `i` and reach the end. -/
theorem liesAt_decodeFrom (bytes : ByteArray) (i : Nat) (h : i ≤ bytes.size) :
    LiesAt bytes i (decodeFrom bytes i) ∧ i + widths (decodeFrom bytes i) = bytes.size := by
  fun_induction decodeFrom bytes i with
  | case1 i hlt ih =>
      obtain ⟨hlies, hend⟩ := ih (add_width_le hlt)
      refine ⟨⟨hlt, rfl, hlies⟩, ?_⟩
      rw [widths_cons, ← Nat.add_assoc, hend]
  | case2 i hge =>
      have hi : i = bytes.size := by omega
      exact ⟨trivial, by simpa using hi⟩

namespace LiesAt

variable {bytes : ByteArray} {i j : Nat} {rs rs' : List Rune}

theorem append (h : LiesAt bytes i (rs ++ rs')) : LiesAt bytes i rs ∧ LiesAt bytes (i + widths rs) rs' := by
  induction rs generalizing i with
  | nil => exact ⟨trivial, h⟩
  | cons r rs ih =>
      obtain ⟨hlt, hdecode, hrest⟩ := h
      obtain ⟨hleft, hright⟩ := ih hrest
      refine ⟨⟨hlt, hdecode, hleft⟩, ?_⟩
      rw [widths_cons, ← Nat.add_assoc]
      exact hright

theorem le_size (h : LiesAt bytes i rs) (hi : i ≤ bytes.size) : i + widths rs ≤ bytes.size := by
  induction rs generalizing i with
  | nil => exact hi
  | cons r rs ih =>
      obtain ⟨hlt, rfl, hrest⟩ := h
      have hle := ih hrest (add_width_le hlt)
      rw [widths_cons]
      omega

end LiesAt

/-! ### Cutting a text -/

theorem utf8DecodeChar?_extract_size (bytes : ByteArray) (i k : Nat) :
    (bytes.extract i bytes.size).utf8DecodeChar? k = bytes.utf8DecodeChar? (i + k) := by
  rw [ByteArray.utf8DecodeChar?_eq_utf8DecodeChar?_extract,
    ByteArray.utf8DecodeChar?_eq_utf8DecodeChar?_extract (i := i + k), ByteArray.extract_extract]
  congr 2
  simp
  omega

/-- A character stands in a text in its encoding. -/
theorem extract_of_decode {bytes : ByteArray} {i : Nat} {c : Char} (h : bytes.utf8DecodeChar? i = some c) :
    bytes.extract i (i + c.utf8Size) = (String.utf8EncodeChar c).toByteArray := by
  have hsize := ByteArray.le_size_of_utf8DecodeChar?_eq_some h
  rw [ByteArray.utf8DecodeChar?_eq_utf8DecodeChar?_extract] at h
  rw [String.toByteArray_utf8EncodeChar_of_utf8DecodeChar?_eq_some h, ByteArray.extract_extract]
  congr 1
  omega

/-- A character whose bytes lie before a cut is still there after it. -/
theorem decode_extract_of_some {bytes : ByteArray} {i j k : Nat} {c : Char} (hj : j ≤ bytes.size)
    (hk : i + k + c.utf8Size ≤ j) (h : bytes.utf8DecodeChar? (i + k) = some c) :
    (bytes.extract i j).utf8DecodeChar? k = some c := by
  have hcut : (bytes.extract i j).extract k (bytes.extract i j).size =
      (String.utf8EncodeChar c).toByteArray ++ bytes.extract (i + k + c.utf8Size) j := by
    rw [← extract_of_decode h, ByteArray.extract_extract, ByteArray.size_extract,
      ← ByteArray.extract_eq_extract_append_extract (i + k + c.utf8Size) (by omega) hk]
    congr 1
    omega
  rw [ByteArray.utf8DecodeChar?_eq_utf8DecodeChar?_extract, hcut]
  exact ByteArray.utf8DecodeChar?_utf8EncodeChar_append

/-- A cut makes no character. -/
theorem decode_of_decode_extract {bytes : ByteArray} {i j k : Nat} {c : Char} (hi : i ≤ j) (hj : j ≤ bytes.size)
    (h : (bytes.extract i j).utf8DecodeChar? k = some c) : bytes.utf8DecodeChar? (i + k) = some c := by
  rw [← utf8DecodeChar?_extract_size, ByteArray.extract_eq_extract_append_extract j hi hj]
  exact ByteArray.utf8DecodeChar?_append_eq_some h _

/-- A rune that lies between two cuts is the same in the piece between them. -/
theorem decodeAt_extract {bytes : ByteArray} {i j k : Nat} (hj : j ≤ bytes.size)
    (hk : i + k + (decodeAt bytes (i + k)).width ≤ j) :
    decodeAt (bytes.extract i j) k = decodeAt bytes (i + k) := by
  unfold decodeAt at hk ⊢
  cases hdecode : bytes.utf8DecodeChar? (i + k) with
  | some c =>
      rw [hdecode] at hk
      rw [decode_extract_of_some hj hk hdecode]
  | none =>
      cases hpiece : (bytes.extract i j).utf8DecodeChar? k with
      | none => rfl
      | some c =>
          have hwhole := decode_of_decode_extract (by omega) hj hpiece
          rw [hdecode] at hwhole
          cases hwhole

namespace LiesAt

variable {bytes : ByteArray} {i : Nat} {rs : List Rune}

theorem decodeFrom_extract {j k : Nat} (h : LiesAt bytes (i + k) rs) (hk : i + k + widths rs = j)
    (hj : j ≤ bytes.size) : decodeFrom (bytes.extract i j) k = rs := by
  induction rs generalizing k with
  | nil =>
      refine decodeFrom_of_le ?_
      rw [ByteArray.size_extract]
      simp only [widths_nil] at hk
      omega
  | cons r rs ih =>
      obtain ⟨hlt, hdecode, hrest⟩ := h
      have hwidth := r.width_pos
      rw [widths_cons] at hk
      have hsame : decodeAt (bytes.extract i j) k = r := by
        rw [← hdecode]
        exact decodeAt_extract hj (by rw [hdecode]; omega)
      have hin : k < (bytes.extract i j).size := by
        rw [ByteArray.size_extract]
        omega
      rw [decodeFrom, if_pos hin, hsame, ih (by rwa [← Nat.add_assoc]) (by omega)]

/-- Runes that are cut out of a text are the runes of what was cut out. -/
theorem decode_extract (h : LiesAt bytes i rs) (hi : i ≤ bytes.size) :
    decodeFrom (bytes.extract i (i + widths rs)) 0 = rs :=
  decodeFrom_extract (k := 0) h rfl (h.le_size hi)

end LiesAt

/-! ### Characters and their bytes -/

/-- What is not read as the replacement character is the character it is read as. -/
theorem eq_scalar_of_char {r : Rune} (h : r.char ≠ Text.replacement) : r = .scalar r.char := by
  cases r with
  | scalar c => rfl
  | malformed => exact absurd rfl h

theorem decode_of_decodeAt {bytes : ByteArray} {i : Nat} {c : Char} (h : decodeAt bytes i = .scalar c) :
    bytes.utf8DecodeChar? i = some c := by
  unfold decodeAt at h
  split at h
  · rename_i d hdecode
    rw [hdecode, Rune.scalar.inj h]
  · cases h

/-- An ASCII character is one byte. -/
theorem byte_of_decodeAt {bytes : ByteArray} {i : Nat} {c : Char} (h : decodeAt bytes i = .scalar c)
    (hascii : c.utf8Size = 1) : bytes[i]? = some c.toUInt8 := by
  have hdecode := decode_of_decodeAt h
  have hlt : i < bytes.size := ByteArray.lt_size_of_isSome_utf8DecodeChar? (by rw [hdecode]; rfl)
  have hextract := extract_of_decode hdecode
  rw [hascii, ByteArray.extract_add_one hlt, String.utf8EncodeChar_eq_singleton hascii] at hextract
  have hbyte : bytes[i] = c.toUInt8 := by
    simpa using congrArg (·.data.toList) hextract
  rw [getElem?_pos bytes i hlt, hbyte]

/-- The bytes of a character stand where the character does. -/
theorem byte_of_decode {bytes : ByteArray} {i k : Nat} {c : Char} (h : bytes.utf8DecodeChar? i = some c)
    (hk : k < (String.utf8EncodeChar c).length) : bytes[i + k]? = some (String.utf8EncodeChar c)[k] := by
  have hsize := ByteArray.le_size_of_utf8DecodeChar?_eq_some h
  have hlt : i + k < bytes.size := by
    rw [String.length_utf8EncodeChar] at hk
    omega
  rw [getElem?_pos bytes (i + k) hlt, List.getElem_eq_getElem_toByteArray]
  simp only [← extract_of_decode h, ByteArray.getElem_extract]

/-- The bytes inside a rune cannot start an encoding: all bytes of a character but the first are marked as such. -/
theorem exists_byte_of_inside {bytes : ByteArray} {i k : Nat} (hk : 0 < k) (hlt : k < (decodeAt bytes i).width) :
    ∃ b, bytes[i + k]? = some b ∧ ¬ b.IsUTF8FirstByte := by
  cases hrune : decodeAt bytes i with
  | malformed =>
      rw [hrune] at hlt
      exact absurd hlt (Nat.not_lt.2 hk)
  | scalar c =>
      rw [hrune] at hlt
      have hin : k < (String.utf8EncodeChar c).length := by
        rw [String.length_utf8EncodeChar]
        exact hlt
      refine ⟨_, byte_of_decode (decode_of_decodeAt hrune) hin, ?_⟩
      rw [UInt8.isUTF8FirstByte_getElem_utf8EncodeChar]
      omega

theorem LiesAt.extract_eq {bytes : ByteArray} {i : Nat} {rs : List Rune} (h : LiesAt bytes i rs)
    (hplain : ∀ r ∈ rs, r.char ≠ Text.replacement) (hi : i ≤ bytes.size) :
    bytes.extract i (i + widths rs) = (toString rs).toUTF8 := by
  induction rs generalizing i with
  | nil => simp [toString, chars]
  | cons r rs ih =>
      obtain ⟨hlt, hdecode, hrest⟩ := h
      have hr := eq_scalar_of_char (hplain r List.mem_cons_self)
      have hle : i + r.width ≤ bytes.size := by
        rw [← hdecode]
        exact add_width_le hlt
      have hfirst : bytes.extract i (i + r.width) = (String.utf8EncodeChar r.char).toByteArray := by
        have hchar := extract_of_decode (decode_of_decodeAt (hdecode.trans hr))
        rw [hr]
        exact hchar
      have hothers := ih hrest (fun r hr => hplain r (List.mem_cons_of_mem _ hr)) hle
      rw [widths_cons, ← Nat.add_assoc,
        ByteArray.extract_eq_extract_append_extract (i + r.width) (by omega) (by omega), hfirst, hothers]
      simp only [toString, chars, String.toUTF8_eq_toByteArray, String.toByteArray_ofList, List.map_cons]
      rw [List.utf8Encode_cons, List.utf8Encode_singleton]

end Rune

/-! ### Reading without a limit -/

namespace Journal

theorem report_of_closed {j : Journal} (h : j.closed = true) (d : Diagnostic SourceFault) : j.report d = j := by
  rw [report, if_pos h]

/-- Whether an entry closes a journal. -/
theorem report_of_open {j : Journal} (h : j.closed = false) (d : Diagnostic SourceFault) :
    j.report d =
      if 0 < j.budget ∧ j.budget ≤ j.entries.size + 1 then
        { j with closed := true, entries := (j.entries.push d).push { d with cause := .lexical .tooManyErrors } }
      else { j with entries := j.entries.push d } := by
  rw [report, if_neg (by simp [h])]
  simp only [Array.size_push]

/-- Without a budget a journal never closes. -/
def Unlimited (j : Journal) : Prop :=
  j.budget = 0 ∧ j.closed = false

theorem report_of_unlimited {j : Journal} (h : j.Unlimited) (d : Diagnostic SourceFault) :
    j.report d = { j with entries := j.entries.push d } := by
  rw [report_of_open h.2, if_neg (by simp [h.1])]

theorem Unlimited.report {j : Journal} (h : j.Unlimited) (d : Diagnostic SourceFault) : (j.report d).Unlimited := by
  rw [report_of_unlimited h]
  exact h

end Journal

namespace Reader

theorem fst_take (r : Reader) : r.take.1 = Rune.decodeAt r.bytes r.cursor := by
  simp only [take]
  split
  · rfl
  · split <;> rfl

theorem base_take (r : Reader) : r.take.2.file.base = r.file.base := by
  simp only [take]
  split
  · rfl
  · split
    · unfold SourceFile.addLine
      split <;> rfl
    · rfl

theorem unlimited_take {r : Reader} (h : r.journal.Unlimited) : r.take.2.journal.Unlimited := by
  simp only [take]
  split
  · exact h.report _
  · split <;> exact h

theorem bytes_drain (r : Reader) : r.drain.2.bytes = r.bytes := by
  fun_induction drain r with
  | case1 r hclosed => rfl
  | case2 r hclosed hcursor rune r' htake hless runes last hdrain ih =>
      have hr' : r' = r.take.2 := by rw [htake]
      rw [hdrain, hr', bytes_take] at ih
      exact ih
  | case3 r hclosed hcursor => rfl

theorem base_drain (r : Reader) : r.drain.2.file.base = r.file.base := by
  fun_induction drain r with
  | case1 r hclosed => rfl
  | case2 r hclosed hcursor rune r' htake hless runes last hdrain ih =>
      have hr' : r' = r.take.2 := by rw [htake]
      rw [hdrain, hr', base_take] at ih
      exact ih
  | case3 r hclosed hcursor => rfl

/-- A reader that is never stopped hands out every rune. -/
theorem drain_eq_decodeFrom {r : Reader} (h : r.journal.Unlimited) :
    r.drain.1 = Rune.decodeFrom r.bytes r.cursor := by
  fun_induction drain r with
  | case1 r hclosed => exact absurd hclosed (by simp [h.2])
  | case2 r hclosed hcursor rune r' htake hless runes last hdrain ih =>
      have hr' : r' = r.take.2 := by rw [htake]
      have hrune : rune = Rune.decodeAt r.bytes r.cursor := by rw [← fst_take, htake]
      have hrunes := ih (by rw [hr']; exact unlimited_take h)
      rw [hdrain, hr', bytes_take, cursor_take] at hrunes
      rw [Rune.decodeFrom, if_pos hcursor, hrune, ← hrunes]
  | case3 r hclosed hcursor => rw [Rune.decodeFrom_of_le (Nat.le_of_not_lt hcursor)]

theorem readText_snd (r : Reader) : r.readText.2 = r.drain.2 := by
  unfold readText
  split
  · rename_i c runes r' hdrain
    split <;> rw [hdrain]
  · rename_i runes r' hdrain
    rw [hdrain]

/-- What is read of a whole file: all of it, or what follows a byte order mark. -/
theorem readText_unlimited {r : Reader} (h : r.journal.Unlimited) (hstart : r.cursor = 0) :
    r.readText.1 = (0, Rune.decodeFrom r.bytes 0) ∨
      r.bytes.extract 0 3 = "\uFEFF".toUTF8 ∧ 3 ≤ r.bytes.size ∧
        r.readText.1 = (3, Rune.decodeFrom r.bytes 3) := by
  have hdrained := drain_eq_decodeFrom h
  rw [hstart] at hdrained
  unfold readText
  split
  · rename_i c runes r' hdrain
    rw [hdrain] at hdrained
    dsimp only at hdrained
    split
    · rename_i hbom
      right
      rw [Rune.decodeFrom] at hdrained
      split at hdrained
      · obtain ⟨hfirst, hrest⟩ := List.cons.inj hdrained
        have hdecode := Rune.decode_of_decodeAt hfirst.symm
        have hextract := Rune.extract_of_decode hdecode
        have hsize := ByteArray.le_size_of_utf8DecodeChar?_eq_some hdecode
        rw [← hfirst] at hrest
        subst hbom
        exact ⟨hextract, hsize, congrArg _ hrest⟩
      · cases hdrained
    · exact .inl (congrArg _ hdrained)
  · rename_i runes r' hne hdrain
    rw [hdrain] at hdrained
    exact .inl (congrArg _ hdrained)

end Reader

end GoSource
