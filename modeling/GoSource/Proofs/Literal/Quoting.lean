import GoSource.Proofs.Scanner.Lines

/-!
# Quoting and reading back

A text is written between double quotes with some of its characters escaped, and reading the literal gives the text
again.  A literal spells bytes: an escape may stand for a byte of its own, and only all bytes together are decoded.

* **`decodeLossy_toUTF8`**: nothing is replaced in the bytes of a text.
* **`readDigits?_hex`**: a number is read back from its hexadecimal digits.
* **`Spells`**: what may stand for a character in a literal.  `spells_quoteChar` goes through the ways in which a
  character is written.
* **`isControl_of_mem_quote`**: no control character is left in a quoted text.
* **`unquote?_quote`**: a text that was quoted is read back.
-/

namespace GoSource

/-! ### Text and its bytes -/

namespace Text

/-- Where every byte belongs to a character, there is nothing to replace. -/
theorem decodeLossyFrom_eq_chars {bytes : ByteArray} {i : Nat} (h : Rune.malformed ∉ Rune.decodeFrom bytes i) :
    decodeLossyFrom bytes i = Rune.chars (Rune.decodeFrom bytes i) := by
  fun_induction decodeLossyFrom bytes i with
  | case1 i hlt c hdecode ih =>
      have hrune : Rune.decodeAt bytes i = .scalar c := by rw [Rune.decodeAt, hdecode]
      rw [Rune.decodeFrom, if_pos hlt, hrune] at h ⊢
      rw [ih fun hmem => h (List.mem_cons_of_mem _ hmem)]
      rfl
  | case2 i hlt hdecode ih =>
      have hrune : Rune.decodeAt bytes i = .malformed := by rw [Rune.decodeAt, hdecode]
      rw [Rune.decodeFrom, if_pos hlt, hrune] at h
      exact absurd List.mem_cons_self h
  | case3 i hge => rw [Rune.decodeFrom, if_neg hge]; rfl

/-- The bytes of a text are read as that text. -/
theorem decodeLossy_toUTF8 (s : String) : decodeLossy s.toUTF8 = s := by
  have hrunes := Rune.decodeFrom_toUTF8 s
  have hwellFormed : Rune.malformed ∉ Rune.decodeFrom s.toUTF8 0 := by
    rw [hrunes]
    simp
  rw [decodeLossy, decodeLossyFrom_eq_chars hwellFormed, hrunes, Lexeme.chars_map_scalar, String.ofList_toList]

end Text

namespace Literal

/-! ### Hexadecimal digits -/

/-- One digit more at the end. -/
theorem readDigits?_succ {α : Type} {char : α → Char} {b k acc n d : Nat} {xs rest : List α} {y : α}
    (h : readDigits? char b k acc xs = some (n, y :: rest)) (hd : digit? b (char y) = some d) :
    readDigits? char b (k + 1) acc xs = some (n * b + d, rest) := by
  induction k generalizing acc xs with
  | zero =>
      obtain ⟨rfl, rfl⟩ := Prod.mk.inj (Option.some.inj h)
      rw [readDigits?, hd]
      rfl
  | succ k ih =>
      cases xs with
      | nil => cases h
      | cons x xs =>
          obtain ⟨e, he, hrest⟩ := Option.bind_eq_some_iff.1 h
          rw [readDigits?, he]
          exact ih hrest

/-- Zeros in front do not count. -/
theorem readDigits?_replicate (zeros k : Nat) (xs : List Char) :
    readDigits? id 16 (zeros + k) 0 (List.replicate zeros '0' ++ xs) = readDigits? id 16 k 0 xs := by
  induction zeros with
  | zero => rw [Nat.zero_add, List.replicate_zero, List.nil_append]
  | succ zeros ih =>
      rw [Nat.succ_add, List.replicate_succ, List.cons_append, ← ih]
      rfl

theorem digit?_digitChar {d : Nat} (h : d < 16) : digit? 16 d.digitChar = some d := by
  have hall : ∀ d < 16, digit? 16 d.digitChar = some d := by decide
  exact hall d h

theorem readDigits?_toDigits (n : Nat) (rest : List Char) :
    readDigits? id 16 (Nat.toDigits 16 n).length 0 (Nat.toDigits 16 n ++ rest) = some (n, rest) := by
  induction n using Nat.strongRecOn generalizing rest with
  | ind n ih =>
      have hlast := digit?_digitChar (Nat.mod_lt n (by decide : 0 < 16))
      by_cases hlt : n < 16
      · rw [Nat.toDigits_of_lt_base hlt]
        rw [Nat.mod_eq_of_lt hlt] at hlast
        have hnone : readDigits? id 16 0 0 (n.digitChar :: rest) = some (0, n.digitChar :: rest) := rfl
        simpa using readDigits?_succ hnone hlast
      · have hfront := ih (n / 16) (by omega) ((n % 16).digitChar :: rest)
        rw [Nat.toDigits_of_base_le (by decide) (by omega), List.length_append, List.append_assoc]
        have hboth := readDigits?_succ hfront hlast
        rw [Nat.div_add_mod' n 16] at hboth
        exact hboth

/-- A number that is written in hexadecimal digits is read back. -/
theorem readDigits?_hex {width n : Nat} (h : (Nat.toDigits 16 n).length ≤ width) (rest : List Char) :
    readDigits? id 16 width 0 (hex width n ++ rest) = some (n, rest) := by
  have hzeros := readDigits?_replicate (width - (Nat.toDigits 16 n).length) (Nat.toDigits 16 n).length
    (Nat.toDigits 16 n ++ rest)
  rw [Nat.sub_add_cancel h, ← List.append_assoc] at hzeros
  rw [hex, hzeros, readDigits?_toDigits]

/-! ### Characters in a literal -/

/-- What is written stands for the bytes of `c` in a double-quoted literal, whatever follows it. -/
def Spells (written : List Char) (c : Char) : Prop :=
  ∃ meaning : Escaped, meaning.bytes = String.utf8EncodeChar c ∧
    ∀ rest, readBody? '"' (written ++ rest) = (readBody? '"' rest).map (meaning :: ·)

/-- An escape that means the bytes of a character. -/
theorem spells_escape {written : List Char} {meaning : Escaped} {c : Char}
    (hread : ∀ rest, readEscape? id '"' (written ++ rest) = some (meaning, rest))
    (hbytes : meaning.bytes = String.utf8EncodeChar c) : Spells ('\\' :: written) c := by
  refine ⟨meaning, hbytes, fun rest => ?_⟩
  rw [List.cons_append, readBody?]
  split
  · next heq =>
      obtain ⟨rfl, rfl⟩ := Prod.mk.inj (Option.some.inj ((hread rest).symm.trans heq))
      rfl
  · next heq =>
      rw [hread] at heq
      cases heq

/-- An escape of one letter. -/
theorem spells_letter {x c : Char} (h : letterEscape? '"' x = some c) : Spells ['\\', x] c := by
  have hread (rest : List Char) : readEscape? id '"' ([x] ++ rest) = some (.char c, rest) := by
    rw [List.singleton_append, readEscape?, id, h]
  exact spells_escape hread rfl

/-- An escape in hexadecimal digits. -/
theorem spells_hex {opening c : Char} {form : NumericEscape} {meaning : Escaped}
    (hletter : letterEscape? '"' opening = none) (hform : numericEscape? opening = some form)
    (hbase : form.base = 16) (hfirst : form.first = 0) (hwidth : (Nat.toDigits 16 c.toNat).length ≤ form.count)
    (hmeaning : form.meaning? c.toNat = some meaning) (hbytes : meaning.bytes = String.utf8EncodeChar c) :
    Spells ('\\' :: opening :: hex form.count c.toNat) c := by
  refine spells_escape (fun rest => ?_) hbytes
  have hdigits := readDigits?_hex hwidth rest
  simp [readEscape?, hletter, hform, hbase, hfirst, hdigits, hmeaning]

/-- A character of one byte may be written as that byte. -/
theorem spells_byte {c : Char} (h : c.toNat < 0x80) : Spells ('\\' :: 'x' :: hex 2 c.toNat) c := by
  have hsize : c.utf8Size = 1 := Char.utf8Size_eq_one_iff.2 (Nat.le_of_lt_succ h)
  have hbytes : (Escaped.byte c.toNat.toUInt8).bytes = String.utf8EncodeChar c := by
    rw [String.utf8EncodeChar_eq_singleton hsize]
    rfl
  have hmeaning : NumericEscape.meaning? { base := 16, count := 2, first := 0, isByte := true } c.toNat =
      some (.byte c.toNat.toUInt8) := by
    rw [NumericEscape.meaning?, if_pos rfl, if_pos (by omega)]
  have hwidth : (Nat.toDigits 16 c.toNat).length ≤ 2 :=
    (Nat.length_toDigits_le_iff (by decide) (by decide)).2 (by omega)
  exact spells_hex (by decide) rfl rfl rfl hwidth hmeaning hbytes

/-- A character may be written as its code point. -/
theorem spells_codePoint {c : Char} (h : c.toNat < 0x10000) : Spells ('\\' :: 'u' :: hex 4 c.toNat) c := by
  have hmeaning : NumericEscape.meaning? { base := 16, count := 4, first := 0, isByte := false } c.toNat =
      some (.char c) := by
    have hvalid : c.toNat.isValidChar := c.valid
    rw [NumericEscape.meaning?, if_neg nofun, if_pos hvalid, Char.ofNat_toNat]
  have hwidth : (Nat.toDigits 16 c.toNat).length ≤ 4 :=
    (Nat.length_toDigits_le_iff (by decide) (by decide)).2 (by omega)
  exact spells_hex (by decide) rfl rfl rfl hwidth hmeaning rfl

/-- A character that stands for itself. -/
theorem spells_self {c : Char} (hbackslash : c ≠ '\\') (hnewline : c ≠ '\n') (hmark : c ≠ '"') : Spells [c] c := by
  refine ⟨.char c, rfl, fun rest => ?_⟩
  rw [List.singleton_append, readBody?]
  · simp [hnewline, hmark]
  · exact hbackslash

/-- In whatever way a character is written, it is read back. -/
theorem spells_quoteChar (c : Char) : Spells (quoteChar c) c := by
  unfold quoteChar
  split
  -- Two marks and seven control characters have a letter.
  iterate 9 · exact spells_letter rfl
  next hmark hbackslash _ _ _ hnewline _ _ _ =>
    split
    · next hlow =>
        refine spells_byte ?_
        rcases Bool.or_eq_true_iff.1 hlow with hlow | hdelete
        · exact Nat.lt_of_lt_of_le (of_decide_eq_true hlow) (by decide)
        · rw [eq_of_beq hdelete]
          decide
    · split
      · next hcontrol =>
          refine spells_codePoint ?_
          simp only [isControl, Bool.or_eq_true, Bool.and_eq_true, decide_eq_true_eq] at hcontrol
          omega
      · exact spells_self hbackslash hnewline hmark

/-! ### No control characters -/

/-- Hexadecimal digits are no control characters. -/
theorem isControl_of_mem_toDigits {n : Nat} {c : Char} (h : c ∈ Nat.toDigits 16 n) : isControl c = false := by
  have hdigit : ∀ d < 16, isControl d.digitChar = false := by decide
  induction n using Nat.strongRecOn with
  | ind n ih =>
      have hlast := hdigit (n % 16) (Nat.mod_lt n (by decide))
      by_cases hlt : n < 16
      · rw [Nat.toDigits_of_lt_base hlt] at h
        rw [Nat.mod_eq_of_lt hlt] at hlast
        exact List.mem_singleton.1 h ▸ hlast
      · rw [Nat.toDigits_of_base_le (by decide) (by omega)] at h
        rcases List.mem_append.1 h with h | h
        · exact ih (n / 16) (by omega) h
        · exact List.mem_singleton.1 h ▸ hlast

theorem isControl_of_mem_hex {width n : Nat} {c : Char} (h : c ∈ hex width n) : isControl c = false := by
  rcases List.mem_append.1 h with hzero | hdigit
  · rw [(List.mem_replicate.1 hzero).2]
    decide
  · exact isControl_of_mem_toDigits hdigit

/-- A character is written without control characters. -/
theorem isControl_of_mem_quoteChar {c d : Char} (h : d ∈ quoteChar c) : isControl d = false := by
  have hletter {x : Char} (hx : isControl x = false) (hd : d ∈ ['\\', x]) : isControl d = false := by
    rcases List.mem_pair.1 hd with rfl | rfl
    · decide
    · exact hx
  have hescape {x : Char} {width n : Nat} (hx : isControl x = false) (hd : d ∈ '\\' :: x :: hex width n) :
      isControl d = false := by
    rcases List.mem_append.1 (show d ∈ ['\\', x] ++ hex width n from hd) with hd | hd
    · exact hletter hx hd
    · exact isControl_of_mem_hex hd
  unfold quoteChar at h
  split at h
  iterate 9 · exact hletter (by decide) h
  split at h
  · exact hescape (by decide) h
  · split at h
    · exact hescape (by decide) h
    · next hplain =>
        rw [List.mem_singleton.1 h]
        simpa using hplain

/-- A quoted text has no control characters. -/
theorem isControl_of_mem_quote {s : String} {d : Char} (h : d ∈ (quote s).toList) : isControl d = false := by
  rw [quote, String.toList_ofList] at h
  rcases List.mem_append.1 h with h | h
  · rcases List.mem_cons.1 h with rfl | h
    · decide
    · obtain ⟨c, -, hd⟩ := List.mem_flatMap.1 h
      exact isControl_of_mem_quoteChar hd
  · rw [List.mem_singleton.1 h]
    decide

/-! ### Whole texts -/

/-- The characters of a quoted text mean its bytes. -/
theorem readBody?_quoteChars (cs : List Char) :
    ∃ meanings, readBody? '"' (cs.flatMap quoteChar) = some meanings ∧
      meanings.flatMap Escaped.bytes = cs.flatMap String.utf8EncodeChar := by
  induction cs with
  | nil => exact ⟨[], by rw [List.flatMap_nil, readBody?], rfl⟩
  | cons c cs ih =>
      obtain ⟨meanings, hread, hbytes⟩ := ih
      obtain ⟨meaning, hc, hspells⟩ := spells_quoteChar c
      refine ⟨meaning :: meanings, ?_, ?_⟩
      · rw [List.flatMap_cons, hspells, hread, Option.map_some]
      · rw [List.flatMap_cons, List.flatMap_cons, hc, hbytes]

/-- Between marks, the characters of a quoted text are read as the text. -/
theorem unquote?_quoteChars (cs : List Char) :
    unquote? (String.ofList ('"' :: cs.flatMap quoteChar ++ ['"'])) = some (String.ofList cs) := by
  obtain ⟨meanings, hread, hbytes⟩ := readBody?_quoteChars cs
  have hbody : bodyOf? (String.ofList ('"' :: cs.flatMap quoteChar ++ ['"'])).toList =
      some ('"', cs.flatMap quoteChar) := by
    rw [String.toList_ofList, List.cons_append, bodyOf?, if_pos (by simp), List.dropLast_concat]
  have htext : textOf meanings = String.ofList cs := by
    have htoUTF8 : ((String.ofList cs).toList.flatMap String.utf8EncodeChar).toByteArray =
        (String.ofList cs).toUTF8 := String.utf8Encode_toList
    rw [String.toList_ofList] at htoUTF8
    rw [textOf, hbytes, htoUTF8, Text.decodeLossy_toUTF8]
  rw [unquote?, hbody]
  dsimp only
  rw [if_neg (by decide), if_pos (by decide), hread, Option.map_some, htext]

/-- A text that is written as a quoted literal is read back, whatever characters it has. -/
theorem unquote?_quote (s : String) : unquote? (quote s) = some s := by
  rw [quote, unquote?_quoteChars, String.ofList_toList]

/-- Marks, a tab and a carriage return have letters, other control characters are written as bytes or as code points,
and what is not a control character stands as it is. -/
example : quote "\"\t\x01\x7f\u0085é" = "\"\\\"\\t\\x01\\x7f\\u0085é\"" := by decide +kernel

end Literal

end GoSource
