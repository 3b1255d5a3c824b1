import GoSource.Proofs.Scanner.Respelling

/-!
# Quoted literals as whole texts

The scanner looks for the end of a quoted literal and goes on after a malformed escape; a finished literal is read
between its marks.  Both accept the same literals.

* **`readEscape?_map`**: an escape is read the same from whatever carries its characters.
* **`quotedBody_eq_iff`**: a body is closed at the end of a text, without a malformed escape, if what stands before the
  closing mark can be read.
* **`ScansWhole`**: a text that is one token.
* **`unquote?_isSome_iff_scansWhole`**: a literal can be read if it is one token of its class.
-/

namespace GoSource

namespace Literal

/-! ### Escapes -/

theorem readDigits?_map {α β : Type} (char : β → Char) (f : α → β) (b count acc : Nat) (xs : List α) :
    readDigits? char b count acc (xs.map f) =
      (readDigits? (fun x => char (f x)) b count acc xs).map fun p => (p.1, p.2.map f) := by
  induction count generalizing acc xs with
  | zero => rfl
  | succ count ih =>
      cases xs with
      | nil => rfl
      | cons x xs =>
          rw [List.map_cons, readDigits?, readDigits?, Option.map_bind]
          exact congrArg _ (funext fun d => ih (acc * b + d) xs)

/-- An escape is read from the characters that are carried. -/
theorem readEscape?_map {α β : Type} (char : β → Char) (f : α → β) (quote : Char) (xs : List α) :
    readEscape? char quote (xs.map f) =
      (readEscape? (fun x => char (f x)) quote xs).map fun p => (p.1, p.2.map f) := by
  cases xs with
  | nil => rfl
  | cons x xs =>
      rw [List.map_cons, readEscape?, readEscape?]
      cases letterEscape? quote (char (f x)) with
      | some meaning => rfl
      | none =>
          cases numericEscape? (char (f x)) with
          | none => rfl
          | some form =>
              simp only [Option.bind_eq_bind, Option.bind_some, readDigits?_map]
              cases readDigits? (fun x => char (f x)) form.base form.count form.first xs with
              | none => rfl
              | some read =>
                  simp only [Option.map_some, Option.bind_some]
                  cases form.meaning? read.1 <;> rfl

/-! ### Bodies -/

theorem readBody?_escape {mark : Char} {cs rest : List Char} {meaning : Escaped}
    (h : readEscape? id mark cs = some (meaning, rest)) :
    readBody? mark ('\\' :: cs) = (readBody? mark rest).map (meaning :: ·) := by
  rw [readBody?]
  split
  · next heq =>
      obtain ⟨rfl, rfl⟩ := Prod.mk.inj (Option.some.inj (h.symm.trans heq))
      rfl
  · next heq =>
      rw [h] at heq
      cases heq

theorem readBody?_char {mark c : Char} (hescape : c ≠ '\\') (hnewline : c ≠ '\n') (hmark : c ≠ mark) (cs : List Char) :
    readBody? mark (c :: cs) = (readBody? mark cs).map (Escaped.char c :: ·) := by
  rw [readBody?]
  · simp [hnewline, hmark]
  · exact hescape

theorem bodyOf?_cons_iff {mark m : Char} {cs body : List Char} :
    bodyOf? (mark :: cs) = some (m, body) ↔ m = mark ∧ cs = body ++ [mark] := by
  rw [bodyOf?]
  constructor
  · intro h
    split at h
    · next hlast =>
        obtain ⟨rfl, rfl⟩ := Prod.mk.inj (Option.some.inj h)
        obtain ⟨front, rfl⟩ := List.getLast?_eq_some_iff.1 hlast
        exact ⟨rfl, by rw [List.dropLast_concat]⟩
    · cases h
  · rintro ⟨rfl, rfl⟩
    rw [List.getLast?_concat, if_pos rfl, List.dropLast_concat]

theorem unquote?_eq {mark : Char} (body : List Char) :
    unquote? (String.ofList (mark :: (body ++ [mark]))) =
      if mark == rawMark then some (String.ofList (body.filter (· != '\r')))
      else if mark == '"' then (readBody? mark body).map textOf
      else if mark == charMark then ((readBody? mark body).filter (·.length == 1)).map textOf
      else none := by
  rw [unquote?, String.toList_ofList, bodyOf?_cons_iff.2 ⟨rfl, rfl⟩]

/-- A literal that can be read ends with the mark it begins with. -/
theorem isSome_unquote?_iff {mark : Char} {cs : List Char} :
    (unquote? (String.ofList (mark :: cs))).isSome = true ↔
      ∃ body, cs = body ++ [mark] ∧ (unquote? (String.ofList (mark :: (body ++ [mark])))).isSome = true := by
  constructor
  · intro h
    cases hbody : bodyOf? (mark :: cs) with
    | none =>
        rw [unquote?, String.toList_ofList, hbody] at h
        cases h
    | some found =>
        obtain ⟨m, body⟩ := found
        obtain ⟨-, rfl⟩ := bodyOf?_cons_iff.1 hbody
        exact ⟨body, rfl, h⟩
  · rintro ⟨body, rfl, h⟩
    exact h

/-- A string literal can be read if its body can, up to the mark at its end. -/
theorem unquote?_string_iff {cs : List Char} :
    (unquote? (String.ofList ('"' :: cs))).isSome = true ↔
      ∃ body meanings, cs = body ++ ['"'] ∧ readBody? '"' body = some meanings := by
  have hraw : ('"' == rawMark) = false := by decide
  rw [isSome_unquote?_iff]
  simp only [unquote?_eq, hraw, Bool.false_eq_true, if_false, BEq.rfl, if_true, Option.isSome_map,
    Option.isSome_iff_exists, exists_and_left]

/-- A character literal can be read if its body can and is one character. -/
theorem unquote?_char_iff {cs : List Char} :
    (unquote? (String.ofList (charMark :: cs))).isSome = true ↔
      ∃ body meanings, cs = body ++ [charMark] ∧ readBody? charMark body = some meanings ∧ meanings.length = 1 := by
  have hraw : (charMark == rawMark) = false := by decide
  have hquote : (charMark == '"') = false := by decide
  rw [isSome_unquote?_iff]
  simp only [unquote?_eq, hraw, hquote, Bool.false_eq_true, if_false, BEq.rfl, if_true, Option.isSome_map,
    Option.isSome_iff_exists, Option.filter_eq_some_iff, beq_iff_eq, exists_and_left]

end Literal

namespace Lexeme

open Literal

/-- A body that is closed and has no malformed escape can be read. -/
theorem exists_readBody? {mark : Char} {rs : List Rune} (hclosed : (quotedBody mark rs).terminated = true)
    (hfits : (quotedBody mark rs).escapesFit = true) :
    ∃ body r tail meanings, rs = body ++ r :: tail ∧ r.char = mark ∧
      (quotedBody mark rs).length = body.length + 1 ∧ readBody? mark (Rune.chars body) = some meanings ∧
      meanings.length = (quotedBody mark rs).characters := by
  fun_induction quotedBody mark rs with
  | case1 => cases hclosed
  | case2 r rest hnewline => cases hclosed
  | case3 r rest hnewline hmark => 
    refine ⟨[], r, rest, [], rfl, hmark, rfl, ?_, rfl⟩
    exact readBody?.eq_1 mark
  | case4 r rest hnewline hmark hescape m rest' hread hless ih =>
      obtain ⟨body, q, tail, meanings, rfl, hq, hlength, hbody, hcharacters⟩ := ih hclosed hfits
      obtain ⟨x, ds, rfl, -, hsame⟩ := Literal.readEscape?_eq_some hread
      have hescaped : readEscape? id mark (Rune.chars (x :: (ds ++ body))) = some (m, Rune.chars body) := by
        rw [Rune.chars, readEscape?_map]
        exact congrArg (Option.map _) (hsame body)
      refine ⟨r :: x :: (ds ++ body), q, tail, m :: meanings, by simp, hq, ?_, ?_, ?_⟩
      · simp only [QuotedBody.cons, hlength, List.length_cons, List.length_append]
        omega
      · have hchars : Rune.chars (r :: x :: (ds ++ body)) = '\\' :: Rune.chars (x :: (ds ++ body)) := by
          rw [← hescape]
          rfl
        rw [hchars, readBody?_escape hescaped, hbody, Option.map_some]
      · exact congrArg (· + 1) hcharacters
  | case5 r rest hnewline hmark hescape hread skipped ih => cases hfits
  | case6 r rest hnewline hmark hescape ih =>
      obtain ⟨body, q, tail, meanings, rfl, hq, hlength, hbody, hcharacters⟩ := ih hclosed hfits
      refine ⟨r :: body, q, tail, .char r.char :: meanings, rfl, hq, ?_, ?_, congrArg (· + 1) hcharacters⟩
      · simp only [QuotedBody.cons, hlength, List.length_cons]
        omega
      · show readBody? mark (r.char :: Rune.chars body) = _
        rw [readBody?_char hescape hnewline hmark, hbody, Option.map_some]

theorem quotedBody_char {mark c : Char} (hnewline : c ≠ '\n') (hmark : c ≠ mark) (hescape : c ≠ '\\')
    (rest : List Rune) : quotedBody mark (.scalar c :: rest) = (quotedBody mark rest).cons 1 true := by
  rw [quotedBody, Rune.char_scalar, if_neg hnewline, if_neg hmark, if_neg hescape]

/-- A body that can be read is closed by the mark after it and has no malformed escape. -/
theorem quotedBody_of_readBody? {mark : Char} (hescape : mark ≠ '\\') (hnewline : mark ≠ '\n') {body tail : List Char}
    {meanings : List Escaped} (h : readBody? mark body = some meanings) :
    quotedBody mark ((body ++ mark :: tail).map .scalar) =
      { length := body.length + 1, characters := meanings.length, escapesFit := true, terminated := true } := by
  fun_induction readBody? mark body generalizing meanings with
  | case1 =>
      obtain rfl := Option.some.inj h
      rw [List.nil_append, List.map_cons, quotedBody]
      simp [hnewline]
  | case2 rest m rest' hread hless ih =>
      obtain ⟨later, hlater, rfl⟩ := Option.map_eq_some_iff.1 h
      obtain ⟨x, ds, rfl, -, hsame⟩ := readEscape?_eq_some hread
      have hescaped : readEscape? Rune.char mark ((x :: (ds ++ (rest' ++ mark :: tail))).map .scalar) =
          some (m, (rest' ++ mark :: tail).map .scalar) := by
        rw [readEscape?_map]
        exact congrArg (Option.map _) (hsame (rest' ++ mark :: tail))
      have htext : ('\\' :: x :: (ds ++ rest') ++ mark :: tail).map Rune.scalar =
          .scalar '\\' :: (x :: (ds ++ (rest' ++ mark :: tail))).map .scalar := by simp
      rw [htext, quotedBody_escape hescape rfl hescaped, ih hlater, QuotedBody.cons]
      simp only [QuotedBody.mk.injEq, List.length_map, List.length_cons, List.length_append, Bool.true_and, and_true]
      omega
  | case3 rest hread => cases h
  | case4 c rest hc hstop => cases h
  | case5 c rest hc hstop ih =>
      obtain ⟨later, hlater, rfl⟩ := Option.map_eq_some_iff.1 h
      obtain ⟨hcnewline, hcmark⟩ : c ≠ '\n' ∧ c ≠ mark := by simpa using hstop
      rw [List.cons_append, List.map_cons, quotedBody_char hcnewline hcmark hc, ih hlater, QuotedBody.cons]
      simp only [QuotedBody.mk.injEq, List.length_cons, Bool.true_and, and_true]
      omega

/-- A body ends with its text, closed and without a malformed escape, if what stands before the mark can be read. -/
theorem quotedBody_eq_iff {mark : Char} (hescape : mark ≠ '\\') (hnewline : mark ≠ '\n') {cs : List Char} {n : Nat} :
    quotedBody mark (cs.map .scalar) =
        { length := cs.length, characters := n, escapesFit := true, terminated := true } ↔
      ∃ body meanings, cs = body ++ [mark] ∧ readBody? mark body = some meanings ∧ meanings.length = n := by
  constructor
  · intro h
    obtain ⟨body, r, tail, meanings, htext, hr, hlength, hbody, hcharacters⟩ :=
      exists_readBody? (congrArg QuotedBody.terminated h) (congrArg QuotedBody.escapesFit h)
    rw [h] at hlength hcharacters
    have hlength : cs.length = body.length + 1 := hlength
    have htail : tail = [] := by
      have hall := congrArg List.length htext
      rw [List.length_map, List.length_append, List.length_cons] at hall
      exact List.length_eq_zero_iff.1 (by omega)
    refine ⟨Rune.chars body, meanings, ?_, hbody, hcharacters⟩
    rw [← chars_map_scalar cs, htext, htail, ← hr]
    simp [Rune.chars]
  · rintro ⟨body, meanings, rfl, hbody, rfl⟩
    rw [quotedBody_of_readBody? hescape hnewline hbody, List.length_append, List.length_singleton]

/-- A string literal takes up its text, without a fault, if its body can be read. -/
theorem stringLiteral_eq_iff {cs : List Char} :
    stringLiteral (cs.map .scalar) = { kind := .token (.lit .string), more := cs.length } ↔
      ∃ body meanings, cs = body ++ ['"'] ∧ readBody? '"' body = some meanings := by
  have hmeasure : stringLiteral (cs.map .scalar) = { kind := .token (.lit .string), more := cs.length } ↔
      ∃ n, quotedBody '"' (cs.map .scalar) =
        { length := cs.length, characters := n, escapesFit := true, terminated := true } := by
    unfold stringLiteral
    generalize quotedBody '"' (cs.map .scalar) = body
    obtain ⟨length, characters, escapesFit, terminated⟩ := body
    cases terminated <;> cases escapesFit <;> simp
  rw [hmeasure, exists_congr fun n => quotedBody_eq_iff (n := n) (by decide) (by decide)]
  exact ⟨fun ⟨_, body, meanings, hcs, hbody, _⟩ => ⟨body, meanings, hcs, hbody⟩,
    fun ⟨body, meanings, hcs, hbody⟩ => ⟨_, body, meanings, hcs, hbody, rfl⟩⟩

/-- A character literal takes up its text, without a fault, if its body can be read and is one character. -/
theorem charLiteral_eq_iff {cs : List Char} :
    charLiteral (cs.map .scalar) = { kind := .token (.lit .char), more := cs.length } ↔
      ∃ body meanings, cs = body ++ [charMark] ∧ readBody? charMark body = some meanings ∧ meanings.length = 1 := by
  rw [← quotedBody_eq_iff (by decide) (by decide)]
  unfold charLiteral
  generalize quotedBody charMark (cs.map .scalar) = body
  obtain ⟨length, characters, escapesFit, terminated⟩ := body
  cases terminated <;> cases escapesFit <;> simp

end Lexeme

/-! ### Reports on an open journal -/

namespace Journal

variable {j : Journal}

theorem size_entries_lt_report (hopen : j.closed = false) (d : Diagnostic SourceFault) :
    j.entries.size < (j.report d).entries.size := by
  unfold report
  simp only [hopen, Bool.false_eq_true, if_false]
  split <;> simp only [Array.size_push] <;> omega

theorem size_entries_le_report (j : Journal) (d : Diagnostic SourceFault) :
    j.entries.size ≤ (j.report d).entries.size := by
  cases hclosed : j.closed with
  | true => simp [report, hclosed]
  | false => exact Nat.le_of_lt (size_entries_lt_report hclosed d)

end Journal

namespace Scanner

theorem size_entries_le_reportFault (s : Scanner) (item : Item) :
    s.journal.entries.size ≤ (s.reportFault item).journal.entries.size := by
  unfold reportFault
  split
  · exact Journal.size_entries_le_report _ _
  · exact Nat.le_refl _

theorem size_entries_le_scanAll (s : Scanner) : s.journal.entries.size ≤ s.scanAll.2.journal.entries.size := by
  fun_induction scanAll s with
  | case1 s item rest hpop delivered tokens s' hall ih =>
      rw [hall] at ih
      exact (s.size_entries_le_reportFault item).trans ih
  | case2 s hpop token s' hend =>
      obtain ⟨rfl, rfl⟩ := Prod.mk.inj hend
      exact Nat.le_refl _

/-- Where the journal is open, nothing is reported up to the end of a text if nothing is wrong with its tokens. -/
theorem entries_scanAll_eq_iff {s : Scanner} (hopen : s.journal.closed = false) :
    s.scanAll.2.journal.entries = s.journal.entries ↔ s.Faultless := by
  refine ⟨fun h => ?_, fun h => by rw [journal_scanAll_of_faultless h]⟩
  fun_induction scanAll s with
  | case1 s item rest hpop delivered tokens s' hall ih =>
      have hfault : item.fault = none := by
        cases hfault : item.fault with
        | none => rfl
        | some fault =>
            have hreport : s.journal.entries.size < (s.reportFault item).journal.entries.size := by
              rw [reportFault, hfault]
              exact Journal.size_entries_lt_report hopen _
            have hlater := size_entries_le_scanAll delivered.2
            rw [hall, h] at hlater
            exact absurd hreport (Nat.not_lt.2 hlater)
      have hsame : delivered.2.journal = s.journal := by
        show (s.reportFault item).journal = s.journal
        rw [reportFault, hfault]
      rw [hall, hsame] at ih
      intro later hlater
      rw [TokenStream.items_pop? hpop] at hlater
      rcases List.mem_cons.1 hlater with rfl | hlater
      · exact hfault
      · exact ih hopen h later hlater
  | case2 s hpop token s' hend =>
      intro item hitem
      rw [TokenStream.items_eq_nil_of_pop? hpop] at hitem
      cases hitem

end Scanner

/-! ### Texts of one token -/

theorem Lexeme.literal_lexeme {e : Extent} {k : LiteralClass} (h : e.kind = .token (.lit k)) (c : Char)
    (body : List Char) : (e.lexeme c body).literal = String.ofList (c :: body) := by
  rw [literal, Extent.kind_lexeme, h]
  exact toString_map_scalar (c :: body)

/-- A text that starts with a token has it as its first entry. -/
theorem Item.ofLexemes_measured {c : Char} {body tail : List Char} {e : Lexeme.Extent}
    (hmeasured : Lexeme.Measured c body tail e) {token : Token} (htoken : e.kind = .token token) (offset : Nat) :
    ∃ later, ofLexemes offset .illegal (Lexeme.split ((c :: (body ++ tail)).map .scalar)) =
      ofLexeme offset token (e.lexeme c body) :: later ∧ (tail = [] → later = []) := by
  rw [hmeasured.split_eq, ofLexemes, Lexeme.Extent.kind_lexeme, htoken]
  refine ⟨_, rfl, ?_⟩
  rintro rfl
  rw [List.map_nil, Lexeme.split, ofLexemes]

namespace Scanner

/-- The text is one literal of class `k`, and scanning it reports nothing. -/
def ScansWhole (s : Scanner) (file : SourceFile) (text : String) (k : LiteralClass) : Prop :=
  let scanned := (s.init file { bytes := text.toUTF8 }).scanAll
  ∃ token stop : Scanned, scanned.1 = [token, stop] ∧ token.token = .lit k ∧ token.literal = text ∧
    stop.token = .eof ∧ scanned.2.journal.entries = s.journal.entries

/-- The entries of a text that was just bound are those of its lexemes, and nothing was reported about it. -/
theorem init_text (s : Scanner) (file : SourceFile) {text : String} (hbom : text.toList.head? ≠ some Rune.bom) :
    (s.init file { bytes := text.toUTF8 }).stream.items =
        Item.ofLexemes 0 .illegal (Lexeme.split (text.toList.map .scalar)) ∧
      (s.init file { bytes := text.toUTF8 }).journal = s.journal.openFile := by
  generalize hr : s.reader.init file { bytes := text.toUTF8 } = r
  have hinit : s.init file { bytes := text.toUTF8 } = start r := congrArg start hr
  have hjournal : r.journal = s.journal.openFile := by
    rw [← hr]
    rfl
  have hdecode : Rune.decodeFrom r.bytes r.cursor = text.toList.map .scalar := by
    rw [← hr]
    exact Rune.decodeFrom_toUTF8 text
  obtain ⟨hread, hkept⟩ := Reader.readText_wellFormed (by rw [hjournal]; rfl) hdecode hbom
  rw [hinit, items_start, hread, journal_start, hkept]
  exact ⟨rfl, hjournal⟩

/-- A text that starts with a token is one literal if the token ends with the text and nothing is wrong with it. -/
theorem scansWhole_iff (s : Scanner) (file : SourceFile) {c : Char} {cs : List Char} (hbom : c ≠ Rune.bom)
    {token : Token} (htoken : (Lexeme.measure (.scalar c) (cs.map .scalar)).kind = .token token) (k : LiteralClass) :
    s.ScansWhole file (String.ofList (c :: cs)) k ↔
      Lexeme.measure (.scalar c) (cs.map .scalar) = { kind := .token (.lit k), more := cs.length } := by
  generalize htext : String.ofList (c :: cs) = text
  have hchars : text.toList = c :: cs := by rw [← htext, String.toList_ofList]
  have hhead : text.toList.head? ≠ some Rune.bom := by simpa [hchars] using hbom
  obtain ⟨hitems, hjournal⟩ := s.init_text file hhead
  obtain ⟨body, tail, e, rfl, hmeasured⟩ := Lexeme.exists_measured c cs
  rw [hmeasured.measure_eq] at htoken ⊢
  obtain ⟨later, hlater, hlast⟩ := Item.ofLexemes_measured hmeasured htoken 0
  rw [hchars, hlater] at hitems
  obtain ⟨t, heof, hall⟩ := (s.init file { bytes := text.toUTF8 }).scanAll_fst
  rw [hitems] at hall
  have hsilent : (s.init file { bytes := text.toUTF8 }).scanAll.2.journal.entries = s.journal.entries ↔
      ∀ item ∈ Item.ofLexeme 0 token (e.lexeme c body) :: later, item.fault = none := by
    rw [← hitems, ← Faultless, ← entries_scanAll_eq_iff (by rw [hjournal]; rfl), hjournal]
    rfl
  simp only [ScansWhole, hall, hsilent]
  constructor
  · rintro ⟨first, stop, htokens, hkind, hliteral, -, hfaultless⟩
    obtain ⟨rfl, -⟩ := List.cons.inj htokens
    obtain rfl : token = .lit k := hkind
    have hwhole : String.ofList (c :: body) = text := (Lexeme.literal_lexeme htoken c body).symm.trans hliteral
    have htail : tail = [] := by simpa using String.ofList_injective (hwhole.trans htext.symm)
    have hfault : e.fault = none := hfaultless _ List.mem_cons_self
    have hmore : e.more = (body ++ tail).length := by rw [hmeasured.more_eq, htail, List.append_nil]
    rw [← htoken, ← hmore, ← hfault]
  · intro he
    have hmore : (body ++ tail).length = body.length := by rw [← hmeasured.more_eq, he]
    have htail : tail = [] := by simpa using hmore
    have hkind : e.kind = .token (.lit k) := by rw [he]
    obtain rfl : token = .lit k := LexemeKind.token.inj (htoken.symm.trans hkind)
    obtain rfl := hlast htail
    refine ⟨_, t, rfl, rfl, ?_, heof, ?_⟩
    · rw [← htext, htail, List.append_nil]
      exact Lexeme.literal_lexeme hkind c body
    · intro item hitem
      obtain rfl := List.mem_singleton.1 hitem
      exact congrArg Lexeme.Extent.fault he

/-! ### Scanning and reading -/

/-- Scanning and reading accept the same quoted literals.  A text that opens with the mark of a string or of a character
can be read if it is one token of that class, followed by the end of the text, and nothing is reported. -/
theorem unquote?_isSome_iff_scansWhole (s : Scanner) (file : SourceFile) {l : String} {mark : Char} {k : LiteralClass}
    (hmark : mark = '"' ∧ k = .string ∨ mark = Literal.charMark ∧ k = .char) (hopens : l.toList.head? = some mark) :
    (Literal.unquote? l).isSome = true ↔ s.ScansWhole file l k := by
  obtain ⟨cs, hcs⟩ := List.head?_eq_some_iff.1 hopens
  obtain rfl : l = String.ofList (mark :: cs) := by rw [← hcs, String.ofList_toList]
  rcases hmark with ⟨rfl, rfl⟩ | ⟨rfl, rfl⟩
  · have hmeasure : Lexeme.measure (.scalar '"') (cs.map .scalar) = Lexeme.stringLiteral (cs.map .scalar) := by
      rw [Lexeme.measure_map_scalar]
      rfl
    rw [scansWhole_iff s file (by decide) (congrArg _ hmeasure), hmeasure, Lexeme.stringLiteral_eq_iff,
      Literal.unquote?_string_iff]
  · have hmeasure :
        Lexeme.measure (.scalar Literal.charMark) (cs.map .scalar) = Lexeme.charLiteral (cs.map .scalar) := by
      rw [Lexeme.measure_map_scalar]
      rfl
    rw [scansWhole_iff s file (by decide) (congrArg _ hmeasure), hmeasure, Lexeme.charLiteral_eq_iff,
      Literal.unquote?_char_iff]

/-- An escaped mark does not end the literal. -/
theorem unquote?_isSome_iff_scansWhole_escapes :
    (("\"\\x41\\\"é\"".toList.head? = some '"' ∧ (Literal.unquote? "\"\\x41\\\"é\"").isSome = true) ∧
      ({} : Scanner).ScansWhole {} "\"\\x41\\\"é\"" .string) ∧
    (("\x27\\\x27\x27".toList.head? = some Literal.charMark ∧
        (Literal.unquote? "\x27\\\x27\x27").isSome = true) ∧
      ({} : Scanner).ScansWhole {} "\x27\\\x27\x27" .char) := by
  have hstring : (Literal.unquote? "\"\\x41\\\"é\"").isSome = true := by decide +kernel
  have hchar : (Literal.unquote? "\x27\\\x27\x27").isSome = true := by decide +kernel
  exact ⟨⟨⟨by decide, hstring⟩,
      (unquote?_isSome_iff_scansWhole {} {} (.inl ⟨rfl, rfl⟩) (by decide)).1 hstring⟩,
    ⟨⟨by decide, hchar⟩, (unquote?_isSome_iff_scansWhole {} {} (.inr ⟨rfl, rfl⟩) (by decide)).1 hchar⟩⟩

end Scanner

end GoSource
