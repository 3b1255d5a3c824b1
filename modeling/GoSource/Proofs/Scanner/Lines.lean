import GoSource.Proofs.Grammar.Leaves
import GoSource.Proofs.Scanner.Semicolons
import GoSource.Proofs.Scanner.Texts

/-!
# Files made of lines of words

A file in which every line is cut into words, the last of which ends a statement, is scanned into the words of
its lines with a semicolon after each line.

* **`Rune.decodeFrom_utf8Encode`**: the runes of an encoded text are its characters.
* **`Line`**: a line of words.
* **`ready_lines`**: a parser at the start of such a file has the words before it, and nothing to report.
-/

namespace GoSource

/-! ### Encoded texts -/

theorem Rune.decodeAt_append {bytes : ByteArray} (c : Char) (cs : List Char) :
    decodeAt (bytes ++ (c :: cs).utf8Encode) bytes.size = .scalar c := by
  have hdecode : (bytes ++ (c :: cs).utf8Encode).utf8DecodeChar? bytes.size = some c := by
    rw [ByteArray.utf8DecodeChar?_eq_utf8DecodeChar?_extract, ByteArray.extract_append_eq_right rfl (by simp)]
    exact List.utf8DecodeChar?_utf8Encode_cons
  rw [decodeAt, hdecode]

/-- The runes of encoded characters are these characters. -/
theorem Rune.decodeFrom_utf8Encode (bytes : ByteArray) (cs : List Char) :
    decodeFrom (bytes ++ cs.utf8Encode) bytes.size = cs.map .scalar := by
  induction cs generalizing bytes with
  | nil => exact decodeFrom_of_le (by simp)
  | cons c cs ih =>
      have hfirst : [c].utf8Encode.size = c.utf8Size := by
        simp [List.utf8Encode_singleton]
      have hlt : bytes.size < (bytes ++ (c :: cs).utf8Encode).size := by
        have := c.utf8Size_pos
        rw [List.utf8Encode_cons]
        simp only [ByteArray.size_append, hfirst]
        omega
      have hrest := ih (bytes ++ [c].utf8Encode)
      rw [ByteArray.size_append, hfirst, ByteArray.append_assoc, ← List.utf8Encode_cons] at hrest
      rw [decodeFrom, if_pos hlt, decodeAt_append]
      exact congrArg (Rune.scalar c :: ·) hrest

theorem Rune.decodeFrom_toUTF8 (text : String) : decodeFrom text.toUTF8 0 = text.toList.map .scalar := by
  have h := decodeFrom_utf8Encode ByteArray.empty text.toList
  rw [ByteArray.empty_append, String.utf8Encode_toList] at h
  exact h

namespace Reader

theorem journal_take_of_ne_malformed {r : Reader} (h : Rune.decodeAt r.bytes r.cursor ≠ .malformed) :
    r.take.2.journal = r.journal := by
  simp only [take]
  split
  · next hrune => exact absurd hrune h
  · split <;> rfl

/-- Where every byte belongs to a character, all runes are read and nothing is reported. -/
theorem drain_wellFormed {r : Reader} (hopen : r.journal.closed = false)
    (h : Rune.malformed ∉ Rune.decodeFrom r.bytes r.cursor) :
    r.drain.1 = Rune.decodeFrom r.bytes r.cursor ∧ r.drain.2.journal = r.journal := by
  fun_induction drain r with
  | case1 r hclosed =>
      rw [hopen] at hclosed
      cases hclosed
  | case2 r hclosed hcursor rune r' htake hless runes last hdrain ih =>
      have hr' : r' = r.take.2 := by rw [htake]
      have hrune : rune = Rune.decodeAt r.bytes r.cursor := by rw [← fst_take, htake]
      rw [Rune.decodeFrom, if_pos hcursor, List.mem_cons, not_or] at h
      have hjournal : r'.journal = r.journal := by
        rw [hr']
        exact journal_take_of_ne_malformed (Ne.symm h.1)
      rw [hdrain, hr', bytes_take, cursor_take, ← hr', hjournal] at ih
      obtain ⟨hrunes, hlast⟩ := ih hopen h.2
      refine ⟨?_, hlast⟩
      rw [Rune.decodeFrom, if_pos hcursor, hrune, ← hrunes]
  | case3 r hclosed hcursor => exact ⟨(Rune.decodeFrom_of_le (Nat.le_of_not_lt hcursor)).symm, rfl⟩

/-- The text of a file without a byte order mark in front. -/
theorem readText_wellFormed {r : Reader} {cs : List Char} (hopen : r.journal.closed = false)
    (hdecode : Rune.decodeFrom r.bytes r.cursor = cs.map .scalar) (hbom : cs.head? ≠ some Rune.bom) :
    r.readText.1 = (0, cs.map .scalar) ∧ r.readText.2.journal = r.journal := by
  have hwellFormed : Rune.malformed ∉ Rune.decodeFrom r.bytes r.cursor := by simp [hdecode]
  obtain ⟨hrunes, hjournal⟩ := drain_wellFormed hopen hwellFormed
  rw [readText_snd]
  refine ⟨?_, hjournal⟩
  rw [hdecode] at hrunes
  unfold readText
  split
  · next c runes r' hdrain =>
      rw [hdrain] at hrunes
      have hc : c ≠ Rune.bom := by
        rintro rfl
        apply hbom
        cases cs with
        | nil => cases hrunes
        | cons d ds =>
            obtain ⟨hd, -⟩ := List.cons.inj hrunes
            cases hd
            rfl
      rw [if_neg hc]
      exact congrArg _ hrunes
  · next runes r' _ hdrain =>
      rw [hdrain] at hrunes
      exact congrArg _ hrunes

end Reader

/-! ### Lines -/

/-- The last word is one after which the end of a line ends the statement. -/
def Closes (ws : List Word) : Prop :=
  ∃ w ∈ ws.getLast?, w.1.endsStatement = true

theorem closes_snoc (ws : List Word) {w : Word} (h : w.1.endsStatement = true) : Closes (ws ++ [w]) :=
  ⟨w, by simp, h⟩

theorem Closes.append {ws : List Word} (h : Closes ws) (vs : List Word) : Closes (vs ++ ws) := by
  obtain ⟨w, hw, hends⟩ := h
  refine ⟨w, ?_, hends⟩
  rw [List.getLast?_append, hw]
  rfl

/-- A line of words. -/
structure Line (text : String) (ws : List Word) : Prop where
  cuts : Lexeme.Cuts text ws Lexeme.Breaks
  closes : Closes ws

/-- The characters of lines, with the end of each. -/
def lineChars (texts : List String) : List Char :=
  texts.flatMap fun text => text.toList ++ ['\n']

/-- The words of lines, with a semicolon for the end of each. -/
def lineWords (wss : List (List Word)) : List Word :=
  wss.flatMap fun ws => ws ++ [(.op .semicolon, "")]

namespace Item

/-- The word of an entry. -/
def word (item : Item) : Word :=
  (item.token, item.literal)

/-- An entry without a fault that is no comment. -/
structure Plain (item : Item) : Prop where
  fault_eq : item.fault = none
  ne_comment : item.token ≠ .comment

/-- The token before what follows the words `ws`. -/
def lastToken (last : Token) (ws : List Word) : Token :=
  (ws.getLast?.map Prod.fst).getD last

theorem lastToken_cons (last : Token) (w : Word) (ws : List Word) :
    lastToken last (w :: ws) = lastToken w.1 ws := by
  cases ws with
  | nil => rfl
  | cons v vs => simp [lastToken, List.getLast?_cons]

theorem endsStatement_lastToken {ws : List Word} (h : Closes ws) (last : Token) :
    (lastToken last ws).endsStatement = true := by
  obtain ⟨w, hw, hends⟩ := h
  rw [lastToken, hw]
  exact hends

/-- Plain lexemes become the entries of their words, and no semicolon is put in. -/
theorem ofLexemes_plain {ls : List Lexeme} (h : ∀ l ∈ ls, l.Plain) (rest : List Lexeme) (offset : Nat)
    (last : Token) :
    ∃ items offset', ofLexemes offset last (ls ++ rest) =
        items ++ ofLexemes offset' (lastToken last (ls.filterMap Lexeme.word?)) rest ∧
      items.map word = ls.filterMap Lexeme.word? ∧ ∀ item ∈ items, item.Plain := by
  induction ls generalizing offset last with
  | nil => exact ⟨[], offset, rfl, rfl, by simp⟩
  | cons l ls ih =>
      have hl := h l List.mem_cons_self
      have hls : ∀ l ∈ ls, l.Plain := fun l hl => h l (List.mem_cons_of_mem _ hl)
      cases hk : l.kind with
      | blank =>
          have hword : l.word? = none := by simp only [Lexeme.word?, hk]
          rw [List.cons_append, ofLexemes_blank _ _ _ hk, List.filterMap_cons_none hword]
          exact ih hls _ last
      | newline => exact absurd hk hl.ne_newline
      | token token =>
          have hcomment : token ≠ .comment := fun ht => hl.ne_comment (ht ▸ hk)
          have hword : l.word? = some (token, l.literal) := by simp only [Lexeme.word?, hk]
          obtain ⟨items, offset', hitems, hwords, hplain⟩ := ih hls (offset + Rune.widths l.runes) token
          refine ⟨ofLexeme offset token l :: items, offset', ?_, ?_, ?_⟩
          · rw [List.cons_append, ofLexemes_token _ _ _ hk hcomment, hitems, List.filterMap_cons_some hword,
              lastToken_cons, List.cons_append]
          · rw [List.map_cons, hwords, List.filterMap_cons_some hword]
            rfl
          · intro item hitem
            rcases List.mem_cons.1 hitem with rfl | hitem
            · exact ⟨hl.fault_eq, hcomment⟩
            · exact hplain item hitem

/-- The entries of lines. -/
theorem ofLexemes_lines {texts : List String} {wss : List (List Word)} (h : List.Forall₂ Line texts wss)
    (offset : Nat) (last : Token) :
    let items := ofLexemes offset last (Lexeme.split ((lineChars texts).map .scalar))
    items.map word = lineWords wss ∧ ∀ item ∈ items, item.Plain := by
  dsimp only
  induction h generalizing offset last with
  | nil => simp [lineChars, lineWords, Lexeme.split, ofLexemes]
  | @cons text ws texts wss hline _ ih =>
      obtain ⟨ls, hsplit, hls, rfl⟩ := hline.cuts ('\n' :: lineChars texts)
        (Lexeme.breaks_cons (by decide) _)
      have hnewline : Lexeme.split (('\n' :: lineChars texts).map .scalar) =
          { kind := .newline, runes := [.scalar '\n'] } :: Lexeme.split ((lineChars texts).map .scalar) := by
        rw [List.map_cons, Lexeme.split]
        rfl
      have hchars : lineChars (text :: texts) = text.toList ++ '\n' :: lineChars texts := by
        simp [lineChars]
      obtain ⟨items, offset', hitems, hwords, hplain⟩ :=
        ofLexemes_plain hls (Lexeme.split (('\n' :: lineChars texts).map .scalar)) offset last
      obtain ⟨hlater, hlaterPlain⟩ := ih (offset' + 1) (.op .semicolon)
      rw [hchars, hsplit, hitems, hnewline,
        ofLexemes_newline _ _ _ rfl (endsStatement_lastToken hline.closes last)]
      constructor
      · rw [List.map_append, List.map_cons, hwords]
        show _ ++ _ :: List.map word (ofLexemes (offset' + 1) (.op .semicolon) _) = _
        rw [hlater]
        simp [lineWords, word, semicolon]
      · intro item hitem
        rcases List.mem_append.1 hitem with hitem | hitem
        · exact hplain item hitem
        · rcases List.mem_cons.1 hitem with rfl | hitem
          · exact ⟨rfl, by simp [semicolon]⟩
          · exact hlaterPlain item hitem

end Item

theorem Scanner.items_start (r : Reader) :
    (start r).stream.items = Item.ofLexemes r.readText.1.1 .illegal (Lexeme.split r.readText.1.2) := rfl

theorem Scanner.journal_start (r : Reader) : (start r).journal = r.readText.2.journal := rfl

/-- A parser at the start of a text whose tokens are plain has their words before it. -/
theorem Parser.ready_restart {p : Parser} {ws : List Word} (hclean : p.scanner.journal.Clean)
    (hwords : p.scanner.stream.items.map Item.word = ws) (hplain : ∀ item ∈ p.scanner.stream.items, item.Plain) :
    p.restart.Ready ws := by
  have hfaultless : p.scanner.Faultless := fun item hitem => (hplain item hitem).fault_eq
  obtain ⟨hlater, hsame⟩ := Scanner.faultless_scanPast hfaultless []
  refine ⟨?_, p.settled_restart, ?_, hlater⟩
  · have hfilter : p.scanner.stream.items.filter (·.token ≠ .comment) = p.scanner.stream.items := by
      rw [List.filter_eq_self]
      exact fun item hitem => decide_eq_true (hplain item hitem).ne_comment
    rw [words, upcoming_restart, Scanner.upcoming, hfilter, List.map_map]
    exact hwords
  · show (p.scanner.scanPast []).2.journal.Clean
    rw [hsame]
    exact hclean

/-- A parser at the start of a file of lines has their words before it, and nothing to report. -/
theorem Parser.ready_lines {texts : List String} {wss : List (List Word)} (h : List.Forall₂ Line texts wss)
    (file : SourceFile) (mode : Mode) {text : String} (htext : text.toList = lineChars texts)
    (hbom : text.toList.head? ≠ some Rune.bom) :
    (Parser.new file { bytes := text.toUTF8 } mode).Ready (lineWords wss) ∧
      (Parser.new file { bytes := text.toUTF8 } mode).mode = mode := by
  generalize hr : ({} : Reader).init file { bytes := text.toUTF8 } = r
  generalize hp : ({ scanner := Scanner.start r, mode } : Parser) = p
  have hnew : Parser.new file { bytes := text.toUTF8 } mode = p.restart := by
    rw [← hp, ← hr]
    rfl
  have hjournal : r.journal = {} := by
    rw [← hr]
    rfl
  have hdecode : Rune.decodeFrom r.bytes r.cursor = text.toList.map .scalar := by
    rw [← hr]
    exact Rune.decodeFrom_toUTF8 text
  have hread := Reader.readText_wellFormed (by rw [hjournal]) hdecode hbom
  have hitems : p.scanner.stream.items = Item.ofLexemes 0 .illegal (Lexeme.split (text.toList.map .scalar)) := by
    rw [← hp, Scanner.items_start, hread.1]
  have hclean : p.scanner.journal.Clean := by
    rw [← hp, Scanner.journal_start, hread.2, hjournal]
    exact ⟨rfl, rfl⟩
  obtain ⟨hwords, hplain⟩ := Item.ofLexemes_lines h 0 .illegal
  rw [← htext, ← hitems] at hwords hplain
  rw [hnew]
  refine ⟨Parser.ready_restart hclean hwords hplain, ?_⟩
  rw [← hp]
  exact mode_advance _

end GoSource
