import GoSource.Proofs.Grammar.Traces
import GoSource.Proofs.Scanner.Lines
import GoSource.Proofs.Scanner.Locality

/-!
# Writing tokens again

Tokens that were scanned without a report can be written down one after the other, with a blank between each two of
them, and are scanned as the same tokens again.

* **`spelling`**, **`respell`**: how a word and a list of words are written.
* **`Respellable`**: a word that is cut off again wherever a separator follows.
* **`lexes_respell`**: such words are cut into themselves.
* **`respelling_rescans`**: the words of every text without reports are such words.
-/

namespace GoSource

/-! ### Scanning without reports -/

/-- A closed journal has entries. -/
def Journal.Founded (j : Journal) : Prop :=
  j.closed = true → j.entries ≠ #[]

theorem Journal.Founded.clean {j : Journal} (h : j.Founded) (hentries : j.entries = #[]) : j.Clean :=
  ⟨by simpa using fun hclosed => h hclosed hentries, hentries⟩

theorem Journal.Founded.report {j : Journal} (h : j.Founded) (d : Diagnostic SourceFault) :
    (j.report d).Founded := by
  unfold Journal.report
  split
  · exact h
  · dsimp only
    split <;> simp [Founded]

theorem Reader.founded_drain {r : Reader} (h : r.journal.Founded) : r.drain.2.journal.Founded := by
  fun_induction drain r with
  | case1 r hclosed => exact h
  | case2 r hclosed hcursor rune r' htake hless runes last hdrain ih =>
      have hr' : r' = r.take.2 := by rw [htake]
      rw [hdrain] at ih
      refine ih ?_
      rw [hr']
      rcases r.journal_take with heq | ⟨d, heq⟩
      · rwa [heq]
      · rw [heq]
        exact h.report d
  | case3 r hclosed hcursor => exact h

/-- Runes that are all characters. -/
theorem Rune.map_scalar_chars {rs : List Rune} (h : .malformed ∉ rs) : (chars rs).map .scalar = rs := by
  induction rs with
  | nil => rfl
  | cons r rs ih =>
      rw [List.mem_cons, not_or] at h
      cases r with
      | malformed => exact absurd rfl h.1
      | scalar c => exact congrArg (Rune.scalar c :: ·) (ih h.2)

namespace Scanner

theorem founded_deliver {s : Scanner} (h : s.journal.Founded) (item : Item) (rest : TokenStream) :
    (s.deliver item rest).2.journal.Founded := by
  show (s.reportFault item).journal.Founded
  unfold reportFault
  split
  · exact h.report _
  · exact h

theorem founded_scanAll {s : Scanner} (h : s.journal.Founded) : s.scanAll.2.journal.Founded := by
  fun_induction scanAll s with
  | case1 s item rest hpop delivered tokens s' hall ih =>
      rw [hall] at ih
      exact ih (founded_deliver h item rest)
  | case2 s hpop token s' hend =>
      obtain ⟨rfl, rfl⟩ := Prod.mk.inj hend
      exact h

/-- If nothing was reported up to the end of a text, nothing is wrong with its tokens. -/
theorem faultless_of_clean_scanAll {s : Scanner} (h : s.scanAll.2.journal.Clean) : s.journal.Clean ∧ s.Faultless := by
  fun_induction scanAll s with
  | case1 s item rest hpop delivered tokens s' hall ih =>
      rw [hall] at ih
      obtain ⟨hclean, hrest⟩ := ih h
      refine ⟨clean_of_clean_deliver hclean, ?_⟩
      intro later hlater
      rw [TokenStream.items_pop? hpop] at hlater
      rcases List.mem_cons.1 hlater with rfl | hlater
      · cases hfault : later.fault with
        | none => rfl
        | some fault =>
            have hreport : (s.reportFault later).journal.Clean := hclean
            rw [reportFault, hfault] at hreport
            exact absurd hreport (Journal.not_clean_report _ _)
      · exact hrest later hlater
  | case2 s hpop token s' hend =>
      obtain ⟨rfl, rfl⟩ := Prod.mk.inj hend
      refine ⟨h, ?_⟩
      intro item hitem
      rw [TokenStream.items_eq_nil_of_pop? hpop] at hitem
      cases hitem

theorem journal_scanAll_of_faultless {s : Scanner} (h : s.Faultless) : s.scanAll.2.journal = s.journal := by
  fun_induction scanAll s with
  | case1 s item rest hpop delivered tokens s' hall ih =>
      rw [hall] at ih
      obtain ⟨hlater, hsame⟩ := faultless_deliver h hpop
      exact (ih hlater).trans hsame
  | case2 s hpop token s' hend =>
      obtain ⟨rfl, rfl⟩ := Prod.mk.inj hend
      rfl

/-- A text that is scanned without a report is one of characters, and nothing is wrong with its tokens. -/
theorem silent_start {r : Reader} (hopen : r.journal.closed = false)
    (h : (start r).scanAll.2.journal.entries = #[]) :
    (start r).Faultless ∧ ∃ cs : List Char, r.readText.1.2 = cs.map .scalar := by
  have hfounded : (start r).journal.Founded := by
    rw [journal_start, Reader.readText_snd]
    refine Reader.founded_drain fun hclosed => ?_
    rw [hopen] at hclosed
    cases hclosed
  obtain ⟨hclean, hfaultless⟩ := faultless_of_clean_scanAll ((founded_scanAll hfounded).clean h)
  refine ⟨hfaultless, Rune.chars r.readText.1.2, ?_⟩
  rw [journal_start, Reader.readText_snd] at hclean
  have hwellFormed : .malformed ∉ r.readText.1.2 :=
    fun hmem => Reader.malformed_notMem_drain hclean (Reader.mem_drain_of_mem_readText hmem)
  exact (Rune.map_scalar_chars hwellFormed).symm

end Scanner

/-! ### Spelling -/

/-- How a word is written: by its text, or by the spelling of its kind if it has none. -/
def spelling (w : Word) : String :=
  if w.2.isEmpty then w.1.text else w.2

/-- Words written one after the other, with a blank between each two of them. -/
def respell (ws : List Word) : String :=
  String.intercalate " " (ws.map spelling)

namespace Lexeme

/-- A word that is cut off again wherever nothing or a separator follows. -/
structure Respellable (w : Word) : Prop where
  lexes : ∀ rest, Ends rest → Lexes (spelling w).toList [w] rest
  opens : ∃ c cs, (spelling w).toList = c :: cs ∧ isBlank c = false ∧ c ≠ Rune.bom

theorem Respellable.opens_respell {w : Word} (h : Respellable w) (ws : List Word) :
    ∃ c cs, (respell (w :: ws)).toList = c :: cs ∧ isBlank c = false ∧ c ≠ Rune.bom := by
  obtain ⟨c, cs, htext, hc⟩ := h.opens
  cases ws with
  | nil => exact ⟨c, cs, htext, hc⟩
  | cons v ws =>
      refine ⟨c, cs ++ (" " ++ respell (v :: ws)).toList, ?_, hc⟩
      rw [respell, List.map_cons, List.map_cons, String.intercalate_cons_cons, String.append_assoc,
        String.toList_append, htext]
      rfl

/-- Words that are written one after the other are cut into themselves. -/
theorem lexes_respell {ws : List Word} (h : ∀ w ∈ ws, Respellable w) : Lexes (respell ws).toList ws [] := by
  induction ws with
  | nil => exact .nil []
  | cons w ws ih =>
      have hw := h w List.mem_cons_self
      have hws := fun v hv => h v (List.mem_cons_of_mem w hv)
      cases ws with
      | nil => exact hw.lexes [] nofun
      | cons v ws =>
          obtain ⟨c, cs, htext, hblank, -⟩ := (hws v List.mem_cons_self).opens_respell ws
          have hspace : Lexes [' '] [] ((respell (v :: ws)).toList ++ []) := by
            rw [htext]
            exact lexes_blank hblank
          have hends : Ends ([' '] ++ (respell (v :: ws)).toList ++ []) := by
            intro d hd
            obtain rfl : ' ' = d := by simpa using hd
            decide
          have hall := (hw.lexes _ hends).append (hspace.append (ih hws))
          rw [respell, List.map_cons, List.map_cons, String.intercalate_cons_cons, String.append_assoc,
            String.toList_append, String.toList_append]
          exact hall

theorem Measured.spells {c : Char} {body tail : List Char} {e : Extent} (h : Measured c body tail e) :
    Spells e.kind ((c :: body).map .scalar) := by
  have hspells := spells_measure (.scalar c) ((body ++ tail).map .scalar)
  rw [h.measure_eq, List.map_append, List.take_left' (by rw [List.length_map, h.more_eq])] at hspells
  exact hspells

theorem Measured.isBlank_eq_false {c : Char} {body tail : List Char} {e : Extent} (h : Measured c body tail e)
    {t : Token} (hkind : e.kind = .token t) : isBlank c = false := by
  by_contra hblank
  have hblank : isBlank c = true := by simpa using hblank
  have hmeasure := h.measure_eq
  rw [measure_map_scalar] at hmeasure
  by_cases hnewline : c = '\n'
  · rw [if_pos hnewline] at hmeasure
    rw [← hmeasure] at hkind
    cases hkind
  · rw [if_neg hnewline, if_pos hblank] at hmeasure
    rw [← hmeasure] at hkind
    cases hkind

/-- A byte order mark is no token. -/
theorem Measured.ne_bom {c : Char} {body tail : List Char} {e : Extent} (h : Measured c body tail e)
    (hfault : e.fault = none) : c ≠ Rune.bom := by
  rintro rfl
  have hoperator : operator? ((Rune.bom :: (body ++ tail)).map .scalar) = none := by
    rw [operator?_eq_none_iff]
    intro o hprefix
    have hhead : ∀ o ∈ Operator.all, o.text.toList.head? ≠ some Rune.bom := by decide
    obtain ⟨d, ds, hd⟩ := List.exists_cons_of_length_pos (length_text o).1
    rw [hd] at hprefix
    obtain ⟨rfl, -⟩ := List.cons_prefix_cons.1 hprefix
    exact hhead o (mem_all o) (by rw [hd]; rfl)
  have hmeasure := h.measure_eq
  rw [measure_operator (by decide +kernel), operatorOrStray, ← List.map_cons, hoperator] at hmeasure
  rw [← hmeasure] at hfault
  cases hfault

theorem literal_of_kind {l : Lexeme} {t : Token} (h : l.kind = .token t) :
    l.literal = if t.isOperator || t.isKeyword then "" else Rune.toString l.runes := by
  rw [literal, h]
  cases t <;> rfl

/-- The spelling of a token is its text. -/
theorem Measured.spelling_eq {c : Char} {body tail : List Char} {e : Extent} (h : Measured c body tail e)
    {t : Token} (hkind : e.kind = .token t) :
    (spelling (t, (e.lexeme c body).literal)).toList = c :: body := by
  have hspells := h.spells
  rw [hkind] at hspells
  have hliteral := literal_of_kind (l := e.lexeme c body) hkind
  have htext : Rune.toString (e.lexeme c body).runes = String.ofList (c :: body) := toString_map_scalar _
  have hkept (hlit : (e.lexeme c body).literal = String.ofList (c :: body)) :
      (spelling (t, (e.lexeme c body).literal)).toList = c :: body := by
    have hne : (String.ofList (c :: body)).isEmpty = false := by simp
    rw [spelling, hlit, hne]
    exact String.toList_ofList
  have hspelled (hlit : (e.lexeme c body).literal = "") (ht : String.ofList (c :: body) = t.text) :
      (spelling (t, (e.lexeme c body).literal)).toList = c :: body := by
    rw [spelling, hlit]
    show t.text.toList = c :: body
    rw [← ht, String.toList_ofList]
  cases t with
  | op o => exact hspelled hliteral (htext.symm.trans hspells)
  | kw k => exact hspelled hliteral (htext.symm.trans hspells)
  | illegal | eof | comment | lit | tag => exact hkept (hliteral.trans htext)

/-- A token without a fault is cut off again. -/
theorem Measured.respellable {c : Char} {body tail : List Char} {e : Extent} (h : Measured c body tail e)
    {t : Token} (hkind : e.kind = .token t) (hcomment : t ≠ .comment) (hfault : e.fault = none) :
    Respellable (t, (e.lexeme c body).literal) := by
  have hblank := h.isBlank_eq_false hkind
  have hspelling := h.spelling_eq hkind
  refine ⟨fun rest hrest => ?_, c, body, hspelling, hblank, h.ne_bom hfault⟩
  have hnoComment : e.kind ≠ .token .comment := by
    rw [hkind]
    exact fun heq => hcomment (LexemeKind.token.inj heq)
  have hagain := h.alike hblank hnoComment (.ends hrest) (.inl hfault)
  have hextent : e = { kind := .token t, more := body.length } := by
    obtain ⟨kind, more, fault⟩ := e
    obtain rfl : kind = .token t := hkind
    obtain rfl : more = body.length := h.more_eq
    obtain rfl : fault = none := hfault
    rfl
  have hmeasure := hagain.measure_eq
  rw [hspelling]
  subst hextent
  exact .of_measure hmeasure ⟨rfl, by simp, by simpa using hcomment⟩

end Lexeme

/-! ### The words of a text -/

namespace Item

open Lexeme

/-- An entry is a semicolon that was put in, or it is the token of a lexeme. -/
theorem mem_ofLexemes {ls : List Lexeme} (hls : ∀ l ∈ ls, l.Cut) {offset : Nat} {last : Token} {item : Item}
    (h : item ∈ ofLexemes offset last ls) :
    item.word = (.op .semicolon, "") ∨
      ∃ l ∈ ls, l.kind = .token item.token ∧ item.literal = l.literal ∧ item.fault = l.fault := by
  induction ls generalizing offset last with
  | nil => cases h
  | cons l ls ih =>
      have hlater {offset : Nat} {last : Token} (h : item ∈ raw offset [l] ++ ofLexemes (offset + Rune.widths l.runes)
          last ls) : item.word = (.op .semicolon, "") ∨
            ∃ k ∈ l :: ls, k.kind = .token item.token ∧ item.literal = k.literal ∧ item.fault = k.fault := by
        rcases List.mem_append.1 h with h | h
        · cases hk : l.kind with
          | token token =>
              obtain rfl : item = ofLexeme offset token l := by simpa [raw, hk] using h
              exact .inr ⟨l, List.mem_cons_self, hk, rfl, rfl⟩
          | _ => simp [raw, hk] at h
        · refine (ih (fun k hk => hls k (List.mem_cons_of_mem _ hk)) h).imp_right ?_
          rintro ⟨k, hk, hfound⟩
          exact ⟨k, List.mem_cons_of_mem _ hk, hfound⟩
      obtain ⟨last', hrun⟩ | ⟨-, hrun⟩ := ofLexemes_cases (hls l List.mem_cons_self) offset last ls
      · exact hlater (hrun ▸ h)
      · rw [hrun] at h
        rcases List.mem_cons.1 h with rfl | h
        · exact .inl rfl
        · exact hlater h

/-- Plain lexemes are entered as they are written. -/
theorem ofLexemes_eq_raw {ls : List Lexeme} (h : ∀ l ∈ ls, l.Plain) (offset : Nat) (last : Token) :
    ofLexemes offset last ls = raw offset ls := by
  induction ls generalizing offset last with
  | nil => rfl
  | cons l ls ih =>
      have hl := h l List.mem_cons_self
      have hls : ∀ l ∈ ls, l.Plain := fun l hl => h l (List.mem_cons_of_mem _ hl)
      cases hk : l.kind with
      | blank =>
          rw [ofLexemes_blank _ _ _ hk, ih hls]
          simp only [raw, hk]
      | newline => exact absurd hk hl.ne_newline
      | token token =>
          rw [ofLexemes_token _ _ _ hk fun ht => hl.ne_comment (ht ▸ hk), ih hls]
          simp only [raw, hk]

end Item

namespace Scanner

open Lexeme

/-- The words of the tokens before the end of the text, without comments. -/
def words (s : Scanner) : List Word :=
  (s.tokens.filter (·.token ≠ .comment)).map Scanned.word

theorem words_eq (s : Scanner) : s.words = (s.stream.items.filter (·.token ≠ .comment)).map Item.word := by
  rw [words, tokens_eq, List.filter_map, List.map_map]
  rfl

theorem respellable_semicolon : Respellable (.op .semicolon, "") := by
  refine ⟨fun rest _ => ?_, ';', [], rfl, by decide, by decide⟩
  exact lexes_mark (o := .semicolon) (by decide) (by decide) rest

/-- The words of a text that is scanned without a report. -/
theorem respellable_words {r : Reader} (hopen : r.journal.closed = false)
    (h : (start r).scanAll.2.journal.entries = #[]) : ∀ w ∈ (start r).words, Respellable w := by
  obtain ⟨hfaultless, cs, htext⟩ := silent_start hopen h
  intro w hw
  rw [words_eq, List.mem_map] at hw
  obtain ⟨item, hitem, rfl⟩ := hw
  obtain ⟨hitem, hcomment⟩ := List.mem_filter.1 hitem
  have hcut : ∀ l ∈ split r.readText.1.2, l.Cut := fun l hl => cut_of_mem_split hl
  rcases Item.mem_ofLexemes hcut hitem with hsemicolon | ⟨l, hl, hkind, hliteral, hfault⟩
  · rw [hsemicolon]
    exact respellable_semicolon
  · rw [htext] at hl
    obtain ⟨c, body, tail, e, hmeasured, rfl⟩ := exists_measured_of_mem_split hl
    rw [Item.word, hliteral]
    exact hmeasured.respellable hkind (of_decide_eq_true hcomment) (hfault.symm.trans (hfaultless item hitem))

/-- Words that are written one after the other are scanned as themselves, without a report. -/
theorem scan_respell {ws : List Word} (hws : ∀ w ∈ ws, Respellable w) {r : Reader} (hopen : r.journal.closed = false)
    (hdecode : Rune.decodeFrom r.bytes r.cursor = (respell ws).toList.map .scalar) :
    (start r).tokens.map Scanned.word = ws ∧ (start r).scanAll.2.journal = r.journal ∧
      ∀ item ∈ (start r).stream.items, item.isInserted = false ∧ item.Plain := by
  have hbom : (respell ws).toList.head? ≠ some Rune.bom := by
    cases ws with
    | nil => exact nofun
    | cons w ws =>
        obtain ⟨c, cs, htext, -, hbom⟩ := (hws w List.mem_cons_self).opens_respell ws
        rw [htext]
        simpa using hbom
  obtain ⟨htext, hjournal⟩ := Reader.readText_wellFormed hopen hdecode hbom
  obtain ⟨ls, hsplit, hplain, hwords⟩ := lexes_respell hws
  have hnil : split (([] : List Char).map .scalar) = [] := by rw [List.map_nil, split]
  rw [hnil, List.append_nil, List.append_nil] at hsplit
  have hitems : (start r).stream.items = Item.ofLexemes 0 .illegal ls := by
    rw [items_start, htext, hsplit]
  have hcut : ∀ l ∈ ls, l.Cut := fun l hl => cut_of_mem_split (hsplit ▸ hl)
  obtain ⟨items, offset', hrun, hsame, hitemsPlain⟩ := Item.ofLexemes_plain hplain [] 0 .illegal
  rw [List.append_nil, Item.ofLexemes, List.append_nil, ← hitems] at hrun
  subst hrun
  have hfaultless : (start r).Faultless := fun item hitem => (hitemsPlain item hitem).fault_eq
  refine ⟨?_, ?_, fun item hitem => ⟨?_, hitemsPlain item hitem⟩⟩
  · rw [tokens_eq, List.map_map, ← hwords, ← hsame]
    rfl
  · rw [journal_scanAll_of_faultless hfaultless, journal_start, hjournal]
  · rw [hitems, Item.ofLexemes_eq_raw hplain] at hitem
    exact Item.isInserted_of_mem_raw hcut hitem

/-- Tokens survive being written again.  The words of a text that is scanned without a report, with the semicolons that
were put in and without the comments, are written one after the other with a blank between each two of them.  Then they
are scanned as the same words, without a report, and no semicolon is put in. -/
theorem respelling_rescans (s s' : Scanner) (file file' : SourceFile) (source : ByteSource)
    (hsilent : (s.init file source).scanAll.2.journal.entries = #[]) (hempty : s'.journal.entries = #[]) :
    let words := (s.init file source).words
    let again := s'.init file' { bytes := (respell words).toUTF8 }
    again.tokens.map Scanned.word = words ∧ again.scanAll.2.journal.entries = #[] ∧
      ∀ item ∈ again.stream.items, item.isInserted = false := by
  intro words again
  have hwords : ∀ w ∈ words, Respellable w := respellable_words (r := s.reader.init file source) rfl hsilent
  obtain ⟨hsame, hjournal, hitems⟩ := scan_respell hwords
    (r := s'.reader.init file' { bytes := (respell words).toUTF8 }) rfl (Rune.decodeFrom_toUTF8 (respell words))
  refine ⟨hsame, ?_, fun item hitem => (hitems item hitem).1⟩
  show (start _).scanAll.2.journal.entries = #[]
  rw [hjournal]
  exact hempty

/-- A number with an exponent, a comment, a raw string with a line end in it and two lines that end a statement. -/
theorem respelling_rescans_lines :
    let text := "x := 1.5e-3 /* c */ + \x60a\n\x60\nf(y) // d\n"
    let words := (({} : Scanner).init {} { bytes := text.toUTF8 }).words
    let again := ({} : Scanner).init {} { bytes := (respell words).toUTF8 }
    (({} : Scanner).init {} { bytes := text.toUTF8 }).scanAll.2.journal.entries = #[] ∧
      respell words = "x := 1.5e-3 + \x60a\n\x60 ; f ( y ) ;" ∧
      again.tokens.map Scanned.word = words ∧ again.scanAll.2.journal.entries = #[] ∧
      ∀ item ∈ again.stream.items, item.isInserted = false := by
  intro text words again
  have hsilent : (({} : Scanner).init {} { bytes := text.toUTF8 }).scanAll.2.journal.entries = #[] := by
    decide +kernel
  exact ⟨hsilent, by decide +kernel, respelling_rescans {} {} {} {} { bytes := text.toUTF8 } hsilent rfl⟩

end Scanner

end GoSource
