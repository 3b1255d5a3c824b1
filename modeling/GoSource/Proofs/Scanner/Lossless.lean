import GoSource.Proofs.Grammar.Upcoming
import GoSource.Proofs.Scanner.Runes

/-!
# Scanning loses nothing

The tokens of a file and the separators between them tile its bytes.

* **`Lexeme.Sound`**: the runes of a lexeme spell what its kind says.
* **`Tiling`** says step by step how tokens tile the bytes of a file: a separator is skipped, a token covers the
  bytes it spells, a semicolon stands for a line end still to come.
* **`tiling_ofLexemes`**: the token stream of a text tiles it.
* **`Lossless`** is what the tokens of a file say about its bytes; `scanning_lossless` proves it of every file.
-/

namespace GoSource

/-! ### Lexemes spell their kinds -/

theorem Operator.text_of_ofText? {s : String} {o : Operator} (h : ofText? s = some o) : o.text = s := by
  have hfound := List.find?_some h
  simpa using hfound

theorem Keyword.text_of_ofText? {s : String} {k : Keyword} (h : ofText? s = some k) : k.text = s := by
  have hfound := List.find?_some h
  simpa using hfound

namespace Lexeme

/-- The runes `rs` spell a lexeme of kind `kind`; identifiers, literals and comments are spelled by any. -/
def Spells (kind : LexemeKind) (rs : List Rune) : Prop :=
  match kind with
  | .blank => ∀ r ∈ rs, isBlank r.char = true
  | .newline => ∃ r, rs = [r] ∧ r.char = '\n'
  | .token (.op o) => Rune.toString rs = o.text
  | .token (.kw k) => Rune.toString rs = k.text
  | .token _ => True

/-- A lexeme is not empty, and its runes spell its kind. -/
structure Sound (l : Lexeme) : Prop where
  ne_nil : l.runes ≠ []
  spells : Spells l.kind l.runes

theorem spells_word (r : Rune) (rest : List Rune) :
    Spells (word r rest).kind (r :: rest.take (word r rest).more) := by
  have htake : rest.take (word r rest).more = rest.takeWhile (continuesWord ·.char) :=
    (List.prefix_iff_eq_take.1 (List.takeWhile_prefix _)).symm
  rw [htake]
  simp only [word, Token.lookup]
  cases hkeyword : Keyword.ofText? (Rune.toString (r :: rest.takeWhile (continuesWord ·.char))) with
  | none => trivial
  | some k => exact (Keyword.text_of_ofText? hkeyword).symm

theorem spells_number (r : Rune) (rest : List Rune) (rs : List Rune) : Spells (number r rest).kind rs := by
  unfold number
  dsimp only
  split <;> trivial

theorem spells_blockComment (rest rs : List Rune) : Spells (blockComment rest).kind rs := by
  unfold blockComment
  split <;> trivial

theorem spells_rawString (rest rs : List Rune) : Spells (rawString rest).kind rs := by
  unfold rawString
  split <;> trivial

theorem operator?_spells {r : Rune} {rest : List Rune} {o : Operator} {n : Nat}
    (h : operator? (r :: rest) = some (o, n)) : Rune.toString (r :: rest.take (n - 1)) = o.text := by
  unfold operator? at h
  obtain ⟨m, hm, htake⟩ := List.exists_of_findSome?_eq_some h
  obtain ⟨o', hfound, heq⟩ := Option.map_eq_some_iff.1 htake
  obtain ⟨rfl, rfl⟩ := Prod.mk.inj heq
  obtain ⟨k, rfl⟩ : ∃ k, m = k + 1 := Nat.exists_eq_add_one.2 (by simp at hm; omega)
  have hlength : (List.take (k + 1) (r :: rest)).length - 1 = (rest.take k).length := by simp
  rw [hlength, ← List.prefix_iff_eq_take.1 (List.take_prefix k rest), Operator.text_of_ofText? hfound]
  rfl

theorem spells_operatorOrStray (r : Rune) (rest : List Rune) :
    Spells (operatorOrStray r rest).kind (r :: rest.take (operatorOrStray r rest).more) := by
  unfold operatorOrStray
  split
  · rename_i o n hfound
    exact operator?_spells hfound
  · trivial

theorem spells_measure (r : Rune) (rest : List Rune) :
    Spells (measure r rest).kind (r :: rest.take (measure r rest).more) := by
  unfold measure
  dsimp only
  split
  · rename_i hnewline
    exact ⟨r, by simp, hnewline⟩
  split
  · rename_i hblank
    have htake : rest.take (rest.takeWhile (isBlank ·.char)).length = rest.takeWhile (isBlank ·.char) :=
      (List.prefix_iff_eq_take.1 (List.takeWhile_prefix _)).symm
    intro x hx
    rw [htake] at hx
    rcases List.mem_cons.1 hx with rfl | hx
    · exact hblank
    · exact List.all_eq_true.1 List.all_takeWhile x hx
  split
  · exact spells_word r rest
  split
  · exact spells_number r rest _
  split
  · trivial
  split
  · exact spells_blockComment rest _
  split
  · trivial
  split
  · exact spells_rawString rest _
  split
  · trivial
  · exact spells_operatorOrStray r rest

theorem sound_of_mem_split {rs : List Rune} {l : Lexeme} (h : l ∈ split rs) : l.Sound := by
  induction rs using split.induct with
  | case1 => simp [split] at h
  | case2 r rest extent ih =>
      rw [split] at h
      rcases List.mem_cons.1 h with rfl | h
      · exact ⟨List.cons_ne_nil _ _, spells_measure r rest⟩
      · exact ih h

end Lexeme

/-! ### What is lost is nothing -/

/-- Space, tab, carriage return and line feed. -/
def isSeparator (byte : UInt8) : Bool :=
  byte == 0x20 || byte == 0x09 || byte == 0x0D || byte == 0x0A

namespace Scanned

/-- A semicolon that stands for a line end: it is empty. -/
def isInserted (t : Scanned) : Bool :=
  t.token = .op .semicolon ∧ t.pos = t.stop

/-- In a file that starts at `base`, the token reaches from byte `i` to byte `j`. -/
structure Spans (t : Scanned) (base i j : Nat) : Prop where
  pos : t.pos.offset? = some (base + i)
  stop : t.stop.offset? = some (base + j)

/-- The token is what `bytes` spell.  Operators and keywords have no text of their own; every other token has
the text of its bytes, with a replacement character for each byte that starts no character. -/
def Spells (t : Scanned) (bytes : ByteArray) : Prop :=
  if t.token.isOperator || t.token.isKeyword then t.literal = "" ∧ bytes = t.token.text.toUTF8
  else t.literal = Rune.toString (Rune.decodeFrom bytes 0)

end Scanned

/-- The tokens that are written in the text. -/
def written (tokens : List Scanned) : List Scanned :=
  tokens.filter (!·.isInserted)

/-- What `tokens` say about the bytes of a file that starts at `base`.

The tokens that are written in the text have spans that are not empty, lie in the file and follow one another,
and each is what its bytes spell.  A byte that belongs to none of them is a separator or one of a byte order
mark in front.  A semicolon that is not written stands for a line feed, which comes after the end of the
written token before it. -/
structure Lossless (base : Nat) (bytes : ByteArray) (tokens : List Scanned) : Prop where
  spans : ∀ t ∈ written tokens, ∃ i j, t.Spans base i j ∧ i < j ∧ j ≤ bytes.size ∧ t.Spells (bytes.extract i j)
  ordered : (written tokens).Pairwise fun t u =>
    ∃ i j k l, t.Spans base i j ∧ u.Spans base k l ∧ i < j ∧ j ≤ k ∧ k < l
  covered : ∀ n (h : n < bytes.size),
    (∃ t ∈ written tokens, ∃ i j, t.Spans base i j ∧ i ≤ n ∧ n < j) ∨ isSeparator bytes[n] = true ∨
      n < 3 ∧ bytes.extract 0 3 = "\uFEFF".toUTF8
  inserted : ∀ before t after, tokens = before ++ t :: after → t.isInserted = true →
    ∃ u i j n, (written before).getLast? = some u ∧ u.Spans base i j ∧ t.Spans base n n ∧ j ≤ n ∧
      bytes[n]? = some 0x0A

/-! ### Tilings -/

theorem Pos.offset?_inj {p q : Pos} {n : Nat} (hp : p.offset? = some n) (hq : q.offset? = some n) : p = q := by
  cases p with
  | none => cases hp
  | «at» m =>
      cases q with
      | none => cases hq
      | «at» m' =>
          have heq : m.val = m'.val := Option.some.inj (hp.trans hq.symm)
          rw [Fin.ext heq]

/-- The tokens tile the bytes from `i` on; `previous` is the written token before them. -/
inductive Tiling (base : Nat) (bytes : ByteArray) : Option Scanned → Nat → List Scanned → Prop
  | done {previous : Option Scanned} : Tiling base bytes previous bytes.size []
  | skip {previous : Option Scanned} {i : Nat} {tokens : List Scanned} (hlt : i < bytes.size) :
      isSeparator bytes[i] = true → Tiling base bytes previous (i + 1) tokens →
      Tiling base bytes previous i tokens
  | token {previous : Option Scanned} {i j : Nat} {t : Scanned} {tokens : List Scanned} :
      t.Spans base i j → i < j → j ≤ bytes.size → t.Spells (bytes.extract i j) →
      Tiling base bytes (some t) j tokens → Tiling base bytes previous i (t :: tokens)
  | semicolon {u t : Scanned} {i j k n : Nat} {tokens : List Scanned} :
      u.Spans base j k → k ≤ n → t.token = .op .semicolon → t.Spans base n n → bytes[n]? = some 0x0A →
      Tiling base bytes (some u) i tokens → Tiling base bytes (some u) i (t :: tokens)

namespace Scanned

theorem Spans.isInserted_eq_false {t : Scanned} {base i j : Nat} (h : t.Spans base i j) (hlt : i < j) :
    t.isInserted = false := by
  have hne : t.pos ≠ t.stop := by
    intro heq
    have hoffset := h.pos
    rw [heq, h.stop] at hoffset
    simp only [Option.some.injEq] at hoffset
    omega
  simp [isInserted, hne]

theorem Spans.isInserted_eq_true {t : Scanned} {base n : Nat} (h : t.Spans base n n)
    (htoken : t.token = .op .semicolon) : t.isInserted = true := by
  have heq : t.pos = t.stop := Pos.offset?_inj h.pos h.stop
  simp [isInserted, htoken, heq]

end Scanned

theorem written_cons_of_false {t : Scanned} (h : t.isInserted = false) (tokens : List Scanned) :
    written (t :: tokens) = t :: written tokens := by
  simp [written, h]

theorem written_cons_of_true {t : Scanned} (h : t.isInserted = true) (tokens : List Scanned) :
    written (t :: tokens) = written tokens := by
  simp [written, h]

namespace Tiling

variable {base i : Nat} {bytes : ByteArray} {previous : Option Scanned} {tokens : List Scanned}

theorem spans (h : Tiling base bytes previous i tokens) :
    ∀ t ∈ written tokens, ∃ k l, t.Spans base k l ∧ i ≤ k ∧ k < l ∧ l ≤ bytes.size ∧
      t.Spells (bytes.extract k l) := by
  induction h with
  | done => exact fun t ht => absurd ht (by simp [written])
  | skip hlt hseparator hrest ih =>
      intro t ht
      obtain ⟨k, l, hspans, hk, hothers⟩ := ih t ht
      exact ⟨k, l, hspans, by omega, hothers⟩
  | token hspans hlt hsize hspells hrest ih =>
      intro t ht
      rw [written_cons_of_false (hspans.isInserted_eq_false hlt)] at ht
      rcases List.mem_cons.1 ht with rfl | ht
      · exact ⟨_, _, hspans, Nat.le_refl _, hlt, hsize, hspells⟩
      · obtain ⟨k, l, hspans, hk, hothers⟩ := ih t ht
        exact ⟨k, l, hspans, by omega, hothers⟩
  | semicolon hprevious hle htoken hspans hbyte hrest ih =>
      rw [written_cons_of_true (hspans.isInserted_eq_true htoken)]
      exact ih

theorem ordered (h : Tiling base bytes previous i tokens) :
    (written tokens).Pairwise fun t u =>
      ∃ i j k l, t.Spans base i j ∧ u.Spans base k l ∧ i < j ∧ j ≤ k ∧ k < l := by
  induction h with
  | done => exact List.Pairwise.nil
  | skip hlt hseparator hrest ih => exact ih
  | token hspans hlt hsize hspells hrest ih =>
      rw [written_cons_of_false (hspans.isInserted_eq_false hlt)]
      refine List.Pairwise.cons ?_ ih
      intro u hu
      obtain ⟨k, l, hu, hk, hl, -⟩ := hrest.spans u hu
      exact ⟨_, _, k, l, hspans, hu, hlt, hk, hl⟩
  | semicolon hprevious hle htoken hspans hbyte hrest ih =>
      rw [written_cons_of_true (hspans.isInserted_eq_true htoken)]
      exact ih

/-- From the place where a tiling starts, every byte is a separator or in a token. -/
theorem covered (h : Tiling base bytes previous i tokens) (n : Nat) (hn : n < bytes.size) (hi : i ≤ n) :
    (∃ t ∈ written tokens, ∃ k l, t.Spans base k l ∧ k ≤ n ∧ n < l) ∨ isSeparator bytes[n] = true := by
  induction h with
  | done => omega
  | skip hlt hseparator hrest ih =>
      rename_i i tokens
      by_cases heq : i = n
      · subst heq
        exact .inr hseparator
      · exact ih (by omega)
  | token hspans hlt hsize hspells hrest ih =>
      rename_i i j t tokens
      rw [written_cons_of_false (hspans.isInserted_eq_false hlt)]
      by_cases hin : n < j
      · exact .inl ⟨t, List.mem_cons_self, i, j, hspans, hi, hin⟩
      · rcases ih (by omega) with ⟨u, hu, hcovers⟩ | hseparator
        · exact .inl ⟨u, List.mem_cons_of_mem _ hu, hcovers⟩
        · exact .inr hseparator
  | semicolon hprevious hle htoken hspans hbyte hrest ih =>
      rw [written_cons_of_true (hspans.isInserted_eq_true htoken)]
      exact ih hi

/-- A semicolon that is not written stands for a line feed after the written token before it, which may be the
one before the tiling. -/
theorem inserted (h : Tiling base bytes previous i tokens) {before after : List Scanned} {t : Scanned}
    (htokens : tokens = before ++ t :: after) (ht : t.isInserted = true) :
    ∃ u k l n, (written before).getLast?.or previous = some u ∧ u.Spans base k l ∧ t.Spans base n n ∧ l ≤ n ∧
      bytes[n]? = some 0x0A := by
  induction h generalizing before with
  | done => simp at htokens
  | skip hlt hseparator hrest ih => exact ih htokens
  | token hspans hlt hsize hspells hrest ih =>
      have hwritten := hspans.isInserted_eq_false hlt
      cases before with
      | nil =>
          obtain ⟨rfl, rfl⟩ := List.cons.inj htokens
          rw [hwritten] at ht
          cases ht
      | cons u before =>
          obtain ⟨rfl, rfl⟩ := List.cons.inj htokens
          obtain ⟨v, k, l, n, hlast, hothers⟩ := ih rfl
          refine ⟨v, k, l, n, ?_, hothers⟩
          rw [written_cons_of_false hwritten, List.getLast?_cons, ← hlast]
          cases (written before).getLast? with
          | none => rfl
          | some w => rfl
  | semicolon hprevious hle htoken hspans hbyte hrest ih =>
      have hinserted := hspans.isInserted_eq_true htoken
      cases before with
      | nil =>
          obtain ⟨rfl, rfl⟩ := List.cons.inj htokens
          exact ⟨_, _, _, _, rfl, hprevious, hspans, hle, hbyte⟩
      | cons u before =>
          obtain ⟨rfl, rfl⟩ := List.cons.inj htokens
          rw [written_cons_of_true hinserted]
          exact ih rfl

/-- A tiling of a whole file, or of what follows a byte order mark, tells everything about the file. -/
theorem lossless (h : Tiling base bytes none i tokens)
    (hstart : i = 0 ∨ i ≤ 3 ∧ bytes.extract 0 3 = "\uFEFF".toUTF8) : Lossless base bytes tokens := by
  refine ⟨?_, h.ordered, ?_, ?_⟩
  · intro t ht
    obtain ⟨k, l, hspans, -, hothers⟩ := h.spans t ht
    exact ⟨k, l, hspans, hothers⟩
  · intro n hn
    by_cases hi : i ≤ n
    · rcases h.covered n hn hi with htoken | hseparator
      · exact .inl htoken
      · exact .inr (.inl hseparator)
    · rcases hstart with rfl | ⟨hle, hbom⟩
      · omega
      · exact .inr (.inr ⟨by omega, hbom⟩)
  · intro before t after htokens ht
    obtain ⟨u, k, l, n, hlast, hothers⟩ := h.inserted htokens ht
    rw [Option.or_none] at hlast
    exact ⟨u, k, l, n, hlast, hothers⟩

end Tiling

/-! ### The token stream tiles its text -/

theorem Operator.replacement_not_mem_text (o : Operator) : Text.replacement ∉ o.text.toList := by
  cases o <;> decide

theorem Keyword.replacement_not_mem_text (k : Keyword) : Text.replacement ∉ k.text.toList := by
  cases k <;> decide

/-- Runes that spell a text without replacement characters are there byte for byte. -/
theorem Rune.LiesAt.extract_eq_of_toString {bytes : ByteArray} {i : Nat} {rs : List Rune} {text : String}
    (h : LiesAt bytes i rs) (hi : i ≤ bytes.size) (htext : Rune.toString rs = text)
    (hplain : Text.replacement ∉ text.toList) : bytes.extract i (i + widths rs) = text.toUTF8 := by
  rw [← htext]
  refine h.extract_eq ?_ hi
  intro r hr hchar
  apply hplain
  rw [← htext, Rune.toString, String.toList_ofList, ← hchar]
  exact List.mem_map_of_mem hr

/-- A rune that is read as an ASCII character is its byte. -/
theorem Rune.byte_of_char {bytes : ByteArray} {i : Nat} {r : Rune} {c : Char} (h : Rune.decodeAt bytes i = r)
    (hchar : r.char = c) (hplain : c ≠ Text.replacement) (hascii : c.utf8Size = 1) :
    r.width = 1 ∧ bytes[i]? = some c.toUInt8 := by
  subst hchar
  have hr := eq_scalar_of_char hplain
  refine ⟨?_, byte_of_decodeAt (h.trans hr) hascii⟩
  rw [hr]
  exact hascii

/-- A line end is a line feed. -/
theorem Rune.lineFeed_of_char {bytes : ByteArray} {i : Nat} {r : Rune} (h : Rune.decodeAt bytes i = r)
    (hchar : r.char = '\n') : r.width = 1 ∧ bytes[i]? = some 0x0A :=
  byte_of_char h hchar (by decide) (by decide)

theorem Rune.separator_of_char {bytes : ByteArray} {i : Nat} {r : Rune} (h : Rune.decodeAt bytes i = r)
    (hchar : Lexeme.isBlank r.char = true ∨ r.char = '\n') :
    r.width = 1 ∧ ∃ hi : i < bytes.size, isSeparator bytes[i] = true := by
  have hbyte (c : Char) (hc : r.char = c) (hplain : c ≠ Text.replacement) (hascii : c.utf8Size = 1)
      (hseparator : isSeparator c.toUInt8 = true) :
      r.width = 1 ∧ ∃ hi : i < bytes.size, isSeparator bytes[i] = true := by
    obtain ⟨hwidth, hbyte⟩ := byte_of_char h hc hplain hascii
    obtain ⟨hi, hbyte⟩ := getElem?_eq_some_iff.1 hbyte
    exact ⟨hwidth, hi, by rw [hbyte, hseparator]⟩
  simp only [Lexeme.isBlank, Bool.or_eq_true, beq_iff_eq] at hchar
  rcases hchar with ((hc | hc) | hc) | hc
  · exact hbyte _ hc (by decide) (by decide) (by decide)
  · exact hbyte _ hc (by decide) (by decide) (by decide)
  · exact hbyte _ hc (by decide) (by decide) (by decide)
  · exact hbyte _ hc (by decide) (by decide) (by decide)

/-- Separators are skipped one by one. -/
theorem Tiling.skip_runes {base i : Nat} {bytes : ByteArray} {previous : Option Scanned} {tokens : List Scanned}
    {rs : List Rune} (hlies : Rune.LiesAt bytes i rs)
    (hseparators : ∀ r ∈ rs, Lexeme.isBlank r.char = true ∨ r.char = '\n')
    (h : Tiling base bytes previous (i + Rune.widths rs) tokens) : Tiling base bytes previous i tokens := by
  induction rs generalizing i with
  | nil => exact h
  | cons r rs ih =>
      obtain ⟨hlt, hdecode, hrest⟩ := hlies
      obtain ⟨hwidth, hi, hseparator⟩ := Rune.separator_of_char hdecode (hseparators r List.mem_cons_self)
      rw [hwidth] at hrest
      rw [Rune.widths_cons, hwidth, ← Nat.add_assoc] at h
      exact .skip hi hseparator (ih hrest (fun r hr => hseparators r (List.mem_cons_of_mem _ hr)) h)

/-- The line end that a lexeme names is a line feed. -/
theorem Lexeme.lineFeed_of_lineEnd? {bytes : ByteArray} {i n : Nat} {l : Lexeme} (h : l.lineEnd? = some n)
    (hlies : Rune.LiesAt bytes i l.runes) : bytes[i + n]? = some 0x0A := by
  obtain ⟨kind, rs, fault⟩ := l
  simp only [lineEnd?] at h hlies
  split at h
  · rename_i hany
    obtain rfl := Option.some.inj h
    clear h
    induction rs generalizing i with
    | nil => simp at hany
    | cons r rs ih =>
        obtain ⟨hlt, hdecode, hrest⟩ := hlies
        by_cases hr : r.char = '\n'
        · have hstop : (r :: rs).takeWhile (·.char != '\n') = [] := List.takeWhile_cons_of_neg (by simp [hr])
          rw [hstop]
          exact (Rune.lineFeed_of_char hdecode hr).2
        · have hgo : (r :: rs).takeWhile (·.char != '\n') = r :: rs.takeWhile (·.char != '\n') :=
            List.takeWhile_cons_of_pos (by simp [hr])
          rw [hgo, Rune.widths_cons, ← Nat.add_assoc]
          exact ih hrest (by simpa [hr] using hany)
  · cases h

/-- What separates tokens is blank, but for line ends. -/
theorem Lexeme.Sound.separates {l : Lexeme} (h : l.Sound) (hkind : l.kind = .blank ∨ l.kind = .newline) :
    ∀ r ∈ l.runes, Lexeme.isBlank r.char = true ∨ r.char = '\n' := by
  have hspells := h.spells
  rcases hkind with hkind | hkind
  · rw [hkind] at hspells
    exact fun r hr => .inl (hspells r hr)
  · rw [hkind] at hspells
    obtain ⟨r, hrunes, hchar⟩ := hspells
    rw [hrunes]
    intro x hx
    rw [List.mem_singleton.1 hx]
    exact .inr hchar

theorem Lexeme.Sound.lineFeed {l : Lexeme} {bytes : ByteArray} {offset : Nat} (h : l.Sound)
    (hkind : l.kind = .newline) (hlies : Rune.LiesAt bytes offset l.runes) : bytes[offset]? = some 0x0A := by
  have hspells := h.spells
  rw [hkind] at hspells
  obtain ⟨r, hrunes, hchar⟩ := hspells
  rw [hrunes] at hlies
  exact (Rune.lineFeed_of_char hlies.2.1 hchar).2

theorem Lexeme.Sound.widths_pos {l : Lexeme} (h : l.Sound) : 0 < Rune.widths l.runes := by
  obtain ⟨r, rs, hrunes⟩ := List.exists_cons_of_ne_nil h.ne_nil
  have hwidth := r.width_pos
  rw [hrunes, Rune.widths_cons]
  omega

namespace Scanner

theorem spans_place {s : Scanner} {bytes : ByteArray} (hfits : s.file.base + bytes.size < Pos.limit)
    (item : Item) (hle : item.start ≤ item.stop) (hsize : item.stop ≤ bytes.size) :
    (s.place item).Spans s.file.base item.start item.stop :=
  ⟨Pos.offset?_ofOffset (by omega), Pos.offset?_ofOffset (by omega)⟩

/-- A token that is placed where its lexeme lies is what its bytes spell. -/
theorem spells_place {s : Scanner} {bytes : ByteArray} {offset : Nat} {token : Token} {l : Lexeme}
    (hkind : l.kind = .token token) (hsound : l.Sound) (hlies : Rune.LiesAt bytes offset l.runes)
    (hoffset : offset ≤ bytes.size) :
    (s.place (Item.ofLexeme offset token l)).Spells (bytes.extract offset (offset + Rune.widths l.runes)) := by
  have hspells := hsound.spells
  rw [hkind] at hspells
  have htext (h : l.literal = Rune.toString l.runes) : (s.place (Item.ofLexeme offset token l)).literal =
      Rune.toString (Rune.decodeFrom (bytes.extract offset (offset + Rune.widths l.runes)) 0) := by
    rw [hlies.decode_extract hoffset]
    exact h
  have hliteral := Lexeme.literal.eq_def l
  rw [hkind] at hliteral
  unfold Scanned.Spells
  cases token with
  | op o => exact ⟨hliteral, hlies.extract_eq_of_toString hoffset hspells o.replacement_not_mem_text⟩
  | kw k => exact ⟨hliteral, hlies.extract_eq_of_toString hoffset hspells k.replacement_not_mem_text⟩
  | illegal | eof | comment | lit | tag => exact htext hliteral

/-- If `last` ends a statement, then the written token before `offset` is `previous`. -/
def Precedes (base : Nat) (last : Token) (previous : Option Scanned) (offset : Nat) : Prop :=
  last.endsStatement = true → ∃ u i j, previous = some u ∧ u.Spans base i j ∧ j ≤ offset

theorem Precedes.mono {base offset offset' : Nat} {last : Token} {previous : Option Scanned}
    (h : Precedes base last previous offset) (hle : offset ≤ offset') : Precedes base last previous offset' := by
  intro hends
  obtain ⟨u, i, j, hu, hspans, hj⟩ := h hends
  exact ⟨u, i, j, hu, hspans, Nat.le_trans hj hle⟩

section Tiles

variable {s : Scanner} {bytes : ByteArray} (hfits : s.file.base + bytes.size < Pos.limit)
include hfits

/-- A semicolon for the line end that comes `n` bytes later. -/
theorem tiling_semicolon {last : Token} {previous : Option Scanned} {offset n : Nat} {tokens : List Scanned}
    (hprevious : Precedes s.file.base last previous offset) (hends : last.endsStatement = true)
    (hbyte : bytes[offset + n]? = some 0x0A) (h : Tiling s.file.base bytes previous offset tokens) (inside : Bool) :
    Tiling s.file.base bytes previous offset (s.place (Item.semicolon (offset + n) inside) :: tokens) := by
  obtain ⟨u, i, j, rfl, hspans, hj⟩ := hprevious hends
  have hin : offset + n < bytes.size := (getElem?_eq_some_iff.1 hbyte).1
  exact .semicolon hspans (Nat.le_trans hj (Nat.le_add_right _ _)) rfl
    (spans_place hfits _ (Nat.le_refl _) (Nat.le_of_lt hin)) hbyte h

theorem spans_lexeme (token : Token) {l : Lexeme} {offset : Nat} (hsize : offset + Rune.widths l.runes ≤ bytes.size) :
    (s.place (Item.ofLexeme offset token l)).Spans s.file.base offset (offset + Rune.widths l.runes) :=
  spans_place hfits (Item.ofLexeme offset token l) (Nat.le_add_right _ _) hsize

/-- A token, and what comes after it. -/
theorem tiling_token {l : Lexeme} {token : Token} {previous : Option Scanned} {offset : Nat} {tokens : List Scanned}
    (hkind : l.kind = .token token) (hl : l.Sound) (hlies : Rune.LiesAt bytes offset l.runes)
    (hsize : offset + Rune.widths l.runes ≤ bytes.size)
    (h : Tiling s.file.base bytes (some (s.place (Item.ofLexeme offset token l))) (offset + Rune.widths l.runes)
      tokens) :
    Tiling s.file.base bytes previous offset (s.place (Item.ofLexeme offset token l) :: tokens) :=
  have hoffset : offset ≤ bytes.size := Nat.le_trans (Nat.le_add_right _ _) hsize
  .token (spans_lexeme hfits token hsize) (Nat.lt_add_of_pos_right hl.widths_pos) hsize
    (spells_place hkind hl hlies hoffset) h

/-- The stream of lexemes tiles the text that they are cut from. -/
theorem tiling_ofLexemes {ls : List Lexeme} (hsound : ∀ l ∈ ls, l.Sound) {offset : Nat}
    (hlies : Rune.LiesAt bytes offset (ls.flatMap Lexeme.runes))
    (hend : offset + Rune.widths (ls.flatMap Lexeme.runes) = bytes.size) {last : Token} {previous : Option Scanned}
    (hprevious : Precedes s.file.base last previous offset) :
    Tiling s.file.base bytes previous offset ((Item.ofLexemes offset last ls).map s.place) := by
  induction ls generalizing offset last previous with
  | nil =>
      have hoffset : offset = bytes.size := by simpa using hend
      rw [hoffset]
      exact .done
  | cons l rest ih =>
      rw [List.flatMap_cons] at hlies hend
      rw [Rune.widths_append, ← Nat.add_assoc] at hend
      obtain ⟨hhere, hthere⟩ := hlies.append
      have hl := hsound l List.mem_cons_self
      -- What the induction says of the lexemes after this one.
      have htiles {last : Token} {previous : Option Scanned}
          (hprevious : Precedes s.file.base last previous (offset + Rune.widths l.runes)) :=
        ih (fun l hl => hsound l (List.mem_cons_of_mem _ hl)) hthere hend hprevious
      have hlater := hprevious.mono (Nat.le_add_right offset (Rune.widths l.runes))
      rw [Item.ofLexemes]
      cases hkind : l.kind with
      | blank => exact .skip_runes hhere (hl.separates (.inl hkind)) (htiles hlater)
      | newline =>
          have hskip := hl.separates (.inr hkind)
          by_cases hends : last.endsStatement = true
          · simp only [hends, if_true, List.map_cons]
            exact tiling_semicolon hfits (n := 0) hprevious hends (hl.lineFeed hkind hhere)
              (.skip_runes hhere hskip (htiles fun h => absurd h (by decide))) false
          · simp only [hends, Bool.false_eq_true, if_false]
            exact .skip_runes hhere hskip (htiles hlater)
      | token token =>
          have hsize : offset + Rune.widths l.runes ≤ bytes.size := by omega
          have hcovers {last : Token} {previous : Option Scanned} :
              Tiling s.file.base bytes previous offset (s.place (Item.ofLexeme offset token l) ::
                (Item.ofLexemes (offset + Rune.widths l.runes) last rest).map s.place) :=
            tiling_token hfits hkind hl hhere hsize
              (htiles fun _ => ⟨_, _, _, rfl, spans_lexeme hfits token hsize, Nat.le_refl _⟩)
          dsimp only
          split
          · next n hends hcomment =>
              have hbyte : bytes[offset + n]? = some 0x0A := by
                unfold Item.commentLineEnd? at hcomment
                split at hcomment
                · exact Lexeme.lineFeed_of_lineEnd? hcomment hhere
                · cases hcomment
              exact tiling_semicolon hfits hprevious hends hbyte hcovers true
          · exact hcovers

end Tiles

/-- The tokens before the end of the text. -/
def tokens (s : Scanner) : List Scanned :=
  s.scanAll.1.takeWhile (·.token ≠ .eof)

theorem scanAll_fst (s : Scanner) :
    ∃ t : Scanned, t.token = .eof ∧ s.scanAll.1 = s.stream.items.map s.place ++ [t] := by
  fun_induction scanAll s with
  | case1 s item rest hpop delivered tokens s' hall ih =>
      obtain ⟨t, heof, hrest⟩ := ih
      have hplace : delivered.2.place = s.place := place_congr (s.file_deliver item rest)
      rw [hall, hplace] at hrest
      refine ⟨t, heof, ?_⟩
      rw [TokenStream.items_pop? hpop]
      exact congrArg (s.place item :: ·) hrest
  | case2 s hpop token s' hend =>
      obtain ⟨rfl, rfl⟩ := Prod.mk.inj hend
      refine ⟨s.deliverEnd.1, rfl, ?_⟩
      rw [TokenStream.items_eq_nil_of_pop? hpop]
      rfl

/-- The entries of the stream are what is handed out before the end of the text. -/
theorem tokens_eq (s : Scanner) : s.tokens = s.stream.items.map s.place := by
  obtain ⟨t, heof, hall⟩ := s.scanAll_fst
  have hitems : ∀ u ∈ s.stream.items.map s.place, decide (u.token ≠ .eof) = true := by
    intro u hu
    obtain ⟨item, hitem, rfl⟩ := List.mem_map.1 hu
    exact decide_eq_true (s.stream.token_ne_eof item hitem)
  rw [tokens, hall, List.takeWhile_append_of_pos hitems, List.takeWhile_cons_of_neg (by simp [heof]),
    List.append_nil]

theorem lossless_start {r : Reader} (hunlimited : r.journal.Unlimited) (hcursor : r.cursor = 0)
    (hfits : r.file.base + r.bytes.size < Pos.limit) : Lossless r.file.base r.bytes (start r).tokens := by
  have hbase : (start r).file.base = r.file.base := by
    show r.readText.2.file.base = r.file.base
    rw [Reader.readText_snd, Reader.base_drain]
  rw [← hbase] at hfits ⊢
  have htiles (first : Nat) (hfirst : first ≤ r.bytes.size)
      (htext : r.readText.1 = (first, Rune.decodeFrom r.bytes first)) :
      Tiling (start r).file.base r.bytes none first (start r).tokens := by
    have hitems : (start r).stream.items =
        Item.ofLexemes first .illegal (Lexeme.split (Rune.decodeFrom r.bytes first)) := by
      show Item.ofLexemes r.readText.1.1 .illegal (Lexeme.split r.readText.1.2) = _
      rw [htext]
    obtain ⟨hlies, hend⟩ := Rune.liesAt_decodeFrom r.bytes first hfirst
    rw [← Lexeme.flatMap_runes_split (Rune.decodeFrom r.bytes first)] at hlies hend
    rw [tokens_eq, hitems]
    exact tiling_ofLexemes hfits (fun l hl => Lexeme.sound_of_mem_split hl) hlies hend
      (fun h => absurd h (by decide))
  rcases Reader.readText_unlimited hunlimited hcursor with htext | ⟨hbom, hsize, htext⟩
  · exact (htiles 0 (Nat.zero_le _) htext).lossless (.inl rfl)
  · exact (htiles 3 hsize htext).lossless (.inr ⟨Nat.le_refl _, hbom⟩)

/-- Nothing is lost or moved by scanning: the tokens of a file tile its bytes, whatever the bytes are, if the
number of diagnostics is not limited and the file fits into the space of positions.  It makes no difference
whether the limit was lifted before the file was opened or afterwards. -/
theorem scanning_lossless (s : Scanner) (file : SourceFile) (source : ByteSource)
    (hfits : file.base + source.bytes.size < Pos.limit) :
    Lossless file.base source.bytes ((s.init file source).setBudget 0).tokens ∧
      (s.journal.budget = 0 → Lossless file.base source.bytes (s.init file source).tokens) := by
  constructor
  · have hreader : (s.init file source).reader = (s.reader.init file source).drain.2 :=
      Reader.readText_snd _
    have hbase : (s.init file source).reader.file.base = file.base := by
      rw [hreader, Reader.base_drain]
      rfl
    have hbytes : (s.init file source).reader.bytes = source.bytes := by
      rw [hreader, Reader.bytes_drain]
      rfl
    rw [← hbase, ← hbytes] at hfits ⊢
    exact lossless_start (r := ((s.init file source).reader.setBudget 0).rewind) ⟨rfl, rfl⟩ rfl hfits
  · intro hbudget
    exact lossless_start (r := s.reader.init file source) ⟨hbudget, rfl⟩ rfl hfits

/-- An identifier after a byte order mark, a comment with a line end and a byte that starts no character. -/
theorem scanning_lossless_comment :
    7 + (ByteArray.mk #[0xEF, 0xBB, 0xBF, 0x78, 0x2F, 0x2A, 0x0A, 0x2A, 0x2F, 0x20, 0xFF]).size < Pos.limit ∧
    (((({} : Scanner).init { base := 7 }
      { bytes := ⟨#[0xEF, 0xBB, 0xBF, 0x78, 0x2F, 0x2A, 0x0A, 0x2A, 0x2F, 0x20, 0xFF]⟩ }).setBudget 0).tokens.map
        fun t => (t.token, t.literal)) =
      [(.lit .ident, "x"), (.op .semicolon, ""), (.comment, "/*\n*/"), (.illegal, "\uFFFD")] ∧
    Lossless 7 ⟨#[0xEF, 0xBB, 0xBF, 0x78, 0x2F, 0x2A, 0x0A, 0x2A, 0x2F, 0x20, 0xFF]⟩
      ((({} : Scanner).init { base := 7 }
        { bytes := ⟨#[0xEF, 0xBB, 0xBF, 0x78, 0x2F, 0x2A, 0x0A, 0x2A, 0x2F, 0x20, 0xFF]⟩ }).setBudget 0).tokens :=
  ⟨by decide, by decide +kernel, (scanning_lossless {} { base := 7 } { bytes := _ } (by decide)).1⟩

end Scanner

end GoSource
