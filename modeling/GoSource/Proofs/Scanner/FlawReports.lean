import GoSource.Proofs.Grammar.Restart
import GoSource.Proofs.Scanner.Flaws
import GoSource.Proofs.Scanner.Positions
import GoSource.Proofs.Scanner.Reading

/-!
# Every flaw is reported once

Bytes that start no character are reported when they are read, all other flaws when their token is handed out.  A byte
of the first kind may become a token, or a part of one, and a replacement character may be there in its own right.

* **`Item.faults_ofLexemes`**: the faults of a stream are those of its lexemes.
* **`flaws`**: the places that are reported and why, without journal and positions; `nodup_flaws` says that no place
  is reported twice.
* **`cores_drain`**, **`cores_scanAll`**: what reading a text and handing out its tokens adds to a journal.
* **`FlawsReported`** is what the reports on a file say about it; `flaws_reported_once` proves it of every file.
-/

namespace GoSource

/-- Byte `k` is part of no encoding of a character. -/
def Undecodable (bytes : ByteArray) (k : Nat) : Prop :=
  k < bytes.size ∧ ∀ c i, EncodedAt bytes c i → k < i ∨ i + c.utf8Size ≤ k

/-- What was reported at a position, in the order of the reports. -/
def causesAt (reports : List (Diagnostic SourceFault)) (pos : Pos) : List SourceFault :=
  (reports.filter (·.pos = pos)).map (·.cause)

/-- What the reports on a file that starts at `base` say about its tokens and bytes.

There is one report at each illegal token, at each byte that is part of no encoding, whether it is a token or part of
one, and at each replacement character that is not part of a string, character or comment.  There is one at each string,
character or comment that cannot be read or does not end, and none at the others.  There are no other reports. -/
structure FlawsReported (base : Nat) (bytes : ByteArray) (tokens : List Scanned)
    (reports : List (Diagnostic SourceFault)) : Prop where
  illegal : ∀ t ∈ tokens, t.token = .illegal → ∃ fault, causesAt reports t.pos = [.lexical fault]
  undecodable : ∀ k, Undecodable bytes k → causesAt reports (.ofOffset (base + k)) = [.lexical .invalidUtf8]
  replacement : ∀ k, EncodedAt bytes Text.replacement k →
    (∀ t ∈ tokens, t.token.holdsText = true → ∀ i j, t.Spans base i j → k < i ∨ j ≤ k) →
    causesAt reports (.ofOffset (base + k)) = [.lexical .invalidCharacter]
  flawed : ∀ t ∈ tokens, t.token.IsFlawed t.literal → ∃ fault, causesAt reports t.pos = [.lexical fault]
  sound : ∀ t ∈ tokens, t.token.holdsText = true → ¬ t.token.IsFlawed t.literal → causesAt reports t.pos = []
  only : ∀ d ∈ reports, (∃ t ∈ tokens, t.token = .illegal ∧ t.pos = d.pos) ∨
    (∃ k, Undecodable bytes k ∧ Pos.ofOffset (base + k) = d.pos) ∨
    ∃ t ∈ tokens, t.token.IsFlawed t.literal ∧ t.pos = d.pos

/-! ### Lexemes and where they start -/

namespace Handout

theorem ofRunes_append (i : Nat) (rs rs' : List Rune) :
    ofRunes i (rs ++ rs') = ofRunes i rs ++ ofRunes (i + Rune.widths rs) rs' := by
  induction rs generalizing i with
  | nil => rfl
  | cons r rs ih =>
      rw [List.cons_append, ofRunes, ih, ofRunes, Rune.widths_cons, Nat.add_assoc]
      rfl

/-- The extents of runes lie inside that of all of them. -/
theorem mem_of_mem_ofRunes {x : Handout} {i : Nat} {rs : List Rune} (h : x ∈ ofRunes i rs) :
    ∃ r ∈ rs, x.reading = .rune r ∧ i ≤ x.offset ∧ x.stop ≤ i + Rune.widths rs := by
  induction rs generalizing i with
  | nil => cases h
  | cons r rs ih =>
      rw [Rune.widths_cons]
      rcases List.mem_cons.1 h with rfl | h
      · exact ⟨r, List.mem_cons_self, rfl, Nat.le_refl i, by dsimp only; omega⟩
      · obtain ⟨r', hr', hreading, hle, hstop⟩ := ih h
        exact ⟨r', List.mem_cons_of_mem _ hr', hreading, by omega, by omega⟩

/-- Runes stand one after another. -/
theorem pairwise_runesFrom (bytes : ByteArray) (i : Nat) : (runesFrom bytes i).Pairwise (·.offset < ·.offset) := by
  induction i using runesFrom_induction bytes with
  | hend i hle =>
      rw [runesFrom_of_le hle]
      exact .nil
  | hrune i hlt ih =>
      rw [runesFrom_of_lt hlt]
      refine .cons (fun x hx => ?_) ih
      have hwidth := (Rune.decodeAt bytes i).width_pos
      have hle := (eq_of_mem hx).1
      dsimp only
      omega

end Handout

namespace Item

open Lexeme

variable {bytes : ByteArray} {offset i : Nat} {ls : List Lexeme} {l : Lexeme}

/-- Of the lexemes of a text that starts at `offset`, `l` starts at byte `i`. -/
def StartsAt (offset : Nat) (ls : List Lexeme) (l : Lexeme) (i : Nat) : Prop :=
  ∃ before after, ls = before ++ l :: after ∧ i = offset + extent before

theorem StartsAt.mem (h : StartsAt offset ls l i) : l ∈ ls := by
  obtain ⟨before, after, rfl, -⟩ := h
  simp

theorem StartsAt.cons (h : StartsAt (offset + Rune.widths l.runes) ls k i) : StartsAt offset (l :: ls) k i := by
  obtain ⟨before, after, rfl, rfl⟩ := h
  exact ⟨l :: before, after, rfl, by rw [extent_cons, Nat.add_assoc]⟩

/-- A lexeme lies where it starts. -/
theorem StartsAt.liesAt (h : StartsAt offset ls l i) (hlies : Rune.LiesAt bytes offset (ls.flatMap runes)) :
    Rune.LiesAt bytes i l.runes := by
  obtain ⟨before, after, rfl, rfl⟩ := h
  rw [List.flatMap_append, List.flatMap_cons] at hlies
  exact hlies.append.2.append.1

/-- The runes of a lexeme are runes of the text. -/
theorem StartsAt.mem_ofRunes (h : StartsAt offset ls l i) {x : Handout} (hx : x ∈ Handout.ofRunes i l.runes) :
    x ∈ Handout.ofRunes offset (ls.flatMap runes) := by
  obtain ⟨before, after, rfl, rfl⟩ := h
  rw [List.flatMap_append, List.flatMap_cons, Handout.ofRunes_append, Handout.ofRunes_append]
  exact List.mem_append_right _ (List.mem_append_left _ hx)

/-- Every rune of a text belongs to a lexeme. -/
theorem exists_startsAt {x : Handout} (hx : x ∈ Handout.ofRunes offset (ls.flatMap runes)) :
    ∃ l i, StartsAt offset ls l i ∧ x ∈ Handout.ofRunes i l.runes := by
  induction ls generalizing offset with
  | nil => cases hx
  | cons l ls ih =>
      rw [List.flatMap_cons, Handout.ofRunes_append] at hx
      rcases List.mem_append.1 hx with hx | hx
      · exact ⟨l, offset, ⟨[], ls, rfl, rfl⟩, hx⟩
      · obtain ⟨k, i, hstarts, hx⟩ := ih hx
        exact ⟨k, i, hstarts.cons, hx⟩

theorem StartsAt.mem_raw {token : Token} (h : StartsAt offset ls l i) (hkind : l.kind = .token token) :
    ofLexeme i token l ∈ raw offset ls := by
  obtain ⟨before, after, rfl, rfl⟩ := h
  rw [raw_append, raw_cons]
  simp [raw, hkind]

/-- The written entries are the tokens and comments among the lexemes. -/
theorem exists_of_mem_raw {item : Item} (h : item ∈ raw offset ls) :
    ∃ l, StartsAt offset ls l item.start ∧ l.kind = .token item.token ∧ item = ofLexeme item.start item.token l := by
  induction ls generalizing offset with
  | nil => cases h
  | cons l ls ih =>
      rw [raw_cons] at h
      rcases List.mem_append.1 h with h | h
      · cases hkind : l.kind with
        | token token =>
            obtain rfl : item = ofLexeme offset token l := by simpa [raw, hkind] using h
            exact ⟨l, ⟨[], ls, rfl, rfl⟩, hkind, rfl⟩
        | _ => simp [raw, hkind] at h
      · obtain ⟨k, hstarts, hkind, hitem⟩ := ih h
        exact ⟨k, hstarts.cons, hkind, hitem⟩

/-- Written entries start one after another. -/
theorem pairwise_raw (hls : ∀ l ∈ ls, l.Cut) : (raw offset ls).Pairwise (·.start < ·.start) := by
  induction ls generalizing offset with
  | nil => exact .nil
  | cons l ls ih =>
      rw [raw_cons, List.pairwise_append]
      refine ⟨?_, ih fun k hk => hls k (List.mem_cons_of_mem _ hk), fun x hx y hy => ?_⟩
      · cases hkind : l.kind <;> simp [raw, hkind]
      · obtain ⟨k, ⟨before, after, -, hstart⟩, -⟩ := exists_of_mem_raw hy
        have hwidth := widths_pos (hls l List.mem_cons_self)
        rw [start_of_mem_raw hx, hstart]
        omega

/-- Where an entry is flawed, and why. -/
def flaw? (item : Item) : Option (Nat × LexicalFault) :=
  item.fault.map (item.start, ·)

/-- A semicolon that was put in has no fault. -/
theorem faults_ofLexemes (hls : ∀ l ∈ ls, l.Cut) (offset : Nat) (last : Token) :
    (ofLexemes offset last ls).filterMap flaw? = (raw offset ls).filterMap flaw? := by
  induction ls generalizing offset last with
  | nil => rfl
  | cons l ls ih =>
      have hrest := ih fun k hk => hls k (List.mem_cons_of_mem _ hk)
      rw [raw_cons]
      obtain ⟨last', hrun⟩ | ⟨-, hrun⟩ := ofLexemes_cases (hls l List.mem_cons_self) offset last ls
      · rw [hrun, List.filterMap_append, hrest, List.filterMap_append]
      · rw [hrun, List.filterMap_cons_none rfl, List.filterMap_append, hrest, List.filterMap_append]

/-- Entries other than semicolons are written. -/
theorem mem_ofLexemes_iff (hls : ∀ l ∈ ls, l.Cut) {last : Token} {item : Item} (hitem : item.token ≠ .op .semicolon) :
    item ∈ ofLexemes offset last ls ↔ item ∈ raw offset ls := by
  have hinserted : item.isInserted = false := by simp [isInserted, hitem]
  rw [← written_ofLexemes hls offset last, written, List.mem_filter, hinserted]
  exact (and_iff_left rfl).symm

end Item

/-! ### Places that are flawed -/

/-- Only texts are flawed in this way. -/
theorem Token.IsFlawed.holdsText {t : Token} {text : String} (h : t.IsFlawed text) : t.holdsText = true := by
  unfold IsFlawed at h
  split at h
  · rfl
  · rfl
  · rfl
  · exact h.elim

namespace Lexeme

/-- An illegal lexeme has a fault or is a byte that starts no character. -/
theorem Verdict.fault_of_illegal {l : Lexeme} (h : l.Verdict) (hkind : l.kind = .token .illegal) :
    l.fault ≠ none ∨ l.runes = [.malformed] := by
  cases h with
  | quiet hfault hquiet hplain => exact absurd rfl (hquiet _ hkind).1
  | number hillegal hfault hplain => exact .inl (by simp [hfault])
  | stray c => exact .inl nofun
  | malformed => exact .inr rfl
  | text htext ht hrunes hfirst hfault =>
      obtain rfl := LexemeKind.token.inj (htext.symm.trans hkind)
      cases ht

/-- A string, character or comment has a fault if it cannot be read or does not end. -/
theorem Verdict.fault_of_holdsText {l : Lexeme} {t : Token} (h : l.Verdict) (hkind : l.kind = .token t)
    (ht : t.holdsText = true) : l.fault = none ↔ ¬ t.IsFlawed (Rune.toString l.runes) := by
  cases h with
  | quiet hfault hquiet hplain => exact absurd ht (by simp [(hquiet t hkind).2])
  | number hillegal hfault hplain =>
      obtain rfl := LexemeKind.token.inj (hillegal.symm.trans hkind)
      cases ht
  | stray c =>
      obtain rfl := LexemeKind.token.inj hkind
      cases ht
  | malformed =>
      obtain rfl := LexemeKind.token.inj hkind
      cases ht
  | text htext ht' hrunes hfirst hfault =>
      obtain rfl := LexemeKind.token.inj (htext.symm.trans hkind)
      exact hfault

/-- A flawed lexeme is illegal or holds text. -/
theorem Verdict.kind_of_fault {l : Lexeme} (h : l.Verdict) (hfault : l.fault ≠ none) :
    ∃ t, l.kind = .token t ∧ (t = .illegal ∨ t.holdsText = true) := by
  cases h with
  | quiet hnone hquiet hplain => exact absurd hnone hfault
  | number hillegal hnumber hplain => exact ⟨_, hillegal, .inl rfl⟩
  | stray c => exact ⟨_, rfl, .inl rfl⟩
  | malformed => exact absurd rfl hfault
  | text htext ht hrunes hfirst hflawed => exact ⟨_, htext, .inr ht⟩

/-- The first byte of a flawed lexeme starts a character. -/
theorem Verdict.scalar_of_fault {l : Lexeme} (h : l.Verdict) (hcut : l.Cut)
    (hfault : l.fault ≠ none ∨ ∃ t, l.kind = .token t ∧ t.holdsText = true) :
    ∃ c rs, l.runes = .scalar c :: rs := by
  have hplain (hchars : ∀ r ∈ l.runes, r.char ≠ Text.replacement) : ∃ c rs, l.runes = .scalar c :: rs := by
    obtain ⟨r, rs, hrunes⟩ := List.exists_cons_of_ne_nil hcut.ne_nil
    exact ⟨r.char, rs, by rw [hrunes, ← Rune.eq_scalar_of_char (hchars r (by simp [hrunes]))]⟩
  cases h with
  | quiet hnone hquiet hchars => exact hplain hchars
  | number hillegal hnumber hchars => exact hplain hchars
  | stray c => exact ⟨c, [], rfl⟩
  | malformed =>
      rcases hfault with hfault | ⟨t, hkind, ht⟩
      · exact absurd rfl hfault
      · obtain rfl := LexemeKind.token.inj hkind
        cases ht
  | text htext ht hrunes hfirst hflawed => exact ⟨_, _, by rw [hrunes, ← Rune.eq_scalar_of_char hfirst]⟩

/-- A replacement character is an illegal token, if it is not part of a text. -/
theorem Verdict.of_replacement {l : Lexeme} (h : l.Verdict) (hmem : .scalar Text.replacement ∈ l.runes) :
    l = { kind := .token .illegal, runes := [.scalar Text.replacement], fault := some .invalidCharacter } ∨
      ∃ t, l.kind = .token t ∧ t.holdsText = true := by
  cases h with
  | quiet hnone hquiet hplain => exact absurd rfl (hplain _ hmem)
  | number hillegal hnumber hplain => exact absurd rfl (hplain _ hmem)
  | stray c =>
      obtain rfl : Text.replacement = c := by simpa using hmem
      exact .inl rfl
  | malformed => simp at hmem
  | text htext ht hrunes hfirst hflawed => exact .inr ⟨_, htext, ht⟩

end Lexeme

/-- The flawed places of bytes that are read as some entries: first the bytes that start no character, then the
entries with a fault. -/
def flaws (bytes : ByteArray) (items : List Item) : List (Nat × LexicalFault) :=
  ((Handout.runesFrom bytes 0).filter (·.reading = .rune .malformed)).map (fun x => (x.offset, .invalidUtf8)) ++
    items.filterMap Item.flaw?

/-- The text of some bytes from byte `first` on, which is all of them but for a byte order mark. -/
structure TextFrom (bytes : ByteArray) (first : Nat) : Prop where
  le_size : first ≤ bytes.size
  mem_iff : ∀ x : Handout, x.reading ≠ .rune (.scalar Rune.bom) →
    (x ∈ Handout.runesFrom bytes first ↔ x ∈ Handout.runesFrom bytes 0)

section Text

open Lexeme

variable {bytes : ByteArray} {first k : Nat} {fault : LexicalFault}

/-- The entries of the text from byte `first` on. -/
def entriesFrom (bytes : ByteArray) (first : Nat) : List Item :=
  Item.ofLexemes first .illegal (split (Rune.decodeFrom bytes first))

theorem cut_of_mem_text (l : Lexeme) (h : l ∈ split (Rune.decodeFrom bytes first)) : l.Cut :=
  cut_of_mem_split h

theorem decodeAt_of_reading {x : Handout} (h : x ∈ Handout.runesFrom bytes first)
    (hreading : x.reading = .rune .malformed) : Rune.decodeAt bytes x.offset = .malformed := by
  obtain ⟨-, -, hrune⟩ := Handout.eq_of_mem h
  rw [hrune] at hreading
  exact Reading.rune.inj hreading

/-- A lexeme of the text starts where its first rune is read. -/
theorem decodeAt_of_startsAt {l : Lexeme} {r : Rune} {rs : List Rune} (hfirst : first ≤ bytes.size)
    (h : Item.StartsAt first (split (Rune.decodeFrom bytes first)) l k) (hrunes : l.runes = r :: rs) :
    Rune.decodeAt bytes k = r := by
  have hlies := (Rune.liesAt_decodeFrom bytes first hfirst).1
  rw [← flatMap_runes_split (Rune.decodeFrom bytes first)] at hlies
  have hthere := h.liesAt hlies
  rw [hrunes] at hthere
  exact hthere.2.1

/-- A flawed entry starts with a character, not with a byte that starts none. -/
theorem decodeAt_of_fault {item : Item} (hfirst : first ≤ bytes.size)
    (h : item ∈ Item.raw first (split (Rune.decodeFrom bytes first))) (hfault : item.fault ≠ none) :
    ∃ c, Rune.decodeAt bytes item.start = .scalar c := by
  obtain ⟨l, hstarts, hkind, hitem⟩ := Item.exists_of_mem_raw h
  have hfaulty : l.fault ≠ none := by
    rw [hitem] at hfault
    exact hfault
  obtain ⟨c, rs, hrunes⟩ := (verdict_of_mem_split hstarts.mem).scalar_of_fault (cut_of_mem_split hstarts.mem)
    (.inl hfaulty)
  exact ⟨c, decodeAt_of_startsAt hfirst hstarts hrunes⟩

theorem mem_flaws_iff :
    (k, fault) ∈ flaws bytes (entriesFrom bytes first) ↔
      Undecodable bytes k ∧ fault = .invalidUtf8 ∨
        ∃ item ∈ Item.raw first (split (Rune.decodeFrom bytes first)), item.start = k ∧ item.fault = some fault := by
  rw [flaws, List.mem_append, entriesFrom, Item.faults_ofLexemes cut_of_mem_text]
  refine or_congr ?_ ?_
  · rw [Undecodable, ← Handout.mem_malformed_iff, List.mem_map]
    constructor
    · rintro ⟨x, hx, heq⟩
      obtain ⟨hx, hreading⟩ := List.mem_filter.1 hx
      obtain ⟨rfl, rfl⟩ := Prod.mk.inj heq
      have hmalformed := decodeAt_of_reading hx (of_decide_eq_true hreading)
      obtain ⟨-, -, hrune⟩ := Handout.eq_of_mem hx
      rw [hrune, hmalformed] at hx
      exact ⟨hx, rfl⟩
    · rintro ⟨hx, rfl⟩
      exact ⟨_, List.mem_filter.2 ⟨hx, rfl⟩, rfl⟩
  · rw [List.mem_filterMap]
    simp [Item.flaw?, and_comm]

/-- No place is reported twice. -/
theorem nodup_flaws (hfirst : first ≤ bytes.size) :
    ((flaws bytes (entriesFrom bytes first)).map Prod.fst).Nodup := by
  rw [flaws, List.map_append, List.map_map, entriesFrom, Item.faults_ofLexemes cut_of_mem_text, List.nodup_append']
  refine ⟨?_, ?_, ?_⟩
  · rw [List.Nodup, List.pairwise_map]
    exact ((Handout.pairwise_runesFrom bytes 0).filter _).imp fun hlt => Nat.ne_of_lt hlt
  · rw [List.Nodup, List.pairwise_map, List.pairwise_filterMap]
    refine (Item.pairwise_raw cut_of_mem_text).imp fun {x y} hlt a ha b hb => ?_
    obtain ⟨f, -, rfl⟩ := Option.map_eq_some_iff.1 ha
    obtain ⟨g, -, rfl⟩ := Option.map_eq_some_iff.1 hb
    exact Nat.ne_of_lt hlt
  · intro k hmalformed hentry
    obtain ⟨x, hx, rfl⟩ := List.mem_map.1 hmalformed
    obtain ⟨hx, hreading⟩ := List.mem_filter.1 hx
    obtain ⟨flaw, hflaw, hstart⟩ := List.mem_map.1 hentry
    obtain ⟨item, hitem, hflaw⟩ := List.mem_filterMap.1 hflaw
    obtain ⟨fault, hfault, rfl⟩ := Option.map_eq_some_iff.1 hflaw
    obtain ⟨c, hscalar⟩ := decodeAt_of_fault hfirst hitem (by simp [hfault])
    have hmalformed := decodeAt_of_reading hx (of_decide_eq_true hreading)
    rw [← show item.start = x.offset from hstart, hscalar] at hmalformed
    cases hmalformed

theorem lt_size_of_mem_flaws (hfirst : first ≤ bytes.size) (h : (k, fault) ∈ flaws bytes (entriesFrom bytes first)) :
    k < bytes.size := by
  rcases mem_flaws_iff.1 h with ⟨hundecodable, -⟩ | ⟨item, hitem, rfl, hfault⟩
  · exact hundecodable.1
  · obtain ⟨c, hscalar⟩ := decodeAt_of_fault hfirst hitem (by simp [hfault])
    have hle := (Rune.decodeAt_eq_scalar_iff.1 hscalar).add_le
    have hpos := c.utf8Size_pos
    omega

/-- Illegal entries and those that hold text are lexemes. -/
theorem exists_of_mem_entries {item : Item} (h : item ∈ entriesFrom bytes first)
    (htoken : item.token = .illegal ∨ item.token.holdsText = true) :
    item ∈ Item.raw first (split (Rune.decodeFrom bytes first)) ∧
      ∃ l, Item.StartsAt first (split (Rune.decodeFrom bytes first)) l item.start ∧ l.kind = .token item.token ∧
        item = Item.ofLexeme item.start item.token l := by
  have hraw := (Item.mem_ofLexemes_iff cut_of_mem_text (fun hsemicolon => by
    rw [hsemicolon] at htoken
    simp [Token.holdsText] at htoken)).1 h
  exact ⟨hraw, Item.exists_of_mem_raw hraw⟩

/-- An illegal entry has a fault or is a byte that starts no character. -/
theorem fault_or_undecodable {item : Item} (htext : TextFrom bytes first) (h : item ∈ entriesFrom bytes first)
    (hillegal : item.token = .illegal) : item.fault ≠ none ∨ Undecodable bytes item.start := by
  obtain ⟨-, l, hstarts, hkind, hitem⟩ := exists_of_mem_entries h (.inl hillegal)
  rw [hillegal] at hkind
  rcases (verdict_of_mem_split hstarts.mem).fault_of_illegal hkind with hfault | hmalformed
  · left
    rw [hitem]
    exact hfault
  · right
    have hmem : ⟨.rune .malformed, item.start, item.start + 1⟩ ∈ Handout.runesFrom bytes first := by
      rw [Handout.runesFrom, ← flatMap_runes_split (Rune.decodeFrom bytes first)]
      refine hstarts.mem_ofRunes ?_
      rw [hmalformed]
      exact List.mem_singleton.2 rfl
    exact Handout.mem_malformed_iff.1 ((htext.mem_iff ⟨.rune .malformed, _, _⟩ (by simp)).1 hmem)

/-- An entry that holds text has a fault exactly if it is flawed. -/
theorem fault_eq_none_iff {item : Item} (h : item ∈ entriesFrom bytes first) (ht : item.token.holdsText = true) :
    item.fault = none ↔ ¬ item.token.IsFlawed item.literal := by
  obtain ⟨-, l, hstarts, hkind, hitem⟩ := exists_of_mem_entries h (.inr ht)
  have hliteral : item.literal = Rune.toString l.runes := by
    rw [hitem]
    show l.literal = _
    rw [literal, hkind]
    cases htoken : item.token with
    | op o => simp [htoken, Token.holdsText] at ht
    | kw k => simp [htoken, Token.holdsText] at ht
    | _ => rfl
  have hfault : item.fault = l.fault := by
    rw [hitem]
    rfl
  rw [hliteral, hfault]
  exact (verdict_of_mem_split hstarts.mem).fault_of_holdsText hkind ht

/-- A replacement character that is there in its own right is an illegal token or part of a text. -/
theorem entry_of_replacement (htext : TextFrom bytes first) (h : EncodedAt bytes Text.replacement k) :
    (k, .invalidCharacter) ∈ flaws bytes (entriesFrom bytes first) ∨
      ∃ item ∈ entriesFrom bytes first, item.token.holdsText = true ∧ item.start ≤ k ∧ k < item.stop ∧
        item.stop ≤ bytes.size := by
  have hplain : Text.replacement ≠ Rune.bom := by decide
  have hmem := (htext.mem_iff ⟨.rune (.scalar Text.replacement), k, k + Text.replacement.utf8Size⟩
    (fun heq => hplain (Rune.scalar.inj (Reading.rune.inj heq)))).2 (Handout.mem_scalar_iff.2 h)
  rw [Handout.runesFrom, ← flatMap_runes_split (Rune.decodeFrom bytes first)] at hmem
  obtain ⟨l, i, hstarts, hin⟩ := Item.exists_startsAt hmem
  obtain ⟨r, hr, hreading, hle, hstop⟩ := Handout.mem_of_mem_ofRunes hin
  obtain rfl : Rune.scalar Text.replacement = r := Reading.rune.inj hreading
  dsimp only at hle hstop
  rcases (verdict_of_mem_split hstarts.mem).of_replacement hr with rfl | ⟨t, hkind, ht⟩
  · left
    have hwidths : Rune.widths [.scalar Text.replacement] = Text.replacement.utf8Size := rfl
    rw [hwidths] at hstop
    exact mem_flaws_iff.2 (.inr ⟨_, hstarts.mem_raw rfl, Nat.le_antisymm hle (show k ≤ i by omega), rfl⟩)
  · right
    have hentry : Item.ofLexeme i t l ∈ entriesFrom bytes first :=
      (Item.mem_ofLexemes_iff cut_of_mem_text (by rintro (rfl : t = _); cases ht)).2 (hstarts.mem_raw hkind)
    have hlies := (Rune.liesAt_decodeFrom bytes first htext.le_size).1
    rw [← flatMap_runes_split (Rune.decodeFrom bytes first)] at hlies
    have hi : i ≤ bytes.size := Nat.le_trans hle (Nat.le_trans (Nat.le_add_right _ _) h.add_le)
    have hpos := Text.replacement.utf8Size_pos
    exact ⟨_, hentry, ht, hle, by dsimp only [Item.ofLexeme]; omega, (hstarts.liesAt hlies).le_size hi⟩

theorem start_le_size {item : Item} (hfirst : first ≤ bytes.size) (h : item ∈ entriesFrom bytes first) :
    item.start ≤ bytes.size := by
  have hle := Item.start_le_of_mem h
  rw [flatMap_runes_split, (Rune.liesAt_decodeFrom bytes first hfirst).2] at hle
  exact hle

/-- Where a text without a fault starts nothing is flawed. -/
theorem fst_ne_of_sound {item : Item} (hfirst : first ≤ bytes.size) (h : item ∈ entriesFrom bytes first)
    (ht : item.token.holdsText = true) (hnone : item.fault = none) :
    ∀ x ∈ flaws bytes (entriesFrom bytes first), x.1 ≠ item.start := by
  obtain ⟨hraw, l, hstarts, hkind, -⟩ := exists_of_mem_entries h (.inr ht)
  obtain ⟨c, rs, hrunes⟩ := (verdict_of_mem_split hstarts.mem).scalar_of_fault (cut_of_mem_split hstarts.mem)
    (.inr ⟨_, hkind, ht⟩)
  rintro ⟨k, fault⟩ hx (rfl : k = item.start)
  rcases mem_flaws_iff.1 hx with ⟨hbyte, -⟩ | ⟨other, hother, hstart, hfault⟩
  · have hmalformed := decodeAt_of_reading (Handout.mem_malformed_iff.2 hbyte) rfl
    rw [decodeAt_of_startsAt hfirst hstarts hrunes] at hmalformed
    cases hmalformed
  · have hnodup : ((Item.raw first (split (Rune.decodeFrom bytes first))).map (·.start)).Nodup := by
      rw [List.Nodup, List.pairwise_map]
      exact (Item.pairwise_raw cut_of_mem_text).imp fun hlt => Nat.ne_of_lt hlt
    obtain rfl := List.inj_on_of_nodup_map hnodup hother hraw hstart
    rw [hnone] at hfault
    cases hfault

/-- Nothing else is flawed than bytes that start no character, illegal tokens and texts. -/
theorem cases_of_mem_flaws (h : (k, fault) ∈ flaws bytes (entriesFrom bytes first)) :
    Undecodable bytes k ∨ ∃ item ∈ entriesFrom bytes first, item.start = k ∧
      (item.token = .illegal ∨ item.token.IsFlawed item.literal) := by
  rcases mem_flaws_iff.1 h with ⟨hbyte, -⟩ | ⟨item, hraw, hstart, hfault⟩
  · exact .inl hbyte
  right
  obtain ⟨l, hstarts, hkind, hitem⟩ := Item.exists_of_mem_raw hraw
  have hfaulty : l.fault ≠ none := by
    rw [hitem] at hfault
    exact fun hnone => by simp [Item.ofLexeme, hnone] at hfault
  obtain ⟨t, hkind', ht⟩ := (verdict_of_mem_split hstarts.mem).kind_of_fault hfaulty
  obtain rfl := LexemeKind.token.inj (hkind.symm.trans hkind')
  have hentry : item ∈ entriesFrom bytes first :=
    (Item.mem_ofLexemes_iff cut_of_mem_text fun hsemicolon => by
      rw [hsemicolon] at ht
      simp [Token.holdsText] at ht).2 hraw
  refine ⟨item, hentry, hstart, ht.imp_right fun hholding => ?_⟩
  exact not_not.1 (mt (fault_eq_none_iff hentry hholding).2 (by simp [hfault]))

end Text

/-! ### Reports -/

/-- A diagnostic without its line and column. -/
def Diagnostic.core {κ : Type} (d : Diagnostic κ) : Pos × κ :=
  (d.pos, d.cause)

/-- What is reported about a flaw, in a file that starts at `base`. -/
def flawCore (base : Nat) (flaw : Nat × LexicalFault) : Pos × SourceFault :=
  (.ofOffset (base + flaw.1), .lexical flaw.2)

theorem Pos.ofOffset_inj {n m : Nat} (hn : n < limit) (hm : m < limit) : ofOffset n = ofOffset m ↔ n = m := by
  constructor
  · intro h
    have hoffset := offset?_ofOffset hn
    rw [h, offset?_ofOffset hm] at hoffset
    exact (Option.some.inj hoffset).symm
  · exact congrArg ofOffset

section Reports

variable {base k : Nat} {fault : LexicalFault} {reports : List (Diagnostic SourceFault)}
  {found : List (Nat × LexicalFault)}

theorem causesAt_eq (hreports : reports.map Diagnostic.core = found.map (flawCore base))
    (hfits : ∀ x ∈ found, base + x.1 < Pos.limit) (hk : base + k < Pos.limit) :
    causesAt reports (.ofOffset (base + k)) = (found.filter (·.1 = k)).map (.lexical ·.2) := by
  have hcores (pos : Pos) :
      causesAt reports pos = ((reports.map Diagnostic.core).filter (·.1 = pos)).map Prod.snd := by
    rw [List.filter_map, List.map_map]
    rfl
  rw [hcores, hreports, List.filter_map, List.map_map]
  refine congrArg _ (List.filter_congr fun x hx => ?_)
  have hinj := Pos.ofOffset_inj (hfits x hx) hk
  simp only [Function.comp_apply, flawCore, hinj, Nat.add_left_cancel_iff]

/-- A place that is flawed only once. -/
theorem filter_fst_eq (hnodup : (found.map Prod.fst).Nodup) (h : (k, fault) ∈ found) :
    found.filter (·.1 = k) = [(k, fault)] := by
  obtain ⟨before, after, rfl⟩ := List.append_of_mem h
  rw [List.map_append, List.map_cons, List.nodup_middle, List.nodup_cons, ← List.map_append] at hnodup
  have hothers : ∀ x ∈ before ++ after, x.1 ≠ k := fun x hx heq =>
    hnodup.1 (List.mem_map.2 ⟨x, hx, heq⟩)
  have hnone (xs : List (Nat × LexicalFault)) (hxs : ∀ x ∈ xs, x ∈ before ++ after) :
      xs.filter (·.1 = k) = [] :=
    List.filter_eq_nil_iff.2 fun x hx => by simpa using hothers x (hxs x hx)
  rw [List.filter_append, List.filter_cons_of_pos (by simp), hnone before fun x hx => List.mem_append_left _ hx,
    hnone after fun x hx => List.mem_append_right _ hx, List.nil_append]

end Reports

section Flawed

variable {bytes : ByteArray} {first : Nat} {s : Scanner} {reports : List (Diagnostic SourceFault)}

/-- Reports of all flaws and of nothing else. -/
theorem FlawsReported.of_cores (htext : TextFrom bytes first) (hfits : s.file.base + bytes.size < Pos.limit)
    (hreports : reports.map Diagnostic.core =
      (flaws bytes (entriesFrom bytes first)).map (flawCore s.file.base)) :
    FlawsReported s.file.base bytes ((entriesFrom bytes first).map s.place) reports := by
  have hsize {k : Nat} {fault : LexicalFault} (h : (k, fault) ∈ flaws bytes (entriesFrom bytes first)) :
      s.file.base + k < Pos.limit :=
    Nat.lt_trans (Nat.add_lt_add_left (lt_size_of_mem_flaws htext.le_size h) _) hfits
  have hcauses {k : Nat} (hk : s.file.base + k < Pos.limit) := causesAt_eq hreports (fun x hx => hsize hx) hk
  have honce {k : Nat} {fault : LexicalFault} (h : (k, fault) ∈ flaws bytes (entriesFrom bytes first)) :
      causesAt reports (.ofOffset (s.file.base + k)) = [.lexical fault] := by
    rw [hcauses (hsize h), filter_fst_eq (nodup_flaws htext.le_size) h]
    rfl
  have hundecodable {k : Nat} (h : Undecodable bytes k) :
      causesAt reports (.ofOffset (s.file.base + k)) = [.lexical .invalidUtf8] :=
    honce (mem_flaws_iff.2 (.inl ⟨h, rfl⟩))
  have hfaulty {item : Item} (hitem : item ∈ entriesFrom bytes first)
      (htoken : item.token = .illegal ∨ item.token.holdsText = true) (h : item.fault ≠ none) :
      ∃ fault, causesAt reports (s.place item).pos = [.lexical fault] := by
    obtain ⟨fault, hfault⟩ := Option.ne_none_iff_exists'.1 h
    exact ⟨fault, honce (mem_flaws_iff.2 (.inr ⟨item, (exists_of_mem_entries hitem htoken).1, rfl, hfault⟩))⟩
  constructor
  case undecodable => exact fun k => hundecodable
  case illegal =>
    intro t ht hillegal
    obtain ⟨item, hitem, rfl⟩ := List.mem_map.1 ht
    rcases fault_or_undecodable htext hitem hillegal with hfault | hbyte
    · exact hfaulty hitem (.inl hillegal) hfault
    · exact ⟨.invalidUtf8, hundecodable hbyte⟩
  case replacement =>
    intro k hk houtside
    rcases entry_of_replacement htext hk with hflaw | ⟨item, hitem, ht, hstart, hstop, hle⟩
    · exact honce hflaw
    · have hspans := Scanner.spans_place hfits item (by omega) hle
      have := houtside _ (List.mem_map_of_mem hitem) ht _ _ hspans
      omega
  case flawed =>
    intro t ht hflawed
    obtain ⟨item, hitem, rfl⟩ := List.mem_map.1 ht
    have hholds : item.token.holdsText = true := hflawed.holdsText
    exact hfaulty hitem (.inr hholds) fun hnone => (fault_eq_none_iff hitem hholds).1 hnone hflawed
  case sound =>
    intro t ht hholds hsound
    obtain ⟨item, hitem, rfl⟩ := List.mem_map.1 ht
    have hnone := fst_ne_of_sound htext.le_size hitem hholds ((fault_eq_none_iff hitem hholds).2 hsound)
    have hle := start_le_size htext.le_size hitem
    have hempty := hcauses (k := item.start) (by omega)
    rw [List.filter_eq_nil_iff.2 (by simpa using hnone)] at hempty
    exact hempty
  case only =>
    intro d hd
    have hcore : d.core ∈ (flaws bytes (entriesFrom bytes first)).map (flawCore s.file.base) := by
      rw [← hreports]
      exact List.mem_map_of_mem hd
    obtain ⟨⟨k, fault⟩, hflaw, heq⟩ := List.mem_map.1 hcore
    have hpos : Pos.ofOffset (s.file.base + k) = d.pos := congrArg Prod.fst heq
    rcases cases_of_mem_flaws hflaw with hbyte | ⟨item, hitem, rfl, hillegal | hflawed⟩
    · exact .inr (.inl ⟨k, hbyte, hpos⟩)
    · exact .inl ⟨_, List.mem_map_of_mem hitem, hillegal, hpos⟩
    · exact .inr (.inr ⟨_, List.mem_map_of_mem hitem, hflawed, hpos⟩)

end Flawed

/-! ### Journals -/

namespace Reader

variable {r : Reader}

theorem unlimited_drain (h : r.journal.Unlimited) : r.drain.2.journal.Unlimited := by
  fun_induction drain r with
  | case1 r hclosed => exact h
  | case2 r hclosed hcursor rune r' htake hless runes last hdrain ih =>
      have hr' : r' = r.take.2 := by rw [htake]
      have hrest := ih (by rw [hr']; exact unlimited_take h)
      rwa [hdrain] at hrest
  | case3 r hclosed hcursor => exact h

/-- Reading a text reports the bytes that start no character. -/
theorem cores_drain (h : r.journal.Unlimited) :
    ∃ reports, r.drain.2.journal.entries.toList = r.journal.entries.toList ++ reports ∧
      reports.map Diagnostic.core = (((Handout.runesFrom r.bytes r.cursor).filter
        (·.reading = .rune .malformed)).map fun x => (x.offset, .invalidUtf8)).map (flawCore r.file.base) := by
  fun_induction drain r with
  | case1 r hclosed => exact absurd hclosed (by simp [h.2])
  | case2 r hclosed hcursor rune r' htake hless runes last hdrain ih =>
      obtain rfl : r.take.2 = r' := by rw [htake]
      obtain ⟨reports, hentries, hcores⟩ := ih (unlimited_take h)
      rw [hdrain, entries_take h, List.append_assoc] at hentries
      rw [bytes_take, cursor_take, base_take] at hcores
      refine ⟨_, hentries, ?_⟩
      rw [List.map_append, hcores, Handout.runesFrom_of_lt hcursor]
      by_cases hrune : Rune.decodeAt r.bytes r.cursor = .malformed
      · rw [if_pos hrune, hrune]
        rfl
      · rw [if_neg hrune, List.filter_cons_of_neg (by simpa using hrune)]
        rfl
  | case3 r hclosed hcursor =>
      refine ⟨[], (List.append_nil _).symm, ?_⟩
      rw [Handout.runesFrom_of_le (Nat.le_of_not_lt hcursor)]
      rfl

/-- The text of a file is all of it, or what follows a byte order mark. -/
theorem textFrom (h : r.journal.Unlimited) (hstart : r.cursor = 0) :
    ∃ first, TextFrom r.bytes first ∧ r.readText.1 = (first, Rune.decodeFrom r.bytes first) := by
  rcases readText_unlimited h hstart with htext | ⟨hbom, hsize, htext⟩
  · exact ⟨0, ⟨Nat.zero_le _, fun x hx => Iff.rfl⟩, htext⟩
  · have hmark : EncodedAt r.bytes Rune.bom 0 := hbom
    refine ⟨3, ⟨hsize, fun x hx => ?_⟩, htext⟩
    rw [Handout.runesFrom_of_lt (by omega : 0 < r.bytes.size), Rune.decodeAt_eq_scalar_iff.2 hmark, List.mem_cons]
    constructor
    · exact .inr
    · rintro (rfl | hmem)
      · exact absurd rfl hx
      · exact hmem

end Reader

namespace Scanner

variable {s : Scanner}

/-- The fault of an entry is reported where the entry starts. -/
theorem cores_reportFault (h : s.journal.Unlimited) (item : Item) :
    (s.reportFault item).journal.Unlimited ∧
      ∃ reports, (s.reportFault item).journal.entries.toList = s.journal.entries.toList ++ reports ∧
        reports.map Diagnostic.core = ([item].filterMap Item.flaw?).map (flawCore s.file.base) := by
  unfold reportFault
  split
  · next fault hfault =>
      have hentries := congrArg Journal.entries
        (Journal.report_of_unlimited h (.make s.file (s.file.pos item.start) (.lexical fault)))
      refine ⟨h.report _, _, (congrArg Array.toList hentries).trans Array.toList_push, ?_⟩
      simp only [List.filterMap_cons, Item.flaw?, hfault]
      rfl
  · next hfault =>
      refine ⟨h, [], (List.append_nil _).symm, ?_⟩
      simp only [List.filterMap_cons, Item.flaw?, hfault]
      rfl

/-- Handing out all tokens reports their faults. -/
theorem cores_scanAll (h : s.journal.Unlimited) :
    ∃ reports, s.scanAll.2.journal.entries.toList = s.journal.entries.toList ++ reports ∧
      reports.map Diagnostic.core = (s.stream.items.filterMap Item.flaw?).map (flawCore s.file.base) := by
  fun_induction scanAll s with
  | case1 s item rest hpop delivered tokens s' hall ih =>
      obtain ⟨hunlimited, reports, hentries, hcores⟩ := cores_reportFault h item
      obtain ⟨later, hlater, hlaterCores⟩ := ih hunlimited
      rw [hall, show delivered.2.journal = (s.reportFault item).journal from rfl, hentries,
        List.append_assoc] at hlater
      refine ⟨_, hlater, ?_⟩
      rw [List.map_append, hcores, hlaterCores, TokenStream.items_pop? hpop, file_deliver s item rest,
        ← List.map_append, ← List.filterMap_append]
      rfl
  | case2 s hpop token s' hend =>
      obtain ⟨rfl, rfl⟩ := Prod.mk.inj hend
      refine ⟨[], (List.append_nil _).symm, ?_⟩
      rw [TokenStream.items_eq_nil_of_pop? hpop]
      rfl

theorem flawsReported_start {r : Reader} (hunlimited : r.journal.Unlimited) (hcursor : r.cursor = 0)
    (hfits : r.file.base + r.bytes.size < Pos.limit) :
    ∃ reports, (start r).scanAll.2.journal.entries.toList = r.journal.entries.toList ++ reports ∧
      FlawsReported r.file.base r.bytes (start r).tokens reports := by
  obtain ⟨first, htext, hread⟩ := r.textFrom hunlimited hcursor
  have hitems : (start r).stream.items = entriesFrom r.bytes first := by
    rw [items_start, hread]
    rfl
  have hbase : (start r).file.base = r.file.base := by
    rw [file, reader_start, Reader.base_drain]
  obtain ⟨early, hearly, hearlyCores⟩ := r.cores_drain hunlimited
  obtain ⟨late, hlate, hlateCores⟩ := cores_scanAll (s := start r) (by
    rw [journal_start, Reader.readText_snd]
    exact r.unlimited_drain hunlimited)
  rw [journal_start, Reader.readText_snd, hearly, List.append_assoc] at hlate
  refine ⟨_, hlate, ?_⟩
  rw [← hbase] at hfits ⊢
  rw [tokens_eq, hitems]
  refine .of_cores htext hfits ?_
  rw [List.map_append, hearlyCores, hlateCores, hitems, hcursor, hbase, flaws, List.map_append]

/-- Every flaw of a file is reported exactly once, whatever its bytes are, if the number of reports is not limited and
the file fits into the space of positions.  It makes no difference whether the limit was lifted before the file was
opened or afterwards. -/
theorem flaws_reported_once (s : Scanner) (file : SourceFile) (source : ByteSource)
    (hfits : file.base + source.bytes.size < Pos.limit) :
    let before := (s.reader.init file source).journal.entries.toList
    (∃ reports, ((s.init file source).setBudget 0).scanAll.2.journal.entries.toList = before ++ reports ∧
      FlawsReported file.base source.bytes ((s.init file source).setBudget 0).tokens reports) ∧
    (s.journal.budget = 0 →
      ∃ reports, (s.init file source).scanAll.2.journal.entries.toList = before ++ reports ∧
        FlawsReported file.base source.bytes (s.init file source).tokens reports) := by
  intro before
  constructor
  · have hagain : (s.init file source).setBudget 0 = start ((s.reader.init file source).setBudget 0).rewind :=
      congrArg start ((continues_start _).rewind_setBudget_eq (Nat.le_refl _) 0)
    have hentries : ((s.reader.init file source).setBudget 0).rewind.journal.entries.toList = before := by
      show (before.toArray.take before.length).toList = before
      simp
    rw [hagain, ← hentries]
    exact flawsReported_start ⟨rfl, rfl⟩ rfl hfits
  · intro hbudget
    exact flawsReported_start (r := s.reader.init file source) ⟨hbudget, rfl⟩ rfl hfits

/-- A byte that starts no character, alone and in a string without an end, and a replacement character in that string
and after it. -/
theorem flaws_reported_once_mixed :
    let source : ByteSource := { bytes := ⟨#[0xFF, 0x20, 0x22, 0xEF, 0xBF, 0xBD, 0xFF, 0x0A, 0xEF, 0xBF, 0xBD]⟩ }
    let scanner := (({} : Scanner).init { base := 7 } source).setBudget 0
    7 + source.bytes.size < Pos.limit ∧
    scanner.tokens.map (fun t => (t.token, t.literal)) =
      [(.illegal, "\uFFFD"), (.lit .string, "\"\uFFFD\uFFFD"), (.op .semicolon, ""), (.illegal, "\uFFFD")] ∧
    scanner.scanAll.2.journal.entries.toList.map (fun d => (d.pos.offset?, d.cause)) =
      [(some 7, .lexical .invalidUtf8), (some 13, .lexical .invalidUtf8), (some 9, .lexical .unterminatedString),
        (some 15, .lexical .invalidCharacter)] ∧
    FlawsReported 7 source.bytes scanner.tokens scanner.scanAll.2.journal.entries.toList := by
  intro source scanner
  have hfits : 7 + source.bytes.size < Pos.limit := by decide
  obtain ⟨reports, hentries, hreported⟩ := (flaws_reported_once {} { base := 7 } source hfits).1
  have hnone : (({} : Scanner).reader.init { base := 7 } source).journal.entries.toList = [] := rfl
  rw [hnone, List.nil_append] at hentries
  refine ⟨hfits, by decide +kernel, by decide +kernel, ?_⟩
  rw [hentries]
  exact hreported

end Scanner

end GoSource
