import GoSource.Proofs.Scanner.Lossless
import Mathlib.Logic.Function.Iterate

/-!
# Automatic semicolons

Between a token and the next one that is no comment, one semicolon is put in if the first of them ends a statement
and a line ends in between: at a line end, or in a bracketed comment that is complete.

* **`Lexeme.breaksLine`**: the lexemes that end a line.
* **`Item.raw`**: the entries of the tokens as they are written.
* **`Item.Separated`**: what the stream holds between two tokens, by one rule for each case.
* **`semicolons_inserted`**: the stream of every text follows the rule.
-/

namespace GoSource

/-- The tokens that end a statement, one by one. -/
def Token.statementEnds : List Token :=
  [.lit .ident, .lit .int, .lit .float, .lit .imag, .lit .char, .lit .string,
    .kw .break_, .kw .continue_, .kw .fallthrough, .kw .return_,
    .op .inc, .op .dec, .op .rparen, .op .rbrack, .op .rbrace]

theorem Token.endsStatement_iff (t : Token) : t.endsStatement = true ↔ t ∈ statementEnds := by
  cases t with
  | lit c => cases c <;> decide
  | kw k => cases k <;> decide
  | op o => cases o <;> decide
  | tag n => cases n <;> decide
  | _ => decide

/-! ### Line ends in comments -/

namespace Lexeme

/-- A bracketed comment, by its first two characters. -/
def isBlock (l : Lexeme) : Bool :=
  ['/', '*'].isPrefixOf (Rune.chars l.runes)

/-- Whether a line ends at the lexeme: it is a line end, or a complete bracketed comment that holds one. -/
def breaksLine (l : Lexeme) : Bool :=
  match l.kind with
  | .newline => true
  | .token .comment => l.isBlock && l.fault.isNone && (Rune.chars l.runes).contains '\n'
  | _ => false

/-- The number of bytes before the first line end. -/
def feedOffset (l : Lexeme) : Nat :=
  Rune.widths (l.runes.takeWhile (·.char != '\n'))

theorem lookup_ne_comment (s : String) : Token.lookup s ≠ .comment := by
  unfold Token.lookup
  cases Keyword.ofText? s with
  | none => exact nofun
  | some k => exact nofun

theorem kind_number_ne_comment (r : Rune) (rest : List Rune) : (number r rest).kind ≠ .token .comment := by
  unfold number
  dsimp only
  split <;> exact nofun

theorem kind_rawString_ne_comment (rest : List Rune) : (rawString rest).kind ≠ .token .comment := by
  unfold rawString
  split <;> exact nofun

theorem kind_operatorOrStray_ne_comment (r : Rune) (rest : List Rune) :
    (operatorOrStray r rest).kind ≠ .token .comment := by
  unfold operatorOrStray
  split <;> exact nofun

/-- A comment is one up to the end of its line, or a bracketed one. -/
theorem comment_of_measure {r : Rune} {rest : List Rune} {e : Extent} (he : measure r rest = e)
    (hkind : e.kind = .token .comment) :
    r.char = '/' ∧ (e = lineComment rest ∨ rest.head?.map Rune.char = some '*' ∧ e = blockComment rest) := by
  have hword : (word r rest).kind ≠ .token .comment := by simp [word, lookup_ne_comment]
  unfold measure at he
  dsimp only at he
  split at he
  · subst he
    cases hkind
  split at he
  · subst he
    cases hkind
  split at he
  · subst he
    exact absurd hkind hword
  split at he
  · subst he
    exact absurd hkind (kind_number_ne_comment r rest)
  split at he
  · next hline => exact ⟨hline.1, .inl he.symm⟩
  split at he
  · next hblock => exact ⟨hblock.1, .inr ⟨hblock.2, he.symm⟩⟩
  split at he
  · subst he
    cases hkind
  split at he
  · subst he
    exact absurd hkind (kind_rawString_ne_comment rest)
  split at he
  · subst he
    cases hkind
  · subst he
    exact absurd hkind (kind_operatorOrStray_ne_comment r rest)

theorem more_blockComment_pos {rest : List Rune} (h : rest ≠ []) : 0 < (blockComment rest).more := by
  unfold blockComment
  split
  · exact Nat.succ_pos _
  · exact List.length_pos_iff.2 h

/-- A line ends only in comments that are bracketed. -/
theorem isBlock_of_measure {r : Rune} {rest : List Rune} {e : Extent} (he : measure r rest = e)
    (hkind : e.kind = .token .comment) (hfeed : '\n' ∈ Rune.chars (r :: rest.take e.more)) :
    ['/', '*'].isPrefixOf (Rune.chars (r :: rest.take e.more)) = true := by
  obtain ⟨hslash, rfl | ⟨hstar, rfl⟩⟩ := comment_of_measure he hkind
  · have htake : rest.take (lineComment rest).more = rest.takeWhile (·.char != '\n') :=
      (List.prefix_iff_eq_take.1 (List.takeWhile_prefix _)).symm
    rw [htake] at hfeed
    obtain ⟨x, hx, hchar⟩ := List.mem_map.1 hfeed
    rcases List.mem_cons.1 hx with rfl | hx
    · rw [hslash] at hchar
      cases hchar
    · have := List.all_eq_true.1 List.all_takeWhile x hx
      simp [hchar] at this
  · cases rest with
    | nil => cases hstar
    | cons star tail =>
        obtain ⟨n, hn⟩ := Nat.exists_eq_add_one.2 (more_blockComment_pos (List.cons_ne_nil star tail))
        have hchar : star.char = '*' := by simpa using hstar
        rw [hn]
        simp [Rune.chars, hslash, hchar]

/-- What is known about a lexeme that was cut off a text. -/
structure Cut (l : Lexeme) : Prop extends Sound l where
  block_of_feed : l.kind = .token .comment → '\n' ∈ Rune.chars l.runes → l.isBlock = true

theorem cut_of_mem_split {rs : List Rune} {l : Lexeme} (h : l ∈ split rs) : l.Cut := by
  refine ⟨sound_of_mem_split h, ?_⟩
  induction rs using split.induct with
  | case1 => simp [split] at h
  | case2 r rest extent ih =>
      rw [split] at h
      rcases List.mem_cons.1 h with rfl | h
      · exact isBlock_of_measure rfl
      · exact ih h

end Lexeme

/-! ### Entries as they are written -/

namespace Item

open Lexeme

/-- A semicolon that was put in stands for nothing. -/
def isInserted (item : Item) : Bool :=
  item.token = .op .semicolon && item.start = item.stop

/-- The entries of the tokens and comments, as they are written. -/
def raw (offset : Nat) : List Lexeme → List Item
  | [] => []
  | l :: rest =>
      match l.kind with
      | .token token => ofLexeme offset token l :: raw (offset + Rune.widths l.runes) rest
      | _ => raw (offset + Rune.widths l.runes) rest

/-- The number of bytes of lexemes. -/
def extent (ls : List Lexeme) : Nat :=
  Rune.widths (ls.flatMap runes)

theorem extent_cons (l : Lexeme) (ls : List Lexeme) : extent (l :: ls) = Rune.widths l.runes + extent ls := by
  rw [extent, List.flatMap_cons, Rune.widths_append]
  rfl

theorem raw_append (offset : Nat) (ls ks : List Lexeme) :
    raw offset (ls ++ ks) = raw offset ls ++ raw (offset + extent ls) ks := by
  induction ls generalizing offset with
  | nil => rfl
  | cons l ls ih =>
      rw [List.cons_append, raw, raw, extent_cons, ← Nat.add_assoc]
      split
      · rw [ih]
        rfl
      · rw [ih]

/-! ### One lexeme -/

section Steps

variable {l : Lexeme} {token : Token} (offset : Nat) (last : Token) (rest : List Lexeme)

theorem ofLexemes_blank (hk : l.kind = .blank) :
    ofLexemes offset last (l :: rest) = ofLexemes (offset + Rune.widths l.runes) last rest := by
  rw [ofLexemes]
  simp only [hk]

theorem ofLexemes_newline (hk : l.kind = .newline) (hends : last.endsStatement = true) :
    ofLexemes offset last (l :: rest) =
      semicolon offset false :: ofLexemes (offset + Rune.widths l.runes) (.op .semicolon) rest := by
  rw [ofLexemes]
  simp only [hk, hends, if_true]

theorem ofLexemes_newline_of_false (hk : l.kind = .newline) (hends : last.endsStatement = false) :
    ofLexemes offset last (l :: rest) = ofLexemes (offset + Rune.widths l.runes) last rest := by
  rw [ofLexemes]
  simp only [hk, hends, Bool.false_eq_true, if_false]

theorem ofLexemes_token (hk : l.kind = .token token) (hcomment : token ≠ .comment) :
    ofLexemes offset last (l :: rest) =
      ofLexeme offset token l :: ofLexemes (offset + Rune.widths l.runes) token rest := by
  have hend : commentLineEnd? token l = none := if_neg fun h => hcomment h.1
  rw [ofLexemes]
  simp only [hk, hend, if_neg hcomment]
  cases last.endsStatement <;> rfl

theorem ofLexemes_comment (hk : l.kind = .token .comment)
    (hquiet : last.endsStatement = false ∨ commentLineEnd? .comment l = none) :
    ofLexemes offset last (l :: rest) =
      ofLexeme offset .comment l :: ofLexemes (offset + Rune.widths l.runes) last rest := by
  rw [ofLexemes]
  simp only [hk]
  rcases hquiet with hends | hend
  · simp only [hends, if_true]
  · simp only [hend, if_true]
    cases last.endsStatement <;> rfl

theorem ofLexemes_block {n : Nat} (hk : l.kind = .token .comment) (hends : last.endsStatement = true)
    (hend : commentLineEnd? .comment l = some n) :
    ofLexemes offset last (l :: rest) = semicolon (offset + n) true ::
      ofLexeme offset .comment l :: ofLexemes (offset + Rune.widths l.runes) (.op .semicolon) rest := by
  rw [ofLexemes]
  simp only [hk, hends, hend]

end Steps

variable {offset : Nat} {last : Token} {l b : Lexeme} {ls gap rest : List Lexeme}

theorem commentLineEnd?_eq (hk : l.kind = .token .comment) (hl : l.Cut) :
    commentLineEnd? .comment l = if l.breaksLine then some l.feedOffset else none := by
  have hbreaks : l.breaksLine = (l.isBlock && l.fault.isNone && (Rune.chars l.runes).contains '\n') := by
    simp only [breaksLine, hk]
  have hfeed : l.runes.any (·.char == '\n') = (Rune.chars l.runes).contains '\n' := by
    rw [Rune.chars, List.contains_eq_any_beq, List.any_map]
    congr 1
    funext r
    exact Bool.beq_comm
  rw [commentLineEnd?, lineEnd?, hfeed, hbreaks]
  cases hcontains : (Rune.chars l.runes).contains '\n' with
  | false => simp
  | true =>
      rw [hl.block_of_feed hk (List.contains_iff_mem.1 hcontains)]
      cases l.fault with
      | none => rfl
      | some fault => rfl

/-! ### Between two tokens -/

/-- Blanks, line ends and comments stand between tokens. -/
def separates (l : Lexeme) : Bool :=
  match l.kind with
  | .token token => token = .comment
  | _ => true

/-- What the stream holds for the lexemes `gap` after a token, which ends a statement or does not. -/
inductive Separated (offset : Nat) (ends : Prop) : List Lexeme → List Item → Prop
  /-- No semicolon is due: the comments alone. -/
  | quiet {gap : List Lexeme} (h : ends → ∀ l ∈ gap, l.breaksLine = false) :
      Separated offset ends gap (raw offset gap)
  /-- A semicolon is due where the first line ends: after the comments before that, and before the comment in which
  it does. -/
  | broken {quiet loud : List Lexeme} {b : Lexeme} (hends : ends) (hquiet : ∀ l ∈ quiet, l.breaksLine = false)
      (hb : b.breaksLine = true) :
      Separated offset ends (quiet ++ b :: loud)
        (raw offset quiet ++
          semicolon (offset + extent quiet + b.feedOffset) (b.kind = .token .comment) ::
            raw (offset + extent quiet) (b :: loud))

theorem raw_cons (offset : Nat) (l : Lexeme) (ls : List Lexeme) :
    raw offset (l :: ls) = raw offset [l] ++ raw (offset + Rune.widths l.runes) ls := by
  have h := raw_append offset [l] ls
  rwa [extent_cons] at h

theorem Separated.cons {ends : Prop} {items : List Item}
    (h : Separated (offset + Rune.widths l.runes) ends gap items) (hl : l.breaksLine = false) :
    Separated offset ends (l :: gap) (raw offset [l] ++ items) := by
  cases h with
  | quiet h =>
      rw [← raw_cons]
      exact .quiet fun hends => by simpa using ⟨hl, h hends⟩
  | @broken quiet loud b hends hquiet hb =>
      have hall : ∀ k ∈ l :: quiet, k.breaksLine = false := by simpa using ⟨hl, hquiet⟩
      have hbroken : Separated offset ends (l :: quiet ++ b :: loud) _ := .broken hends hall hb
      rw [raw_cons, extent_cons, ← Nat.add_assoc, List.append_assoc] at hbroken
      exact hbroken

/-- Where no semicolon is due, a gap leaves its comments. -/
theorem ofLexemes_quiet (hl : l.Cut) (hgap : separates l = true)
    (hquiet : last.endsStatement = true → l.breaksLine = false) :
    ofLexemes offset last (l :: rest) = raw offset [l] ++ ofLexemes (offset + Rune.widths l.runes) last rest := by
  cases hk : l.kind with
  | blank =>
      rw [ofLexemes_blank _ _ _ hk]
      simp only [raw, hk, List.nil_append]
  | newline =>
      have hends : last.endsStatement = false := by
        by_contra hends
        have hbreaks : l.breaksLine = true := by simp only [breaksLine, hk]
        rw [hquiet (by simpa using hends)] at hbreaks
        cases hbreaks
      rw [ofLexemes_newline_of_false _ _ _ hk hends]
      simp only [raw, hk, List.nil_append]
  | token token =>
      obtain rfl : token = .comment := by simpa [separates, hk] using hgap
      rw [ofLexemes_comment _ _ _ hk]
      · simp only [raw, hk, List.cons_append, List.nil_append]
      · cases hends : last.endsStatement with
        | false => exact .inl rfl
        | true =>
            right
            rw [commentLineEnd?_eq hk hl, hquiet hends]
            rfl

theorem feedOffset_newline (hl : l.Cut) (hk : l.kind = .newline) : l.feedOffset = 0 := by
  have hspells := hl.spells
  rw [hk] at hspells
  obtain ⟨r, hr, hfeed⟩ := hspells
  simp [feedOffset, hr, hfeed]

theorem comment_of_breaksLine {token : Token} (hk : l.kind = .token token) (h : l.breaksLine = true) :
    token = .comment := by
  rw [breaksLine, hk] at h
  cases token with
  | comment => rfl
  | _ => cases h

/-- Where a line ends after a token that ends a statement, a semicolon comes first. -/
theorem ofLexemes_break (hl : l.Cut) (hends : last.endsStatement = true) (hbreaks : l.breaksLine = true) :
    ofLexemes offset last (l :: rest) = semicolon (offset + l.feedOffset) (l.kind = .token .comment) ::
      (raw offset [l] ++ ofLexemes (offset + Rune.widths l.runes) (.op .semicolon) rest) := by
  cases hk : l.kind with
  | blank => simp [breaksLine, hk] at hbreaks
  | newline =>
      rw [ofLexemes_newline _ _ _ hk hends, feedOffset_newline hl hk]
      simp only [raw, hk, List.nil_append, reduceCtorEq, decide_false, Nat.add_zero]
  | token token =>
      obtain rfl : token = .comment := comment_of_breaksLine hk hbreaks
      have hend : commentLineEnd? .comment l = some l.feedOffset := by
        rw [commentLineEnd?_eq hk hl, hbreaks]
        rfl
      rw [ofLexemes_block _ _ _ hk hends hend]
      simp only [raw, hk, List.cons_append, List.nil_append, decide_true]

/-- After a token that ends no statement a gap leaves its comments. -/
theorem ofLexemes_gap (hends : last.endsStatement = false) (hgap : ∀ l ∈ gap, l.Cut ∧ separates l = true)
    (offset : Nat) (rest : List Lexeme) :
    ofLexemes offset last (gap ++ rest) = raw offset gap ++ ofLexemes (offset + extent gap) last rest := by
  induction gap generalizing offset with
  | nil => rfl
  | cons l gap ih =>
      obtain ⟨hl, hlgap⟩ := hgap l List.mem_cons_self
      have hquiet : last.endsStatement = true → l.breaksLine = false := by simp [hends]
      rw [List.cons_append, ofLexemes_quiet hl hlgap hquiet, ih fun l hl => hgap l (List.mem_cons_of_mem _ hl),
        raw_cons offset l gap, extent_cons, ← Nat.add_assoc, List.append_assoc]

/-- What the stream holds between a token and the next one. -/
theorem ofLexemes_separated (last : Token) (hgap : ∀ l ∈ gap, l.Cut ∧ separates l = true) (offset : Nat)
    (rest : List Lexeme) :
    ∃ items last', ofLexemes offset last (gap ++ rest) = items ++ ofLexemes (offset + extent gap) last' rest ∧
      Separated offset (last.endsStatement = true) gap items := by
  cases hends : last.endsStatement with
  | false => exact ⟨raw offset gap, last, ofLexemes_gap hends hgap offset rest, .quiet nofun⟩
  | true =>
      -- The induction goes up to the first line end; after the semicolon there nothing ends a statement.
      induction gap generalizing offset with
      | nil => exact ⟨[], last, rfl, .quiet (by simp)⟩
      | cons l gap ih =>
          obtain ⟨hl, hlgap⟩ := hgap l List.mem_cons_self
          have hlater : ∀ l ∈ gap, l.Cut ∧ separates l = true := fun l hl => hgap l (List.mem_cons_of_mem _ hl)
          cases hbreaks : l.breaksLine with
          | false =>
              obtain ⟨items, last', hitems, hseparated⟩ := ih hlater (offset + Rune.widths l.runes)
              refine ⟨raw offset [l] ++ items, last', ?_, hseparated.cons hbreaks⟩
              rw [List.cons_append, ofLexemes_quiet hl hlgap fun _ => hbreaks, hitems, extent_cons, ← Nat.add_assoc,
                List.append_assoc]
          | true =>
              have hfirst : ∀ k ∈ ([] : List Lexeme), k.breaksLine = false := by simp
              have hbroken : Separated offset (true = true) (l :: gap)
                  (semicolon (offset + l.feedOffset) (l.kind = .token .comment) :: raw offset (l :: gap)) :=
                .broken rfl hfirst hbreaks
              refine ⟨_, .op .semicolon, ?_, hbroken⟩
              rw [List.cons_append, ofLexemes_break hl hends hbreaks, ofLexemes_gap rfl hlater, extent_cons,
                ← Nat.add_assoc, raw_cons offset l gap, List.cons_append, List.append_assoc]

/-! ### The whole stream -/

theorem isInserted_semicolon (offset : Nat) (holds : Bool) : (semicolon offset holds).isInserted = true := by
  simp [isInserted, semicolon]

theorem widths_pos (hl : l.Cut) : 0 < Rune.widths l.runes := by
  cases hr : l.runes with
  | nil => exact absurd hr hl.ne_nil
  | cons r rs =>
      have := r.width_pos
      rw [Rune.widths_cons]
      omega

theorem isInserted_ofLexeme (hl : l.Cut) (offset : Nat) (token : Token) :
    (ofLexeme offset token l).isInserted = false := by
  have := widths_pos hl
  have hne : offset ≠ offset + Rune.widths l.runes := by omega
  rw [isInserted, Bool.and_eq_false_iff]
  exact .inr (decide_eq_false hne)

/-- What was written is never taken for a semicolon that was put in. -/
theorem isInserted_of_mem_raw (hls : ∀ l ∈ ls, l.Cut) {item : Item} (h : item ∈ raw offset ls) :
    item.isInserted = false := by
  induction ls generalizing offset with
  | nil => cases h
  | cons l ls ih =>
      have hlater : ∀ k ∈ ls, k.Cut := fun k hk => hls k (List.mem_cons_of_mem _ hk)
      rw [raw] at h
      split at h
      · rcases List.mem_cons.1 h with rfl | h
        · exact isInserted_ofLexeme (hls l List.mem_cons_self) _ _
        · exact ih hlater h
      · exact ih hlater h

/-- The entries that were not put in. -/
def written (items : List Item) : List Item :=
  items.filter (!·.isInserted)

theorem written_append (items later : List Item) : written (items ++ later) = written items ++ written later :=
  List.filter_append _ _

theorem written_raw (hls : ∀ l ∈ ls, l.Cut) (offset : Nat) : written (raw offset ls) = raw offset ls := by
  rw [written, List.filter_eq_self]
  intro item hitem
  rw [isInserted_of_mem_raw hls hitem]
  rfl

theorem written_semicolon (offset : Nat) (holds : Bool) (items : List Item) :
    written (semicolon offset holds :: items) = written items :=
  List.filter_cons_of_neg (by simp [isInserted_semicolon])

/-- One lexeme leaves its own entry, if it is a token, and at most a semicolon before it. -/
theorem ofLexemes_cases (hl : l.Cut) (offset : Nat) (last : Token) (rest : List Lexeme) :
    (∃ last', ofLexemes offset last (l :: rest) =
      raw offset [l] ++ ofLexemes (offset + Rune.widths l.runes) last' rest) ∨
    (l.breaksLine = true ∧ ofLexemes offset last (l :: rest) =
      semicolon (offset + l.feedOffset) (l.kind = .token .comment) ::
        (raw offset [l] ++ ofLexemes (offset + Rune.widths l.runes) (.op .semicolon) rest)) := by
  by_cases hgap : separates l = true
  · by_cases hquiet : last.endsStatement = true → l.breaksLine = false
    · exact .inl ⟨last, ofLexemes_quiet hl hgap hquiet⟩
    · rw [Classical.not_imp, Bool.not_eq_false] at hquiet
      exact .inr ⟨hquiet.2, ofLexemes_break hl hquiet.1 hquiet.2⟩
  · cases hk : l.kind with
    | token token =>
        have hcomment : token ≠ .comment := by simpa [separates, hk] using hgap
        left
        refine ⟨token, ?_⟩
        rw [ofLexemes_token _ _ _ hk hcomment]
        simp only [raw, hk, List.cons_append, List.nil_append]
    | _ => simp [separates, hk] at hgap

theorem ofLexemes_append (hls : ∀ l ∈ ls, l.Cut) (offset : Nat) (last : Token) (rest : List Lexeme) :
    ∃ items last', ofLexemes offset last (ls ++ rest) = items ++ ofLexemes (offset + extent ls) last' rest ∧
      written items = raw offset ls := by
  induction ls generalizing offset last with
  | nil => exact ⟨[], last, rfl, rfl⟩
  | cons l ls ih =>
      have hl := hls l List.mem_cons_self
      have hsingle : written (raw offset [l]) = raw offset [l] := written_raw (by simpa using hl) offset
      have hrest := ih fun k hk => hls k (List.mem_cons_of_mem _ hk)
      rw [List.cons_append, raw_cons offset l ls, extent_cons, ← Nat.add_assoc]
      obtain ⟨last', hrun⟩ | ⟨-, hrun⟩ := ofLexemes_cases hl offset last (ls ++ rest)
      · obtain ⟨items, last'', hitems, hwritten⟩ := hrest (offset + Rune.widths l.runes) last'
        refine ⟨raw offset [l] ++ items, last'', ?_, ?_⟩
        · rw [hrun, hitems, List.append_assoc]
        · rw [written_append, hsingle, hwritten]
      · obtain ⟨items, last'', hitems, hwritten⟩ := hrest (offset + Rune.widths l.runes) (.op .semicolon)
        refine ⟨semicolon (offset + l.feedOffset) (l.kind = .token .comment) :: (raw offset [l] ++ items), last'',
          ?_, ?_⟩
        · rw [hrun, hitems, List.cons_append, List.append_assoc]
        · rw [written_semicolon, written_append, hsingle, hwritten]

theorem written_ofLexemes (hls : ∀ l ∈ ls, l.Cut) (offset : Nat) (last : Token) :
    written (ofLexemes offset last ls) = raw offset ls := by
  obtain ⟨items, last', hitems, hwritten⟩ := ofLexemes_append hls offset last []
  rw [List.append_nil, ofLexemes, List.append_nil] at hitems
  rw [hitems, hwritten]

/-- A token comes first, whatever was before it. -/
theorem head?_ofLexemes (hls : ∀ l ∈ ls.head?, separates l = false) (offset : Nat) (last : Token) :
    (ofLexemes offset last ls).head? = (raw offset ls).head? := by
  cases ls with
  | nil => rfl
  | cons l ls =>
      have hl := hls l (by simp)
      cases hk : l.kind with
      | token token =>
          have hcomment : token ≠ .comment := by simpa [separates, hk] using hl
          rw [ofLexemes_token _ _ _ hk hcomment]
          simp only [raw, hk, List.head?_cons]
      | _ => simp [separates, hk] at hl

/-- A semicolon is put in at most once between two tokens, and exactly if it is due. -/
theorem Separated.countP {ends : Prop} [Decidable ends] {items : List Item} (h : Separated offset ends gap items)
    (hgap : ∀ l ∈ gap, l.Cut) :
    items.countP isInserted = if ends ∧ ∃ l ∈ gap, l.breaksLine = true then 1 else 0 := by
  have hraw {offset : Nat} {ls : List Lexeme} (hls : ∀ l ∈ ls, l.Cut) : (raw offset ls).countP isInserted = 0 := by
    rw [List.countP_eq_zero]
    intro item hitem
    rw [isInserted_of_mem_raw hls hitem]
    exact nofun
  cases h with
  | quiet h =>
      rw [hraw hgap, if_neg]
      rintro ⟨hends, l, hl, hbreaks⟩
      rw [h hends l hl] at hbreaks
      cases hbreaks
  | @broken quiet loud b hends hquiet hb =>
      rw [List.countP_append, List.countP_cons, hraw fun l hl => hgap l (List.mem_append_left _ hl),
        hraw fun l hl => hgap l (List.mem_append_right _ hl), if_pos (isInserted_semicolon _ _),
        if_pos ⟨hends, b, by simp, hb⟩]

/-! ### Comments that are held back -/

/-- The comment `c` holds the line end for which the semicolon `item` was put in. -/
structure Causes (c item : Item) : Prop where
  token_eq : c.token = .comment
  block : ['/', '*'] <+: c.literal.toList
  start_lt : c.start < item.start
  lt_stop : item.start < c.stop

/-- The entries that hold a comment back are the semicolons put in for the comment that comes next. -/
def Marked : List Item → Prop
  | [] => True
  | item :: rest =>
      (item.holdsComment = true ↔ item.isInserted = true ∧ ∃ c ∈ rest.head?, c.Causes item) ∧ Marked rest

theorem start_of_mem_raw {item : Item} (h : item ∈ raw offset [l]) : item.start = offset := by
  cases hk : l.kind with
  | token token =>
      obtain rfl : item = ofLexeme offset token l := by simpa [raw, hk] using h
      rfl
  | _ => simp [raw, hk] at h

theorem le_start_of_mem_ofLexemes (hls : ∀ l ∈ ls, l.Cut) {item : Item} (h : item ∈ ofLexemes offset last ls) :
    offset ≤ item.start := by
  induction ls generalizing offset last with
  | nil => cases h
  | cons l ls ih =>
      have hlater {last' : Token} (h : item ∈ ofLexemes (offset + Rune.widths l.runes) last' ls) :
          offset ≤ item.start :=
        Nat.le_trans (Nat.le_add_right _ _) (ih (fun k hk => hls k (List.mem_cons_of_mem _ hk)) h)
      obtain ⟨last', hrun⟩ | ⟨-, hrun⟩ := ofLexemes_cases (hls l List.mem_cons_self) offset last ls
      · rw [hrun] at h
        rcases List.mem_append.1 h with h | h
        · exact Nat.le_of_eq (start_of_mem_raw h).symm
        · exact hlater h
      · rw [hrun] at h
        rcases List.mem_cons.1 h with rfl | h
        · exact Nat.le_add_right _ _
        · rcases List.mem_append.1 h with h | h
          · exact Nat.le_of_eq (start_of_mem_raw h).symm
          · exact hlater h

theorem Marked.raw {items : List Item} (h : Marked items) (hl : l.Cut) (offset : Nat) :
    Marked (raw offset [l] ++ items) := by
  cases hk : l.kind with
  | token token =>
      have hitems : Item.raw offset [l] ++ items = ofLexeme offset token l :: items := by
        simp only [Item.raw, hk, List.cons_append, List.nil_append]
      rw [hitems]
      refine ⟨?_, h⟩
      rw [isInserted_ofLexeme hl]
      exact ⟨nofun, nofun⟩
  | _ =>
      simp only [Item.raw, hk, List.nil_append]
      exact h

/-- The line end of a comment lies inside it. -/
theorem feedOffset_of_block (hblock : l.isBlock = true) (hfeed : '\n' ∈ Rune.chars l.runes) :
    0 < l.feedOffset ∧ l.feedOffset < Rune.widths l.runes := by
  constructor
  · cases hr : l.runes with
    | nil => simp [isBlock, hr, Rune.chars] at hblock
    | cons r rs =>
        have hslash : r.char = '/' := by
          simp only [isBlock, hr, Rune.chars, List.map_cons, List.isPrefixOf, Bool.and_eq_true, beq_iff_eq] at hblock
          exact hblock.1.symm
        have hkept : (r.char != '\n') = true := by simp [hslash]
        have hwidth := r.width_pos
        rw [feedOffset, hr, List.takeWhile_cons, if_pos hkept, Rune.widths_cons]
        omega
  · have hsplit : l.feedOffset + Rune.widths (l.runes.dropWhile (·.char != '\n')) = Rune.widths l.runes := by
      rw [feedOffset, ← Rune.widths_append, List.takeWhile_append_dropWhile]
    cases hdrop : l.runes.dropWhile (·.char != '\n') with
    | nil =>
        obtain ⟨r, hr, hchar⟩ := List.mem_map.1 hfeed
        rw [← List.takeWhile_append_dropWhile (p := (·.char != '\n')) (l := l.runes), hdrop, List.append_nil] at hr
        have hkept := List.all_eq_true.1 List.all_takeWhile r hr
        simp [hchar] at hkept
    | cons r rs =>
        have hwidth := r.width_pos
        rw [hdrop, Rune.widths_cons] at hsplit
        omega

theorem causes_ofLexeme (hk : l.kind = .token .comment) (hbreaks : l.breaksLine = true) (offset : Nat) :
    (ofLexeme offset .comment l).Causes (semicolon (offset + l.feedOffset) true) := by
  have hblock : l.isBlock = true ∧ '\n' ∈ Rune.chars l.runes := by
    rw [breaksLine, hk] at hbreaks
    simp only [Bool.and_eq_true, List.contains_iff_mem] at hbreaks
    exact ⟨hbreaks.1.1, hbreaks.2⟩
  obtain ⟨hpos, hlt⟩ := feedOffset_of_block hblock.1 hblock.2
  have hliteral : l.literal.toList = Rune.chars l.runes := by
    rw [Lexeme.literal, hk]
    exact String.toList_ofList
  refine ⟨rfl, ?_, Nat.lt_add_of_pos_right hpos, Nat.add_lt_add_left hlt offset⟩
  show ['/', '*'] <+: l.literal.toList
  rw [hliteral]
  exact List.isPrefixOf_iff_prefix.1 hblock.1

theorem marked_ofLexemes (hls : ∀ l ∈ ls, l.Cut) (offset : Nat) (last : Token) :
    Marked (ofLexemes offset last ls) := by
  induction ls generalizing offset last with
  | nil => trivial
  | cons l ls ih =>
      have hl := hls l List.mem_cons_self
      have hrest : ∀ k ∈ ls, k.Cut := fun k hk => hls k (List.mem_cons_of_mem _ hk)
      obtain ⟨last', hrun⟩ | ⟨hbreaks, hrun⟩ := ofLexemes_cases hl offset last ls
      · rw [hrun]
        exact (ih hrest _ _).raw hl offset
      · rw [hrun]
        refine ⟨?_, (ih hrest _ _).raw hl offset⟩
        cases hk : l.kind with
        | blank => simp [breaksLine, hk] at hbreaks
        | newline =>
            have hraw : raw offset [l] = [] := by simp only [raw, hk]
            rw [hraw, List.nil_append]
            refine ⟨nofun, ?_⟩
            -- What comes next starts after the line end, so no comment holds it.
            rintro ⟨-, c, hc, hcauses⟩
            have hle := le_start_of_mem_ofLexemes hrest (List.mem_of_mem_head? hc)
            have hlt := hcauses.start_lt
            have hoffset : l.feedOffset = 0 := feedOffset_newline hl hk
            simp only [semicolon, hoffset] at hlt
            omega
        | token token =>
            obtain rfl : token = .comment := comment_of_breaksLine hk hbreaks
            have hraw : raw offset [l] = [ofLexeme offset .comment l] := by simp only [raw, hk]
            rw [hraw]
            refine ⟨fun _ => ⟨isInserted_semicolon _ _, _, rfl, causes_ofLexeme hk hbreaks offset⟩, ?_⟩
            intro _
            simp [semicolon]

/-- What is known about an entry by its place in the stream. -/
theorem Marked.holdsComment_iff {items : List Item} {n : Nat} {item : Item} (h : Marked items)
    (hitem : items[n]? = some item) :
    item.holdsComment = true ↔ item.isInserted = true ∧ ∃ c, items[n + 1]? = some c ∧ c.Causes item := by
  induction items generalizing n with
  | nil => cases hitem
  | cons first rest ih =>
      cases n with
      | zero =>
          obtain rfl : first = item := by simpa using hitem
          rw [h.1, List.getElem?_cons_succ, List.head?_eq_getElem?]
          rfl
      | succ n => exact ih h.2 hitem

/-! ### The rule -/

/-- The stream `items` of lexemes that start at `first` follows the rule. -/
structure Ruled (first : Nat) (ls : List Lexeme) (items : List Item) : Prop where
  /-- Without the semicolons that were put in, the stream is what is written. -/
  written_eq : written items = raw first ls
  /-- Nothing is put in before the first token. -/
  leading : ∀ gap after, ls = gap ++ after → (∀ l ∈ gap, separates l = true) →
    (∀ u ∈ after.head?, separates u = false) →
    ∃ later, items = raw first gap ++ later ∧ later.head? = (raw (first + extent gap) after).head?
  /-- Between a token and the next one, or the end of the text, one semicolon is put in if the token ends a statement
  and a line ends; its place is that of the first line end. -/
  between : ∀ before t token gap after, ls = before ++ t :: (gap ++ after) → t.kind = .token token →
    token ≠ .comment → (∀ l ∈ gap, separates l = true) → (∀ u ∈ after.head?, separates u = false) →
    ∃ earlier inner later,
      items = earlier ++ ofLexeme (first + extent before) token t :: (inner ++ later) ∧
      written earlier = raw first before ∧
      written later = raw (first + extent (before ++ t :: gap)) after ∧
      later.head? = (raw (first + extent (before ++ t :: gap)) after).head? ∧
      Separated (first + extent (before ++ [t])) (token ∈ Token.statementEnds) gap inner ∧
      inner.countP isInserted =
        if token ∈ Token.statementEnds ∧ ∃ l ∈ gap, l.breaksLine = true then 1 else 0

theorem extent_append (ls ks : List Lexeme) : extent (ls ++ ks) = extent ls + extent ks := by
  rw [extent, List.flatMap_append, Rune.widths_append]
  rfl

theorem ruled_ofLexemes (hls : ∀ l ∈ ls, l.Cut) (first : Nat) (hlast : last.endsStatement = false) :
    Ruled first ls (ofLexemes first last ls) := by
  refine ⟨written_ofLexemes hls first last, ?_, ?_⟩
  · rintro gap after rfl hgap hafter
    refine ⟨_, ofLexemes_gap hlast (fun l hl => ⟨hls l (List.mem_append_left _ hl), hgap l hl⟩) first after, ?_⟩
    exact head?_ofLexemes hafter _ _
  · rintro before t token gap after rfl hk hcomment hgap hafter
    have hbefore : ∀ l ∈ before, l.Cut := fun l hl => hls l (by simp [hl])
    have hgapCut : ∀ l ∈ gap, l.Cut := fun l hl => hls l (by simp [hl])
    have hafterCut : ∀ l ∈ after, l.Cut := fun l hl => hls l (by simp [hl])
    obtain ⟨earlier, last', hearlier, hwritten⟩ := ofLexemes_append hbefore first last (t :: (gap ++ after))
    obtain ⟨inner, last'', hinner, hseparated⟩ := ofLexemes_separated token
      (fun l hl => ⟨hgapCut l hl, hgap l hl⟩) (first + extent before + Rune.widths t.runes) after
    have hstart : first + extent (before ++ [t]) = first + extent before + Rune.widths t.runes := by
      rw [extent_append, extent_cons, Nat.add_assoc]
      rfl
    have hstop : first + extent (before ++ t :: gap) =
        first + extent before + Rune.widths t.runes + extent gap := by
      rw [extent_append, extent_cons, Nat.add_assoc, Nat.add_assoc]
    rw [Token.endsStatement_iff] at hseparated
    refine ⟨earlier, inner, ofLexemes (first + extent before + Rune.widths t.runes + extent gap) last'' after, ?_,
      hwritten, ?_, ?_, hstart ▸ hseparated, hseparated.countP hgapCut⟩
    · rw [hearlier, ofLexemes_token _ _ _ hk hcomment, hinner]
    · rw [hstop]
      exact written_ofLexemes hafterCut _ _
    · rw [hstop]
      exact head?_ofLexemes hafter _ _

end Item

namespace Scanner

/-- The scanner after `n` tokens. -/
def after (s : Scanner) (n : Nat) : Scanner :=
  (fun s => s.scan.2)^[n] s

theorem after_succ (s : Scanner) (n : Nat) : s.after (n + 1) = (s.after n).scan.2 :=
  Function.iterate_succ_apply' _ n s

/-- The first entry left is handed out. -/
theorem scan_of_items {s : Scanner} {item : Item} {rest : List Item} (h : s.stream.items = item :: rest) :
    s.scan.1 = s.place item ∧ s.scan.2.stream.items = rest ∧ s.scan.2.file = s.file ∧
      s.scan.2.holdsComment = item.holdsComment := by
  rw [scan]
  cases hpop : s.stream.pop? with
  | none =>
      rw [TokenStream.items_eq_nil_of_pop? hpop] at h
      cases h
  | some popped =>
      obtain ⟨first, later⟩ := popped
      rw [TokenStream.items_pop? hpop] at h
      obtain ⟨rfl, rfl⟩ := List.cons.inj h
      exact ⟨rfl, rfl, s.file_deliver first later, rfl⟩

/-- At the end of the text nothing is left and nothing is held back. -/
theorem scan_of_end {s : Scanner} (h : s.stream.items = []) :
    s.scan.2.stream.items = [] ∧ s.scan.2.file = s.file ∧ s.scan.2.holdsComment = false := by
  rw [scan]
  cases hpop : s.stream.pop? with
  | none => exact ⟨h, rfl, rfl⟩
  | some popped =>
      rw [TokenStream.items_pop? hpop] at h
      cases h

/-- What is left after `n` tokens. -/
theorem items_after (s : Scanner) (n : Nat) :
    (s.after n).stream.items = s.stream.items.drop n ∧ (s.after n).file = s.file := by
  induction n with
  | zero => exact ⟨rfl, rfl⟩
  | succ n ih =>
      obtain ⟨hitems, hfile⟩ := ih
      rw [after_succ, ← List.drop_drop, ← hitems]
      cases hleft : (s.after n).stream.items with
      | nil =>
          obtain ⟨hnil, hsame, -⟩ := scan_of_end hleft
          exact ⟨hnil, hsame.trans hfile⟩
      | cons item rest =>
          obtain ⟨-, hrest, hsame, -⟩ := scan_of_items hleft
          exact ⟨hrest, hsame.trans hfile⟩

/-- What the scanner hands out after `n` tokens. -/
theorem scan_after {s : Scanner} {n : Nat} {item : Item} (h : s.stream.items[n]? = some item) :
    (s.after n).scan.1 = s.place item ∧ (s.after (n + 1)).holdsComment = item.holdsComment := by
  obtain ⟨hitems, hfile⟩ := s.items_after n
  obtain ⟨hlt, hget⟩ := List.getElem?_eq_some_iff.1 h
  rw [List.drop_eq_getElem_cons hlt, hget] at hitems
  obtain ⟨hplace, -, -, hholds⟩ := scan_of_items hitems
  rw [hplace, place_congr hfile, after_succ]
  exact ⟨rfl, hholds⟩

/-- Automatic semicolons.  The stream of every text, from the bytes and under the error budget that the reader has,
follows the rule; and after every token a comment is held back exactly if that token is a semicolon that was put in for
the comment that comes next. -/
theorem semicolons_inserted (r : Reader) :
    let s := start r
    s.tokens = s.stream.items.map s.place ∧
      Item.Ruled r.readText.1.1 (Lexeme.split r.readText.1.2) s.stream.items ∧
      ∀ n, (s.after (n + 1)).holdsComment = true ↔
        ∃ item c, s.stream.items[n]? = some item ∧ s.stream.items[n + 1]? = some c ∧
          (s.after n).scan.1 = s.place item ∧ (s.after (n + 1)).scan.1 = s.place c ∧
          item.isInserted = true ∧ c.Causes item := by
  intro s
  have hcut : ∀ l ∈ Lexeme.split r.readText.1.2, l.Cut := fun l hl => Lexeme.cut_of_mem_split hl
  have hmarked : Item.Marked s.stream.items := Item.marked_ofLexemes hcut _ _
  refine ⟨s.tokens_eq, Item.ruled_ofLexemes hcut _ rfl, fun n => ?_⟩
  cases hitem : s.stream.items[n]? with
  | none =>
      have hend : (s.after n).stream.items = [] := by
        rw [(s.items_after n).1]
        exact List.drop_eq_nil_of_le (List.getElem?_eq_none_iff.1 hitem)
      rw [after_succ, (scan_of_end hend).2.2]
      constructor
      · exact nofun
      · rintro ⟨item, c, hnone, -⟩
        cases hnone
  | some item =>
      obtain ⟨hscan, hholds⟩ := scan_after hitem
      rw [hholds, hmarked.holdsComment_iff hitem]
      constructor
      · rintro ⟨hinserted, c, hc, hcauses⟩
        exact ⟨item, c, rfl, hc, hscan, (scan_after hc).1, hinserted, hcauses⟩
      · rintro ⟨item', c, hsame, hc, -, -, hinserted, hcauses⟩
        obtain rfl := Option.some.inj hsame
        exact ⟨hinserted, c, hc, hcauses⟩

end Scanner

end GoSource
