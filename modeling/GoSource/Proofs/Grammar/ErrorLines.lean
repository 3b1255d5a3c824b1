import GoSource.Proofs.Grammar.Restart
import GoSource.Proofs.Scanner.Lines
import GoSource.Proofs.Scanner.Locality
import GoSource.Proofs.Scanner.Positions
import GoSource.Proofs.Scanner.Semicolons

/-!
# Syntax errors on one line

A syntax error is not reported on the line of the report before it.  Most are about the current token, and then their
lines rise, so that no two of them are on one line.  But a few look back, at a node or an operator that was parsed
already, and after one of these the same line can come again.

* **`RisesTo`**: since the last report that looks back, lines rise.  **`Spaced`**: what two syntax errors on one line
  have between them.
* **`Item.Climbs`**: the lines of the entries to come rise; nothing is reported about what follows a name on its line but
  on that line.
* **`Parser.Paced`**: what a parser keeps from step to step.
* **`Parser.errors_spaced`**: the reports of all calls to a parser are spaced; `syntax_errors_share_line` shows that two
  of one run can be on one line.
-/

namespace GoSource

/-- A report that looks back, at something that was parsed already. -/
def SourceFault.looksBack : SourceFault → Bool
  | .syntactic fault => Grammar.looksBack fault
  | _ => false

/-- The line that a diagnostic shows. -/
def Diagnostic.line {κ : Type} (d : Diagnostic κ) : Nat :=
  d.position.line

/-- Between two syntax errors on one line there is a report on another line; and one of the two, or a report between
them, looks back. -/
def Spaced (reports : List (Diagnostic SourceFault)) : Prop :=
  ∀ before d between e after, reports = before ++ d :: (between ++ e :: after) →
    d.cause.phase = .syntactic → e.cause.phase = .syntactic → d.line = e.line →
    (∃ x ∈ between, x.line ≠ d.line) ∧ ∃ x ∈ d :: (between ++ [e]), x.cause.looksBack = true

/-- The reports since the last one that looks back, the latest first. -/
def sinceLookBack (reports : List (Diagnostic SourceFault)) : List (Diagnostic SourceFault) :=
  reports.reverse.takeWhile (!·.cause.looksBack)

/-- Since the last report that looks back the lines rise, at most up to line `n`. -/
def RisesTo (reports : List (Diagnostic SourceFault)) (n : Nat) : Prop :=
  (n :: (sinceLookBack reports).map Diagnostic.line).Pairwise (· ≥ ·)

section Lists

variable {reports : List (Diagnostic SourceFault)} {d : Diagnostic SourceFault} {n m : Nat}

theorem RisesTo.nil (n : Nat) : RisesTo [] n :=
  List.pairwise_singleton _ n

theorem RisesTo.mono (h : RisesTo reports n) (hle : n ≤ m) : RisesTo reports m := by
  obtain ⟨hbound, hrest⟩ := List.pairwise_cons.1 h
  exact List.pairwise_cons.2 ⟨fun x hx => Nat.le_trans (hbound x hx) hle, hrest⟩

theorem sinceLookBack_quiet (hquiet : d.cause.looksBack = false) :
    sinceLookBack (reports ++ [d]) = d :: sinceLookBack reports := by
  rw [sinceLookBack, List.reverse_append, List.reverse_singleton, List.singleton_append,
    List.takeWhile_cons_of_pos (by simp [hquiet])]
  rfl

/-- A report that does not look back goes up to its line. -/
theorem RisesTo.append (h : RisesTo reports n) (hle : n ≤ d.line) (hquiet : d.cause.looksBack = false) :
    RisesTo (reports ++ [d]) d.line := by
  rw [RisesTo, sinceLookBack_quiet hquiet, List.map_cons, List.pairwise_cons]
  have hrises : (d.line :: (sinceLookBack reports).map Diagnostic.line).Pairwise (· ≥ ·) := h.mono hle
  refine ⟨fun x hx => ?_, hrises⟩
  rcases List.mem_cons.1 hx with rfl | hx
  · exact Nat.le_refl _
  · exact (List.pairwise_cons.1 hrises).1 x hx

/-- After a report that looks back the lines start anew. -/
theorem RisesTo.append_looksBack (hback : d.cause.looksBack = true) (n : Nat) : RisesTo (reports ++ [d]) n := by
  have hnone : sinceLookBack (reports ++ [d]) = [] := by
    rw [sinceLookBack, List.reverse_append, List.reverse_singleton, List.singleton_append,
      List.takeWhile_cons_of_neg (by simp [hback])]
  rw [RisesTo, hnone]
  exact List.pairwise_singleton _ n

/-- What was reported since some report, if none of it looks back, is in the order of its lines. -/
theorem RisesTo.between {before between : List (Diagnostic SourceFault)}
    (h : RisesTo (before ++ d :: between) n) (hquiet : ∀ x ∈ d :: between, x.cause.looksBack = false) :
    (n :: ((d :: between).reverse.map Diagnostic.line)).Pairwise (· ≥ ·) := by
  refine List.Pairwise.sublist (List.Sublist.cons_cons n ?_) h
  refine List.Sublist.map _ ?_
  rw [sinceLookBack, List.reverse_append, List.takeWhile_append_of_pos]
  · exact List.sublist_append_left _ _
  · intro x hx
    simp [hquiet x (List.mem_reverse.1 hx)]

theorem Spaced.nil : Spaced [] := by
  intro before d between e after h
  simp at h

/-- One more report is spaced from those before it. -/
theorem Spaced.append (h : Spaced reports)
    (hlast : d.cause.phase = .syntactic → ∀ x ∈ reports.getLast?, x.line ≠ d.line)
    (hrises : d.cause.phase = .syntactic → d.cause.looksBack = true ∨ RisesTo reports d.line) :
    Spaced (reports ++ [d]) := by
  intro before x between e after heq hx he hline
  rcases List.eq_nil_or_concat after with rfl | ⟨after, last, rfl⟩
  · -- The new report is the later one of the two.
    have hsplit : reports ++ [d] = (before ++ x :: between) ++ [e] := by rw [heq]; simp
    obtain ⟨rfl, hlast'⟩ := List.append_inj' hsplit rfl
    obtain rfl : d = e := by simpa using hlast'
    rcases List.eq_nil_or_concat between with rfl | ⟨between, last, rfl⟩
    · exact absurd hline (hlast he x (by simp))
    · rw [List.concat_eq_append] at hlast hrises ⊢
      have hother : last.line ≠ d.line := by
        refine hlast he last ?_
        rw [← List.cons_append, ← List.append_assoc, List.getLast?_concat]
        rfl
      refine ⟨⟨last, by simp, by rw [hline]; exact hother⟩, ?_⟩
      by_contra hnone
      have hquiet : ∀ y ∈ x :: (between ++ [last]), y.cause.looksBack = false := fun y hy =>
        Bool.eq_false_iff.2 fun hback => hnone ⟨y, List.mem_append_left [d] hy, hback⟩
      have hrising := (hrises he).resolve_left fun hback => hnone ⟨d, by simp, hback⟩
      have hlines := hrising.between hquiet
      have hle : last.line ≤ d.line ∧ x.line ≤ last.line := by
        rw [← List.cons_append, List.reverse_append] at hlines
        simp only [List.reverse_cons, List.reverse_nil, List.nil_append, List.singleton_append, List.map_cons,
          List.map_append, List.map_nil, List.pairwise_cons] at hlines
        exact ⟨hlines.1 _ (by simp), hlines.2.1 _ (by simp)⟩
      omega
  · have hsplit : reports ++ [d] = (before ++ x :: (between ++ e :: after)) ++ [last] := by rw [heq]; simp
    obtain ⟨rfl, -⟩ := List.append_inj' hsplit rfl
    exact h before x between e after rfl hx he hline

/-- Reports that are no syntax errors may come before. -/
theorem Spaced.prepend {earlier : List (Diagnostic SourceFault)} (h : Spaced reports)
    (hearlier : ∀ x ∈ earlier, x.cause.phase = .lexical) : Spaced (earlier ++ reports) := by
  intro before d between e after heq hd
  obtain ⟨c, rfl, hreports⟩ | ⟨c, rfl, hreports⟩ := List.append_eq_append_iff.1 heq
  · exact h c d between e after hreports hd
  · cases c with
    | nil => exact h [] d between e after hreports.symm hd
    | cons x c =>
        obtain ⟨rfl, -⟩ := List.cons.inj hreports
        rw [hearlier d (by simp)] at hd
        cases hd

end Lists

/-! ### Journals -/

/-- The journal holds some earlier entries and then reports that are spaced, and that rise to line `n` as long as it
takes more of them. -/
def Journal.Orderly (before : List (Diagnostic SourceFault)) (j : Journal) (n : Nat) : Prop :=
  ∃ reports, j.entries.toList = before ++ reports ∧ Spaced reports ∧ (j.closed = false → RisesTo reports n)

namespace Journal.Orderly

variable {before : List (Diagnostic SourceFault)} {j : Journal} {d : Diagnostic SourceFault} {n m : Nat}

theorem mono (h : j.Orderly before n) (hle : n ≤ m) : j.Orderly before m := by
  obtain ⟨reports, hentries, hspaced, hrises⟩ := h
  exact ⟨reports, hentries, hspaced, fun hopen => (hrises hopen).mono hle⟩

/-- A report is added, and a last one if the budget is spent. -/
theorem added (h : j.Orderly before n) (hopen : j.closed = false)
    (hlast : d.cause.phase = .syntactic → ∀ x ∈ j.entries.back?, x.line ≠ d.line)
    (hplace : d.cause.looksBack = true ∨ n ≤ d.line ∧ d.line ≤ m) : (j.report d).Orderly before m := by
  obtain ⟨reports, hentries, hspaced, hrises⟩ := h
  have hadded : Spaced (reports ++ [d]) := by
    refine hspaced.append (fun hphase x hx => hlast hphase x ?_) fun _ => hplace.imp_right fun hle =>
      (hrises hopen).mono hle.1
    rw [← Array.getLast?_toList, hentries, List.getLast?_append, Option.mem_def, hx]
    rfl
  have hhigher : RisesTo (reports ++ [d]) m := by
    by_cases hback : d.cause.looksBack = true
    · exact .append_looksBack hback m
    · obtain ⟨hle, hle'⟩ := hplace.resolve_left hback
      exact ((hrises hopen).append hle (Bool.eq_false_iff.2 hback)).mono hle'
  rw [Journal.report_of_open hopen]
  split
  · refine ⟨reports ++ [d] ++ [{ d with cause := .lexical .tooManyErrors }], by simp [hentries], ?_, nofun⟩
    exact hadded.append nofun nofun
  · exact ⟨reports ++ [d], by simp [hentries], hadded, fun _ => hhigher⟩

/-- What the scanner reports does not look back. -/
theorem lexical {fault : LexicalFault} (h : j.Orderly before n) (hcause : d.cause = .lexical fault)
    (hle : n ≤ d.line) : (j.report d).Orderly before d.line := by
  cases hopen : j.closed with
  | true =>
      rw [Journal.report_of_closed hopen]
      exact h.mono hle
  | false =>
      refine h.added hopen ?_ (.inr ⟨hle, Nat.le_refl _⟩)
      rw [hcause]
      exact nofun

/-- A syntax error at line `n` or one that looks back is not reported on the line of the entry before it. -/
theorem syntactic (h : j.Orderly before n) (hlast : ∀ x ∈ j.entries.back?, x.line ≠ d.line)
    (hplace : d.cause.looksBack = true ∨ d.line = n) : (j.report d).Orderly before n := by
  cases hopen : j.closed with
  | true =>
      rw [Journal.report_of_closed hopen]
      exact h
  | false => exact h.added hopen (fun _ => hlast) (hplace.imp_right fun hline => by omega)

end Journal.Orderly

/-- Nothing in the journal is about syntax. -/
def Journal.IsLexical (j : Journal) : Prop :=
  ∀ d ∈ j.entries.toList, d.cause.phase = .lexical

theorem Journal.IsLexical.report {j : Journal} {d : Diagnostic SourceFault} (h : j.IsLexical)
    (hd : d.cause.phase = .lexical) : (j.report d).IsLexical := by
  cases hopen : j.closed with
  | true =>
      rw [Journal.report_of_closed hopen]
      exact h
  | false =>
      rw [Journal.report_of_open hopen]
      intro x hx
      split at hx
      · rw [Array.toList_push, Array.toList_push, List.mem_append, List.mem_append, List.mem_singleton,
          List.mem_singleton] at hx
        obtain (hx | rfl) | rfl := hx
        · exact h x hx
        · exact hd
        · rfl
      · rw [Array.toList_push, List.mem_append, List.mem_singleton] at hx
        obtain hx | rfl := hx
        · exact h x hx
        · exact hd

/-! ### Entries to come -/

/-- The line of byte `n`. -/
def lineOf (bytes : ByteArray) (n : Nat) : Nat :=
  1 + (lineFeeds bytes n).length

theorem lineOf_le (bytes : ByteArray) {i j : Nat} (h : i ≤ j) : lineOf bytes i ≤ lineOf bytes j := by
  obtain ⟨later, happend, -⟩ := lineFeeds_append bytes h
  rw [lineOf, lineOf, happend, List.length_append]
  omega

/-- Runes without a line feed stay on their line. -/
theorem lineOf_add_widths {bytes : ByteArray} {i : Nat} {rs : List Rune} (hlies : Rune.LiesAt bytes i rs)
    (hfeed : '\n' ∉ Rune.chars rs) : lineOf bytes (i + Rune.widths rs) = lineOf bytes i := by
  induction rs generalizing i with
  | nil => rfl
  | cons r rs ih =>
      obtain ⟨hlt, hdecode, hrest⟩ := hlies
      obtain ⟨hr, hrs⟩ := not_or.1 (mt List.mem_cons.2 hfeed)
      have hfirst : lineOf bytes (i + r.width) = lineOf bytes i := by
        have hno : Rune.decodeAt bytes i ≠ .scalar '\n' := by
          rw [hdecode]
          rintro rfl
          exact hr rfl
        have hfeeds := Rune.lineFeeds_add_width bytes i
        rw [hdecode, if_neg (hdecode ▸ hno), List.append_nil] at hfeeds
        rw [lineOf, hfeeds, lineOf]
      rw [Rune.widths_cons, ← Nat.add_assoc, ih hrest hrs, hfirst]

namespace Item

/-- The lines of the entries to come, and of the end of the text at byte `finish`, rise from line `n` on; comments count
only if they are faulty.  If `held`, because the token before them is a name, then up to the next token nothing is
faulty but on line `n`. -/
def Climbs (line : Nat → Nat) (finish : Nat) : Nat → Bool → List Item → Prop
  | n, _, [] => n ≤ line finish
  | n, held, item :: rest =>
      (item.fault ≠ none → n ≤ line item.start ∧ (held = true → line item.start = n)) ∧
        if item.token = .comment then Climbs line finish (if item.fault = none then n else line item.start) held rest
        else n ≤ line item.start ∧ Climbs line finish (line item.start) (item.token = .lit .ident) rest

end Item

namespace Lexeme

/-- A comment without an end reaches to the end of the text. -/
theorem drop_of_faulty {r : Rune} {rest : List Rune} (hkind : (measure r rest).kind = .token .comment)
    (hfault : (measure r rest).fault ≠ none) : rest.drop (measure r rest).more = [] := by
  obtain ⟨-, heq | ⟨-, heq⟩⟩ := comment_of_measure rfl hkind
  · rw [heq] at hfault
    exact absurd rfl hfault
  · rw [heq] at hfault ⊢
    unfold blockComment at hfault ⊢
    split at hfault
    · exact absurd rfl hfault
    · exact List.drop_length

/-- Only the last lexeme can be a comment without an end. -/
theorem pairwise_split (rs : List Rune) :
    (split rs).Pairwise fun l _ => l.kind = .token .comment → l.fault = none := by
  induction rs using split.induct with
  | case1 =>
      rw [split]
      exact .nil
  | case2 r rest extent ih =>
      rw [split]
      refine .cons (fun k hk hkind => ?_) ih
      by_contra hfault
      rw [drop_of_faulty hkind hfault, split] at hk
      cases hk

theorem kind_number_ne_ident (r : Rune) (rest : List Rune) : (number r rest).kind ≠ .token (.lit .ident) := by
  have hclass {cs : List Char} : Literal.numberClass? cs ≠ some .ident := by
    intro h
    unfold Literal.numberClass? Literal.classify? at h
    dsimp only at h
    repeat' split at h
    all_goals cases h
  unfold number
  dsimp only
  split
  · next c hc => exact fun h => hclass (hc.trans (by injection h with h; injection h with h; rw [h]))
  · exact nofun

theorem kind_operatorOrStray_ne_ident (r : Rune) (rest : List Rune) :
    (operatorOrStray r rest).kind ≠ .token (.lit .ident) := by
  unfold operatorOrStray
  split <;> exact nofun

theorem kind_blockComment_ne_ident (rest : List Rune) : (blockComment rest).kind ≠ .token (.lit .ident) := by
  unfold blockComment
  split <;> exact nofun

theorem kind_rawString_ne_ident (rest : List Rune) : (rawString rest).kind ≠ .token (.lit .ident) := by
  unfold rawString
  split <;> exact nofun

/-- A name is a word. -/
theorem word_of_measure {r : Rune} {rest : List Rune} (hkind : (measure r rest).kind = .token (.lit .ident)) :
    opensWord r.char = true ∧ measure r rest = word r rest := by
  unfold measure at hkind ⊢
  dsimp only at hkind ⊢
  split at hkind
  · cases hkind
  split at hkind
  · cases hkind
  split at hkind
  · next hnewline hblank hword => exact ⟨hword, by rw [if_neg hnewline, if_neg hblank, if_pos hword]⟩
  split at hkind
  · exact absurd hkind (kind_number_ne_ident r rest)
  split at hkind
  · cases hkind
  split at hkind
  · exact absurd hkind (kind_blockComment_ne_ident rest)
  split at hkind
  · cases hkind
  split at hkind
  · exact absurd hkind (kind_rawString_ne_ident rest)
  split at hkind
  · cases hkind
  · exact absurd hkind (kind_operatorOrStray_ne_ident r rest)

/-- A name is on one line. -/
theorem feedless_of_mem_split {rs : List Rune} {l : Lexeme} (h : l ∈ split rs) (hkind : l.kind = .token (.lit .ident)) :
    '\n' ∉ Rune.chars l.runes := by
  induction rs using split.induct with
  | case1 => simp [split] at h
  | case2 r rest extent ih =>
      rw [split] at h
      rcases List.mem_cons.1 h with rfl | h
      · obtain ⟨hopens, heq⟩ := word_of_measure hkind
        have hfeed : continuesWord '\n' = false := continuesWord_eq_false '\n' rfl
        intro hmem
        obtain ⟨x, hx, hchar⟩ := List.mem_map.1 hmem
        have hx' : continuesWord x.char = true := by
          rw [heq] at hx
          rcases List.mem_cons.1 hx with rfl | hx
          · simp [continuesWord, hopens]
          · rw [show rest.take (word r rest).more = rest.takeWhile (continuesWord ·.char) from
              (List.prefix_iff_eq_take.1 (List.takeWhile_prefix _)).symm] at hx
            exact List.all_eq_true.1 List.all_takeWhile x hx
        rw [hchar, hfeed] at hx'
        cases hx'
      · exact ih h

end Lexeme

namespace Item

open Lexeme

variable {bytes : ByteArray} {line line' : Nat → Nat} {finish offset n : Nat} {held : Bool} {last : Token}
  {ls : List Lexeme} {items : List Item}

theorem Climbs.cons_token {item : Item} (hcomment : item.token ≠ .comment) (hn : n ≤ line item.start)
    (hheld : item.fault ≠ none → held = true → line item.start = n)
    (h : Climbs line finish (line item.start) (item.token = .lit .ident) items) :
    Climbs line finish n held (item :: items) :=
  ⟨fun hfault => ⟨hn, hheld hfault⟩, by rw [if_neg hcomment]; exact ⟨hn, h⟩⟩

theorem Climbs.cons_comment {item : Item} (hcomment : item.token = .comment) (hfault : item.fault = none)
    (h : Climbs line finish n held items) : Climbs line finish n held (item :: items) :=
  ⟨fun hfaulty => absurd hfault hfaulty, by rw [if_pos hcomment, if_pos hfault]; exact h⟩

theorem Climbs.cons_faulty {item : Item} (hcomment : item.token = .comment) (hfault : item.fault ≠ none)
    (hn : n ≤ line item.start) (hheld : held = true → line item.start = n)
    (h : Climbs line finish (line item.start) held items) : Climbs line finish n held (item :: items) :=
  ⟨fun _ => ⟨hn, hheld⟩, by rw [if_pos hcomment, if_neg hfault]; exact h⟩

theorem Climbs.congr (h : Climbs line finish n held items) (hfinish : line' finish = line finish)
    (hitems : ∀ item ∈ items, line' item.start = line item.start) : Climbs line' finish n held items := by
  induction items generalizing n held with
  | nil =>
      rw [Climbs, hfinish]
      exact h
  | cons item items ih =>
      have hrest {n : Nat} {held : Bool} (h : Climbs line finish n held items) : Climbs line' finish n held items :=
        ih h fun x hx => hitems x (List.mem_cons_of_mem _ hx)
      rw [Climbs, hitems item List.mem_cons_self]
      rw [Climbs] at h
      refine ⟨h.1, ?_⟩
      split
      · next hcomment => exact hrest (by simpa only [if_pos hcomment] using h.2)
      · next hcomment =>
          have hlater := h.2
          rw [if_neg hcomment] at hlater
          exact ⟨hlater.1, hrest hlater.2⟩

/-- A comment that gives no line end and is not faulty is on one line. -/
theorem feedless_of_commentLineEnd? {l : Lexeme} (hend : commentLineEnd? .comment l = none) (hfault : l.fault = none) :
    '\n' ∉ Rune.chars l.runes := by
  rw [commentLineEnd?, if_pos ⟨rfl, hfault⟩, Lexeme.lineEnd?] at hend
  intro hmem
  obtain ⟨r, hr, hchar⟩ := List.mem_map.1 hmem
  rw [if_pos (List.any_eq_true.2 ⟨r, hr, by simp [hchar]⟩)] at hend
  cases hend

/-- From a comment on the entries climb, if those after it do. -/
theorem climbs_ofLexemes_comment {l : Lexeme} (hl : l.Cut) (hkind : l.kind = .token .comment)
    (hends : l.fault ≠ none → ls = []) (hhere : Rune.LiesAt bytes offset l.runes)
    (hfinish : offset + Rune.widths l.runes + extent ls ≤ finish) (hn : n ≤ lineOf bytes offset)
    (hheld : last = .lit .ident → lineOf bytes offset = n)
    (hrest : ∀ {last : Token} {n : Nat}, n ≤ lineOf bytes (offset + Rune.widths l.runes) →
      (last = .lit .ident → lineOf bytes (offset + Rune.widths l.runes) = n) →
        Climbs (lineOf bytes) finish n (last = .lit .ident) (ofLexemes (offset + Rune.widths l.runes) last ls)) :
    Climbs (lineOf bytes) finish n (last = .lit .ident) (ofLexemes offset last (l :: ls)) := by
  have hnext : lineOf bytes offset ≤ lineOf bytes (offset + Rune.widths l.runes) :=
    lineOf_le bytes (Nat.le_add_right _ _)
  by_cases hbreak : last.endsStatement = true ∧ commentLineEnd? .comment l ≠ none
  · -- The comment holds a line end, which is put in before it.
    obtain ⟨hstop, hsome⟩ := hbreak
    obtain ⟨k, hk⟩ := Option.ne_none_iff_exists'.1 hsome
    have hfault : l.fault = none := by
      by_contra hfault
      exact hsome (if_neg fun h => hfault h.2)
    have hinside : offset + k ≤ offset + Rune.widths l.runes := by
      rw [commentLineEnd?_eq hkind hl] at hk
      split at hk
      · obtain rfl := Option.some.inj hk
        exact Nat.add_le_add_left (Rune.widths_takeWhile_le _ _) _
      · cases hk
    rw [ofLexemes_block _ _ _ hkind hstop hk]
    refine .cons_token nofun (Nat.le_trans hn (lineOf_le bytes (Nat.le_add_right _ _)))
      (fun h => absurd rfl h) (.cons_comment rfl hfault ?_)
    exact hrest (lineOf_le bytes hinside) nofun
  · have hgap : last.endsStatement = false ∨ commentLineEnd? .comment l = none := by
      rw [not_and_or, Bool.not_eq_true, not_not] at hbreak
      exact hbreak
    rw [ofLexemes_comment _ _ _ hkind hgap]
    by_cases hfault : l.fault = none
    · refine .cons_comment rfl hfault (hrest (Nat.le_trans hn hnext) fun h => ?_)
      have hend := hgap.resolve_left (by rw [h]; exact nofun)
      exact (lineOf_add_widths hhere (feedless_of_commentLineEnd? hend hfault)).trans (hheld h)
    · obtain rfl := hends hfault
      refine .cons_faulty rfl hfault hn (fun h => hheld (of_decide_eq_true h)) ?_
      exact lineOf_le bytes (Nat.le_trans (Nat.le_add_right _ _) (Nat.le_trans (Nat.le_add_right _ _) hfinish))

/-- The entries of a text climb. -/
theorem climbs_ofLexemes (hls : ∀ l ∈ ls, l.Cut ∧ (l.kind = .token (.lit .ident) → '\n' ∉ Rune.chars l.runes))
    (hends : ls.Pairwise fun l _ => l.kind = .token .comment → l.fault = none)
    (hlies : Rune.LiesAt bytes offset (ls.flatMap runes)) (hfinish : offset + extent ls ≤ finish)
    (hn : n ≤ lineOf bytes offset) (hheld : last = .lit .ident → lineOf bytes offset = n) :
    Climbs (lineOf bytes) finish n (last = .lit .ident) (ofLexemes offset last ls) := by
  induction ls generalizing offset last n with
  | nil => exact Nat.le_trans hn (lineOf_le bytes (Nat.le_trans (Nat.le_add_right _ _) hfinish))
  | cons l ls ih =>
      obtain ⟨hl, hident⟩ := hls l List.mem_cons_self
      rw [List.flatMap_cons] at hlies
      obtain ⟨hhere, hthere⟩ := hlies.append
      rw [extent_cons, ← Nat.add_assoc] at hfinish
      obtain ⟨hlast, hends⟩ := List.pairwise_cons.1 hends
      have hnext : lineOf bytes offset ≤ lineOf bytes (offset + Rune.widths l.runes) :=
        lineOf_le bytes (Nat.le_add_right _ _)
      have hrest {last : Token} {n : Nat} (hn : n ≤ lineOf bytes (offset + Rune.widths l.runes))
          (hheld : last = .lit .ident → lineOf bytes (offset + Rune.widths l.runes) = n) :
          Climbs (lineOf bytes) finish n (last = .lit .ident) (ofLexemes (offset + Rune.widths l.runes) last ls) :=
        ih (fun k hk => hls k (List.mem_cons_of_mem _ hk)) hends hthere hfinish hn hheld
      have hquiet (hfeed : '\n' ∉ Rune.chars l.runes) :
          lineOf bytes (offset + Rune.widths l.runes) = lineOf bytes offset := lineOf_add_widths hhere hfeed
      cases hkind : l.kind with
      | blank =>
          have hblank : ∀ r ∈ l.runes, isBlank r.char = true := by
            have hspells := hl.spells
            rw [hkind] at hspells
            exact hspells
          have hfeed : '\n' ∉ Rune.chars l.runes := by
            intro hmem
            obtain ⟨r, hr, hchar⟩ := List.mem_map.1 hmem
            have hno := hblank r hr
            rw [hchar] at hno
            exact absurd hno (by decide)
          rw [ofLexemes_blank _ _ _ hkind]
          exact hrest (Nat.le_trans hn hnext) fun h => (hquiet hfeed).trans (hheld h)
      | newline =>
          cases hstop : last.endsStatement with
          | true =>
              rw [ofLexemes_newline _ _ _ hkind hstop]
              exact .cons_token nofun hn (fun h => absurd rfl h) (hrest hnext nofun)
          | false =>
              rw [ofLexemes_newline_of_false _ _ _ hkind hstop]
              refine hrest (Nat.le_trans hn hnext) fun h => ?_
              rw [h] at hstop
              cases hstop
      | token token =>
          by_cases hcomment : token = .comment
          · subst hcomment
            refine climbs_ofLexemes_comment hl hkind (fun hfault => ?_) hhere hfinish hn hheld hrest
            exact List.eq_nil_iff_forall_not_mem.2 fun k hk => hfault (hlast k hk hkind)
          · rw [ofLexemes_token _ _ _ hkind hcomment]
            exact .cons_token hcomment hn (fun _ h => hheld (of_decide_eq_true h))
              (hrest hnext fun h => hquiet (hident (h ▸ hkind)))

end Item

/-! ### Scanners -/

namespace Reader

variable {r : Reader}

/-- What is read lies where it was read, wherever reading stops. -/
theorem liesAt_drain (r : Reader) : Rune.LiesAt r.bytes r.cursor r.drain.1 := by
  fun_induction drain r with
  | case1 r hclosed => trivial
  | case2 r hclosed hcursor rune r' htake hless runes last hdrain ih =>
      obtain rfl : r.take.2 = r' := by rw [htake]
      have hrune : Rune.decodeAt r.bytes r.cursor = rune := by rw [← fst_take, htake]
      rw [hdrain, bytes_take, cursor_take, hrune] at ih
      exact ⟨hcursor, hrune, ih⟩
  | case3 r hclosed hcursor => trivial

theorem liesAt_readText (hcursor : r.cursor = 0) : Rune.LiesAt r.bytes r.readText.1.1 r.readText.1.2 := by
  have hlies := r.liesAt_drain
  rw [hcursor] at hlies
  unfold readText
  split
  · next c runes r' hdrain =>
      rw [hdrain] at hlies
      split
      · next hbom =>
          obtain ⟨-, -, hrest⟩ := hlies
          rw [Nat.zero_add] at hrest
          exact hrest
      · exact hlies
  · next runes r' hdrain =>
      rw [hdrain] at hlies
      exact hlies

theorem isLexical_take (h : r.journal.IsLexical) : r.take.2.journal.IsLexical := by
  unfold take
  dsimp only
  split
  · exact h.report rfl
  · split <;> exact h

/-- Reading a text reports nothing about syntax. -/
theorem isLexical_drain (h : r.journal.IsLexical) : r.drain.2.journal.IsLexical := by
  fun_induction drain r with
  | case1 r hclosed => exact h
  | case2 r hclosed hcursor rune r' htaken hless runes last hdrain ih =>
      obtain rfl : r.take.2 = r' := by rw [htaken]
      rw [hdrain] at ih
      exact ih (isLexical_take h)
  | case3 r hclosed hcursor => exact h

end Reader

namespace Scanner

/-- The line of a position in the file. -/
def lineAt (s : Scanner) (pos : Pos) : Nat :=
  (s.file.position pos).line

/-- The entries to come climb from line `n` on. -/
def Climbs (s : Scanner) (n : Nat) (held : Bool) : Prop :=
  Item.Climbs (fun k => s.lineAt (s.file.pos k)) s.finish n held s.stream.items

/-- The entries of a file climb from its start on. -/
theorem climbs_start {r : Reader} (hcursor : r.cursor = 0) (hlines : r.file.laterLines = #[])
    (hsize : r.file.size = some r.bytes.size) (hfits : r.file.base + r.bytes.size < Pos.limit) :
    (start r).Climbs 0 false := by
  have hplaced := placed_start hcursor hlines hsize
  have hline {n : Nat} (hn : n ≤ r.drain.2.cursor) :
      (start r).lineAt ((start r).file.pos n) = lineOf r.bytes n := by
    have hposition := SourceFile.position_eq_counted (by rw [hplaced.table_eq, hplaced.base_eq]) hplaced.size_eq hn
      hplaced.reached_le (by rw [hplaced.base_eq]; exact hfits)
    rw [lineAt, hposition]
    rfl
  have hclimbs : Item.Climbs (lineOf r.bytes) (start r).finish 0 false (start r).stream.items := by
    have hfinish : (start r).finish =
        if r.readText.1.2.isEmpty then 0 else r.readText.1.1 + Rune.widths r.readText.1.2 := rfl
    rw [items_start]
    by_cases hempty : r.readText.1.2 = []
    · rw [hempty, Lexeme.split]
      exact Nat.zero_le _
    · show Item.Climbs _ _ 0 (decide (Token.illegal = .lit .ident)) _
      refine Item.climbs_ofLexemes (fun l hl => ⟨Lexeme.cut_of_mem_split hl, Lexeme.feedless_of_mem_split hl⟩)
        (Lexeme.pairwise_split _) ?_ ?_ (Nat.zero_le _) (by simp)
      · rw [Lexeme.flatMap_runes_split]
        exact Reader.liesAt_readText hcursor
      · rw [Item.extent, Lexeme.flatMap_runes_split, hfinish, if_neg (by simpa using hempty)]
  exact hclimbs.congr (hline hplaced.finish_le) fun item hitem => hline (hplaced.start_le item hitem)

variable {before : List (Diagnostic SourceFault)} {s : Scanner} {n m : Nat} {held : Bool} {t : Scanned}

/-- The token `t` was handed out after line `n`. -/
structure Issued (before : List (Diagnostic SourceFault)) (n : Nat) (held : Bool) (t : Scanned) (s : Scanner) : Prop where
  le : n ≤ s.lineAt t.pos
  orderly : s.journal.Orderly before (s.lineAt t.pos)
  held : held = true → s.journal.Orderly before n
  climbs : s.Climbs (s.lineAt t.pos) (t.token = .lit .ident)

theorem Issued.from (h : Issued before m held t s) (hle : n ≤ m) (heq : held = true → m = n) :
    Issued before n held t s where
  le := Nat.le_trans hle h.le
  orderly := h.orderly
  held hheld := heq hheld ▸ h.held hheld
  climbs := h.climbs

/-- The fault of an entry is reported on the entry's line. -/
theorem orderly_reportFault {item : Item} (h : s.journal.Orderly before n)
    (hplace : item.fault ≠ none → n ≤ s.lineAt (s.file.pos item.start)) :
    (s.reportFault item).journal.Orderly before
      (if item.fault = none then n else s.lineAt (s.file.pos item.start)) := by
  unfold reportFault
  split
  · next fault hfault =>
      rw [if_neg (by simp [hfault])]
      exact h.lexical rfl (hplace (by simp [hfault]))
  · next hfault =>
      rw [if_pos hfault]
      exact h

theorem lineAt_deliver (s : Scanner) (item : Item) (rest : TokenStream) :
    (s.deliver item rest).2.lineAt = s.lineAt := by
  funext pos
  rw [lineAt, file_deliver, lineAt]

theorem lineAt_scanPast (s : Scanner) (comments : List String) : (s.scanPast comments).2.lineAt = s.lineAt := by
  funext pos
  rw [lineAt, file_scanPast, lineAt]

/-- After an entry, the entries after it climb. -/
theorem climbs_deliver {item : Item} {rest : TokenStream}
    (h : Item.Climbs (fun k => s.lineAt (s.file.pos k)) s.finish n held rest.items) :
    (s.deliver item rest).2.Climbs n held := by
  have hfinish : (s.reportFault item).finish = s.finish := by
    unfold reportFault
    split <;> rfl
  rw [Climbs, lineAt_deliver, file_deliver]
  show Item.Climbs _ (s.reportFault item).finish n held rest.items
  rw [hfinish]
  exact h

/-- The next token that is no comment, with the faults of the comments before it and its own. -/
theorem issued_scanPast (s : Scanner) (comments : List String) :
    ∀ n, s.Climbs n held → s.journal.Orderly before n →
      Issued before n held (s.scanPast comments).1.1 (s.scanPast comments).2 := by
  fun_induction scanPast s comments with
  | case1 s comments item rest hpop delivered hcomment ih =>
      intro n hclimbs h
      rw [Climbs, TokenStream.items_pop? hpop, Item.Climbs, if_pos (show item.token = .comment from hcomment)] at hclimbs
      obtain ⟨hplace, hlater⟩ := hclimbs
      have hreported := orderly_reportFault h fun hfault => (hplace hfault).1
      refine (ih _ (climbs_deliver hlater) hreported).from ?_ ?_
      · split
        · exact Nat.le_refl n
        · next hfault => exact (hplace hfault).1
      · intro hheld
        split
        · rfl
        · next hfault => exact (hplace hfault).2 hheld
  | case2 s comments item rest hpop delivered hcomment =>
      intro n hclimbs h
      rw [Climbs, TokenStream.items_pop? hpop, Item.Climbs, if_neg (show item.token ≠ .comment from hcomment)] at hclimbs
      obtain ⟨hplace, hle, hlater⟩ := hclimbs
      have hreported := orderly_reportFault h fun hfault => (hplace hfault).1
      have hline : delivered.2.lineAt delivered.1.pos = s.lineAt (s.file.pos item.start) :=
        congrFun (s.lineAt_deliver item rest) _
      refine ⟨?_, ?_, fun hheld => ?_, ?_⟩
      · rw [hline]
        exact hle
      · rw [hline]
        refine Journal.Orderly.mono hreported ?_
        split
        · exact hle
        · exact Nat.le_refl _
      · refine Journal.Orderly.mono hreported ?_
        split
        · exact Nat.le_refl _
        · next hfault => exact Nat.le_of_eq ((hplace hfault).2 hheld)
      · rw [hline]
        exact climbs_deliver hlater
  | case3 s comments hpop token s' heq =>
      intro n hclimbs h
      obtain ⟨rfl, rfl⟩ := Prod.mk.inj heq
      rw [Climbs, TokenStream.items_eq_nil_of_pop? hpop] at hclimbs
      refine ⟨hclimbs, h.mono hclimbs, fun _ => h, ?_⟩
      show Item.Climbs _ _ _ _ s.stream.items
      rw [TokenStream.items_eq_nil_of_pop? hpop]
      exact Nat.le_refl _

end Scanner

/-! ### Parsers -/

namespace Parser

variable {before : List (Diagnostic SourceFault)} {p : Parser}

/-- The line of an atom. -/
def lineOf (p : Parser) (a : Atom) : Nat :=
  p.scanner.lineAt a.pos

/-- What was reported is spaced and rises to the line of the current token, and the tokens to come climb from there. -/
structure Paced (before : List (Diagnostic SourceFault)) (p : Parser) : Prop where
  orderly : p.journal.Orderly before (p.lineOf p.curr)
  next : p.ahead = none → p.scanner.Climbs (p.lineOf p.curr) (p.curr.token = .lit .ident)
  ahead : ∀ a, p.ahead = some a → p.lineOf p.curr ≤ p.lineOf a ∧
    p.scanner.Climbs (p.lineOf a) (a.token = .lit .ident)

namespace Paced

/-- Going on to the next token. -/
theorem advance (h : p.Paced before) : p.advance.Paced before := by
  cases hahead : p.ahead with
  | some a =>
      obtain ⟨hle, hclimbs⟩ := h.ahead a hahead
      rw [advance_of_some hahead]
      exact ⟨h.orderly.mono hle, fun _ => hclimbs, fun _ hb => absurd hb.symm (Option.some_ne_none _)⟩
  | none =>
      have hissued := p.scanner.issued_scanPast [] _ (h.next hahead) h.orderly
      rw [advance_of_none hahead]
      refine ⟨hissued.orderly, fun _ => hissued.climbs, fun a ha => ?_⟩
      exact absurd (hahead.symm.trans ha) nofun

/-- Looking at the token after a name. -/
theorem peek (h : p.Paced before) (hident : p.curr.token = .lit .ident) :
    (p.advance.putBack p.curr).Paced before := by
  cases hahead : p.ahead with
  | some a =>
      rw [advance_of_some hahead]
      exact ⟨h.orderly, nofun, fun b hb => h.ahead b (hahead.trans hb)⟩
  | none =>
      have hissued := p.scanner.issued_scanPast [] _ (h.next hahead) h.orderly
      have hline : (p.scanner.scanPast []).2.lineAt p.curr.pos = p.lineOf p.curr :=
        congrFun (p.scanner.lineAt_scanPast []) _
      rw [advance_of_none hahead]
      refine ⟨?_, nofun, ?_⟩
      · show Journal.Orderly before _ ((p.scanner.scanPast []).2.lineAt p.curr.pos)
        rw [hline]
        exact hissued.held (decide_eq_true hident)
      · rintro _ ⟨rfl⟩
        refine ⟨?_, hissued.climbs⟩
        show (p.scanner.scanPast []).2.lineAt p.curr.pos ≤ _
        rw [hline]
        exact hissued.le

/-- A complaint about the current token, or one that looks back. -/
theorem complain (h : p.Paced before) {pos : Pos} {fault : SyntaxFault}
    (hplace : pos = p.curr.pos ∨ Grammar.looksBack fault = true) :
    (p.complain (p.diagnose pos fault)).Paced before := by
  unfold Parser.complain
  split
  · exact h
  · next hline =>
      refine ⟨h.orderly.syntactic (fun x hx heq => hline ?_) ?_, h.next, h.ahead⟩
      · rw [lastEntryOnLine, Option.any_eq_true]
        exact ⟨x, hx, beq_iff_eq.2 heq⟩
      · rcases hplace with rfl | hback
        · exact .inr rfl
        · exact .inl hback

/-- What a parser keeps in every step. -/
theorem move {x y : Grammar.Stack × Parser} (hmove : Grammar.Move x y) (h : x.2.Paced before) : y.2.Paced before := by
  cases hmove with
  | complain pos fault hplace => exact h.complain hplace
  | pass | lose | take => exact h.advance
  | peek hident => exact h.peek hident
  | uncomment | composite | leaf | node | bad | reorder | drop => exact ⟨h.orderly, h.next, h.ahead⟩

theorem moves {x y : Grammar.Stack × Parser} (hmoves : Grammar.Moves x y) (h : x.2.Paced before) :
    y.2.Paced before := by
  induction hmoves with
  | refl => exact h
  | tail _ hmove ih => exact ih.move hmove

end Paced

/-- Where the line table of a file is filled, parsing can start. -/
theorem paced_restart (hclimbs : p.scanner.Climbs 0 false) : p.restart.Paced p.journal.entries.toList := by
  refine Paced.advance ⟨⟨[], (List.append_nil _).symm, .nil, fun _ => .nil _⟩, fun _ => hclimbs, fun _ ha => ?_⟩
  exact absurd ha.symm (Option.some_ne_none _)

/-- At most one syntax error a line, unless one looks back.  Whatever the bytes of a file, the mode, the budget and the
calls to the parser are, no syntax error is reported on the line of the report before it; and where two are on one line,
one of the two or a report between them looks back: it says that a declaration is missing, at an item that was parsed
already, or that there is a comma too many, at the operator after the names of a range clause. -/
theorem errors_spaced (name : String) (base : Nat) (source : ByteSource) (mode : Mode) (budget : Nat)
    (calls : List Call) (hfits : base + source.bytes.size < Pos.limit) :
    Spaced (((({} : Parser).setBudget budget).init { name, base } source mode).after calls).journal.entries.toList := by
  generalize hr : (({} : Reader).setBudget budget).init { name, base } source = r
  have hscanner : (({} : Parser).setBudget budget).scanner.init { name, base } source = Scanner.start r := by
    rw [Scanner.init, reader_setBudget_blank, hr]
  have hclimbs : (Scanner.start r).Climbs 0 false := by
    subst hr
    exact Scanner.climbs_start rfl rfl rfl hfits
  have hearlier : (Scanner.start r).journal.IsLexical := by
    rw [Scanner.journal_start, Reader.readText_snd]
    refine Reader.isLexical_drain fun d hd => ?_
    subst hr
    cases hfailure : source.failure with
    | none => simp [Reader.init, Reader.setBudget, Journal.openFile, hfailure] at hd
    | some reason =>
        obtain rfl : d = _ := by simpa [Reader.init, Reader.setBudget, Journal.openFile, hfailure] using hd
        rfl
  have hpaced : ((({} : Parser).setBudget budget).init { name, base } source mode).Paced
      (Scanner.start r).journal.entries.toList := by
    rw [init, hscanner]
    exact paced_restart (p := { ({} : Parser).setBudget budget with scanner := Scanner.start r, mode }) hclimbs
  obtain ⟨st, hmoves⟩ := Grammar.moves_after [] ((({} : Parser).setBudget budget).init { name, base } source mode) calls
  obtain ⟨reports, hentries, hspaced, -⟩ := (hpaced.moves hmoves).orderly
  rw [hentries]
  exact hspaced.prepend hearlier

theorem errors_spaced_block :
    let source : ByteSource := { bytes := "package p\n\x7b\n) \x7d; x\n".toUTF8 }
    0 + source.bytes.size < Pos.limit ∧
    Spaced (((({} : Parser).setBudget 8).init { name := "f" } source {}).after
      [.parseFile]).journal.entries.toList := by
  have hfits : 0 + ("package p\n\x7b\n) \x7d; x\n".toUTF8).size < Pos.limit := by decide +kernel
  exact ⟨hfits, errors_spaced "f" 0 { bytes := "package p\n\x7b\n) \x7d; x\n".toUTF8 } {} 8 [.parseFile] hfits⟩

/-- Two syntax errors on line 3.  A block stands where a declaration is expected.  What is wrong inside of it is reported
first, then the block at its start, and then the statement after it. -/
theorem syntax_errors_share_line :
    let source : ByteSource := { bytes := "package p\n\x7b\n) \x7d; x\n".toUTF8 }
    let q := (({} : Parser).init {} source {}).parseFile.2
    q.journal.entries.toList.map (fun d => (d.cause, d.line)) =
      [(.syntactic .expectingStmt, 3), (.syntactic .expectingDecl, 2), (.syntactic .expectingDecl, 3)] := by
  decide +kernel

end Parser

end GoSource
