import GoSource.Grammar.State
import Mathlib.Logic.Relation

/-!
# The tokens still to be read

A parser looks at one token, may have put one back, and has the rest of the stream before it.  What it will
read is one sequence of tokens, whatever the lookahead looks like.

* **`Parser.upcoming`** is that sequence, without comments and without the end of the text; `Parser.left` is
  its length.
* **`looked_append_upcoming_advance`**: going on takes the token looked at off, and nothing at the end of the text.
* **`upcoming_peek`**: going on and putting the token back changes nothing.
* **`Reader.Reports`**: going on does nothing to the reader but reports about its file.
* **`Journal.Clean`**: nothing was ever reported.  Reports are never taken back while parsing.
-/

namespace GoSource

/-- Nothing was reported.  A closed journal was full once. -/
def Journal.Clean (j : Journal) : Prop :=
  j.closed = false ∧ j.entries = #[]

theorem Journal.not_clean_report (j : Journal) (d : Diagnostic SourceFault) : ¬ (j.report d).Clean := by
  unfold Journal.report
  rintro ⟨hopen, hempty⟩
  by_cases hclosed : j.closed = true
  · rw [if_pos hclosed] at hopen
    exact absurd hopen (by simp [hclosed])
  · rw [if_neg hclosed] at hempty
    dsimp only at hempty
    split at hempty <;> simp at hempty

/-! ### Reports -/

namespace Reader

/-- Any number of reports about the file of a reader. -/
abbrev Reports : Reader → Reader → Prop :=
  Relation.ReflTransGen fun r r' => ∃ pos cause, r' = r.report pos cause

namespace Reports

variable {r r' : Reader}

/-- What a report keeps, any number of them keep. -/
theorem keeps {P : Reader → Prop} (h : r.Reports r') (hreport : ∀ r pos cause, P r → P (r.report pos cause))
    (hr : P r) : P r' := by
  induction h with
  | refl => exact hr
  | tail _ hstep ih =>
      obtain ⟨pos, cause, rfl⟩ := hstep
      exact hreport _ pos cause ih

theorem clean (h : r.Reports r') (hclean : r'.journal.Clean) : r.journal.Clean :=
  h.keeps (P := fun last => last.journal.Clean → r.journal.Clean)
    (fun _ _ _ _ hreported => absurd hreported (Journal.not_clean_report _ _)) id hclean

end Reports

end Reader

namespace Scanner

theorem reports_deliver (s : Scanner) (item : Item) (rest : TokenStream) :
    s.reader.Reports (s.deliver item rest).2.reader := by
  show s.reader.Reports (s.reportFault item).reader
  unfold reportFault
  split
  · exact .single ⟨_, _, rfl⟩
  · exact .refl

theorem reports_scanPast (s : Scanner) (comments : List String) :
    s.reader.Reports (s.scanPast comments).2.reader := by
  fun_induction scanPast s comments with
  | case1 s comments item rest hpop delivered hc ih => exact (s.reports_deliver item rest).trans ih
  | case2 s comments item rest hpop delivered hc => exact s.reports_deliver item rest
  | case3 s comments hpop token s' heq =>
      obtain ⟨rfl, rfl⟩ := Prod.mk.inj heq
      exact .refl

end Scanner

/-! ### Tokens to come -/

namespace Scanner

/-- The tokens that a scanner will hand out, comments and the end of the text left out. -/
def upcoming (s : Scanner) : List Scanned :=
  (s.stream.items.filter (·.token ≠ .comment)).map s.place

@[simp] theorem file_report (s : Scanner) (d : Diagnostic SourceFault) : (s.report d).file = s.file := rfl

@[simp] theorem stream_report (s : Scanner) (d : Diagnostic SourceFault) :
    (s.report d).stream = s.stream := rfl

@[simp] theorem file_reportFault (s : Scanner) (item : Item) : (s.reportFault item).file = s.file := by
  unfold reportFault
  split <;> rfl

@[simp] theorem file_deliver (s : Scanner) (item : Item) (rest : TokenStream) :
    (s.deliver item rest).2.file = s.file :=
  s.file_reportFault item

theorem place_congr {s s' : Scanner} (h : s'.file = s.file) : s'.place = s.place := by
  funext item
  simp only [place, h]

theorem upcoming_pop?_none {s : Scanner} (h : s.stream.pop? = none) : s.upcoming = [] := by
  rw [upcoming, TokenStream.items_eq_nil_of_pop? h]
  rfl

theorem upcoming_deliver {s : Scanner} {item : Item} {rest : TokenStream}
    (h : s.stream.pop? = some (item, rest)) :
    s.upcoming =
      (if item.token = .comment then [] else [s.place item]) ++ (s.deliver item rest).2.upcoming := by
  have hplace : (s.deliver item rest).2.place = s.place := place_congr (s.file_deliver item rest)
  rw [upcoming, upcoming, hplace, TokenStream.items_pop? h]
  show _ = _ ++ (rest.items.filter _).map s.place
  by_cases hc : item.token = .comment
  · simp [hc]
  · simp [hc]

/-- A token that is handed out is no end of the text. -/
theorem token_place_ne_eof {s : Scanner} {item : Item} {rest : TokenStream}
    (h : s.stream.pop? = some (item, rest)) : (s.place item).token ≠ .eof :=
  s.stream.token_ne_eof item (TokenStream.items_pop? h ▸ List.mem_cons_self)

@[simp] theorem file_scanPast (s : Scanner) (comments : List String) :
    (s.scanPast comments).2.file = s.file := by
  fun_induction scanPast s comments with
  | case1 s comments item rest h delivered hc ih => exact ih.trans (s.file_deliver item rest)
  | case2 s comments item rest h delivered hc => exact s.file_deliver item rest
  | case3 s comments h token s' heq =>
      obtain ⟨rfl, rfl⟩ := Prod.mk.inj heq
      rfl

/-- The next token that is no comment comes off the front of what is upcoming. -/
theorem upcoming_scanPast (s : Scanner) (comments : List String) :
    s.upcoming =
      (if (s.scanPast comments).1.1.token = .eof then [] else [(s.scanPast comments).1.1])
        ++ (s.scanPast comments).2.upcoming := by
  fun_induction scanPast s comments with
  | case1 s comments item rest h delivered hc ih =>
      rw [← ih, upcoming_deliver h]
      have hcomment : item.token = .comment := hc
      simp [hcomment, delivered]
  | case2 s comments item rest h delivered hc =>
      have hcomment : item.token ≠ .comment := hc
      have heof : delivered.1.token ≠ .eof := token_place_ne_eof h
      rw [upcoming_deliver h, if_neg hcomment, if_neg heof]
      rfl
  | case3 s comments h token s' heq =>
      obtain ⟨rfl, rfl⟩ := Prod.mk.inj heq
      rfl

theorem clean_of_clean_deliver {s : Scanner} {item : Item} {rest : TokenStream}
    (h : (s.deliver item rest).2.journal.Clean) : s.journal.Clean :=
  (s.reports_deliver item rest).clean h

end Scanner

/-- An atom as the token that was handed out. -/
def Atom.scanned (a : Atom) : Scanned :=
  { token := a.token, literal := a.literal, pos := a.pos, stop := a.stop }

namespace Parser

/-- A token looked at, unless it is the end of the text. -/
def looked (a : Atom) : List Scanned :=
  if a.token = .eof then [] else [a.scanned]

/-- The tokens still to be read, in order. -/
def upcoming (p : Parser) : List Scanned :=
  looked p.curr ++ (p.ahead.elim [] looked ++ p.scanner.upcoming)

theorem length_looked (a : Atom) : (looked a).length = if a.token = .eof then 0 else 1 := by
  unfold looked
  split <;> rfl

/-- `left` counts what is upcoming. -/
theorem length_upcoming (p : Parser) : p.upcoming.length = p.left := by
  have hstream : p.scanner.upcoming.length = p.scanner.stream.count := by
    rw [Scanner.upcoming, List.length_map, ← List.countP_eq_length_filter, p.scanner.stream.count_eq]
  cases hahead : p.ahead with
  | none =>
      simp only [upcoming, left, hahead, Option.elim, List.length_append, List.length_nil, hstream,
        length_looked]
      omega
  | some a =>
      simp only [upcoming, left, hahead, Option.elim, List.length_append, hstream, length_looked]
      omega

theorem advance_of_some {p : Parser} {a : Atom} (h : p.ahead = some a) :
    p.advance = { p with curr := a, ahead := none } := by
  unfold advance
  rw [h]

theorem advance_of_none {p : Parser} (h : p.ahead = none) :
    p.advance =
      { p with
          scanner := (p.scanner.scanPast []).2
          curr :=
            { token := (p.scanner.scanPast []).1.1.token
              pos := (p.scanner.scanPast []).1.1.pos
              stop := (p.scanner.scanPast []).1.1.stop
              literal := (p.scanner.scanPast []).1.1.literal
              comments := if p.mode.comments then (p.scanner.scanPast []).1.2 else [] } } := by
  unfold advance
  rw [h]

theorem looked_append_upcoming_advance (p : Parser) :
    looked p.curr ++ p.advance.upcoming = p.upcoming := by
  cases hahead : p.ahead with
  | some a =>
      rw [advance_of_some hahead]
      simp [upcoming, hahead]
  | none =>
      rw [advance_of_none hahead]
      simp only [upcoming, hahead, Option.elim]
      rw [Scanner.upcoming_scanPast p.scanner []]
      rfl

theorem upcoming_advance_suffix (p : Parser) : p.advance.upcoming <:+ p.upcoming :=
  ⟨looked p.curr, looked_append_upcoming_advance p⟩

theorem left_advance_lt {p : Parser} (h : p.curr.token ≠ .eof) : p.advance.left < p.left := by
  rw [← length_upcoming, ← length_upcoming, ← looked_append_upcoming_advance p, looked, if_neg h]
  exact Nat.lt_succ_self _

@[simp] theorem ahead_advance (p : Parser) : p.advance.ahead = none := by
  cases hahead : p.ahead with
  | some a => rw [advance_of_some hahead]
  | none => rw [advance_of_none hahead]; exact hahead

@[simp] theorem mode_advance (p : Parser) : p.advance.mode = p.mode := by
  cases hahead : p.ahead with
  | some a => rw [advance_of_some hahead]
  | none => rw [advance_of_none hahead]

@[simp] theorem tree_advance (p : Parser) : p.advance.tree = p.tree := by
  cases hahead : p.ahead with
  | some a => rw [advance_of_some hahead]
  | none => rw [advance_of_none hahead]

/-- Going on and putting the token back changes nothing about what is upcoming. -/
theorem upcoming_peek (p : Parser) : (p.advance.putBack p.curr).upcoming = p.upcoming := by
  rw [← looked_append_upcoming_advance p]
  simp [upcoming, putBack]

/-- The first upcoming token is the current one. -/
theorem upcoming_eq_cons {p : Parser} (h : p.curr.token ≠ .eof) :
    p.upcoming = p.curr.scanned :: p.advance.upcoming := by
  rw [← looked_append_upcoming_advance p, looked, if_neg h]
  rfl

/-- Going on forgets the current token. -/
theorem advance_with_curr (p : Parser) (a : Atom) : { p with curr := a }.advance = p.advance := by
  unfold advance
  cases p.ahead <;> rfl

theorem reports_advance (p : Parser) : p.scanner.reader.Reports p.advance.scanner.reader := by
  cases hahead : p.ahead with
  | some a =>
      rw [advance_of_some hahead]
  | none =>
      rw [advance_of_none hahead]
      exact p.scanner.reports_scanPast []

theorem reports_complain (p : Parser) (pos : Pos) (fault : SyntaxFault) :
    p.scanner.reader.Reports (p.complain (p.diagnose pos fault)).scanner.reader := by
  unfold complain
  split
  · exact .refl
  · exact .single ⟨pos, .syntactic fault, rfl⟩

theorem clean_of_clean_advance {p : Parser} (h : p.advance.journal.Clean) : p.journal.Clean :=
  p.reports_advance.clean h

/-- A complaint is never lost: it is reported, or one on the same line was. -/
theorem not_clean_complain (p : Parser) (d : Diagnostic SourceFault) : ¬ (p.complain d).journal.Clean := by
  unfold complain
  split
  · rename_i hline
    rintro ⟨-, hempty⟩
    simp [lastEntryOnLine, hempty] at hline
  · exact Journal.not_clean_report _ _

end Parser

end GoSource
