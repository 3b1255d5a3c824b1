import GoSource.Proofs.Grammar.Restart
import GoSource.Proofs.Scanner.Lossless

/-!
# Nothing goes wrong without a trace

A report can be left out, because the one before it is on the same line or because the journal is full.  But then
there is an entry already: as long as the journal has none, nothing went wrong.

* **`Lexeme.malformed_of_mem_split`**: an illegal token has a fault of its own, or it is a byte that starts no
  character.
* **`Reader.malformed_notMem_drain`**: such a byte is reported when it is read.
* **`Traced`**: if nothing was reported, no node is bad and no token that was handed out has a fault.  No step
  changes that.
* **`clean_result_clean_tree`**: a parser without entries in its journal has no bad nodes and saw no illegal token.
-/

namespace GoSource

/-! ### Illegal tokens -/

namespace Lexeme

/-- What is illegal has a fault, or it is a byte that starts no character. -/
def Extent.Accounted (e : Extent) (r : Rune) : Prop :=
  e.kind = .token .illegal → e.fault = none → r = .malformed

theorem accounted_word (r : Rune) (rest : List Rune) : (word r rest).Accounted r := by
  intro hkind
  have hlookup (s : String) : Token.lookup s ≠ .illegal := by
    unfold Token.lookup
    cases Keyword.ofText? s with
    | none => exact nofun
    | some k => exact nofun
  exact absurd (LexemeKind.token.inj hkind) (hlookup _)

theorem accounted_number (r : Rune) (rest : List Rune) : (number r rest).Accounted r := by
  unfold number
  dsimp only
  split
  · exact nofun
  · exact nofun

theorem accounted_blockComment (r : Rune) (rest : List Rune) : (blockComment rest).Accounted r := by
  unfold blockComment
  split <;> exact nofun

theorem accounted_rawString (r : Rune) (rest : List Rune) : (rawString rest).Accounted r := by
  unfold rawString
  split <;> exact nofun

theorem accounted_operatorOrStray (r : Rune) (rest : List Rune) : (operatorOrStray r rest).Accounted r := by
  unfold operatorOrStray
  split
  · exact nofun
  · intro _ hfault
    dsimp only at hfault
    split at hfault
    · assumption
    · split at hfault <;> cases hfault

theorem accounted_measure (r : Rune) (rest : List Rune) : (measure r rest).Accounted r := by
  unfold measure
  dsimp only
  split
  · exact nofun
  split
  · exact nofun
  split
  · exact accounted_word r rest
  split
  · exact accounted_number r rest
  split
  · exact nofun
  split
  · exact accounted_blockComment r rest
  split
  · exact nofun
  split
  · exact accounted_rawString r rest
  split
  · exact nofun
  · exact accounted_operatorOrStray r rest

/-- A text with an illegal token that has no fault has a byte that starts no character. -/
theorem malformed_of_mem_split {rs : List Rune} {l : Lexeme} (h : l ∈ split rs)
    (hkind : l.kind = .token .illegal) (hfault : l.fault = none) : .malformed ∈ rs := by
  induction rs using split.induct with
  | case1 => simp [split] at h
  | case2 r rest extent ih =>
      rw [split] at h
      rcases List.mem_cons.1 h with rfl | h
      · rw [accounted_measure r rest hkind hfault]
        exact List.mem_cons_self
      · exact List.mem_cons_of_mem _ (List.mem_of_mem_drop (ih h))

end Lexeme

/-- An illegal entry of a token stream is an illegal lexeme, with its fault. -/
theorem Item.exists_lexeme_of_illegal {ls : List Lexeme} {offset : Nat} {last : Token} {item : Item}
    (h : item ∈ ofLexemes offset last ls) (hillegal : item.token = .illegal) :
    ∃ l ∈ ls, l.kind = .token .illegal ∧ l.fault = item.fault := by
  induction ls generalizing offset last with
  | nil => simp [ofLexemes] at h
  | cons l rest ih =>
      have hrest {offset : Nat} {last : Token} (h : item ∈ ofLexemes offset last rest) :
          ∃ l' ∈ l :: rest, l'.kind = .token .illegal ∧ l'.fault = item.fault := by
        obtain ⟨l', hl', hfound⟩ := ih h
        exact ⟨l', List.mem_cons_of_mem _ hl', hfound⟩
      have hsemi (n : Nat) (b : Bool) : item ≠ semicolon n b := by
        rintro rfl
        cases hillegal
      rw [ofLexemes] at h
      split at h
      · exact hrest h
      · split at h
        · exact hrest ((List.mem_cons.1 h).resolve_left (hsemi _ _))
        · exact hrest h
      · rename_i token hk
        have hitem (heq : item = ofLexeme offset token l) :
            ∃ l' ∈ l :: rest, l'.kind = .token .illegal ∧ l'.fault = item.fault := by
          subst heq
          exact ⟨l, List.mem_cons_self, hk.trans (congrArg LexemeKind.token hillegal), rfl⟩
        dsimp only at h
        split at h
        · rcases List.mem_cons.1 ((List.mem_cons.1 h).resolve_left (hsemi _ _)) with heq | h
          · exact hitem heq
          · exact hrest h
        · rcases List.mem_cons.1 h with heq | h
          · exact hitem heq
          · exact hrest h

/-! ### Reading -/

namespace Reader

theorem clean_of_clean_take {r : Reader} (h : r.take.2.journal.Clean) : r.journal.Clean := by
  rcases r.journal_take with heq | ⟨d, heq⟩
  · rwa [heq] at h
  · rw [heq] at h
    exact absurd h (Journal.not_clean_report _ _)

/-- A byte that starts no character is reported. -/
theorem ne_malformed_of_clean_take {r : Reader} (h : r.take.2.journal.Clean) : r.take.1 ≠ .malformed := by
  intro hrune
  rw [fst_take] at hrune
  simp only [take, hrune] at h
  exact absurd h (Journal.not_clean_report _ _)

theorem clean_of_clean_drain {r : Reader} (h : r.drain.2.journal.Clean) : r.journal.Clean := by
  fun_induction drain r with
  | case1 r hclosed => exact h
  | case2 r hclosed hcursor rune r' htake hless runes last hdrain ih =>
      rw [hdrain] at ih
      have hr' : r' = r.take.2 := by rw [htake]
      exact clean_of_clean_take (hr' ▸ ih h)
  | case3 r hclosed hcursor => exact h

theorem malformed_notMem_drain {r : Reader} (h : r.drain.2.journal.Clean) : .malformed ∉ r.drain.1 := by
  fun_induction drain r with
  | case1 r hclosed => exact List.not_mem_nil
  | case2 r hclosed hcursor rune r' htake hless runes last hdrain ih =>
      rw [hdrain] at ih
      have hclean : r'.journal.Clean := by
        refine clean_of_clean_drain ?_
        rw [hdrain]
        exact h
      have hrune : rune ≠ .malformed := by
        have hne := ne_malformed_of_clean_take (r := r)
        rw [htake] at hne
        exact hne hclean
      exact List.not_mem_cons_of_ne_of_not_mem (Ne.symm hrune) (ih h)
  | case3 r hclosed hcursor => exact List.not_mem_nil

theorem mem_drain_of_mem_readText {r : Reader} {x : Rune} (h : x ∈ r.readText.1.2) : x ∈ r.drain.1 := by
  unfold readText at h
  split at h
  · rename_i c runes r' hdrain
    rw [hdrain]
    split at h
    · exact List.mem_cons_of_mem _ h
    · exact h
  · rename_i runes r' _ hdrain
    rw [hdrain]
    exact h

end Reader

/-- If nothing was reported while a text was read, its illegal tokens have faults. -/
theorem Scanner.fault_of_illegal {r : Reader} (h : (start r).journal.Clean) {item : Item}
    (hitem : item ∈ (start r).stream.items) (hillegal : item.token = .illegal) : item.fault ≠ none := by
  intro hfault
  obtain ⟨l, hl, hkind, heq⟩ := Item.exists_lexeme_of_illegal hitem hillegal
  have hmalformed := Lexeme.malformed_of_mem_split hl hkind (heq.trans hfault)
  have hclean : r.drain.2.journal.Clean := r.readText_snd ▸ h
  exact Reader.malformed_notMem_drain hclean (Reader.mem_drain_of_mem_readText hmalformed)

/-! ### Parsing -/

/-- Of the entries `all` those before the ones still to come were handed out.  If nothing was reported, none of
them has a fault. -/
def Scanner.Passed (all : List Item) (s : Scanner) : Prop :=
  ∃ passed, all = passed ++ s.stream.items ∧ (s.journal.Clean → ∀ item ∈ passed, item.fault = none)

namespace Scanner.Passed

variable {all : List Item} {s : Scanner}

theorem refl (s : Scanner) : s.Passed s.stream.items :=
  ⟨[], rfl, fun _ _ h => absurd h List.not_mem_nil⟩

/-- Reporting more makes it easier. -/
theorem of_stream_eq {s' : Scanner} (h : s.Passed all) (hstream : s'.stream = s.stream)
    (hclean : s'.journal.Clean → s.journal.Clean) : s'.Passed all := by
  obtain ⟨passed, hall, hfaults⟩ := h
  exact ⟨passed, by rw [hstream, hall], fun hs => hfaults (hclean hs)⟩

theorem deliver (h : s.Passed all) {item : Item} {rest : TokenStream} (hpop : s.stream.pop? = some (item, rest)) :
    (s.deliver item rest).2.Passed all := by
  obtain ⟨passed, hall, hfaults⟩ := h
  refine ⟨passed ++ [item], ?_, fun hclean => ?_⟩
  · rw [hall, TokenStream.items_pop? hpop, List.append_assoc]
    rfl
  · have hfault : item.fault = none := by
      have hreported : (s.reportFault item).journal.Clean := hclean
      unfold reportFault at hreported
      split at hreported
      · exact absurd hreported (Journal.not_clean_report _ _)
      · assumption
    intro x hx
    rcases List.mem_append.1 hx with hx | hx
    · exact hfaults (clean_of_clean_deliver hclean) x hx
    · rw [List.mem_singleton.1 hx]
      exact hfault

theorem scanPast (h : s.Passed all) (comments : List String) : (s.scanPast comments).2.Passed all := by
  fun_induction Scanner.scanPast s comments with
  | case1 s comments item rest hpop delivered hc ih => exact ih (h.deliver hpop)
  | case2 s comments item rest hpop delivered hc => exact h.deliver hpop
  | case3 s comments hpop token s' heq =>
      obtain ⟨rfl, rfl⟩ := Prod.mk.inj heq
      exact h

end Scanner.Passed

namespace Grammar

/-- If nothing was reported, no node is bad, and no token that was handed out has a fault. -/
structure Traced (all : List Item) (p : Parser) : Prop where
  passed : p.scanner.Passed all
  sound : p.journal.Clean → ∀ id, p.tree.isBad id = false

namespace Traced

variable {all : List Item} {p : Parser}

theorem advance (h : Traced all p) : Traced all p.advance := by
  refine ⟨?_, fun hclean id => ?_⟩
  · cases hahead : p.ahead with
    | some a =>
        rw [Parser.advance_of_some hahead]
        exact h.passed
    | none =>
        rw [Parser.advance_of_none hahead]
        exact h.passed.scanPast []
  · rw [p.tree_advance]
    exact h.sound (Parser.clean_of_clean_advance hclean) id

theorem complain (h : Traced all p) (d : Diagnostic SourceFault) : Traced all (p.complain d) := by
  refine ⟨?_, fun hclean => absurd hclean (Parser.not_clean_complain p d)⟩
  unfold Parser.complain
  split
  · exact h.passed
  · exact h.passed.of_stream_eq rfl fun hclean => absurd hclean (Journal.not_clean_report _ _)

/-- A node that stands for something that could be parsed is not bad. -/
theorem withNode (h : Traced all p) (atom : Atom) (shape : NodeShape)
    (hshape : p.journal.Clean → isSound shape = true) : Traced all (withNode p atom shape) := by
  refine ⟨h.passed, fun hclean id => ?_⟩
  rw [Tree.isBad, node_withNode]
  split
  · have hsound := hshape hclean
    cases shape with
    | bad found d => cases hsound
    | leaf | unary | binary | list => rfl
  · exact h.sound hclean id

end Traced

/-- No step leaves something wrong without a trace. -/
theorem Move.traced {all : List Item} {x y : Stack × Parser} (h : Move x y) (hx : Traced all x.2) :
    Traced all y.2 := by
  cases h with
  | uncomment | composite | reorder | drop => exact ⟨hx.passed, hx.sound⟩
  | complain => exact hx.complain _
  | pass | lose | take => exact hx.advance
  | peek _ => exact ⟨hx.advance.passed, hx.advance.sound⟩
  | leaf above a _ => exact hx.withNode a .leaf fun _ => rfl
  | node above atom shape _ hsound _ _ => exact hx.withNode atom shape fun _ => hsound
  | bad atom found d hreported _ => exact hx.withNode atom (.bad found d) fun hclean => absurd hclean hreported

theorem Moves.traced {all : List Item} {x y : Stack × Parser} (h : Moves x y) (hx : Traced all x.2) :
    Traced all y.2 := by
  induction h with
  | refl => exact hx
  | tail _ hstep ih => exact hstep.traced ih

theorem traced_restart (p : Parser) : Traced p.scanner.stream.items p.restart := by
  refine Traced.advance ⟨.refl p.scanner, fun _ id => ?_⟩
  rfl

end Grammar

namespace Parser

open Grammar

/-- A journal without entries after some calls was not closed by them either. -/
theorem clean_after (p : Parser) (file : SourceFile) (source : ByteSource) (mode : Mode) (calls : List Call)
    (h : ((p.init file source mode).after calls).journal.entries = #[]) :
    ((p.init file source mode).after calls).journal.Clean := by
  obtain ⟨st, hmoves⟩ := moves_after [] (p.init file source mode) calls
  have hsane : ((p.init file source mode).after calls).journal.Sane :=
    hmoves.sane (sane_advance (p.scanner.sane_init file source))
  refine ⟨?_, h⟩
  by_contra hclosed
  exact hsane (by simpa using hclosed) h

/-- No entry, no bad node, and no illegal token among those that were handed out since the file was bound. -/
theorem untroubled_after (p : Parser) (file : SourceFile) (source : ByteSource) (mode : Mode) (calls : List Call)
    (h : ((p.init file source mode).after calls).journal.entries = #[]) :
    (∀ id, ((p.init file source mode).after calls).tree.isBad id = false) ∧
      ∃ passed, (p.scanner.init file source).stream.items =
          passed ++ ((p.init file source mode).after calls).scanner.stream.items ∧
        ∀ item ∈ passed, item.token ≠ .illegal := by
  obtain ⟨st, hmoves⟩ := moves_after [] (p.init file source mode) calls
  have hclean := clean_after p file source mode calls h
  have htraced := hmoves.traced (traced_restart { p with scanner := p.scanner.init file source, mode })
  obtain ⟨passed, hall, hfaults⟩ := htraced.passed
  refine ⟨htraced.sound hclean, passed, hall, fun item hitem hillegal => ?_⟩
  have hstart : (p.scanner.init file source).journal.Clean := clean_of_clean_advance (hmoves.clean hclean)
  have hmem : item ∈ (p.scanner.init file source).stream.items := by
    rw [hall]
    exact List.mem_append_left _ hitem
  exact Scanner.fault_of_illegal hstart hmem hillegal (hfaults hclean item hitem)

end Parser

/-- A text that is parsed in one go is handed out whole. -/
theorem ParsedFile.untroubled_ofString (name text : String)
    (h : (ParsedFile.ofString name text).diagnostics = []) :
    (∀ id, (ParsedFile.ofString name text).tree.isBad id = false) ∧
      ∀ t ∈ (({} : Scanner).init { name } { bytes := text.toUTF8 }).scanAll.1, t.token ≠ .illegal := by
  have hentries : (Parser.new { name } { bytes := text.toUTF8 } {}).parseFile.2.journal.entries = #[] :=
    Array.toList_eq_nil_iff.1 h
  obtain ⟨hbad, passed, hall, hlegal⟩ :=
    Parser.untroubled_after {} { name } { bytes := text.toUTF8 } {} [.parseFile] hentries
  have hread : Grammar.ReadToEnd (Parser.new { name } { bytes := text.toUTF8 } {}).parseFile.2 := by
    refine Grammar.fileNode_readToEnd (Grammar.ended_restart _) ?_
    exact congrArg Mode.decls (Grammar.mode_init {} { name } { bytes := text.toUTF8 } {})
  have hitems : (({} : Scanner).init { name } { bytes := text.toUTF8 }).stream.items = passed := by
    rw [← List.append_nil passed, ← hread.2.2]
    exact hall
  refine ⟨hbad, fun t ht => ?_⟩
  obtain ⟨last, heof, htokens⟩ := (({} : Scanner).init { name } { bytes := text.toUTF8 }).scanAll_fst
  rw [htokens, hitems, List.mem_append, List.mem_map, List.mem_singleton] at ht
  rcases ht with ⟨item, hitem, rfl⟩ | rfl
  · exact hlegal item hitem
  · rw [heof]
    exact nofun

/-- A clean result is a clean tree.  Whatever was called on a parser since a file was bound, if nothing was reported
then no node is bad and no token that was handed out is illegal.  So if a text is parsed without a diagnostic, no
node of the file is bad, and none of its tokens is illegal. -/
theorem clean_result_clean_tree :
    (∀ (p : Parser) (file : SourceFile) (source : ByteSource) (mode : Mode) (calls : List Parser.Call),
      ((p.init file source mode).after calls).journal.entries = #[] →
      (∀ id, ((p.init file source mode).after calls).tree.isBad id = false) ∧
        ∃ passed, (p.scanner.init file source).stream.items =
            passed ++ ((p.init file source mode).after calls).scanner.stream.items ∧
          ∀ item ∈ passed, item.token ≠ .illegal) ∧
    (∀ name text : String, (ParsedFile.ofString name text).diagnostics = [] →
      (∀ id, (ParsedFile.ofString name text).tree.isBad id = false) ∧
        ∀ t ∈ (({} : Scanner).init { name } { bytes := text.toUTF8 }).scanAll.1, t.token ≠ .illegal) :=
  ⟨Parser.untroubled_after, ParsedFile.untroubled_ofString⟩

/-- A declaration that is parsed under a budget of one, after which a token is skipped, and a whole text. -/
theorem clean_result_clean_tree_var :
    (let p := ((({} : Parser).setBudget 1).init {} { bytes := "var x = 'a'\nvar y".toUTF8 } {}).after [.parse, .skip]
    p.journal.entries = #[] ∧ ∀ id, p.tree.isBad id = false) ∧
    (ParsedFile.ofString "a" "package p // a\nvar x = 'a'\n").diagnostics = [] ∧
      ∀ id, (ParsedFile.ofString "a" "package p // a\nvar x = 'a'\n").tree.isBad id = false := by
  have hentries : (((({} : Parser).setBudget 1).init {} { bytes := "var x = 'a'\nvar y".toUTF8 } {}).after
      [.parse, .skip]).journal.entries = #[] := by
    decide +kernel
  have hdiagnostics : (ParsedFile.ofString "a" "package p // a\nvar x = 'a'\n").diagnostics = [] := by
    decide +kernel
  exact ⟨⟨hentries, (clean_result_clean_tree.1 _ _ _ _ _ hentries).1⟩, hdiagnostics,
    (clean_result_clean_tree.2 _ _ hdiagnostics).1⟩

end GoSource
