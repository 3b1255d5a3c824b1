import GoSource.Proofs.Grammar.Forward
import GoSource.Proofs.Grammar.Restart
import GoSource.Proofs.Grammar.Twins

/-!
# Looking ahead loses nothing

A parser looks at one token, may have put one back, and has the rest of the scanner's tokens before it.  These three
together are always the last tokens of the text: none is lost, none comes twice, and the end of the text is among them.

* **`Scanner.sequence`**: the tokens of a text without comments, with its end; **`Scanner.pending`** those still to be
  handed out.
* **`Grammar.LooksAhead`**: the productions that put a token back do so right after they passed over it.
* **`Parser.view`**: the tokens in sight.
* **`Parser.Step`**: what a call does, step by step, with the token that was the current one before.  That token alone
  is put back, and only if no other one was.
* **`Parser.Watched`**: what every step keeps.
* **`Parser.Underway`**: the states that calls lead to.
-/

namespace GoSource

namespace Scanner

/-! ### The tokens of a text -/

/-- The token for the end of the text. -/
def ending (s : Scanner) : Scanned :=
  s.deliverEnd.1

/-- All tokens from here on that are no comments, the end of the text included. -/
def sequence (s : Scanner) : List Scanned :=
  s.scanAll.1.filter (·.token ≠ .comment)

/-- The tokens still to be handed out that are no comments.  After the end of the text nothing new comes. -/
def pending (s : Scanner) : List Scanned :=
  if s.last.token = .eof then [] else s.sequence

theorem ending_congr {s s' : Scanner} (hfile : s'.file = s.file) (hfinish : s'.finish = s.finish) :
    s'.ending = s.ending := by
  simp only [ending, deliverEnd, hfile, hfinish]

theorem finish_deliver (s : Scanner) (item : Item) (rest : TokenStream) :
    (s.deliver item rest).2.finish = s.finish := by
  unfold deliver reportFault
  dsimp only
  split <;> rfl

theorem ending_deliver (s : Scanner) (item : Item) (rest : TokenStream) :
    (s.deliver item rest).2.ending = s.ending :=
  ending_congr (s.file_deliver item rest) (s.finish_deliver item rest)

theorem sequence_eq (s : Scanner) : s.sequence = s.upcoming ++ [s.ending] := by
  unfold sequence
  fun_induction scanAll s with
  | case1 s item rest hpop delivered tokens s' hall ih =>
      rw [hall, s.ending_deliver item rest] at ih
      rw [upcoming_deliver hpop, List.append_assoc, ← ih]
      by_cases hcomment : item.token = .comment
      · have hdelivered : delivered.1.token = .comment := hcomment
        rw [if_pos hcomment, List.filter_cons_of_neg (by simp [hdelivered])]
        rfl
      · have hdelivered : delivered.1.token ≠ .comment := hcomment
        rw [if_neg hcomment, List.filter_cons_of_pos (by simp [hdelivered])]
        rfl
  | case2 s hpop token s' hend =>
      obtain ⟨rfl, rfl⟩ := Prod.mk.inj hend
      rw [upcoming_pop?_none hpop]
      rfl

/-- What is known about the scanner `s'` of a text whose scanner was `s` at its start. -/
structure Later (s s' : Scanner) : Prop where
  file_eq : s'.file = s.file
  finish_eq : s'.finish = s.finish
  ended : s'.last.token = .eof → s'.stream.items = []

/-- The journal has no part in it. -/
theorem Later.withJournal {s s' : Scanner} (h : s.Later s') (j : Journal) : s.Later (s'.withJournal j) :=
  ⟨h.file_eq, h.finish_eq, h.ended⟩

theorem sequence_withJournal (s : Scanner) (j : Journal) : (s.withJournal j).sequence = s.sequence := by
  have hplace : (s.withJournal j).place = s.place := place_congr rfl
  have hending : (s.withJournal j).ending = s.ending := ending_congr rfl rfl
  rw [sequence_eq, sequence_eq, upcoming, upcoming, hplace, hending, stream_withJournal]

theorem pending_withJournal (s : Scanner) (j : Journal) : (s.withJournal j).pending = s.pending := by
  unfold pending
  rw [sequence_withJournal]
  rfl

theorem Later.deliver {s s' : Scanner} (h : s.Later s') {item : Item} {rest : TokenStream}
    (hpop : s'.stream.pop? = some (item, rest)) : s.Later (s'.deliver item rest).2 where
  file_eq := (s'.file_deliver item rest).trans h.file_eq
  finish_eq := (s'.finish_deliver item rest).trans h.finish_eq
  ended heof := absurd heof (token_place_ne_eof hpop)

theorem Later.deliverEnd {s s' : Scanner} (h : s.Later s') (hpop : s'.stream.pop? = none) :
    s.Later s'.deliverEnd.2 where
  file_eq := h.file_eq
  finish_eq := h.finish_eq
  ended _ := TokenStream.items_eq_nil_of_pop? hpop

theorem later_scanPast {s s' : Scanner} (h : s.Later s') (comments : List String) :
    s.Later (s'.scanPast comments).2 := by
  fun_induction scanPast s' comments with
  | case1 s' comments item rest hpop delivered hc ih => exact ih (h.deliver hpop)
  | case2 s' comments item rest hpop delivered hc => exact h.deliver hpop
  | case3 s' comments hpop token s'' heq =>
      obtain ⟨rfl, rfl⟩ := Prod.mk.inj heq
      exact h.deliverEnd hpop

theorem pending_of_ne_eof {s : Scanner} (h : s.last.token ≠ .eof) : s.pending = s.upcoming ++ [s.ending] := by
  rw [pending, if_neg h, sequence_eq]

/-- Before the end was handed out, the next token comes off the front of what is pending. -/
theorem pending_scanPast {s : Scanner} (h : s.last.token ≠ .eof) (comments : List String) :
    s.pending = (s.scanPast comments).1.1 :: (s.scanPast comments).2.pending := by
  fun_induction scanPast s comments with
  | case1 s comments item rest hpop delivered hc ih =>
      have hlast : delivered.2.last.token ≠ .eof := token_place_ne_eof hpop
      have hcomment : item.token = .comment := hc
      rw [← ih hlast, pending_of_ne_eof h, pending_of_ne_eof hlast, upcoming_deliver hpop, if_pos hcomment,
        s.ending_deliver item rest]
      rfl
  | case2 s comments item rest hpop delivered hc =>
      have hlast : delivered.2.last.token ≠ .eof := token_place_ne_eof hpop
      have hcomment : item.token ≠ .comment := hc
      rw [pending_of_ne_eof h, pending_of_ne_eof hlast, upcoming_deliver hpop, if_neg hcomment,
        s.ending_deliver item rest]
      rfl
  | case3 s comments hpop token s' heq =>
      obtain ⟨rfl, rfl⟩ := Prod.mk.inj heq
      rw [pending_of_ne_eof h, upcoming_pop?_none hpop]
      rfl

/-- After the end of the text it comes again. -/
theorem scanPast_of_end {s : Scanner} (h : s.stream.items = []) (comments : List String) :
    (s.scanPast comments).1.1 = s.ending ∧ (s.scanPast comments).2.pending = [] := by
  fun_cases scanPast s comments with
  | case1 item rest hpop delivered hc => exact absurd ((TokenStream.items_pop? hpop).symm.trans h) (List.cons_ne_nil _ _)
  | case2 item rest hpop delivered hc => exact absurd ((TokenStream.items_pop? hpop).symm.trans h) (List.cons_ne_nil _ _)
  | case3 hpop token s' heq =>
      obtain ⟨rfl, rfl⟩ := Prod.mk.inj heq
      exact ⟨rfl, rfl⟩

end Scanner

namespace Grammar

/-! ### Looking past an identifier -/

variable {α : Type}

/-- At an identifier, `m` passes over it.  By the token after it, `m` puts the identifier back and goes on with `back`,
or keeps it and goes on with `on`. -/
def Peeks (m : ParseM α) (returns : Token → Bool) (back : Token → ParseM α) (on : Atom → ParseM α) : Prop :=
  ∀ p : Parser, p.curr.token = .lit .ident →
    p.advance.ahead = none ∧
      m p =
        if returns p.advance.curr.token then back p.advance.curr.token (p.advance.putBack p.curr)
        else on p.curr p.advance

/-- The productions that look past an identifier.  No other one puts a token back. -/
structure LooksAhead (g : Rules) : Prop where
  /-- A field of a struct may be an embedded type. -/
  fields : Peeks (fieldNamesAndType g)
    (fun t => t ∈ [.op .semicolon, .op .rbrace, .lit .string, .op .period])
    (fun _ => do return ([], ← typeName g))
    fun first => do
      if (← tok) = .op .lbrack then
        let name ← add first .leaf
        return ([name], ← g.type)
      else
        let names ← moreNames (← add first .leaf)
        return (names, ← g.type)
  /-- An element of an interface may be a method. -/
  elems : Peeks (interfaceElem g) (fun t => t ≠ .op .lparen) (fun _ => embeddedElem g) fun ident => do
    let name ← add ident .leaf
    let sig ← signature g (Tree.tagAt (.kw .func) ident.pos)
    build (Tree.addField [name] sig none)
  /-- A parameter may have a name. -/
  params : ∀ close typeParams,
    Peeks (paramEntry g close typeParams) (fun t => t = .op .period ∧ t ≠ close)
      (fun _ => do return { typ := some (← paramType g typeParams) }) fun ident => do
        let t ← tok
        if t = .op .comma ∨ t = close then return { name := some (← add ident .leaf) }
        else if t = .op .lbrack then bracketedParam g ident
        else
          let name ← add ident .leaf
          return { name := some name, typ := some (← paramType g typeParams) }
  /-- What stands in brackets after a type's name may be the length of an array. -/
  brackets : Peeks opensTypeParams (fun _ => true) (fun t => return !(t == .op .rbrack)) fun _ => return true
  /-- A statement may have a label. -/
  labels : Peeks (identStmt g) (fun t => t ≠ .op .colon) (fun _ => simpleStmt g) (labeledStmt g)

section

variable {β : Type} {p : Parser}

/-- Taking an identifier and going on. -/
theorem leadIdent_run {f : Atom → ParseM β} (h : p.curr.token = .lit .ident) :
    (do let ident ← makeAtom (.lit .ident); next; f ident) p = f p.curr p.advance := by
  have hatom : atomOf p (.lit .ident) = p.curr := by rw [atomOf, if_pos h.symm, ← h]
  rw [lead_run, hatom]

/-- Putting a token back and going on. -/
theorem putBack_run {m : ParseM β} (a : Atom) (p : Parser) : (do putBack a; m) p = m (p.putBack a) :=
  rfl

theorem Peeks.intro {m : ParseM α} {returns : Token → Bool} {back : Token → ParseM α} {on : Atom → ParseM α}
    (hback : ∀ p : Parser, p.curr.token = .lit .ident → returns p.advance.curr.token = true →
      m p = back p.advance.curr.token (p.advance.putBack p.curr))
    (hon : ∀ p : Parser, p.curr.token = .lit .ident → returns p.advance.curr.token = false →
      m p = on p.curr p.advance) : Peeks m returns back on := by
  intro p h
  refine ⟨p.ahead_advance, ?_⟩
  cases hreturns : returns p.advance.curr.token with
  | true => exact hback p h hreturns
  | false => exact hon p h hreturns

end

theorem looksAhead (g : Rules) : LooksAhead g where
  fields := by
    refine .intro (fun p h hreturns => ?_) fun p h hreturns => ?_
    · rw [fieldNamesAndType, run_bind (tok_run p), h]
      refine (leadIdent_run h).trans ?_
      have htoken : p.advance.curr.token = .op .semicolon ∨ p.advance.curr.token = .op .rbrace ∨
          p.advance.curr.token = .lit .string ∨ p.advance.curr.token = .op .period := by
        simpa using hreturns
      rw [run_bind (tok_run _)]
      rcases htoken with htoken | htoken | htoken | htoken <;> rw [htoken] <;> rfl
    · rw [fieldNamesAndType, run_bind (tok_run p), h]
      refine (leadIdent_run h).trans ?_
      rw [run_bind (tok_run _), run_bind (tok_run _)]
      generalize p.advance.curr.token = t at hreturns
      split
      iterate 4 cases hreturns
      · rfl
      · rename_i hbracket
        rw [if_neg hbracket]
  elems := by
    refine .intro (fun p h hreturns => ?_) fun p h hreturns => ?_
    · rw [interfaceElem, run_bind (tok_run p), if_neg (not_not_intro h)]
      refine (leadIdent_run h).trans ?_
      rw [run_bind (tok_run _), if_pos (of_decide_eq_true hreturns), putBack_run]
    · rw [interfaceElem, run_bind (tok_run p), if_neg (not_not_intro h)]
      refine (leadIdent_run h).trans ?_
      rw [run_bind (tok_run _), if_neg (of_decide_eq_false hreturns)]
  params close typeParams := by
    refine .intro (fun p h hreturns => ?_) fun p h hreturns => ?_
    · rw [paramEntry, run_bind (tok_run p), if_neg (not_not_intro h)]
      refine (leadIdent_run h).trans ?_
      obtain ⟨hperiod, hclose⟩ := of_decide_eq_true hreturns
      have hends : ¬ (p.advance.curr.token = .op .comma ∨ p.advance.curr.token = close) := by
        simp [hperiod, hperiod ▸ hclose]
      rw [run_bind (tok_run _), if_neg hends, if_pos hperiod, putBack_run]
    · rw [paramEntry, run_bind (tok_run p), if_neg (not_not_intro h)]
      refine (leadIdent_run h).trans ?_
      rw [run_bind (tok_run _), run_bind (tok_run _)]
      by_cases hends : p.advance.curr.token = .op .comma ∨ p.advance.curr.token = close
      · rw [if_pos hends, if_pos hends]
      · have hperiod : p.advance.curr.token ≠ .op .period := fun hperiod =>
          of_decide_eq_false hreturns ⟨hperiod, fun hclose => hends (.inr hclose)⟩
        rw [if_neg hends, if_neg hends, if_neg hperiod]
  brackets := by
    refine .intro (fun p h _ => ?_) fun p h hreturns => ?_
    · rw [opensTypeParams, run_bind (tok_run p), if_neg (not_not_intro h)]
      exact leadIdent_run h
    · cases hreturns
  labels := by
    refine .intro (fun p h hreturns => ?_) fun p h hreturns => ?_
    · refine (leadIdent_run h).trans ?_
      rw [run_bind (tok_run _), if_neg (of_decide_eq_true hreturns), putBack_run]
    · refine (leadIdent_run h).trans ?_
      rw [run_bind (tok_run _), if_pos (not_not.1 (of_decide_eq_false hreturns))]

end Grammar

namespace Parser

/-! ### The tokens in sight -/

/-- The tokens in sight: the current one, the one that was put back if there is one, and those that the scanner has
still to hand out. -/
def view (p : Parser) : List Scanned :=
  p.curr.scanned :: (p.ahead.toList.map Atom.scanned ++ p.scanner.pending)

/-- The tokens in sight of `p` are the last ones of the text whose scanner was `s` at its start. -/
structure InSight (s : Scanner) (p : Parser) : Prop where
  later : s.Later p.scanner
  suffix : p.view <:+ s.sequence

/-- One step of a call.  Beside the parser stands the token that was current just before, as it was then. -/
inductive Step : Option Atom × Parser → Option Atom × Parser → Prop
  /-- The next token becomes the current one. -/
  | advance (before : Option Atom) (p : Parser) : Step (before, p) (some p.curr, p.advance)
  /-- The token before, an identifier, is put back where none was. -/
  | putBack (a : Atom) (p : Parser) (hempty : p.ahead = none) (hident : a.token = .lit .ident) :
      Step (some a, p) (none, p.putBack a)
  /-- The comments of the current token move to a node. -/
  | uncomment (before : Option Atom) (p : Parser) :
      Step (before, p) (before, { p with curr := { p.curr with comments := [] } })
  /-- Composite literals are allowed or not. -/
  | composite (before : Option Atom) (p : Parser) (ok : Bool) : Step (before, p) (before, { p with compositeOk := ok })
  /-- A complaint. -/
  | complain (before : Option Atom) (p : Parser) (d : Diagnostic SourceFault) : Step (before, p) (before, p.complain d)
  /-- A node is made. -/
  | node (before : Option Atom) (p : Parser) (atom : Atom) (shape : NodeShape) :
      Step (before, p) (before, Grammar.withNode p atom shape)

/-- Any number of steps. -/
abbrev Steps : Option Atom × Parser → Option Atom × Parser → Prop :=
  Relation.ReflTransGen Step

/-- What every step keeps: the tokens in sight are the last ones of the text, and the token before is the one before
them. -/
structure Watched (s : Scanner) (x : Option Atom × Parser) : Prop where
  inSight : InSight s x.2
  before : ∀ a ∈ x.1, a.token ≠ .eof → a.scanned :: x.2.view <:+ s.sequence

variable {s : Scanner} {p : Parser}

theorem view_of_none (h : p.ahead = none) : p.view = p.curr.scanned :: p.scanner.pending := by
  rw [view, h]
  rfl

/-- Going on takes the first token out of sight.  After the end of the text it comes again. -/
theorem InSight.view_advance (h : InSight s p) :
    p.view = p.curr.scanned :: p.advance.view ∨
      p.view = [p.curr.scanned] ∧ p.advance.view = [s.ending] := by
  cases hahead : p.ahead with
  | some a =>
      rw [advance_of_some hahead]
      left
      rw [view, hahead]
      rfl
  | none =>
      have hnext : p.advance.view = (p.scanner.scanPast []).1.1 :: (p.scanner.scanPast []).2.pending := by
        rw [view_of_none p.ahead_advance, advance_of_none hahead]
        rfl
      rw [view_of_none hahead, hnext]
      by_cases hlast : p.scanner.last.token = .eof
      · obtain ⟨hagain, hrest⟩ := Scanner.scanPast_of_end (h.later.ended hlast) []
        have hending : p.scanner.ending = s.ending := Scanner.ending_congr h.later.file_eq h.later.finish_eq
        have hpending : p.scanner.pending = [] := if_pos hlast
        right
        rw [hpending, hagain, hrest, hending]
        exact ⟨rfl, rfl⟩
      · left
        rw [Scanner.pending_scanPast hlast []]

theorem InSight.advance (h : InSight s p) : InSight s p.advance := by
  constructor
  · cases hahead : p.ahead with
    | some a =>
        rw [advance_of_some hahead]
        exact h.later
    | none =>
        rw [advance_of_none hahead]
        exact Scanner.later_scanPast h.later []
  · rcases h.view_advance with hview | ⟨-, hend⟩
    · exact (List.suffix_cons _ _).trans (hview ▸ h.suffix)
    · rw [hend, Scanner.sequence_eq]
      exact List.suffix_append _ _

/-- The token that was passed over is the one before those in sight. -/
theorem InSight.before (h : InSight s p) (hne : p.curr.token ≠ .eof) :
    p.curr.scanned :: p.advance.view <:+ s.sequence := by
  rcases h.view_advance with hview | ⟨hview, -⟩
  · exact hview ▸ h.suffix
  · -- The one token in sight is the end of the text.
    have hsuffix := h.suffix
    rw [hview, Scanner.sequence_eq] at hsuffix
    have hlast : p.curr.scanned = s.ending := by
      obtain ⟨front, hfront⟩ := hsuffix
      exact (List.append_inj' hfront rfl).2 |> List.cons.inj |>.1
    exact absurd (congrArg Scanned.token hlast) hne

theorem InSight.putBack (h : InSight s p) {a : Atom} (hempty : p.ahead = none)
    (hbefore : a.scanned :: p.view <:+ s.sequence) : InSight s (p.putBack a) := by
  refine ⟨h.later, ?_⟩
  rw [view_of_none hempty] at hbefore
  exact hbefore

theorem view_withJournal (p : Parser) (j : Journal) :
    Parser.view { p with scanner := p.scanner.withJournal j } = p.view := by
  simp only [view, Scanner.pending_withJournal]

theorem InSight.withJournal (h : InSight s p) (j : Journal) :
    InSight s { p with scanner := p.scanner.withJournal j } :=
  ⟨h.later.withJournal j, (view_withJournal p j).symm ▸ h.suffix⟩

theorem InSight.watched (h : InSight s p) : Watched s (none, p) :=
  ⟨h, fun a ha => absurd ha (Option.not_mem_none a)⟩

/-- A step that touches neither the tokens nor the scanner's place. -/
theorem Watched.of_view_eq {before : Option Atom} {q : Parser} (h : Watched s (before, p))
    (hscanner : q.scanner = p.scanner) (hview : q.view = p.view) : Watched s (before, q) :=
  ⟨⟨hscanner ▸ h.inSight.later, hview ▸ h.inSight.suffix⟩, fun a ha hne => hview ▸ h.before a ha hne⟩

theorem Watched.complain {before : Option Atom} (h : Watched s (before, p)) (d : Diagnostic SourceFault) :
    Watched s (before, p.complain d) := by
  rw [complain_eq]
  refine ⟨h.inSight.withJournal _, fun a ha hne => ?_⟩
  rw [view_withJournal]
  exact h.before a ha hne

theorem Watched.step {x y : Option Atom × Parser} (h : Watched s x) (hstep : Step x y) : Watched s y := by
  cases hstep with
  | advance before p =>
      refine ⟨h.inSight.advance, fun a ha hne => ?_⟩
      obtain rfl := Option.some.inj ha
      exact h.inSight.before hne
  | putBack a p hempty hident =>
      have hne : a.token ≠ .eof := by simp [hident]
      exact (h.inSight.putBack hempty (h.before a rfl hne)).watched
  | uncomment before p => exact h.of_view_eq rfl rfl
  | composite before p ok => exact h.of_view_eq rfl rfl
  | complain before p d => exact h.complain d
  | node before p atom shape => exact h.of_view_eq rfl rfl

theorem Watched.steps {x y : Option Atom × Parser} (h : Watched s x) (hsteps : Steps x y) : Watched s y := by
  induction hsteps with
  | refl => exact h
  | tail _ hstep ih => exact ih.step hstep

/-! ### Calls -/

/-- The moves of productions are such steps. -/
theorem steps_of_move {x y : Grammar.Stack × Parser} (h : Grammar.Move x y) (before : Option Atom) :
    ∃ before', Steps (before, x.2) (before', y.2) := by
  cases h with
  | uncomment => exact ⟨_, .single (.uncomment before _)⟩
  | composite ok => exact ⟨_, .single (.composite before _ ok)⟩
  | complain => exact ⟨_, .single (.complain before _ _)⟩
  | pass | lose | take => exact ⟨_, .single (.advance before _)⟩
  | peek hident =>
      rename_i st p
      exact ⟨_, (Relation.ReflTransGen.single (.advance before p)).tail
        (.putBack p.curr p.advance p.ahead_advance hident)⟩
  | leaf above a hne => exact ⟨_, .single (.node before _ a .leaf)⟩
  | node above atom shape _ _ _ _ => exact ⟨_, .single (.node before _ atom shape)⟩
  | bad atom found d _ _ => exact ⟨_, .single (.node before _ atom (.bad found d))⟩
  | reorder | drop => exact ⟨_, .refl⟩

theorem steps_of_moves {x y : Grammar.Stack × Parser} (h : Grammar.Moves x y) (before : Option Atom) :
    ∃ before', Steps (before, x.2) (before', y.2) := by
  induction h with
  | refl => exact ⟨before, .refl⟩
  | tail _ hmove ih =>
      obtain ⟨before', hsteps⟩ := ih
      obtain ⟨before'', hlast⟩ := steps_of_move hmove before'
      exact ⟨before'', hsteps.trans hlast⟩

/-- A call makes steps. -/
theorem steps_run (p : Parser) (call : Call) : ∃ before, Steps (none, p) (before, call.run p) := by
  obtain ⟨st, hmoves⟩ := Grammar.moves_run [] p call
  exact steps_of_moves hmoves none

/-- The states that calls lead to, each with the scanner of its text at the start. -/
inductive Underway : Scanner → Parser → Prop
  /-- A file is bound, whatever the parser did before. -/
  | init (p : Parser) (file : SourceFile) (source : ByteSource) (mode : Mode) :
      Underway (p.scanner.init file source) (p.init file source mode)
  /-- The file is parsed from its start under another budget. -/
  | setBudget {s : Scanner} {p : Parser} (h : Underway s p) (budget : Nat) :
      Underway (p.scanner.setBudget budget) (p.setBudget budget)
  /-- All diagnostics are forgotten. -/
  | clearJournal {s : Scanner} {p : Parser} (h : Underway s p) : Underway s p.clearJournal
  /-- A call reads on. -/
  | call {s : Scanner} {p : Parser} (h : Underway s p) (call : Call) : Underway s (call.run p)

/-- At the start of a text all its tokens are in sight. -/
theorem inSight_restart (p : Parser) (h : p.scanner.last.token ≠ .eof) : InSight p.scanner p.restart := by
  constructor
  · rw [restart, advance_of_none rfl]
    exact Scanner.later_scanPast ⟨rfl, rfl, fun heof => absurd heof h⟩ []
  · have hview : p.restart.view = p.scanner.pending := by
      rw [Scanner.pending_scanPast h [], restart, advance_of_none rfl]
      rfl
    rewrite [hview, Scanner.pending, if_neg h]
    exact List.suffix_rfl

theorem Underway.inSight (h : Underway s p) : InSight s p := by
  induction h with
  | init p file source mode => exact inSight_restart { p with scanner := p.scanner.init file source, mode } nofun
  | @setBudget s p h budget ih => exact inSight_restart { p with scanner := p.scanner.setBudget budget } nofun
  | clearJournal h ih => exact ih.withJournal _
  | @call s p h call ih =>
      obtain ⟨before, hsteps⟩ := steps_run p call
      exact (ih.watched.steps hsteps).inSight

/-- What is in sight ends with the end of the text. -/
theorem InSight.getLast? (h : InSight s p) : p.view.getLast? = some s.ending := by
  obtain ⟨front, hfront⟩ := h.suffix
  have hlast : s.sequence.getLast? = some s.ending := by
    rw [Scanner.sequence_eq, List.getLast?_append]
    rfl
  have hne : p.view ≠ [] := List.cons_ne_nil _ _
  rwa [← hfront, List.getLast?_append_of_ne_nil _ hne] at hlast

/-- Looking ahead and putting back neither lose nor repeat a token.  Whatever was called since a file was bound, the
tokens in sight are the last ones of its text, its end at least.  The productions that put a token back just passed over
it, so that no other token was put back before.  A call goes on in steps, and in each state on the way the tokens in
sight are the last ones of the text; what is put back is the token that was current just before, as it was then, which
comes before those in sight. -/
theorem lookahead_keeps_tokens {s : Scanner} {p : Parser} (h : Underway s p) :
    (p.view <:+ s.sequence ∧ p.view.getLast? = some s.ending) ∧ (∀ g : Grammar.Rules, Grammar.LooksAhead g) ∧
      ∀ call : Call, ∃ before, Steps (none, p) (before, call.run p) ∧
        ∀ before' q, Steps (none, p) (before', q) → Steps (before', q) (before, call.run p) →
          q.view <:+ s.sequence ∧ ∀ a ∈ before', a.token ≠ .eof → a.scanned :: q.view <:+ s.sequence := by
  have hsight := h.inSight
  refine ⟨⟨hsight.suffix, hsight.getLast?⟩, Grammar.looksAhead, fun call => ?_⟩
  obtain ⟨before, hsteps⟩ := steps_run p call
  refine ⟨before, hsteps, fun before' q hreached _ => ?_⟩
  have hwatched := hsight.watched.steps hreached
  exact ⟨hwatched.inSight.suffix, hwatched.before⟩

/-- After the first token: a semicolon that was put in, no comment, and the second line. -/
theorem lookahead_keeps_tokens_lines :
    let source : ByteSource := { bytes := "x // c\ny".toUTF8 }
    let s := ({} : Scanner).init {} source
    let p := (Parser.new {} source {}).advance
    Underway s p ∧ p.view.map (fun t => (t.token, t.literal)) =
        [(.op .semicolon, ""), (.lit .ident, "y"), (.eof, "")] ∧ p.view <:+ s.sequence := by
  intro source s p
  have h : Underway s p := .call (.init {} {} source {}) .skip
  exact ⟨h, by decide +kernel, (lookahead_keeps_tokens h).1.1⟩

end Parser

end GoSource
