import GoSource.Proofs.Grammar.Totality
import GoSource.Proofs.Scanner.Words

/-!
# Running the parser on known words

Where the words ahead are known and nothing is wrong with them, what an action does can be told step by step.

* **`Parser.Ready`**: the words ahead, and nothing to report.
* **`Parser.Reaches`**: a later state that is ready again, with nodes added and none changed.
* The primitive actions, one equation each: `next_run`, `makeAtom_run`, `add_run`, `expect_run`, ...
-/

namespace GoSource

/-! ### Words ahead -/

/-- The word of a token that was handed out. -/
def Scanned.word (t : Scanned) : Word :=
  (t.token, t.literal)

namespace Scanner

/-- Nothing is wrong with the tokens to come. -/
def Faultless (s : Scanner) : Prop :=
  ∀ item ∈ s.stream.items, item.fault = none

theorem faultless_deliver {s : Scanner} (h : s.Faultless) {item : Item} {rest : TokenStream}
    (hpop : s.stream.pop? = some (item, rest)) :
    (s.deliver item rest).2.Faultless ∧ (s.deliver item rest).2.journal = s.journal := by
  have hitems := TokenStream.items_pop? hpop
  have hfault : item.fault = none := h item (hitems ▸ List.mem_cons_self)
  constructor
  · intro later hlater
    exact h later (hitems ▸ List.mem_cons_of_mem _ hlater)
  · show (s.reportFault item).journal = s.journal
    rw [reportFault, hfault]

theorem faultless_scanPast {s : Scanner} (h : s.Faultless) (comments : List String) :
    (s.scanPast comments).2.Faultless ∧ (s.scanPast comments).2.journal = s.journal := by
  fun_induction scanPast s comments with
  | case1 s comments item rest hpop delivered hc ih =>
      obtain ⟨hnext, hjournal⟩ := faultless_deliver h hpop
      obtain ⟨hlast, hsame⟩ := ih hnext
      exact ⟨hlast, hsame.trans hjournal⟩
  | case2 s comments item rest hpop delivered hc => exact faultless_deliver h hpop
  | case3 s comments hpop token s' heq =>
      obtain ⟨rfl, rfl⟩ := Prod.mk.inj heq
      exact ⟨h, rfl⟩

end Scanner

namespace Parser

/-- The words still to be read. -/
def words (p : Parser) : List Word :=
  p.upcoming.map Scanned.word

/-- The words `ws` are ahead, nothing is wrong with them, and nothing was reported. -/
structure Ready (p : Parser) (ws : List Word) : Prop where
  words_eq : p.words = ws
  settled : p.Settled
  clean : p.journal.Clean
  faultless : p.scanner.Faultless

namespace Ready

variable {p : Parser} {w : Word} {ws : List Word}

theorem ne_eof (h : p.Ready (w :: ws)) : p.curr.token ≠ .eof := by
  intro heof
  have hwords := h.words_eq
  rw [words, h.settled.upcoming_eq_nil heof] at hwords
  cases hwords

/-- The first word ahead is the current token. -/
theorem curr_eq (h : p.Ready (w :: ws)) : (p.curr.token, p.curr.literal) = w := by
  have hwords := h.words_eq
  rw [words, upcoming_eq_cons h.ne_eof, List.map_cons] at hwords
  exact (List.cons.inj hwords).1

theorem token_eq {t : Token} {l : String} (h : p.Ready ((t, l) :: ws)) : p.curr.token = t :=
  congrArg Prod.fst h.curr_eq

theorem token_ne {t t' : Token} {l : String} (h : p.Ready ((t, l) :: ws)) (hne : t ≠ t') : p.curr.token ≠ t' :=
  h.token_eq.trans_ne hne

theorem literal_eq {t : Token} {l : String} (h : p.Ready ((t, l) :: ws)) : p.curr.literal = l :=
  congrArg Prod.snd h.curr_eq

theorem eof (h : p.Ready []) : p.curr.token = .eof := by
  by_contra hne
  have hwords := h.words_eq
  rw [words, upcoming_eq_cons hne] at hwords
  cases hwords

/-- What is left to read is counted by its words. -/
theorem left_eq (h : p.Ready ws) : p.left = ws.length := by
  rw [← p.length_upcoming, ← h.words_eq, words, List.length_map]

theorem advance (h : p.Ready (w :: ws)) : p.advance.Ready ws := by
  refine ⟨?_, h.settled.advance, ?_, ?_⟩
  · have hwords := h.words_eq
    rw [words, upcoming_eq_cons h.ne_eof, List.map_cons] at hwords
    exact (List.cons.inj hwords).2
  · cases hahead : p.ahead with
    | some a =>
        rw [advance_of_some hahead]
        exact h.clean
    | none =>
        rw [advance_of_none hahead]
        have hjournal := (Scanner.faultless_scanPast h.faultless []).2
        show (p.scanner.scanPast []).2.journal.Clean
        rw [hjournal]
        exact h.clean
  · cases hahead : p.ahead with
    | some a =>
        rw [advance_of_some hahead]
        exact h.faultless
    | none =>
        rw [advance_of_none hahead]
        exact (Scanner.faultless_scanPast h.faultless []).1

/-- Looking at the token after the current one changes nothing. -/
theorem peek (h : p.Ready (w :: ws)) : (p.advance.putBack p.curr).Ready (w :: ws) := by
  refine ⟨?_, h.settled.peek, h.advance.clean, h.advance.faultless⟩
  rw [words, upcoming_peek]
  exact h.words_eq

end Ready

/-- The state `q` comes after `p`, with the words `ws` ahead. -/
structure Reaches (p : Parser) (ws : List Word) (q : Parser) : Prop where
  ready : q.Ready ws
  grows : p.tree.Grows q.tree
  mode_eq : q.mode = p.mode

namespace Reaches

variable {p q r : Parser} {w : Word} {ws vs : List Word}

theorem refl (h : p.Ready ws) : p.Reaches ws p :=
  ⟨h, .refl _, rfl⟩

theorem trans (h : p.Reaches ws q) (h' : q.Reaches vs r) : p.Reaches vs r :=
  ⟨h'.ready, h.grows.trans h'.grows, h'.mode_eq.trans h.mode_eq⟩

theorem advance (h : p.Reaches (w :: ws) q) : p.Reaches ws q.advance := by
  refine ⟨h.ready.advance, ?_, ?_⟩
  · rw [tree_advance]
    exact h.grows
  · rw [mode_advance]
    exact h.mode_eq

theorem peek (h : p.Reaches (w :: ws) q) : p.Reaches (w :: ws) (q.advance.putBack q.curr) :=
  ⟨h.ready.peek, h.advance.grows, h.advance.mode_eq⟩

end Reaches

end Parser

namespace Grammar

variable {α β : Type} {p q : Parser} {ws : List Word}

/-! ### Primitive actions -/

/-- Running one action after another. -/
theorem run_bind {m : ParseM α} {f : α → ParseM β} {x : α} (h : m p = (x, q)) : (m >>= f) p = f x q := by
  show (match m p with | (a, s) => f a s) = f x q
  rw [h]

theorem run_map {m : ParseM α} {f : α → β} {x : α} (h : m p = (x, q)) : (f <$> m) p = (f x, q) := by
  show (match m p with | (a, s) => (f a, s)) = (f x, q)
  rw [h]

theorem tok_run (p : Parser) : tok p = (p.curr.token, p) := rfl

theorem left_run (p : Parser) : left p = (p.left, p) := rfl

theorem next_run (p : Parser) : next p = ((), p.advance) := rfl

/-- The current token as an atom tagged `t`. -/
def atomOf (p : Parser) (t : Token) : Atom :=
  { p.curr with token := t, literal := if t = p.curr.token then p.curr.literal else "" }

/-- The state without the comments that wait. -/
def bare (p : Parser) : Parser :=
  { p with curr := { p.curr with comments := [] } }

theorem makeAtom_run (t : Token) (p : Parser) : makeAtom t p = (atomOf p t, bare p) := rfl

theorem advance_bare (p : Parser) : (bare p).advance = p.advance :=
  Parser.advance_with_curr p _

/-- Taking the current token and going on. -/
theorem lead_run {f : Atom → ParseM β} (t : Token) (p : Parser) :
    (do let atom ← makeAtom t; next; f atom) p = f (atomOf p t) p.advance := by
  rw [run_bind (makeAtom_run t p), run_bind (next_run (bare p)), advance_bare]

theorem add_run (atom : Atom) (shape : NodeShape) (p : Parser) :
    add atom shape p = (nextId p, withNode p atom shape) := rfl

theorem expect_run {t : Token} (h : p.curr.token = t) : expect t p = ((), p.advance) := by
  rw [expect, run_bind (tok_run p), if_pos h, next_run]

theorem enter_run {t : Token} (h : p.curr.token = t) : enter t p = ([], p.advance) := by
  rw [enter, run_bind (tok_run p), if_pos h, run_bind (next_run p)]
  rfl

theorem withComposite_run {m : ParseM α} {x : α} (ok : Bool) (h : m { p with compositeOk := ok } = (x, q)) :
    withComposite ok m p = (x, { q with compositeOk := p.compositeOk }) := by
  show (match m { p with compositeOk := ok } with
    | (x, q) => (x, { q with compositeOk := p.compositeOk })) = _
  rw [h]

/-! ### Loops -/

namespace Loop

variable {σ : Type} {loop : Loop σ} {x y : σ}

theorem run_stop (hmore : loop.more p.curr.token = false) : loop.run x p = (x, p) := by
  rw [run, runFrom, if_neg (by rw [hmore]; decide)]

theorem run_done (hmore : loop.more p.curr.token = true) (hround : loop.round x p = (.done y, q)) :
    loop.run x p = (y, q) := by
  rw [run, runFrom, if_pos hmore, hround]

theorem run_again (hloop : loop.Advances) (hmore : loop.more p.curr.token = true)
    (hround : loop.round x p = (.again y, q)) : loop.run x p = loop.run y q := by
  rw [run, hloop.unroll, if_pos hmore, hround]
  rfl

end Loop

end Grammar

namespace Parser.Reaches

variable {p q : Parser} {ws : List Word}

theorem bare (h : p.Reaches ws q) : p.Reaches ws (Grammar.bare q) :=
  ⟨⟨h.ready.words_eq, ⟨h.ready.settled.curr, h.ready.settled.ahead⟩, h.ready.clean, h.ready.faultless⟩, h.grows,
    h.mode_eq⟩

theorem withNode (h : p.Reaches ws q) (atom : Atom) (shape : NodeShape) :
    p.Reaches ws (Grammar.withNode q atom shape) :=
  ⟨⟨h.ready.words_eq, ⟨h.ready.settled.curr, h.ready.settled.ahead⟩, h.ready.clean, h.ready.faultless⟩,
    h.grows.trans (Grammar.grows_withNode q atom shape), h.mode_eq⟩

theorem composite (h : p.Reaches ws q) (ok : Bool) : p.Reaches ws { q with compositeOk := ok } :=
  ⟨⟨h.ready.words_eq, ⟨h.ready.settled.curr, h.ready.settled.ahead⟩, h.ready.clean, h.ready.faultless⟩, h.grows,
    h.mode_eq⟩

end Parser.Reaches

/-- The node `n` stands at `id`. -/
structure Tree.Holds (t : Tree) (id : NodeId) (n : Node) : Prop where
  index_lt : id.index < t.size
  node_eq : t.node id = n

theorem Tree.Holds.op_eq {t : Tree} {id : NodeId} {n : Node} (h : t.Holds id n) : t.op id = n.atom.token := by
  rw [op, h.node_eq]
  rfl

theorem Tree.Holds.grow {t t' : Tree} {id : NodeId} {n : Node} (h : t.Holds id n) (hgrows : t.Grows t') :
    t'.Holds id n :=
  ⟨Nat.lt_of_lt_of_le h.index_lt hgrows.size_le, (hgrows.node_eq id h.index_lt).trans h.node_eq⟩

theorem Grammar.holds_withNode (p : Parser) (atom : Atom) (shape : NodeShape) :
    (withNode p atom shape).tree.Holds (nextId p) { atom, shape } := by
  refine ⟨?_, ?_⟩
  · simp [Tree.size, withNode, nextId]
  · rw [node_withNode, if_pos rfl]

end GoSource
