import GoSource.Proofs.Grammar.Move
import Mathlib.Data.Option.Defs

/-!
# Two runs of the grammar

Parsing decides by tokens alone.  Two parsers that look at the same tokens do the same, even if one of them may
report less than the other or keeps comments that the other drops.

* **`Pairing`** says in what two runs may differ: in their journals, in the comments of their atoms, and in their
  modes.  Reports must keep the journals paired.
* **`Pairing.Twins`**: two states that differ in nothing else.
* **`Pairing.Alike m m'`**: from twins, the actions `m` and `m'` return the same and lead to twins.
-/

namespace GoSource

/-- The journal after a complaint: a report, unless the last entry is about the same line. -/
def Journal.complain (j : Journal) (d : Diagnostic SourceFault) : Journal :=
  if j.entries.back?.any (·.position.line == d.position.line) then j else j.report d

namespace Scanner

/-- The scanner with another journal. -/
def withJournal (s : Scanner) (j : Journal) : Scanner :=
  { s with reader := { s.reader with journal := j } }

@[simp] theorem journal_withJournal (s : Scanner) (j : Journal) : (s.withJournal j).journal = j := rfl

@[simp] theorem file_withJournal (s : Scanner) (j : Journal) : (s.withJournal j).file = s.file := rfl

@[simp] theorem stream_withJournal (s : Scanner) (j : Journal) : (s.withJournal j).stream = s.stream := rfl

theorem scanPast_of_none {s : Scanner} (h : s.stream.pop? = none) (comments : List String) :
    s.scanPast comments = ((s.deliverEnd.1, comments), s.deliverEnd.2) := by
  rw [scanPast]
  split
  · rename_i hpop
    rw [h] at hpop
    cases hpop
  · rfl

theorem scanPast_of_some {s : Scanner} {item : Item} {rest : TokenStream} (h : s.stream.pop? = some (item, rest))
    (comments : List String) :
    s.scanPast comments =
      if item.token = .comment then (s.deliver item rest).2.scanPast (comments ++ [item.literal])
      else (((s.deliver item rest).1, comments), (s.deliver item rest).2) := by
  rw [scanPast]
  split
  · rename_i hpop
    rw [h] at hpop
    cases hpop
    rfl
  · rename_i hpop
    rw [h] at hpop
    cases hpop

end Scanner

/-- Trees of one size with the same nodes are the same. -/
theorem Tree.ext_node {t t' : Tree} (hsize : t'.nodes.size = t.nodes.size) (h : ∀ id, t'.node id = t.node id) :
    t' = t := by
  have hnodes : t'.nodes = t.nodes := by
    refine Array.ext hsize fun i hi hi' => ?_
    have hnode := h ⟨i⟩
    simpa [node, hi, hi'] using hnode
  cases t
  cases t'
  exact congrArg Tree.mk hnodes

theorem Parser.complain_eq (p : Parser) (d : Diagnostic SourceFault) :
    p.complain d = { p with scanner := p.scanner.withJournal (p.journal.complain d) } := by
  unfold Parser.complain Journal.complain
  rw [Parser.lastEntryOnLine]
  split <;> rfl

namespace Grammar

/-- In what two runs may differ. -/
structure Pairing where
  /-- What each of them has reported. -/
  journals : Journal → Journal → Prop
  /-- The comments that each of them keeps. -/
  comments : List String → List String → Prop
  /-- What each of them accepts. -/
  modes : Mode → Mode → Prop
  journals_report : ∀ {j j' : Journal} (d : Diagnostic SourceFault), journals j j' → journals (j.report d) (j'.report d)
  journals_complain : ∀ {j j' : Journal} (d : Diagnostic SourceFault),
    journals j j' → journals (j.complain d) (j'.complain d)
  comments_nil : comments [] []
  comments_kept : ∀ {m m' : Mode}, modes m m' → ∀ texts : List String,
    comments (if m.comments then texts else []) (if m'.comments then texts else [])

namespace Pairing

variable (c : Pairing) {α β σ : Type}

/-- Atoms that differ in their comments only. -/
structure Kin (a a' : Atom) : Prop where
  token_eq : a'.token = a.token
  pos_eq : a'.pos = a.pos
  stop_eq : a'.stop = a.stop
  literal_eq : a'.literal = a.literal
  comments : c.comments a.comments a'.comments

/-- Nodes that differ in the comments of their atoms only. -/
structure NodeKin (n n' : Node) : Prop where
  atom : c.Kin n.atom n'.atom
  shape_eq : n'.shape = n.shape

/-- Trees that differ in the comments of their atoms only. -/
structure TreeTwins (t t' : Tree) : Prop where
  size_eq : t'.nodes.size = t.nodes.size
  node : ∀ id, c.NodeKin (t.node id) (t'.node id)

/-- States that differ in nothing but what the pairing allows. -/
structure Twins (p q : Parser) : Prop where
  scanner : q.scanner = p.scanner.withJournal q.journal
  journals : c.journals p.journal q.journal
  tree : c.TreeTwins p.tree q.tree
  modes : c.modes p.mode q.mode
  curr : c.Kin p.curr q.curr
  ahead : Option.Rel c.Kin p.ahead q.ahead
  compositeOk : q.compositeOk = p.compositeOk

/-- From twins the two actions return the same and lead to twins. -/
def Alike (m m' : ParseM α) : Prop :=
  ∀ p q, c.Twins p q → (m' q).1 = (m p).1 ∧ c.Twins (m p).2 (m' q).2

variable {c}

/-! ### Atoms and trees -/

section Kin

variable {a a' : Atom}

theorem Kin.withPos (h : c.Kin a a') (pos : Pos) : c.Kin { a with pos } { a' with pos } :=
  { h with pos_eq := rfl }

theorem Kin.withToken (h : c.Kin a a') (token : Token) : c.Kin { a with token } { a' with token } :=
  { h with token_eq := rfl }

/-- Atoms without comments. -/
theorem Kin.bare (h : a.comments = []) : c.Kin a a :=
  ⟨rfl, rfl, rfl, rfl, by rw [h]; exact c.comments_nil⟩

end Kin

namespace TreeTwins

variable {t t' : Tree}

theorem op_eq (h : c.TreeTwins t t') (id : NodeId) : t'.op id = t.op id :=
  (h.node id).atom.token_eq

theorem pos_eq (h : c.TreeTwins t t') (id : NodeId) : t'.pos id = t.pos id :=
  (h.node id).atom.pos_eq

theorem isBad_eq (h : c.TreeTwins t t') (id : NodeId) : t'.isBad id = t.isBad id := by
  unfold Tree.isBad Node.isBad
  rw [(h.node id).shape_eq]

theorem children_eq (h : c.TreeTwins t t') (id : NodeId) : t'.children id = t.children id := by
  unfold Tree.children Node.children
  rw [(h.node id).shape_eq]

theorem part?_eq (h : c.TreeTwins t t') (id : NodeId) (place : Nat) : t'.part? id place = t.part? id place := by
  unfold Tree.part?
  rw [h.children_eq]

theorem stop_eq (h : c.TreeTwins t t') (id : NodeId) : t'.stop id = t.stop id := by
  have hpresent (id : NodeId) : t'.present id = t.present id := by
    unfold Tree.present
    rw [h.children_eq]
  fun_induction Tree.stop t id with
  | case1 id last hlast hlt ih =>
      rw [Tree.stop, hpresent, hlast]
      dsimp only
      rw [if_pos hlt, ih]
  | case2 id last hlast hlt =>
      rw [Tree.stop, hpresent, hlast]
      dsimp only
      rw [if_neg hlt, (h.node id).atom.stop_eq]
  | case3 id hlast =>
      rw [Tree.stop, hpresent, hlast]
      exact (h.node id).atom.stop_eq

/-- Where the comments are the same, so are the trees. -/
theorem eq (hc : ∀ {l l' : List String}, c.comments l l' → l = l') (h : c.TreeTwins t t') : t' = t := by
  refine Tree.ext_node h.size_eq fun id => ?_
  rcases hnode : t.node id with ⟨⟨token, pos, stop, literal, comments⟩, shape⟩
  rcases hnode' : t'.node id with ⟨⟨token', pos', stop', literal', comments'⟩, shape'⟩
  obtain ⟨⟨rfl, rfl, rfl, rfl, hcomments⟩, rfl⟩ := hnode ▸ hnode' ▸ h.node id
  obtain rfl : comments = comments' := hc hcomments
  rfl

/-- Trees stay twins when a node is made in both. -/
theorem push (h : c.TreeTwins t t') {a a' : Atom} (ha : c.Kin a a') (shape : NodeShape) :
    c.TreeTwins { nodes := t.nodes.push { atom := a, shape } } { nodes := t'.nodes.push { atom := a', shape } } := by
  refine ⟨by rw [Array.size_push, Array.size_push, h.size_eq], fun id => ?_⟩
  have hid := node_withNode { tree := t } a shape id
  have hid' := node_withNode { tree := t' } a' shape id
  have hnext : nextId { tree := t' } = nextId { tree := t } := congrArg NodeId.mk h.size_eq
  unfold withNode at hid hid'
  rw [hid, hid', hnext]
  split
  · exact ⟨ha, rfl⟩
  · exact h.node id

end TreeTwins

/-! ### States -/

namespace Twins

variable {p q : Parser}

theorem file_eq (h : c.Twins p q) : q.file = p.file := by
  unfold Parser.file
  rw [h.scanner]
  rfl

theorem left_eq (h : c.Twins p q) : q.left = p.left := by
  have hstream : q.scanner.stream = p.scanner.stream := by rw [h.scanner]; rfl
  have hahead {x y : Option Atom} (hxy : Option.Rel c.Kin x y) :
      y.elim 0 (fun a => if a.token = .eof then 0 else 1) = x.elim 0 fun a => if a.token = .eof then 0 else 1 := by
    cases hxy with
    | none => rfl
    | some ha =>
        dsimp only [Option.elim]
        rw [ha.token_eq]
  unfold Parser.left
  dsimp only
  rw [hstream, h.curr.token_eq, hahead h.ahead]

/-- The journals change in step. -/
theorem withJournal (h : c.Twins p q) {j j' : Journal} (hj : c.journals j j') :
    c.Twins { p with scanner := p.scanner.withJournal j } { q with scanner := q.scanner.withJournal j' } := by
  refine ⟨?_, hj, h.tree, h.modes, h.curr, h.ahead, h.compositeOk⟩
  show q.scanner.withJournal j' = (p.scanner.withJournal j).withJournal j'
  rw [h.scanner]
  rfl

theorem complain (h : c.Twins p q) (d : Diagnostic SourceFault) : c.Twins (p.complain d) (q.complain d) := by
  rw [Parser.complain_eq, Parser.complain_eq]
  exact h.withJournal (c.journals_complain d h.journals)

end Twins

/-- The next token is the same, and its fault is reported in both runs. -/
theorem deliver_withJournal (s : Scanner) (item : Item) (rest : TokenStream) {j : Journal}
    (hj : c.journals s.journal j) :
    ∃ j', (s.withJournal j).deliver item rest = ((s.deliver item rest).1, (s.deliver item rest).2.withJournal j') ∧
      c.journals (s.deliver item rest).2.journal j' := by
  unfold Scanner.deliver Scanner.reportFault
  cases item.fault with
  | none => exact ⟨j, rfl, hj⟩
  | some fault => exact ⟨_, rfl, c.journals_report _ hj⟩

theorem scanPast_withJournal (s : Scanner) (comments : List String) {j : Journal} (hj : c.journals s.journal j) :
    ∃ j', (s.withJournal j).scanPast comments = ((s.scanPast comments).1, (s.scanPast comments).2.withJournal j') ∧
      c.journals (s.scanPast comments).2.journal j' := by
  induction hlength : s.stream.items.length using Nat.strongRecOn generalizing s comments j with
  | ind n ih =>
    subst hlength
    cases hpop : s.stream.pop? with
    | none =>
        rw [Scanner.scanPast_of_none hpop, Scanner.scanPast_of_none (s := s.withJournal j) hpop]
        exact ⟨j, rfl, hj⟩
    | some popped =>
        obtain ⟨item, rest⟩ := popped
        obtain ⟨j', hdelivered, hj'⟩ := deliver_withJournal s item rest hj
        rw [Scanner.scanPast_of_some hpop, Scanner.scanPast_of_some (s := s.withJournal j) hpop, hdelivered]
        split
        · exact ih _ (TokenStream.length_pop? hpop) _ _ hj' rfl
        · exact ⟨j', rfl, hj'⟩

theorem Twins.advance {p q : Parser} (h : c.Twins p q) : c.Twins p.advance q.advance := by
  have hahead := h.ahead
  cases hp : p.ahead with
  | some a =>
      obtain ⟨a', hq, ha⟩ : ∃ a', q.ahead = some a' ∧ c.Kin a a' := by
        rw [hp] at hahead
        cases hq : q.ahead with
        | none => rw [hq] at hahead; cases hahead
        | some a' => rw [hq] at hahead; cases hahead with | some ha => exact ⟨a', rfl, ha⟩
      rw [Parser.advance_of_some hp, Parser.advance_of_some hq]
      exact { h with curr := ha, ahead := .none }
  | none =>
      have hq : q.ahead = none := by
        rw [hp] at hahead
        cases hq : q.ahead with
        | none => rfl
        | some a' => rw [hq] at hahead; cases hahead
      obtain ⟨j, hscan, hj⟩ := scanPast_withJournal p.scanner [] h.journals
      rw [Parser.advance_of_none hp, Parser.advance_of_none hq, h.scanner, hscan]
      refine ⟨rfl, hj, h.tree, h.modes, ⟨rfl, rfl, rfl, rfl, c.comments_kept h.modes _⟩, ?_, h.compositeOk⟩
      rw [hp, hq]
      exact .none

/-! ### Actions -/

namespace Alike

variable {m m' : ParseM α} {f f' : α → ParseM β}

theorem pure (x : α) : c.Alike (Pure.pure x) (Pure.pure x) :=
  fun _ _ h => ⟨rfl, h⟩

theorem bind (h : c.Alike m m') (hf : ∀ x, c.Alike (f x) (f' x)) : c.Alike (m >>= f) (m' >>= f') := by
  intro p q hpq
  obtain ⟨heq, htwins⟩ := h p q hpq
  show (f' (m' q).1 (m' q).2).1 = _ ∧ c.Twins (f (m p).1 (m p).2).2 (f' (m' q).1 (m' q).2).2
  rw [heq]
  exact hf _ _ _ htwins

theorem map (h : c.Alike m m') (f : α → β) : c.Alike (f <$> m) (f <$> m') := by
  intro p q hpq
  obtain ⟨heq, htwins⟩ := h p q hpq
  exact ⟨congrArg f heq, htwins⟩

theorem ite {b : Prop} [Decidable b] {l l' r r' : ParseM α} (hl : c.Alike l l') (hr : c.Alike r r') :
    c.Alike (if b then l else r) (if b then l' else r') := by
  by_cases hb : b
  · rw [if_pos hb, if_pos hb]
    exact hl
  · rw [if_neg hb, if_neg hb]
    exact hr

/-- A step that depends on a condition, and what follows it. -/
theorem ite_bind {b : Prop} [Decidable b] {l l' r r' : ParseM α} (hl : c.Alike l l') (hr : c.Alike r r')
    (hf : ∀ x, c.Alike (f x) (f' x)) :
    c.Alike (if b then l >>= f else r >>= f) (if b then l' >>= f' else r' >>= f') :=
  ite (hl.bind hf) (hr.bind hf)

/-- A step that is taken on a condition, and what follows it. -/
theorem ite_then {b : Prop} [Decidable b] {l l' : ParseM Unit} {k k' : Unit → ParseM β} (hl : c.Alike l l')
    (hk : c.Alike (k ()) (k' ())) :
    c.Alike (if b then l >>= k else k ()) (if b then l' >>= k' else k' ()) :=
  ite (hl.bind fun _ => hk) hk

/-- What is looked at may differ, as twins do. -/
theorem get {k k' : Parser → ParseM β} (h : ∀ p q, c.Twins p q → c.Alike (k p) (k' q)) :
    c.Alike (MonadState.get >>= k) (MonadState.get >>= k') :=
  fun p q hpq => h p q hpq p q hpq

/-- Atoms may differ in their comments. -/
theorem makeAtom {token : Token} {k k' : Atom → ParseM β} (h : ∀ a a', c.Kin a a' → c.Alike (k a) (k' a')) :
    c.Alike (Grammar.makeAtom token >>= k) (Grammar.makeAtom token >>= k') := by
  intro p q hpq
  refine h (Grammar.makeAtom token p).1 (Grammar.makeAtom token q).1 ?_ _ _ ?_
  · refine ⟨rfl, hpq.curr.pos_eq, hpq.curr.stop_eq, ?_, hpq.curr.comments⟩
    show (if token = q.curr.token then q.curr.literal else "") = if token = p.curr.token then p.curr.literal else ""
    rw [hpq.curr.token_eq, hpq.curr.literal_eq]
  · exact { hpq with curr := { hpq.curr with comments := c.comments_nil } }

/-- A production that opens with a token: the token is made into an atom and passed over. -/
theorem lead {token : Token} {k k' : Atom → ParseM β} (h : ∀ a a', c.Kin a a' → c.Alike (k a) (k' a')) :
    c.Alike (Grammar.makeAtom token >>= fun a => Grammar.next >>= fun _ => k a)
      (Grammar.makeAtom token >>= fun a => Grammar.next >>= fun _ => k' a) :=
  makeAtom fun a a' ha => bind (fun _ _ hpq => ⟨rfl, hpq.advance⟩) fun _ => h a a' ha

end Alike

end Pairing

variable {c : Pairing} {α β σ : Type}

theorem tok_alike : c.Alike tok tok :=
  fun _ _ h => ⟨h.curr.token_eq, h⟩

theorem here_alike : c.Alike here here :=
  fun _ _ h => ⟨h.curr.pos_eq, h⟩

theorem left_alike : c.Alike left left :=
  fun _ _ h => ⟨h.left_eq, h⟩

theorem next_alike : c.Alike next next :=
  fun _ _ h => ⟨rfl, h.advance⟩

theorem startOf_alike (id : NodeId) : c.Alike (startOf id) (startOf id) :=
  fun _ _ h => ⟨h.tree.pos_eq id, h⟩

theorem putBack_alike {a a' : Atom} (ha : c.Kin a a') : c.Alike (putBack a) (putBack a') :=
  fun _ _ h => ⟨rfl, { h with curr := ha, ahead := .some h.curr }⟩

theorem complain_alike (pos : Pos) (fault : SyntaxFault) : c.Alike (complain pos fault) (complain pos fault) := by
  intro p q h
  have hd : q.diagnose pos fault = p.diagnose pos fault := by
    unfold Parser.diagnose
    rw [h.file_eq]
  refine ⟨hd, ?_⟩
  show c.Twins (p.complain (p.diagnose pos fault)) (q.complain (q.diagnose pos fault))
  rw [hd]
  exact h.complain _

theorem withComposite_alike {m m' : ParseM α} (ok : Bool) (h : c.Alike m m') :
    c.Alike (withComposite ok m) (withComposite ok m') := by
  refine .get fun p q hpq => ?_
  rw [hpq.compositeOk]
  have hset (b : Bool) : c.Alike (modify ({ · with compositeOk := b })) (modify ({ · with compositeOk := b })) :=
    fun _ _ h => ⟨rfl, { h with compositeOk := rfl }⟩
  exact (hset ok).bind fun _ => h.bind fun x => (hset _).bind fun _ => .pure x

theorem add_alike {a a' : Atom} (ha : c.Kin a a') (shape : NodeShape) : c.Alike (add a shape) (add a' shape) := by
  intro p q h
  exact ⟨congrArg NodeId.mk h.tree.size_eq, { h with tree := h.tree.push ha shape }⟩

/-- A loop whose rounds do the same does the same. -/
theorem run_alike {loop : Loop σ} (h : ∀ x, c.Alike (loop.round x) (loop.round x)) (x : σ) :
    c.Alike (loop.run x) (loop.run x) := by
  intro p q hpq
  show (loop.runFrom x q).1 = (loop.runFrom x p).1 ∧ c.Twins (loop.runFrom x p).2 (loop.runFrom x q).2
  induction hleft : p.left using Nat.strongRecOn generalizing x p q with
  | ind n ih =>
    subst hleft
    obtain ⟨hturn, htwins⟩ := h x p q hpq
    rw [Loop.runFrom, Loop.runFrom, hpq.curr.token_eq, hpq.left_eq]
    split
    · rcases hp : loop.round x p with ⟨turn, p'⟩
      rcases hq : loop.round x q with ⟨turn', q'⟩
      rw [hp, hq] at hturn htwins
      dsimp only at hturn htwins
      subst hturn
      cases turn' with
      | done y => exact ⟨rfl, htwins⟩
      | again y =>
          dsimp only
          rw [htwins.left_eq]
          split
          · rename_i hlt
            exact ih p'.left hlt y p' q' htwins rfl
          · exact ⟨rfl, htwins⟩
    · exact ⟨rfl, hpq⟩

end Grammar

end GoSource
