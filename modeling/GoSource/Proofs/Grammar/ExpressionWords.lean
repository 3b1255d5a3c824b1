import GoSource.Proofs.Grammar.Rendering
import GoSource.Proofs.Grammar.SignatureWords

/-!
# The words of an expression

What the productions for expressions do on the words of a well-formed expression.  One tree is fixed; the words are
those of a node of it, and the node that is made from them is shown as that node is.

* **`PrimaryWords`**: the words are an operand with its suffixes, to which further suffixes may be added.
* **`UnaryWords`**: the words are an expression without binary operators at its top.
* **`ExprWords level`**: the words are an expression whose binary operators at the top bind at least as tightly as
  `level`.  A loop for operators that bind less tightly goes on after it.
* One lemma a production: from the words of the parts to the words of the whole.
-/

namespace GoSource

/-- The token of the first word, or the end of the text. -/
def headToken (ws : List Word) : Token :=
  (ws.head?.map Prod.fst).getD .eof

/-- What opens words opens longer ones. -/
theorem opens_append {f : Token → Bool} (heof : f .eof = false) {ws : List Word} (h : f (headToken ws) = true)
    (rest : List Word) : f (headToken (ws ++ rest)) = true := by
  cases ws with
  | nil => exact absurd (heof.symm.trans h) (by decide)
  | cons w ws => exact h

theorem Parser.Ready.head_eq {p : Parser} {ws : List Word} (h : p.Ready ws) : p.curr.token = headToken ws := by
  cases ws with
  | nil => exact h.eof
  | cons w ws => exact h.token_eq

namespace Grammar

open GoSource.Tree

/-- Tokens that open an operand that is no type. -/
def opensOperand : Token → Bool
  | .lit _ | .op .lparen => true
  | _ => false

/-- Tokens that open an expression that is no type. -/
def opensExpr : Token → Bool
  | .lit _ | .op .lparen | .op .arrow => true
  | .op o => isUnary o
  | _ => false

theorem opensExpr_of_opensOperand {token : Token} (h : opensOperand token = true) : opensExpr token = true := by
  unfold opensOperand at h
  split at h
  · rfl
  · rfl
  · cases h

/-- The words `ws` are the operand `id` of `t` with its suffixes. -/
structure PrimaryWords (t : Tree) (id : NodeId) (ws : List Word) : Prop where
  opens : opensOperand (headToken ws) = true
  run : ∀ {p rest}, p.Ready (ws ++ rest) →
    ∃ id' q, (operand grammar >>= suffixes grammar) p = suffixes grammar id' q ∧ p.Reaches rest q ∧
      t.Echoes id q.tree id'

/-- The words `ws` are the expression `id` of `t`, which has no binary operator at its top. -/
structure UnaryWords (t : Tree) (id : NodeId) (ws : List Word) : Prop where
  opens : opensExpr (headToken ws) = true
  run : ∀ {p rest}, p.Ready (ws ++ rest) → extendsOperand (headToken rest) = false →
    ∃ id' q, grammar.unary p = (id', q) ∧ p.Reaches rest q ∧ t.Echoes id q.tree id'

/-- The words `ws` are the expression `id` of `t`, whose operators at its top bind at least as tightly as `level`. -/
structure ExprWords (t : Tree) (level : Nat) (id : NodeId) (ws : List Word) : Prop where
  opens : opensExpr (headToken ws) = true
  run : ∀ {p rest}, p.Ready (ws ++ rest) → extendsOperand (headToken rest) = false →
    (headToken rest).precedence ≤ level →
    ∃ id' q, p.Reaches rest q ∧ t.Echoes id q.tree id' ∧
      ∀ m, 1 ≤ m → m ≤ level → grammar.binary m p = (binaryLoop grammar m).run id' q

/-- Tokens with which no expression goes on. -/
structure EndsExpr (token : Token) : Prop where
  extends_eq : extendsOperand token = false
  precedence_eq : token.precedence = 0

variable {t : Tree} {id x y : NodeId} {o : Operator} {level : Nat} {p q : Parser} {ws vs rest : List Word}

theorem unary_run (p : Parser) : grammar.unary p = unaryExpr grammar p :=
  congrFun grammar_closed.unary p

theorem binary_run {m : Nat} (hm : 1 ≤ m) (p : Parser) : grammar.binary m p = binaryExpr grammar m p :=
  congrFun (grammar_closed.binary m hm) p

/-- An expression where one is due. -/
theorem ExprWords.expr_run (h : ExprWords t 1 x ws) (hp : p.Ready (ws ++ rest)) (hrest : EndsExpr (headToken rest)) :
    ∃ x' q, grammar.expr p = (x', q) ∧ p.Reaches rest q ∧ t.Echoes x q.tree x' := by
  have hprecedence := hrest.precedence_eq
  obtain ⟨x', q, hreaches, hecho, hrun⟩ := h.run hp hrest.extends_eq (by omega)
  refine ⟨x', q, ?_, hreaches, hecho⟩
  rw [Rules.expr, hrun 1 (Nat.le_refl 1) (Nat.le_refl 1)]
  refine Loop.run_stop (decide_eq_false ?_)
  rw [hreaches.ready.head_eq]
  omega

/-- Where an expression opens, the current token is none that cannot open one. -/
theorem head_ne (hopens : opensExpr (headToken ws) = true) (hp : p.Ready (ws ++ rest)) {token : Token}
    (htoken : opensExpr token = false) : p.curr.token ≠ token := by
  rintro rfl
  rw [hp.head_eq, opens_append rfl hopens] at htoken
  cases htoken

/-! ### Operators -/

theorem PrimaryWords.unary (h : PrimaryWords t id ws) : UnaryWords t id ws := by
  refine ⟨opensExpr_of_opensOperand h.opens, fun {p rest} hp hrest => ?_⟩
  obtain ⟨id', q, hrun, hreaches, hecho⟩ := h.run hp
  refine ⟨id', q, ?_, hreaches, hecho⟩
  have hstop : suffixes grammar id' q = (id', q) := by
    refine Loop.run_stop ?_
    rw [hreaches.ready.head_eq]
    exact hrest
  have hopens := opens_append rfl h.opens rest
  rw [← hp.head_eq] at hopens
  rw [unary_run, unaryExpr, run_bind (tok_run p), ← hstop, ← hrun]
  unfold opensOperand at hopens
  split at hopens
  · rename_i htoken
    rw [htoken]
  · rename_i htoken
    rw [htoken]
    rfl
  · cases hopens

theorem UnaryWords.expr (h : UnaryWords t id ws) (level : Nat) : ExprWords t level id ws := by
  refine ⟨h.opens, fun {p rest} hp hextends _ => ?_⟩
  obtain ⟨id', q, hrun, hreaches, hecho⟩ := h.run hp hextends
  refine ⟨id', q, hreaches, hecho, fun m hm _ => ?_⟩
  rw [binary_run hm, binaryExpr, run_bind hrun]

/-- Operators that stand before their operand, with the one that receives. -/
theorem unaryExpr_run (ho : isUnary o = true ∨ o = .arrow) (hp : p.curr.token = .op o)
    (hchan : p.advance.curr.token ≠ .kw .chan) (hrun : grammar.unary p.advance = (x, q)) :
    unaryExpr grammar p = (nextId q, withNode q (atomOf p (.op o)) (.unary (some x))) := by
  rw [unaryExpr, run_bind (tok_run p), hp]
  rcases ho with ho | rfl
  · have hlead : (do
        let atom ← makeAtom (.op o)
        next
        let x ← grammar.unary
        add atom (.unary (some x)) : ParseM NodeId) p =
          (nextId q, withNode q (atomOf p (.op o)) (.unary (some x))) := by
      rw [lead_run, run_bind hrun, add_run]
    cases o <;> first | exact hlead | cases ho
  · refine (lead_run (.op .arrow) p).trans ?_
    rw [run_bind (tok_run _), if_neg hchan, run_bind hrun, add_run]

/-- A unary operator and its operand. -/
theorem unaryWords_unary (hid : t.Is id (.op o) (.unary (some x))) (ho : isUnary o = true ∨ o = .arrow)
    (h : UnaryWords t x ws) : UnaryWords t id ((.op o, "") :: ws) := by
  refine ⟨?_, fun {p rest} hp hrest => ?_⟩
  · rcases ho with ho | rfl
    · cases o <;> first | rfl | cases ho
    · rfl
  · have hstart := (Parser.Reaches.refl hp).advance
    obtain ⟨x', q, hrun, hreaches, hecho⟩ := h.run hstart.ready hrest
    refine ⟨nextId q, withNode q (atomOf p (.op o)) (.unary (some x')), ?_, (hstart.trans hreaches).withNode _ _,
      echoes_withNode hid rfl rfl rfl (.cons (.some hecho) .nil)⟩
    rw [unary_run]
    exact unaryExpr_run ho hp.token_eq (head_ne h.opens hstart.ready rfl) hrun

theorem extendsOperand_of_precedence (h : 1 ≤ o.precedence) : extendsOperand (.op o) = false := by
  cases o <;> first | rfl | cases h

/-- A binary operator and its operands.  The loop that comes upon the left one goes on with the right one, which takes
in only operators that bind more tightly. -/
theorem exprWords_binary (hid : t.Is id (.op o) (.binary (some x) (some y))) (hpos : 1 ≤ o.precedence)
    (hlevel : level ≤ o.precedence) (hx : ExprWords t o.precedence x ws) (hy : ExprWords t (o.precedence + 1) y vs) :
    ExprWords t level id (ws ++ (.op o, "") :: vs) := by
  refine ⟨opens_append rfl hx.opens _, fun {p rest} hp hextends hprecedence => ?_⟩
  rw [List.append_assoc] at hp
  obtain ⟨x', q, hreaches, hecho, hrun⟩ := hx.run hp (extendsOperand_of_precedence hpos) (Nat.le_refl _)
  obtain ⟨y', r, hreaches', hecho', hrun'⟩ := hy.run hreaches.advance.ready hextends (by omega)
  -- What follows binds no more tightly than the operator, so the loop of the right operand stops there.
  have hoperand : grammar.binary (o.precedence + 1) q.advance = (y', r) := by
    rw [hrun' _ (by omega) (Nat.le_refl _)]
    refine Loop.run_stop (decide_eq_false ?_)
    rw [hreaches'.ready.head_eq]
    omega
  have hleft := hecho.grow (q.tree_advance ▸ hreaches'.grows)
  refine ⟨nextId r, withNode r (atomOf q (.op o)) (.binary (some x') (some y')),
    (hreaches.advance.trans hreaches').withNode _ _,
    echoes_withNode hid rfl rfl rfl (.cons (.some hleft) (.cons (.some hecho') .nil)), fun m hm hmlevel => ?_⟩
  have htoken : q.curr.token = .op o := hreaches.ready.token_eq
  rw [hrun m hm (by omega)]
  refine Loop.run_again (grammar_loopsAdvance.binary m hm) (decide_eq_true ?_) ?_
  · rw [htoken]
    exact Nat.le_trans hmlevel hlevel
  · unfold binaryLoop
    dsimp only
    rw [run_bind (tok_run q), htoken, lead_run]
    refine (run_bind hoperand).trans ?_
    rw [run_bind (add_run _ _ r)]
    rfl

/-! ### Operands -/

theorem leaveNode_run {token : Token} (node : NodeId) (h : p.curr.token = token) :
    leaveNode node token p = (node, p.advance) := by
  rw [leaveNode, run_bind (tok_run p), if_pos h]
  rfl

/-- A name or a literal. -/
theorem primaryWords_atom {c : LiteralClass} {l : String} (hid : t.Is id (.lit c) .leaf)
    (hliteral : t.literal id = l) : PrimaryWords t id [(.lit c, l)] := by
  refine ⟨rfl, fun {p rest} hp => ?_⟩
  obtain ⟨id', q, hrun, hreaches, hleaf⟩ := parseAtom_run hp
  refine ⟨id', q, run_bind ?_, hreaches, echoes_leaf (w := (.lit c, l)) hid hliteral hleaf⟩
  rw [operand, run_bind (tok_run p), hp.token_eq]
  cases c with
  | ident =>
      show parseIdent p = (id', q)
      rw [parseIdent, run_bind (tok_run p), if_pos hp.token_eq, hrun]
  | int | float | imag | char | string => exact hrun

/-- An expression in parentheses. -/
theorem primaryWords_paren (hid : t.Is id (.op .lparen) (.unary (some x))) (h : ExprWords t 1 x ws) :
    PrimaryWords t id ((.op .lparen, "") :: ws ++ [(.op .rparen, "")]) := by
  refine ⟨rfl, fun {p rest} hp => ?_⟩
  rw [List.append_assoc] at hp
  have hstart := (Parser.Reaches.refl hp).advance.composite true
  obtain ⟨x', q, hrun, hreaches, hecho⟩ := h.expr_run hstart.ready ⟨rfl, rfl⟩
  let q' : Parser := { q with compositeOk := p.advance.compositeOk }
  have hback : p.Reaches _ q' := (hstart.trans hreaches).composite _
  have hnode := hback.withNode (atomOf p (.op .lparen)) (.unary (some x'))
  refine ⟨nextId q', (withNode q' (atomOf p (.op .lparen)) (.unary (some x'))).advance, run_bind ?_, hnode.advance, ?_⟩
  · rw [operand, run_bind (tok_run p), hp.token_eq]
    refine (lead_run (.op .lparen) p).trans ?_
    rw [run_bind (withComposite_run true hrun), run_bind (add_run _ _ q')]
    exact leaveNode_run _ hnode.ready.token_eq
  · rw [Parser.tree_advance]
    exact echoes_withNode (q := q') hid rfl rfl rfl (.cons (.some hecho) .nil)

/-! ### Suffixes -/

/-- An operand goes on with a suffix. -/
theorem PrimaryWords.suffix (h : PrimaryWords t x ws) (hextends : extendsOperand (headToken vs) = true)
    (hround : ∀ {q : Parser} {rest : List Word} {x' : NodeId}, q.Ready (vs ++ rest) → t.Echoes x q.tree x' →
      ∃ id' r, (suffixLoop grammar).round x' q = (.again id', r) ∧ q.Reaches rest r ∧ t.Echoes id r.tree id') :
    PrimaryWords t id (ws ++ vs) := by
  refine ⟨opens_append rfl h.opens vs, fun {p rest} hp => ?_⟩
  rw [List.append_assoc] at hp
  obtain ⟨x', q, hrun, hreaches, hecho⟩ := h.run hp
  obtain ⟨id', r, hagain, hreaches', hecho'⟩ := hround hreaches.ready hecho
  refine ⟨id', r, ?_, hreaches.trans hreaches', hecho'⟩
  have hmore : extendsOperand q.curr.token = true := by
    rw [hreaches.ready.head_eq]
    exact opens_append rfl hextends rest
  rw [hrun]
  exact Loop.run_again grammar_loopsAdvance.suffixes hmore hagain

/-- The current token as an atom tagged `token` that starts where `x` does. -/
def atomAt (p : Parser) (token : Token) (x : NodeId) : Atom :=
  { atomOf p token with pos := p.tree.pos x }

theorem startOf_run (x : NodeId) (p : Parser) : startOf x p = (p.tree.pos x, p) := rfl

/-- A selector. -/
theorem primaryWords_selector {l : String} (hid : t.Is id (.op .period) (.binary (some x) (some y)))
    (hy : t.Is y (.lit .ident) .leaf) (hliteral : t.literal y = l) (h : PrimaryWords t x ws) :
    PrimaryWords t id (ws ++ [(.op .period, ""), (.lit .ident, l)]) := by
  refine h.suffix rfl fun {q rest x'} hq hecho => ?_
  have hstart := (Parser.Reaches.refl hq).advance
  obtain ⟨y', r, hrun, hreaches, hleaf⟩ := parseIdent_run hstart.ready
  have hx := hecho.grow (q.tree_advance ▸ hreaches.grows)
  have hy' := echoes_leaf (w := (.lit .ident, l)) hy hliteral hleaf
  refine ⟨nextId r, withNode r (atomAt q (.op .period) x') (.binary (some x') (some y')), ?_,
    (hstart.trans hreaches).withNode _ _,
    echoes_withNode hid rfl rfl rfl (.cons (.some hx) (.cons (.some hy') .nil))⟩
  unfold suffixLoop
  dsimp only
  rw [run_bind (tok_run q), hq.token_eq]
  refine run_map ?_
  rw [selectorOrAssertion, run_bind (makeAtom_run _ q), run_bind (startOf_run x' _), run_bind (next_run _),
    advance_bare, run_bind (tok_run _), hstart.ready.token_eq]
  exact run_bind hrun

/-- An index or a slice expression, from what stands between its brackets. -/
theorem PrimaryWords.brackets (h : PrimaryWords t x ws)
    (hbody : ∀ {p : Parser} {rest : List Word} {x' : NodeId} (atom : Atom), atom.token = .tag .index →
      p.Ready (vs ++ (.op .rbrack, "") :: rest) → t.Echoes x p.tree x' →
      ∃ id' q, indexBody grammar atom x' p = (id', q) ∧ p.Reaches ((.op .rbrack, "") :: rest) q ∧
        t.Echoes id q.tree id') :
    PrimaryWords t id (ws ++ (.op .lbrack, "") :: vs ++ [(.op .rbrack, "")]) := by
  rw [List.append_assoc]
  refine h.suffix rfl fun {q rest x'} hq hecho => ?_
  rw [List.cons_append, List.cons_append, List.append_assoc] at hq
  have hstart := (Parser.Reaches.refl hq).advance.composite true
  have hx : t.Echoes x q.advance.tree x' := by
    rw [Parser.tree_advance]
    exact hecho
  obtain ⟨id', r, hrun, hreaches, hecho'⟩ := hbody (atomAt q (.tag .index) x') rfl hstart.ready hx
  let r' : Parser := { r with compositeOk := q.advance.compositeOk }
  have hback : q.Reaches _ r' := (hstart.trans hreaches).composite _
  refine ⟨id', r'.advance, ?_, hback.advance, ?_⟩
  · unfold suffixLoop
    dsimp only
    rw [run_bind (tok_run q), hq.token_eq]
    refine run_map ?_
    rw [indexOrSlice, run_bind (makeAtom_run _ q), run_bind (startOf_run x' _), run_bind (next_run _), advance_bare]
    refine (run_bind (withComposite_run true hrun)).trans ?_
    exact leaveNode_run _ hback.ready.token_eq
  · rw [Parser.tree_advance]
    exact hecho'

/-- The first part between brackets, which a slice expression need not have. -/
def firstPart : ParseM Child := do
  if (← tok) = .op .colon then pure none else some <$> grammar.expr

/-- What comes after the first part between brackets. -/
def indexRest (atom : Atom) (x : NodeId) (first : Child) : ParseM NodeId := do
  if (← tok) = .op .colon then
    let kids ← sliceParts grammar x first
    add { atom with token := .tag .slice } (.list kids)
  else
    let index ← indexArguments grammar first
    add atom (.binary (some x) index)

theorem indexBody_run {atom : Atom} {first : Child} (h : firstPart p = (first, q)) :
    indexBody grammar atom x p = indexRest atom x first q := by
  rw [firstPart, run_bind (tok_run p)] at h
  rw [indexBody, run_bind (tok_run p)]
  dsimp only
  split
  · rename_i hcolon
    rw [if_pos hcolon] at h
    exact run_bind h
  · rename_i hcolon
    rw [if_neg hcolon] at h
    exact run_bind h

theorem firstPart_run (hcolon : p.curr.token ≠ .op .colon) (hrun : grammar.expr p = (x, q)) :
    firstPart p = (some x, q) := by
  rw [firstPart, run_bind (tok_run p), if_neg hcolon]
  exact run_map hrun

/-- The words `ws` are a bound of a slice expression, or nothing if it is absent. -/
inductive BoundWords (t : Tree) : Child → List Word → Prop
  | absent : BoundWords t none []
  | present {x : NodeId} {ws : List Word} (h : ExprWords t 1 x ws) : BoundWords t (some x) ws

/-- A bound that comes first in its brackets. -/
theorem BoundWords.first_run {c : Child} (h : BoundWords t c ws) (hp : p.Ready (ws ++ (.op .colon, "") :: rest)) :
    ∃ c' q, firstPart p = (c', q) ∧ p.Reaches ((.op .colon, "") :: rest) q ∧ t.EchoesPart q.tree c c' := by
  cases h with
  | absent =>
      refine ⟨none, p, ?_, .refl hp, .none⟩
      rw [firstPart, run_bind (tok_run p), if_pos hp.token_eq]
      rfl
  | @present x _ h =>
      obtain ⟨x', q, hrun, hreaches, hecho⟩ := h.expr_run hp ⟨rfl, rfl⟩
      exact ⟨some x', q, firstPart_run (head_ne h.opens hp rfl) hrun, hreaches, .some hecho⟩

/-- A bound after a colon. -/
theorem BoundWords.run {c : Child} (h : BoundWords t c ws) (hp : p.Ready ((.op .colon, "") :: ws ++ rest))
    (hrest : headToken rest = .op .colon ∨ headToken rest = .op .rbrack) :
    ∃ c' q, sliceBound grammar p = (c', q) ∧ p.Reaches rest q ∧ t.EchoesPart q.tree c c' := by
  have hstart := (Parser.Reaches.refl hp).advance
  cases h with
  | absent =>
      refine ⟨none, p.advance, ?_, hstart, .none⟩
      have htoken : p.advance.curr.token = headToken rest := hstart.ready.head_eq
      rw [sliceBound, run_bind (next_run p), run_bind (tok_run _), htoken]
      rcases hrest with hrest | hrest
      · rw [hrest]
        rfl
      · rw [hrest]
        rfl
  | @present x _ h =>
      have hends : EndsExpr (headToken rest) := by
        rcases hrest with hrest | hrest
        · rw [hrest]
          exact ⟨rfl, rfl⟩
        · rw [hrest]
          exact ⟨rfl, rfl⟩
      obtain ⟨x', q, hrun, hreaches, hecho⟩ := h.expr_run hstart.ready hends
      refine ⟨some x', q, ?_, hstart.trans hreaches, .some hecho⟩
      rw [sliceBound, run_bind (next_run p), run_bind (tok_run _)]
      generalize htoken : p.advance.curr.token = token
      split
      · exact absurd htoken (head_ne h.opens hstart.ready rfl)
      · exact absurd htoken (head_ne h.opens hstart.ready rfl)
      · exact absurd htoken (head_ne h.opens hstart.ready rfl)
      · exact run_map hrun

/-- An index. -/
theorem primaryWords_index (hid : t.Is id (.tag .index) (.binary (some x) (some y))) (h : PrimaryWords t x ws)
    (h' : ExprWords t 1 y vs) : PrimaryWords t id (ws ++ (.op .lbrack, "") :: vs ++ [(.op .rbrack, "")]) := by
  refine h.brackets fun {p rest x'} atom hatom hp hecho => ?_
  obtain ⟨y', q, hrun, hreaches, hecho'⟩ := h'.expr_run hp ⟨rfl, rfl⟩
  have htoken : q.curr.token = .op .rbrack := hreaches.ready.token_eq
  have hx := hecho.grow hreaches.grows
  refine ⟨nextId q, withNode q atom (.binary (some x') (some y')), ?_, hreaches.withNode _ _,
    echoes_withNode hid rfl rfl hatom (.cons (.some hx) (.cons (.some hecho') .nil))⟩
  have hindex : indexArguments grammar (some y') q = (some y', q) := by
    rw [indexArguments, if_neg (by simp), run_bind (tok_run q), if_pos (by rw [htoken]; decide)]
    rfl
  rw [indexBody_run (firstPart_run (head_ne h'.opens hp rfl) hrun), indexRest, run_bind (tok_run q),
    if_neg (by rw [htoken]; decide), run_bind hindex, add_run]

/-- The words `ws` are the expressions `kids` of `t` with a comma between each two of them.  They come after a comma
and are followed by a bracket. -/
def ExprsWords (t : Tree) (kids : List Child) (ws : List Word) : Prop :=
  ∀ {p : Parser} {rest : List Word} (args : List Child),
    p.Ready ((.op .comma, "") :: ws ++ (.op .rbrack, "") :: rest) →
    ∃ kids' q, (indexLoop grammar).run args p = (args ++ kids', q) ∧ p.Reaches ((.op .rbrack, "") :: rest) q ∧
      t.EchoesParts q.tree kids kids'

/-- A comma and the expression after it. -/
theorem ExprWords.indexLoop_run (h : ExprWords t 1 x ws) (args : List Child)
    (hp : p.Ready ((.op .comma, "") :: ws ++ rest)) (hrest : EndsExpr (headToken rest)) :
    ∃ x' q, (indexLoop grammar).run args p = (indexLoop grammar).run (args ++ [some x']) q ∧ p.Reaches rest q ∧
      t.Echoes x q.tree x' := by
  have hstart := (Parser.Reaches.refl hp).advance
  obtain ⟨x', q, hrun, hreaches, hecho⟩ := h.expr_run hstart.ready hrest
  refine ⟨x', q, ?_, hstart.trans hreaches, hecho⟩
  refine Loop.run_again grammar_loopsAdvance.index (by rw [hp.token_eq]; rfl) ?_
  unfold indexLoop
  dsimp only
  rw [run_bind (next_run p), run_bind (tok_run _), if_neg (head_ne h.opens hstart.ready rfl), run_bind hrun]
  rfl

theorem exprsWords_last (h : ExprWords t 1 x ws) : ExprsWords t [some x] ws := by
  intro p rest args hp
  obtain ⟨x', q, hrun, hreaches, hecho⟩ := h.indexLoop_run args hp ⟨rfl, rfl⟩
  refine ⟨[some x'], q, ?_, hreaches, .cons (.some hecho) .nil⟩
  rw [hrun]
  exact Loop.run_stop (by rw [hreaches.ready.token_eq]; rfl)

theorem exprsWords_more {kids : List Child} (h : ExprWords t 1 x ws) (h' : ExprsWords t kids vs) :
    ExprsWords t (some x :: kids) (ws ++ (.op .comma, "") :: vs) := by
  intro p rest args hp
  rw [List.cons_append, List.append_assoc] at hp
  obtain ⟨x', q, hrun, hreaches, hecho⟩ := h.indexLoop_run args hp ⟨rfl, rfl⟩
  obtain ⟨kids', r, hrun', hreaches', hechoes⟩ := h' (args ++ [some x']) hreaches.ready
  refine ⟨some x' :: kids', r, ?_, hreaches.trans hreaches', .cons (.some (hecho.grow hreaches'.grows)) hechoes⟩
  rw [hrun, hrun', List.append_assoc, List.singleton_append]

theorem listExprs_run (x : NodeId) (items : List Child) (p : Parser) :
    listExprs (some x :: items) p =
      (nextId (bare p), withNode (bare p) (atomAt p (.tag .exprs) x) (.list (some x :: items))) :=
  rfl

/-- Several indexes. -/
theorem primaryWords_indexes {z : NodeId} {kids : List Child} {us : List Word}
    (hid : t.Is id (.tag .index) (.binary (some x) (some y))) (hy : t.Is y (.tag .exprs) (.list (some z :: kids)))
    (h : PrimaryWords t x ws) (hz : ExprWords t 1 z us) (hkids : ExprsWords t kids vs) :
    PrimaryWords t id (ws ++ (.op .lbrack, "") :: (us ++ (.op .comma, "") :: vs) ++ [(.op .rbrack, "")]) := by
  refine h.brackets fun {p rest x'} atom hatom hp hecho => ?_
  rw [List.append_assoc] at hp
  obtain ⟨z', q, hrun, hreaches, hzEcho⟩ := hz.expr_run hp ⟨rfl, rfl⟩
  have htoken : q.curr.token = .op .comma := hreaches.ready.token_eq
  obtain ⟨kids', r, hloop, hreaches', hechoes⟩ := hkids [some z'] hreaches.ready
  have hlist : t.EchoesParts (bare r).tree (some z :: kids) (some z' :: kids') :=
    .cons (.some (hzEcho.grow hreaches'.grows)) hechoes
  let s := withNode (bare r) (atomAt r (.tag .exprs) z') (.list (some z' :: kids'))
  have hs : p.Reaches ((.op .rbrack, "") :: rest) s := (hreaches.trans hreaches').bare.withNode _ _
  have hyEcho : t.Echoes y s.tree (nextId (bare r)) := echoes_withNode hy rfl rfl rfl hlist
  refine ⟨nextId s, withNode s atom (.binary (some x') (some (nextId (bare r)))), ?_, hs.withNode _ _,
    echoes_withNode hid rfl rfl hatom (.cons (.some (hecho.grow hs.grows)) (.cons (.some hyEcho) .nil))⟩
  have hindex : indexArguments grammar (some z') q = (some (nextId (bare r)), s) := by
    rw [indexArguments, if_neg (by simp), run_bind (tok_run q), if_neg (not_not_intro htoken), run_bind hloop]
    exact run_map (listExprs_run z' kids' r)
  rw [indexBody_run (firstPart_run (head_ne hz.opens hp rfl) hrun), indexRest, run_bind (tok_run q),
    if_neg (by rw [htoken]; decide), run_bind hindex, add_run]

theorem indexRest_slice {atom : Atom} {first : Child} {kids : List Child} {r : Parser}
    (htoken : q.curr.token = .op .colon) (h : sliceParts grammar x first q = (kids, r)) :
    indexRest atom x first q = (nextId r, withNode r { atom with token := .tag .slice } (.list kids)) := by
  rw [indexRest, run_bind (tok_run q), if_pos htoken, run_bind h, add_run]

/-- A slice expression with two parts. -/
theorem primaryWords_slice {low high : Child} {us : List Word}
    (hid : t.Is id (.tag .slice) (.list [some x, low, high, none])) (h : PrimaryWords t x ws)
    (hlow : BoundWords t low us) (hhigh : BoundWords t high vs) :
    PrimaryWords t id (ws ++ (.op .lbrack, "") :: (us ++ (.op .colon, "") :: vs) ++ [(.op .rbrack, "")]) := by
  refine h.brackets fun {p rest x'} atom hatom hp hecho => ?_
  rw [List.append_assoc] at hp
  obtain ⟨low', q, hrun, hreaches, hlowEcho⟩ := hlow.first_run hp
  obtain ⟨high', r, hrun', hreaches', hhighEcho⟩ := hhigh.run hreaches.ready (.inr rfl)
  have hparts : t.EchoesParts r.tree [some x, low, high, none] [some x', low', high', none] :=
    .cons (.some (hecho.grow (hreaches.trans hreaches').grows)) (.cons (hlowEcho.grow hreaches'.grows)
      (.cons hhighEcho (.cons .none .nil)))
  refine ⟨nextId r, withNode r { atom with token := .tag .slice } (.list [some x', low', high', none]), ?_,
    (hreaches.trans hreaches').withNode _ _, echoes_withNode hid rfl rfl rfl hparts⟩
  rw [indexBody_run hrun]
  refine indexRest_slice hreaches.ready.token_eq ?_
  rw [sliceParts, run_bind hrun', run_bind (tok_run r), if_pos (by rw [hreaches'.ready.token_eq]; decide)]
  rfl

/-- A slice expression with three parts, of which only the first may be absent. -/
theorem primaryWords_fullSlice {z : NodeId} {low : Child} {us ts : List Word}
    (hid : t.Is id (.tag .slice) (.list [some x, low, some y, some z])) (h : PrimaryWords t x ws)
    (hlow : BoundWords t low us) (hy : ExprWords t 1 y vs) (hz : ExprWords t 1 z ts) :
    PrimaryWords t id (ws ++ (.op .lbrack, "") :: (us ++ (.op .colon, "") :: (vs ++ (.op .colon, "") :: ts)) ++
      [(.op .rbrack, "")]) := by
  refine h.brackets fun {p rest x'} atom hatom hp hecho => ?_
  rw [List.append_assoc, List.cons_append, List.append_assoc] at hp
  obtain ⟨low', q, hrun, hreaches, hlowEcho⟩ := hlow.first_run hp
  obtain ⟨high', r, hrun', hreaches', hhighEcho⟩ := (BoundWords.present hy).run hreaches.ready (.inl rfl)
  obtain ⟨max', s, hrun'', hreaches'', hmaxEcho⟩ := (BoundWords.present hz).run hreaches'.ready (.inr rfl)
  obtain ⟨hhighEcho⟩ := hhighEcho
  obtain ⟨hmaxEcho⟩ := hmaxEcho
  rename_i y' z'
  have hlater := hreaches'.trans hreaches''
  have hparts : t.EchoesParts s.tree [some x, low, some y, some z] [some x', low', some y', some z'] :=
    .cons (.some (hecho.grow (hreaches.trans hlater).grows)) (.cons (hlowEcho.grow hlater.grows)
      (.cons (.some (hhighEcho.grow hreaches''.grows)) (.cons (.some hmaxEcho) .nil)))
  refine ⟨nextId s, withNode s { atom with token := .tag .slice } (.list [some x', low', some y', some z']), ?_,
    (hreaches.trans hlater).withNode _ _, echoes_withNode hid rfl rfl rfl hparts⟩
  rw [indexBody_run hrun]
  refine indexRest_slice hreaches.ready.token_eq ?_
  rw [sliceParts, run_bind hrun', run_bind (tok_run r), if_neg (not_not_intro hreaches'.ready.token_eq),
    run_bind hrun'', if_neg (by simp)]
  rfl

/-! ### Calls -/

/-- The words `ws` are the argument `y` of a call, which may be spread. -/
structure ArgumentWords (t : Tree) (y : NodeId) (ws : List Word) : Prop where
  opens : opensExpr (headToken ws) = true
  run : ∀ {p rest}, p.Ready (ws ++ rest) → headToken rest = .op .comma ∨ headToken rest = .op .rparen →
    ∃ y' q, argument grammar p = (y', q) ∧ p.Reaches rest q ∧ t.Echoes y q.tree y'

theorem ExprWords.argument (h : ExprWords t 1 x ws) : ArgumentWords t x ws := by
  refine ⟨h.opens, fun {p rest} hp hrest => ?_⟩
  have hends : EndsExpr (headToken rest) ∧ headToken rest ≠ .op .ellipsis := by
    rcases hrest with hrest | hrest
    · rw [hrest]
      exact ⟨⟨rfl, rfl⟩, by decide⟩
    · rw [hrest]
      exact ⟨⟨rfl, rfl⟩, by decide⟩
  obtain ⟨x', q, hrun, hreaches, hecho⟩ := h.expr_run hp hends.1
  refine ⟨x', q, ?_, hreaches, hecho⟩
  rw [Grammar.argument, run_bind hrun, run_bind (tok_run q), if_pos (by rw [hreaches.ready.head_eq]; exact hends.2)]
  rfl

theorem argumentWords_spread (hy : t.Is y (.op .ellipsis) (.unary (some x))) (h : ExprWords t 1 x ws) :
    ArgumentWords t y (ws ++ [(.op .ellipsis, "")]) := by
  refine ⟨opens_append rfl h.opens _, fun {p rest} hp _ => ?_⟩
  rw [List.append_assoc] at hp
  obtain ⟨x', q, hrun, hreaches, hecho⟩ := h.expr_run hp ⟨rfl, rfl⟩
  have hx : t.Echoes x q.advance.tree x' := by
    rw [Parser.tree_advance]
    exact hecho
  refine ⟨nextId q.advance, withNode q.advance (atomOf q (.op .ellipsis)) (.unary (some x')), ?_,
    hreaches.advance.withNode _ _, echoes_withNode hy rfl rfl rfl (.cons (.some hx) .nil)⟩
  rw [Grammar.argument, run_bind hrun, run_bind (tok_run q), if_neg (not_not_intro hreaches.ready.token_eq), lead_run,
    add_run]

/-- The words `ws` are the arguments `kids` of a call with a comma between each two of them, followed by a
parenthesis. -/
def ArgumentsWords (t : Tree) (kids : List Child) (ws : List Word) : Prop :=
  ∀ {p : Parser} {rest : List Word} (args : List Child), p.Ready (ws ++ (.op .rparen, "") :: rest) →
    ∃ kids' q, (argumentsLoop grammar).run args p = (args ++ kids', q) ∧ p.Reaches ((.op .rparen, "") :: rest) q ∧
      t.EchoesParts q.tree kids kids'

theorem argumentsWords_nil (t : Tree) : ArgumentsWords t [] [] := by
  intro p rest args hp
  have htoken : p.curr.token = .op .rparen := hp.token_eq
  refine ⟨[], p, ?_, .refl hp, .nil⟩
  rw [List.append_nil]
  exact Loop.run_stop (by rw [htoken]; rfl)

/-- Another argument is due. -/
theorem ArgumentWords.more (h : ArgumentWords t y ws) (hp : p.Ready (ws ++ rest)) :
    (argumentsLoop grammar).more p.curr.token = true := by
  have hclose : p.curr.token ≠ .op .rparen := head_ne h.opens hp rfl
  have heof : p.curr.token ≠ .eof := head_ne h.opens hp rfl
  simp [argumentsLoop, hclose, heof]

theorem argumentsWords_last (h : ArgumentWords t y ws) : ArgumentsWords t [some y] ws := by
  intro p rest args hp
  obtain ⟨y', q, hrun, hreaches, hecho⟩ := h.run hp (.inr rfl)
  refine ⟨[some y'], q, Loop.run_done (h.more hp) ?_, hreaches, .cons (.some hecho) .nil⟩
  unfold argumentsLoop
  dsimp only
  rw [run_bind hrun, run_bind (tok_run q), if_pos (by rw [hreaches.ready.token_eq]; decide)]
  rfl

theorem argumentsWords_more {kids : List Child} (h : ArgumentWords t y ws) (h' : ArgumentsWords t kids vs) :
    ArgumentsWords t (some y :: kids) (ws ++ (.op .comma, "") :: vs) := by
  intro p rest args hp
  rw [List.append_assoc] at hp
  obtain ⟨y', q, hrun, hreaches, hecho⟩ := h.run hp (.inl rfl)
  obtain ⟨kids', r, hrun', hreaches', hechoes⟩ := h' (args ++ [some y']) hreaches.advance.ready
  have hy := hecho.grow (q.tree_advance ▸ hreaches'.grows)
  refine ⟨some y' :: kids', r, ?_, hreaches.advance.trans hreaches', .cons (.some hy) hechoes⟩
  have hround : (argumentsLoop grammar).round args p = (.again (args ++ [some y']), q.advance) := by
    unfold argumentsLoop
    dsimp only
    rw [run_bind hrun, run_bind (tok_run q), if_neg (not_not_intro hreaches.ready.token_eq), run_bind (next_run q)]
    rfl
  rw [Loop.run_again grammar_loopsAdvance.arguments (h.more hp) hround, hrun', List.append_assoc,
    List.singleton_append]

/-- A call. -/
theorem primaryWords_call {kids : List Child} (hid : t.Is id (.tag .call) (.list (some x :: kids)))
    (h : PrimaryWords t x ws) (h' : ArgumentsWords t kids vs) :
    PrimaryWords t id (ws ++ (.op .lparen, "") :: vs ++ [(.op .rparen, "")]) := by
  rw [List.append_assoc]
  refine h.suffix rfl fun {q rest x'} hq hecho => ?_
  rw [List.cons_append, List.cons_append, List.append_assoc] at hq
  have hstart := (Parser.Reaches.refl hq).advance.composite true
  obtain ⟨kids', r, hrun, hreaches, hechoes⟩ := h' [some x'] hstart.ready
  let r' : Parser := { r with compositeOk := q.advance.compositeOk }
  have hback : q.Reaches _ r' := (hstart.trans hreaches).composite _
  have hparts : t.EchoesParts r'.advance.tree (some x :: kids) (some x' :: kids') := by
    rw [Parser.tree_advance]
    exact .cons (.some (hecho.grow hback.grows)) hechoes
  refine ⟨nextId r'.advance, withNode r'.advance (atomAt q (.tag .call) x') (.list (some x' :: kids')), ?_,
    hback.advance.withNode _ _, echoes_withNode hid rfl rfl rfl hparts⟩
  unfold suffixLoop
  dsimp only
  rw [run_bind (tok_run q), hq.token_eq]
  refine run_map ?_
  rw [call, run_bind (makeAtom_run _ q), run_bind (startOf_run x' _), run_bind (next_run _), advance_bare]
  refine (run_bind (withComposite_run true hrun)).trans ?_
  rw [run_bind (leave_run hback.ready), List.append_nil]
  rfl

end Grammar

end GoSource
