import GoSource.Proofs.Grammar.Forward

/-!
# The words of a type

What the productions for types do on the words of a well-formed type.

* **`TypeWords`**: the words are a type, and its node has a given property.
* One lemma a production: from the words of the parts to the words of the whole, and from the properties of the
  parts to the node of the whole.
-/

namespace GoSource.Grammar

/-- A property of a node of a tree. -/
abbrev NodeProp := Tree → NodeId → Prop

/-- A property that only nodes of the tree have, and that they keep while the tree grows. -/
structure Stable (P : NodeProp) : Prop where
  index_lt : ∀ {t id}, P t id → id.index < t.size
  grow : ∀ {t t' id}, P t id → t.Grows t' → P t' id

/-- Tokens that follow a type inside another one or after a declaration. -/
def endsType : Token → Bool
  | .op .comma | .op .rparen | .op .rbrack | .op .rbrace | .op .semicolon => true
  | _ => false

/-- Something follows that ends a type. -/
def Follows (rest : List Word) : Prop :=
  ∃ w ws, rest = w :: ws ∧ endsType w.1 = true

theorem Follows.cons {t : Token} (h : endsType t = true) (l : String) (ws : List Word) : Follows ((t, l) :: ws) :=
  ⟨(t, l), ws, rfl, h⟩

/-- The words `ws` are a type whose node has the property `P`. -/
def TypeWords (ws : List Word) (P : NodeProp) : Prop :=
  ∀ p rest, p.Ready (ws ++ rest) → Follows rest →
    ∃ id q, grammar.type? p = (some id, q) ∧ p.Reaches rest q ∧ P q.tree id

variable {p q : Parser} {ws rest : List Word} {P : NodeProp}

theorem Follows.token (h : Follows rest) (hp : p.Ready rest) : endsType p.curr.token = true := by
  obtain ⟨⟨t, l⟩, ws, rfl, ht⟩ := h
  rw [hp.token_eq]
  exact ht

theorem Follows.token_ne (h : Follows rest) (hp : p.Ready rest) {t : Token} (ht : endsType t = false) :
    p.curr.token ≠ t := by
  rintro rfl
  rw [h.token hp] at ht
  cases ht

theorem type?_run (p : Parser) : grammar.type? p = typeExpr? grammar p :=
  congrFun grammar_closed.type? p

theorem type_run {id : NodeId} (h : grammar.type? p = (some id, q)) : grammar.type p = (id, q) := by
  rw [Rules.type, run_bind h]
  rfl

/-- A type where one is due. -/
theorem TypeWords.run (h : TypeWords ws P) (hp : p.Ready (ws ++ rest)) (hrest : Follows rest) :
    ∃ id q, grammar.type p = (id, q) ∧ p.Reaches rest q ∧ P q.tree id := by
  obtain ⟨id, q, hrun, hreaches, hid⟩ := h p rest hp hrest
  exact ⟨id, q, type_run hrun, hreaches, hid⟩

theorem TypeWords.mono {Q : NodeProp} (h : TypeWords ws P) (hPQ : ∀ tree id, P tree id → Q tree id) :
    TypeWords ws Q := by
  intro p rest hp hrest
  obtain ⟨id, q, hrun, hreaches, hid⟩ := h p rest hp hrest
  exact ⟨id, q, hrun, hreaches, hPQ _ _ hid⟩

/-! ### Names -/

/-- A leaf that is a given word. -/
def IsLeaf (w : Word) : NodeProp := fun t id =>
  ∃ atom, t.Holds id { atom, shape := .leaf } ∧ (atom.token, atom.literal) = w

/-- A leaf for the current token. -/
theorem parseAtom_run {t : Token} {l : String} (hp : p.Ready ((t, l) :: ws)) :
    ∃ id q, parseAtom t p = (id, q) ∧ p.Reaches ws q ∧ IsLeaf (t, l) q.tree id := by
  refine ⟨nextId p.advance, withNode p.advance (atomOf p t) .leaf, ?_, ?_, ?_⟩
  · rw [parseAtom, lead_run, add_run]
  · exact (Parser.Reaches.refl hp).advance.withNode _ _
  · refine ⟨atomOf p t, holds_withNode _ _ _, ?_⟩
    simp [atomOf, hp.token_eq, hp.literal_eq]

theorem parseIdent_run {l : String} (hp : p.Ready ((.lit .ident, l) :: ws)) :
    ∃ id q, parseIdent p = (id, q) ∧ p.Reaches ws q ∧ IsLeaf (.lit .ident, l) q.tree id := by
  obtain ⟨id, q, hrun, hothers⟩ := parseAtom_run hp
  refine ⟨id, q, ?_, hothers⟩
  rw [parseIdent, run_bind (tok_run p), if_pos hp.token_eq, hrun]

theorem typeWords_name (name : String) :
    TypeWords [(.lit .ident, name)] (IsLeaf (.lit .ident, name)) := by
  intro p rest hp hrest
  obtain ⟨id, q, hrun, hreaches, hleaf⟩ := parseIdent_run hp
  refine ⟨id, q, ?_, hreaches, hleaf⟩
  have hperiod : q.curr.token ≠ .op .period := hrest.token_ne hreaches.ready rfl
  have hbracket : q.curr.token ≠ .op .lbrack := hrest.token_ne hreaches.ready rfl
  have hname : qualifiedName p = (id, q) := by
    rw [qualifiedName, run_bind hrun, run_bind (tok_run q), if_pos hperiod]
    rfl
  rw [type?_run, typeExpr?, run_bind (tok_run p), hp.token_eq]
  refine run_map ?_
  rw [typeName, run_bind hname, run_bind (tok_run q), if_neg hbracket]
  rfl

theorem stable_isLeaf (w : Word) : Stable (IsLeaf w) where
  index_lt := fun ⟨_, hholds, _⟩ => hholds.index_lt
  grow := fun ⟨atom, hholds, hword⟩ hgrows => ⟨atom, hholds.grow hgrows, hword⟩

/-! ### Types with one part -/

/-- A node with one part. -/
def IsUnary (t : Token) (P : NodeProp) : NodeProp := fun tree id =>
  ∃ atom x, tree.Holds id { atom, shape := .unary (some x) } ∧ atom.token = t ∧ x.index < id.index ∧ P tree x

theorem isUnary_add {t : Token} {atom : Atom} {x : NodeId} (hP : Stable P) (hatom : atom.token = t)
    (hx : P q.tree x) : IsUnary t P (withNode q atom (.unary (some x))).tree (nextId q) :=
  ⟨atom, x, holds_withNode _ _ _, hatom, hP.index_lt hx, hP.grow hx (grows_withNode _ _ _)⟩

theorem stable_isUnary {t : Token} (hP : Stable P) : Stable (IsUnary t P) where
  index_lt := fun ⟨_, _, hholds, _⟩ => hholds.index_lt
  grow := fun ⟨atom, x, hholds, hatom, hlt, hx⟩ hgrows =>
    ⟨atom, x, hholds.grow hgrows, hatom, hlt, hP.grow hx hgrows⟩

theorem typeWords_pointer (hP : Stable P) (h : TypeWords ws P) :
    TypeWords ((.op .mul, "") :: ws) (IsUnary (.op .mul) P) := by
  intro p rest hp hrest
  have hstart := (Parser.Reaches.refl hp).advance
  obtain ⟨x, q, hrun, hreaches, hx⟩ := h.run hstart.ready hrest
  refine ⟨nextId q, withNode q (atomOf p (.op .mul)) (.unary (some x)), ?_,
    (hstart.trans hreaches).withNode _ _, isUnary_add hP rfl hx⟩
  rw [type?_run, typeExpr?, run_bind (tok_run p), hp.token_eq]
  refine (lead_run (.op .mul) p).trans ?_
  rw [run_bind hrun]
  exact run_map (add_run _ _ q)

/-- Parentheses around a type leave no node. -/
theorem typeWords_paren (h : TypeWords ws P) :
    TypeWords ((.op .lparen, "") :: ws ++ [(.op .rparen, "")]) P := by
  intro p rest hp hrest
  rw [List.append_assoc] at hp
  have hstart := (Parser.Reaches.refl hp).advance
  obtain ⟨x, q, hrun, hreaches, hx⟩ := h.run hstart.ready (.cons rfl _ _)
  refine ⟨x, q.advance, ?_, (hstart.trans hreaches).advance, ?_⟩
  · rw [type?_run, typeExpr?, run_bind (tok_run p), hp.token_eq]
    refine (run_bind (next_run p)).trans ?_
    rw [run_bind hrun]
    refine run_map ?_
    rw [leaveNode, run_bind (tok_run q), if_pos hreaches.ready.token_eq]
    rfl
  · rw [Parser.tree_advance]
    exact hx

/-- A channel of both directions. -/
theorem typeWords_chan (hP : Stable P) (h : TypeWords ws P) (hhead : ∀ w ∈ ws.head?, w.1 ≠ .op .arrow)
    (hne : ws ≠ []) : TypeWords ((.kw .chan, "") :: ws) (IsUnary (.tag .bothDir) P) := by
  intro p rest hp hrest
  have hstart := (Parser.Reaches.refl hp).advance
  obtain ⟨x, q, hrun, hreaches, hx⟩ := h.run hstart.ready hrest
  have harrow : p.advance.curr.token ≠ .op .arrow := by
    obtain ⟨⟨t, l⟩, vs, rfl⟩ := List.exists_cons_of_ne_nil hne
    exact hstart.ready.token_ne (hhead (t, l) rfl)
  have hdirection : chanDirection p.advance = (.tag .bothDir, p.advance) := by
    rw [chanDirection, run_bind (tok_run _), if_pos harrow]
    rfl
  refine ⟨nextId q, withNode q { atomOf p (.tag .bothDir) with token := .tag .bothDir } (.unary (some x)), ?_,
    (hstart.trans hreaches).withNode _ _, isUnary_add hP rfl hx⟩
  rw [type?_run, typeExpr?, run_bind (tok_run p), hp.token_eq]
  refine run_map ?_
  rw [chanType, lead_run, run_bind hdirection, run_bind hrun, add_run]

/-- A channel to send to. -/
theorem typeWords_sendChan (hP : Stable P) (h : TypeWords ws P) :
    TypeWords ((.kw .chan, "") :: (.op .arrow, "") :: ws) (IsUnary (.tag .sendDir) P) := by
  intro p rest hp hrest
  have hchan := (Parser.Reaches.refl hp).advance
  have hstart := hchan.advance
  obtain ⟨x, q, hrun, hreaches, hx⟩ := h.run hstart.ready hrest
  have hdirection : chanDirection p.advance = (.tag .sendDir, p.advance.advance) := by
    rw [chanDirection, run_bind (tok_run _), if_neg (not_not_intro hchan.ready.token_eq), run_bind (next_run _)]
    rfl
  refine ⟨nextId q, withNode q { atomOf p (.tag .bothDir) with token := .tag .sendDir } (.unary (some x)), ?_,
    (hstart.trans hreaches).withNode _ _, isUnary_add hP rfl hx⟩
  rw [type?_run, typeExpr?, run_bind (tok_run p), hp.token_eq]
  refine run_map ?_
  rw [chanType, lead_run, run_bind hdirection, run_bind hrun, add_run]

/-- A channel to receive from. -/
theorem typeWords_recvChan (hP : Stable P) (h : TypeWords ws P) :
    TypeWords ((.op .arrow, "") :: (.kw .chan, "") :: ws) (IsUnary (.tag .recvDir) P) := by
  intro p rest hp hrest
  have harrow := (Parser.Reaches.refl hp).advance
  have hstart := harrow.advance
  obtain ⟨x, q, hrun, hreaches, hx⟩ := h.run hstart.ready hrest
  refine ⟨nextId q, withNode q { atomOf p (.op .arrow) with token := .tag .recvDir } (.unary (some x)), ?_,
    (hstart.trans hreaches).withNode _ _, isUnary_add hP rfl hx⟩
  rw [type?_run, typeExpr?, run_bind (tok_run p), hp.token_eq]
  refine (lead_run (.op .arrow) p).trans ?_
  refine run_map ?_
  rw [recvChanType, run_bind (expect_run harrow.ready.token_eq), run_bind hrun, add_run]

/-! ### Types with two parts -/

/-- A node with two parts. -/
def IsBinary (t : Token) (P Q : NodeProp) : NodeProp := fun tree id =>
  ∃ atom x y, tree.Holds id { atom, shape := .binary (some x) (some y) } ∧ atom.token = t ∧ x.index < id.index ∧
    y.index < id.index ∧ P tree x ∧ Q tree y

theorem isBinary_add {t : Token} {Q : NodeProp} {atom : Atom} {x y : NodeId} (hP : Stable P) (hQ : Stable Q)
    (hatom : atom.token = t) (hx : P q.tree x) (hy : Q q.tree y) :
    IsBinary t P Q (withNode q atom (.binary (some x) (some y))).tree (nextId q) :=
  ⟨atom, x, y, holds_withNode _ _ _, hatom, hP.index_lt hx, hQ.index_lt hy, hP.grow hx (grows_withNode _ _ _),
    hQ.grow hy (grows_withNode _ _ _)⟩

theorem stable_isBinary {t : Token} {Q : NodeProp} (hP : Stable P) (hQ : Stable Q) : Stable (IsBinary t P Q) where
  index_lt := fun ⟨_, _, _, hholds, _⟩ => hholds.index_lt
  grow := fun ⟨atom, x, y, hholds, hatom, hlt, hlt', hx, hy⟩ hgrows =>
    ⟨atom, x, y, hholds.grow hgrows, hatom, hlt, hlt', hP.grow hx hgrows, hQ.grow hy hgrows⟩

theorem typeWords_map {vs : List Word} {Q : NodeProp} (hP : Stable P) (hQ : Stable Q) (h : TypeWords ws P)
    (h' : TypeWords vs Q) :
    TypeWords ((.kw .map, "") :: (.op .lbrack, "") :: ws ++ (.op .rbrack, "") :: vs) (IsBinary (.kw .map) P Q) := by
  intro p rest hp hrest
  rw [List.append_assoc] at hp
  have hmap := (Parser.Reaches.refl hp).advance
  have hstart := hmap.advance
  obtain ⟨x, q, hrun, hreaches, hx⟩ := h.run hstart.ready (.cons rfl _ _)
  have hbetween := hreaches.advance
  obtain ⟨y, r, hrun', hreaches', hy⟩ := h'.run hbetween.ready hrest
  have hx' : P r.tree x := hP.grow hx (q.tree_advance ▸ hreaches'.grows)
  refine ⟨nextId r, withNode r (atomOf p (.kw .map)) (.binary (some x) (some y)), ?_,
    ((hstart.trans hbetween).trans hreaches').withNode _ _, isBinary_add hP hQ rfl hx' hy⟩
  rw [type?_run, typeExpr?, run_bind (tok_run p), hp.token_eq]
  refine run_map ?_
  rw [mapType, lead_run, run_bind (expect_run hmap.ready.token_eq), run_bind hrun,
    run_bind (expect_run hreaches.ready.token_eq), run_bind hrun', add_run]

/-- The node of a slice type. -/
def IsSlice (P : NodeProp) : NodeProp := fun tree id =>
  ∃ atom x, tree.Holds id { atom, shape := .binary none (some x) } ∧ atom.token = .tag .array ∧
    x.index < id.index ∧ P tree x

theorem typeWords_slice (hP : Stable P) (h : TypeWords ws P) :
    TypeWords ((.op .lbrack, "") :: (.op .rbrack, "") :: ws) (IsSlice P) := by
  intro p rest hp hrest
  have hopen := (Parser.Reaches.refl hp).advance
  have hstart := hopen.advance
  obtain ⟨x, q, hrun, hreaches, hx⟩ := h.run hstart.ready hrest
  have hlength : arrayLength grammar p.advance = (none, p.advance) := by
    rw [arrayLength, run_bind (tok_run _), hopen.ready.token_eq]
    rfl
  refine ⟨nextId q, withNode q (atomOf p (.tag .array)) (.binary none (some x)), ?_,
    (hstart.trans hreaches).withNode _ _, atomOf p (.tag .array), x, holds_withNode _ _ _, rfl, hP.index_lt hx,
    hP.grow hx (grows_withNode _ _ _)⟩
  rw [type?_run, typeExpr?, run_bind (tok_run p), hp.token_eq]
  refine run_map ?_
  rw [arrayType, lead_run, run_bind hlength, arrayTail, run_bind (expect_run hopen.ready.token_eq), run_bind hrun,
    add_run]

/-! ### Array types -/

/-- The words `ls` are an expression with the property `P` that can be the length of an array. -/
structure LengthWords (ls : List Word) (P : NodeProp) : Prop where
  opens : ∃ w vs, ls = w :: vs ∧ w.1 ≠ .op .rbrack ∧ w.1 ≠ .op .ellipsis
  run : ∀ p rest, p.Ready (ls ++ (.op .rbrack, "") :: rest) → p.compositeOk = true →
    ∃ id q, grammar.expr p = (id, q) ∧ p.Reaches ((.op .rbrack, "") :: rest) q ∧ P q.tree id

/-- A number before a bracket is an expression of its own. -/
theorem lengthWords_int (n : String) : LengthWords [(.lit .int, n)] (IsLeaf (.lit .int, n)) := by
  refine ⟨⟨_, _, rfl, by simp, by simp⟩, fun p rest hp _ => ?_⟩
  obtain ⟨x, q, hrun, hreaches, hx⟩ := parseAtom_run hp
  have htoken := hreaches.ready.token_eq
  refine ⟨x, q, ?_, hreaches, hx⟩
  have hoperand : operand grammar p = (x, q) := by
    rw [operand, run_bind (tok_run p), hp.token_eq]
    exact hrun
  have hunary : grammar.unary p = (x, q) := by
    rw [congrFun grammar_closed.unary p, unaryExpr, run_bind (tok_run p), hp.token_eq]
    refine (run_bind hoperand).trans ?_
    exact Loop.run_stop (by rw [htoken]; rfl)
  rw [Rules.expr, congrFun (grammar_closed.binary 1 (Nat.le_refl _)) p, binaryExpr, run_bind hunary]
  exact Loop.run_stop (by rw [htoken]; rfl)

/-- The words of an array type, from those of its length and of the type of its elements. -/
def arrayWords (ls ws : List Word) : List Word :=
  (.op .lbrack, "") :: ls ++ (.op .rbrack, "") :: ws

theorem arrayWords_append (ls ws rest : List Word) :
    arrayWords ls ws ++ rest = (.op .lbrack, "") :: (ls ++ (.op .rbrack, "") :: (ws ++ rest)) := by
  simp [arrayWords]

/-- The node of an array type. -/
abbrev IsArray (P Q : NodeProp) : NodeProp :=
  IsBinary (.tag .array) P Q

theorem LengthWords.arrayLength_run {ls : List Word} (h : LengthWords ls P)
    (hp : p.Ready (ls ++ (.op .rbrack, "") :: rest)) :
    ∃ x q, arrayLength grammar p = (some x, q) ∧ p.Reaches ((.op .rbrack, "") :: rest) q ∧ P q.tree x := by
  obtain ⟨⟨t, l⟩, vs, rfl, hclose, hellipsis⟩ := h.opens
  have hstart := (Parser.Reaches.refl hp).composite true
  obtain ⟨x, q, hrun, hreaches, hx⟩ := h.run _ _ hstart.ready rfl
  refine ⟨x, { q with compositeOk := p.compositeOk }, ?_, (hstart.trans hreaches).composite _, hx⟩
  have htoken : p.curr.token = t := hp.token_eq
  rw [arrayLength, run_bind (tok_run p), htoken]
  split
  · exact absurd rfl hclose
  · exact absurd rfl hellipsis
  · exact run_map (withComposite_run true hrun)

/-- An array type after its opening bracket. -/
theorem arrayRest_run {ls : List Word} {Q : NodeProp} (atom : Atom) (hatom : atom.token = .tag .array) (hP : Stable P)
    (hQ : Stable Q) (hl : LengthWords ls P) (h : TypeWords ws Q)
    (hp : p.Ready (ls ++ (.op .rbrack, "") :: (ws ++ rest))) (hrest : Follows rest) :
    ∃ id q, (do
        let length ← arrayLength grammar
        arrayTail grammar atom length) p = (id, q) ∧ p.Reaches rest q ∧ IsArray P Q q.tree id := by
  obtain ⟨x, q, hlength, hreaches, hx⟩ := hl.arrayLength_run hp
  obtain ⟨y, r, hrun, hreaches', hy⟩ := h.run hreaches.advance.ready hrest
  have hx' : P r.tree x := hP.grow hx (q.tree_advance ▸ hreaches'.grows)
  refine ⟨nextId r, withNode r atom (.binary (some x) (some y)), ?_, (hreaches.advance.trans hreaches').withNode _ _,
    isBinary_add hP hQ hatom hx' hy⟩
  rw [run_bind hlength, arrayTail, run_bind (expect_run hreaches.ready.token_eq), run_bind hrun, add_run]

theorem typeWords_array {ls : List Word} {Q : NodeProp} (hP : Stable P) (hQ : Stable Q) (hl : LengthWords ls P)
    (h : TypeWords ws Q) : TypeWords (arrayWords ls ws) (IsArray P Q) := by
  intro p rest hp hrest
  rw [arrayWords_append] at hp
  have hopen := (Parser.Reaches.refl hp).advance
  obtain ⟨id, q, hrun, hreaches, hid⟩ := arrayRest_run (atomOf p (.tag .array)) rfl hP hQ hl h hopen.ready hrest
  refine ⟨id, q, ?_, hopen.trans hreaches, hid⟩
  rw [type?_run, typeExpr?, run_bind (tok_run p), hp.token_eq]
  refine run_map ?_
  rw [arrayType, lead_run, hrun]

end GoSource.Grammar
