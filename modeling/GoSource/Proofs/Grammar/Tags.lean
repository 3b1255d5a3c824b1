import GoSource.Proofs.Grammar.DeclarationWords
import GoSource.Proofs.Grammar.Twins

/-!
# What nodes are tagged with

A node is tagged by its construct, or with the token that its text starts with.  So only an item that starts with
`import` or `var` is tagged with this keyword.

* **`Token.heads`**: the two keywords.
* **`Headless x`**: the node `x` is tagged with another token.  **`Foreign m`**: so is every node that `m` returns.
* **`expr_foreign`**, **`statement?_foreign`**, **`declaration_foreign`**: what starts with another token.
* **`genDecl_tagged`**: what a keyword starts is tagged with it.
-/

namespace GoSource

/-- A keyword that heads an item, and tags nothing but what it heads. -/
def Token.heads : Token → Bool
  | .kw .import_ | .kw .var => true
  | _ => false

theorem Token.heads_eq_false {t : Token} (h : ¬ (t = .kw .import_ ∨ t = .kw .var)) : t.heads = false := by
  unfold heads
  split
  · exact absurd (.inl rfl) h
  · exact absurd (.inr rfl) h
  · rfl

theorem Token.heads_of_isClosing {t : Token} (h : t.isClosing = true) : t.heads = false :=
  heads_eq_false fun ht => by obtain rfl | rfl := ht <;> cases h

theorem Token.heads_of_not_isDecl {t : Token} (h : ¬ t.isDecl = true) : t.heads = false :=
  heads_eq_false fun ht => h (by obtain rfl | rfl := ht <;> rfl)

namespace Grammar

variable {α β : Type} {g : Rules} {P : Parser → Prop}

/-- The node is tagged with another token. -/
def Headless (x : NodeId) (p : Parser) : Prop :=
  (p.tree.op x).heads = false

/-- The action returns a node that is tagged with another token. -/
def Foreign (m : ParseM NodeId) : Prop :=
  Agree (fun _ => True) m m Headless

/-- What is done first does not matter, if the rest can be run anywhere. -/
theorem Agree.after {m : ParseM α} {f : α → ParseM β} {R : β → Parser → Prop}
    (h : ∀ x, Agree (fun _ => True) (f x) (f x) R) : Agree P (m >>= f) (m >>= f) R :=
  fun _ _ => ⟨rfl, (h _ _ trivial).2⟩

/-- An atom has the tag it is made with. -/
theorem Agree.tagged {token : Token} {f : Atom → ParseM β} {R : β → Parser → Prop} (ht : token.heads = false)
    (h : ∀ a, a.token.heads = false → Agree (fun _ => True) (f a) (f a) R) :
    Agree P (makeAtom token >>= f) (makeAtom token >>= f) R :=
  fun _ _ => ⟨rfl, (h _ ht _ trivial).2⟩

theorem add_foreign {a : Atom} {shape : NodeShape} (ha : a.token.heads = false) :
    Agree P (add a shape) (add a shape) Headless := by
  intro p _
  refine ⟨rfl, ?_⟩
  show ((withNode p a shape).tree.node (nextId p)).op.heads = false
  rw [node_withNode, if_pos rfl]
  exact ha

theorem Foreign.withComposite {ok : Bool} {m : ParseM NodeId} (h : Foreign m) : Foreign (withComposite ok m) :=
  Agree.withComposite (fun _ _ h => h) (fun _ _ _ h => h) h

/-- A bad node has the tag of the token in its place. -/
theorem makeBad_foreign (fault : SyntaxFault) :
    Agree (fun p => p.curr.token.heads = false) (makeBad fault) (makeBad fault) Headless := by
  intro p hp
  have hcurr : (p.complain (p.diagnose p.curr.pos fault)).curr = p.curr := by
    rw [Parser.complain_eq]
  refine ⟨rfl, (add_foreign (P := fun _ => True) ?_ _ trivial).2⟩
  show (p.complain (p.diagnose p.curr.pos fault)).curr.token.heads = false
  rw [hcurr]
  exact hp

theorem next_keeps_foreign (x : NodeId) : Agree (Headless x) next next fun _ => Headless x := by
  intro p hp
  refine ⟨rfl, ?_⟩
  show (p.advance.tree.op x).heads = false
  rw [Parser.tree_advance]
  exact hp

theorem parseBad_foreign (fault : SyntaxFault) :
    Agree (fun p => p.curr.token.heads = false) (parseBad fault) (parseBad fault) Headless :=
  (makeBad_foreign fault).bind fun x => (next_keeps_foreign x).bind fun _ => .pure fun _ hp => hp

theorem parseAtom_foreign {token : Token} (ht : token.heads = false) :
    Agree P (parseAtom token) (parseAtom token) Headless :=
  .tagged ht fun _ ha => .after fun _ => add_foreign ha

/-- A node that is not closed is wrapped in a bad one with its tag. -/
theorem leaveNode_foreign (x : NodeId) (token : Token) :
    Agree (Headless x) (leaveNode x token) (leaveNode x token) Headless := by
  have hpass (y : NodeId) : Agree (Headless y) ((passLoop token).run ()) ((passLoop token).run ())
      fun _ => Headless y := by
    refine Loop.run_keeps (I := fun _ => Headless y) _ (fun _ => ?_) ()
    exact (next_keeps_foreign y).bind fun _ => Agree.pure fun _ hp => hp
  have hwrap : Agree (Headless x) (wrapBad x (.expecting token)) (wrapBad x (.expecting token)) Headless := by
    intro p hp
    have htree : (p.complain (p.diagnose p.curr.pos (.expecting token))).tree = p.tree := by
      rw [Parser.complain_eq]
    refine ⟨rfl, (add_foreign (P := fun _ => True) ?_ _ trivial).2⟩
    show ((p.complain (p.diagnose p.curr.pos (.expecting token))).tree.op x).heads = false
    rw [htree]
    exact hp
  refine .tok fun t => .ite (fun _ => ?_) fun _ => ?_
  · exact ((next_keeps_foreign x).pre fun p hp => hp.1).bind fun _ => .pure fun p hp => hp
  · refine (hwrap.pre fun p hp => hp.1).bind fun y => (hpass y).bind fun _ => .tok fun t => ?_
    exact .ite_then (fun _ => (next_keeps_foreign y).pre fun p hp => hp.1) (fun _ p hp => hp.1) (.pure fun p hp => hp)

/-! ### Types and expressions -/

/-- Tokens that open a type and nothing else. -/
def opensType : Token → Bool
  | .op .lbrack | .kw .struct | .kw .map | .kw .chan | .kw .interface => true
  | _ => false

theorem chanType_foreign : Foreign (chanType g) := by
  refine .after fun a => .after fun _ => ?_
  refine Agree.bind (Q := fun t _ => t.heads = false) ?_ fun t => ?_
  · exact .tok fun t => .ite (fun _ => .pure fun _ _ => rfl) fun _ => .after fun _ => .pure fun _ _ => rfl
  · exact fun p ht => (Agree.after (P := fun _ => True) fun elem => add_foreign ht) p trivial

theorem type_foreign (h : g.type? = typeExpr? g) :
    Agree (fun p => opensType p.curr.token = true) g.type g.type Headless := by
  have hsome {m : ParseM NodeId} {P : Parser → Prop} (hm : Foreign m) :
      Agree P (some <$> m) (some <$> m) fun x p => ∃ y, x = some y ∧ Headless y p :=
    (hm.pre fun _ _ => trivial).map fun y p hy => ⟨y, rfl, hy⟩
  have hfound : Agree (fun p => opensType p.curr.token = true) (typeExpr? g) (typeExpr? g)
      fun x p => ∃ y, x = some y ∧ Headless y p := by
    refine .tok fun t => ?_
    split
    · exact fun p hp => absurd hp.1 (by rw [hp.2]; decide)
    · exact hsome (.tagged rfl fun a ha => .after fun _ => .after fun _ => .after fun _ => .after fun _ =>
        add_foreign ha)
    · exact hsome (.tagged rfl fun a ha => .after fun _ => .after fun _ => add_foreign ha)
    iterate 2 · exact fun p hp => absurd hp.1 (by rw [hp.2]; decide)
    · exact hsome (.tagged rfl fun a ha => .after fun _ => .after fun _ => add_foreign ha)
    · exact hsome (.tagged rfl fun a ha => .after fun _ => .after fun _ => .after fun _ => .after fun _ =>
        .after fun _ => add_foreign ha)
    · exact hsome chanType_foreign
    iterate 2 · exact fun p hp => absurd hp.1 (by rw [hp.2]; decide)
    · rintro p ⟨hp, rfl⟩
      unfold opensType at hp
      split at hp <;> contradiction
  unfold Rules.type
  rw [h]
  refine hfound.bind fun x => ?_
  rintro p ⟨y, rfl, hy⟩
  exact ⟨rfl, hy⟩

theorem funcTypeOrLiteral_foreign : Foreign (funcTypeOrLiteral g) := by
  have hsig : Foreign (funcType g) :=
    .tagged rfl fun a ha => .after fun _ => .after fun _ => .after fun _ => add_foreign ha
  refine .tagged rfl fun lambda hlambda => hsig.bind fun sig => .tok fun t => .ite (fun _ => ?_) fun _ => ?_
  · exact .pure fun p hp => hp.1
  · exact .after fun _ => add_foreign hlambda

theorem operand_foreign (h : g.type? = typeExpr? g) :
    Agree (fun p => p.curr.token.heads = false) (operand g) (operand g) Headless := by
  refine .tok fun t => ?_
  split
  · refine .tok fun t => .ite (fun _ => parseAtom_foreign rfl) fun _ => ?_
    exact (makeBad_foreign _).pre fun p hp => hp.1.1
  · exact parseAtom_foreign rfl
  · refine .tagged rfl fun a ha => .after fun _ => .after fun x => ?_
    exact (add_foreign ha).bind fun paren => leaveNode_foreign _ _
  · exact funcTypeOrLiteral_foreign.pre fun _ _ => trivial
  iterate 5 · exact (type_foreign h).pre fun p hp => by rw [hp.2]; rfl
  iterate 7 · exact (makeBad_foreign _).pre fun p hp => hp.1
  · exact (parseBad_foreign _).pre fun p hp => hp.1

theorem selectorOrAssertion_foreign (x : NodeId) : Foreign (selectorOrAssertion g x) := by
  refine .tagged rfl fun a ha => .after fun pos => .after fun _ => .tok fun t => ?_
  split
  · exact .after fun _ => add_foreign (by exact ha)
  · refine .after fun _ => .tok fun t => .ite_bind (Q := fun _ _ => True) (fun _ => ?_) (fun _ => ?_) fun typ => ?_
    · exact fun _ _ => ⟨rfl, trivial⟩
    · exact fun _ _ => ⟨rfl, trivial⟩
    · exact Agree.bind (add_foreign rfl) fun _ => leaveNode_foreign _ _
  · exact .after fun _ => add_foreign (by exact ha)

theorem indexBody_foreign {a : Atom} (ha : a.token.heads = false) (x : NodeId) : Foreign (indexBody g a x) := by
  refine .tok fun t => .ite_bind (Q := fun _ _ => True) (fun _ => ?_) (fun _ => ?_) fun first => ?_
  · exact fun _ _ => ⟨rfl, trivial⟩
  · exact fun _ _ => ⟨rfl, trivial⟩
  · refine .tok fun t => .ite (fun _ => .after fun _ => ?_) fun _ => .after fun _ => ?_
    · exact add_foreign rfl
    · exact add_foreign ha

theorem indexOrSlice_foreign (x : NodeId) : Foreign (indexOrSlice g x) := by
  refine .tagged rfl fun a ha => .after fun pos => .after fun _ => ?_
  exact (indexBody_foreign (by exact ha) x).withComposite.bind fun node => leaveNode_foreign _ _

theorem call_foreign (x : NodeId) : Foreign (call g x) :=
  .tagged rfl fun a ha => .after fun pos => .after fun _ => .after fun _ => .after fun _ => add_foreign (by exact ha)

theorem compositeLit_foreign (typ : Child) : Foreign (compositeLit g typ) := by
  have hatom : Agree (fun _ => True) (atomFrom .compositeLit typ) (atomFrom .compositeLit typ)
      fun a _ => a.token.heads = false := by
    cases typ with
    | none => exact fun p _ => ⟨rfl, rfl⟩
    | some x => exact fun p _ => ⟨rfl, rfl⟩
  refine hatom.bind fun a p ha => ?_
  exact (Agree.after (P := fun _ => True) fun _ => .after fun _ => .after fun _ => .after fun _ => .after fun _ =>
    add_foreign ha) p trivial

theorem suffixes_foreign (x : NodeId) : Agree (Headless x) (suffixes g x) (suffixes g x) Headless := by
  have hagain {m : ParseM NodeId} (hm : Foreign m) (P : Parser → Prop) :
      Agree P (Turn.again <$> m) (Turn.again <$> m) fun
        | .again y => Headless y
        | .done y => Headless y :=
    Agree.map (hm.pre fun _ _ => trivial) fun y p hy => hy
  refine Loop.run_keeps (I := Headless) _ (fun x => .tok fun t => ?_) x
  split
  · exact hagain (selectorOrAssertion_foreign x) _
  · exact hagain (indexOrSlice_foreign x) _
  · exact hagain (call_foreign x) _
  · refine .get fun q => .ite (fun _ => hagain (compositeLit_foreign _) _) fun _ => ?_
    exact .pure fun p hp => hp.1.1

theorem unaryExpr_foreign (h : g.type? = typeExpr? g) :
    Agree (fun p => p.curr.token.heads = false) (unaryExpr g) (unaryExpr g) Headless := by
  have hoperand : Agree (fun p => p.curr.token.heads = false) (operand g >>= suffixes g) (operand g >>= suffixes g)
      Headless :=
    (operand_foreign h).bind fun x => suffixes_foreign x
  have harrow (a : Atom) : Foreign (recvChanType g a) :=
    .after fun _ => .after fun _ => add_foreign rfl
  refine .tok fun t => ?_
  split
  · refine .tagged rfl fun a ha => .after fun _ => .tok fun t => .ite (fun _ => ?_) fun _ => ?_
    · exact ((harrow a).pre fun _ _ => trivial).bind fun x => suffixes_foreign x
    · exact .after fun _ => add_foreign ha
  · refine .ite (fun _ => ?_) fun _ => hoperand.pre fun p hp => hp.1
    exact .tagged rfl fun a ha => .after fun _ => .after fun _ => add_foreign ha
  · exact hoperand.pre fun p hp => hp.1

theorem expr_foreign (h : g.Closed) : Agree (fun p => p.curr.token.heads = false) g.expr g.expr Headless := by
  have hbinary : g.expr = binaryExpr g 1 := h.binary 1 (Nat.le_refl 1)
  rw [hbinary]
  refine Agree.bind (Q := Headless) (h.unary ▸ unaryExpr_foreign h.type?) fun x => ?_
  refine Loop.run_keeps_due (I := Headless) _ (fun x t ht => ?_) x
  have hne : t.heads = false := Token.heads_eq_false fun h => by
    obtain rfl | rfl := h <;> exact absurd ht Bool.false_ne_true
  refine .tok_eq (.tagged hne fun a ha => .after fun _ => .after fun y => ?_)
  exact (add_foreign ha).bind fun z => Agree.pure fun p hp => hp

/-- One expression is a node by itself, several are a list. -/
theorem exprs_foreign (h : g.Closed) : Agree (fun p => p.curr.token.heads = false) g.exprs g.exprs
    fun items p => ∀ only, items = [some only] → Headless only p := by
  refine (expr_foreign h).bind fun first => ?_
  have hloop := Loop.run_keeps (g.exprsLoop)
    (I := fun items p => items ≠ [] ∧ ∀ only, items = [some only] → Headless only p) ?_ [some first]
  · refine hloop.mono (fun p hp => ⟨List.cons_ne_nil _ _, ?_⟩) fun _ _ hp => hp.2
    rintro only ⟨⟩
    exact hp
  · intro items p hp
    refine ⟨rfl, by simp, ?_⟩
    intro only honly
    have hlength := congrArg List.length honly
    exact absurd (List.length_eq_zero_iff.1 (by simpa using hlength)) hp.1

theorem atomFrom_foreign (tag : NodeTag) (first : Child) :
    Agree P (atomFrom tag first) (atomFrom tag first) fun a _ => a.token.heads = false := by
  cases first with
  | none => exact fun p _ => ⟨rfl, rfl⟩
  | some x => exact fun p _ => ⟨rfl, rfl⟩

theorem wrapExprs_foreign (items : List Child) :
    Agree (fun p => ∀ only, items = [some only] → Headless only p) (wrapExprs items) (wrapExprs items) Headless := by
  unfold wrapExprs
  split
  · exact .pure fun p hp => hp _ rfl
  · exact (atomFrom_foreign _ _).bind fun a p ha => add_foreign (P := fun _ => True) ha p trivial

/-! ### Statements and declarations -/

theorem finishAssign_foreign {a : Atom} (ha : a.token.heads = false) (lhs : List Child) :
    Foreign (finishAssign g a lhs) :=
  .after fun _ => .after fun _ => .after fun _ => .after fun _ => add_foreign (by exact ha)

theorem simpleStmt_foreign (h : g.Closed) :
    Agree (fun p => p.curr.token.heads = false) (simpleStmt g) (simpleStmt g) Headless := by
  have hstmt {m : ParseM NodeId} {P : Parser → Prop} (hm : Agree P m m Headless) :
      Agree P (Simple.stmt <$> m) (Simple.stmt <$> m) fun s p => ∃ x, s = .stmt x ∧ Headless x p :=
    hm.map fun x p hx => ⟨x, rfl, hx⟩
  have hsimple : Agree (fun p => p.curr.token.heads = false) (simple g false) (simple g false)
      fun s p => ∃ x, s = .stmt x ∧ Headless x p := by
    refine (exprs_foreign h).bind fun lhs => .tok fun t => .ite (fun ht => ?_) fun _ => ?_
    · have hheads : t.heads = false := Token.heads_eq_false fun h => by
        obtain rfl | rfl := h <;> exact absurd ht (by decide)
      refine .tagged hheads fun a ha => .after fun _ => .tok fun u => ?_
      rw [if_neg (by simp)]
      exact hstmt ((finishAssign_foreign ha lhs).pre fun _ _ => trivial)
    refine .ite (fun _ => ?_) fun _ => .ite (fun ht => ?_) fun _ => ?_
    · refine .tagged rfl fun a ha => .after fun _ => .after fun _ => .after fun _ => .after fun _ => ?_
      exact hstmt (add_foreign (by exact ha))
    · have hne : t.heads = false := Token.heads_eq_false fun h => by
        obtain rfl | rfl := h <;> simp at ht
      exact .tagged hne fun a ha => .after fun _ => .after fun _ => hstmt (add_foreign (by exact ha))
    · exact hstmt ((wrapExprs_foreign lhs).pre fun p hp => hp.1)
  refine hsimple.bind fun s => ?_
  rintro p ⟨x, rfl, hx⟩
  exact ⟨rfl, hx⟩

theorem identStmt_foreign (h : g.Closed) : Foreign (identStmt g) := by
  refine .tagged rfl fun a ha => .after fun _ => .tok fun t => .ite (fun _ => ?_) fun _ => ?_
  · exact .tagged rfl fun b hb => .after fun _ => .after fun _ => .after fun _ => add_foreign (by exact hb)
  · refine Agree.bind (Q := fun _ p => p.curr.token.heads = false) ?_ fun _ => simpleStmt_foreign h
    exact fun p _ => ⟨rfl, ha⟩

/-- A declaration has the tag of its keyword. -/
theorem genDecl_tagged (keyword : Keyword) (spec : ParseM NodeId) :
    Agree P (genDecl keyword spec) (genDecl keyword spec) fun x p => p.tree.op x = .kw keyword := by
  have hadd {a : Atom} (ha : a.token = .kw keyword) {shape : NodeShape} {P : Parser → Prop} :
      Agree P (add a shape) (add a shape) fun x p => p.tree.op x = .kw keyword := by
    intro p _
    refine ⟨rfl, ?_⟩
    show ((withNode p a shape).tree.node (nextId p)).op = .kw keyword
    rw [node_withNode, if_pos rfl]
    exact ha
  refine Agree.bind (Q := fun a _ => a.token = .kw keyword) (fun _ _ => ⟨rfl, rfl⟩) fun a => ?_
  refine .of_forall fun p ha => .after fun _ => .tok fun t => .ite (fun _ => ?_) fun _ => ?_
  · exact .after fun _ => hadd ha
  · exact .after fun _ => .after fun _ => .after fun _ => hadd ha

theorem genDecl_foreign {keyword : Keyword} {spec : ParseM NodeId} (hkeyword : (Token.kw keyword).heads = false) :
    Agree P (genDecl keyword spec) (genDecl keyword spec) Headless := by
  refine (genDecl_tagged keyword spec).post fun x p hx => ?_
  rw [Headless, hx]
  exact hkeyword

theorem funcDecl_foreign : Foreign (funcDecl g) := by
  have hbody {a : Atom} (ha : a.token.heads = false) (parts : Child → List Child) : Foreign (do
      if (← tok) = .op .lbrace then
        let body ← some <$> withComposite true (block g)
        add a (.list (parts body))
      else
        let body ← pure none
        add a (.list (parts body))) :=
    .tok fun t => .ite (fun _ => .after fun _ => add_foreign ha) fun _ => add_foreign ha
  refine .tagged rfl fun a ha => .after fun _ => .tok fun t => .ite (fun _ => ?_) fun _ => ?_
  · exact .after fun recv => .after fun ident => .after fun pos => .after fun name => .after fun sig =>
      hbody ha fun body => [recv, some name, some sig, body]
  · exact .after fun recv => .after fun ident => .after fun pos => .after fun name => .after fun sig =>
      hbody ha fun body => [recv, some name, some sig, body]

theorem declaration_foreign :
    Agree (fun p => p.curr.token.heads = false) (declaration g) (declaration g) Headless := by
  have hheads {t : Token} (ht : t.heads = true) {m : ParseM NodeId} :
      Agree (fun p => p.curr.token.heads = false ∧ p.curr.token = t) m m Headless :=
    fun p hp => absurd (hp.2 ▸ hp.1) (by simp [ht])
  refine .tok fun t => ?_
  split
  · exact genDecl_foreign rfl
  · exact hheads rfl
  · exact genDecl_foreign rfl
  · exact funcDecl_foreign.pre fun _ _ => trivial
  · exact hheads rfl
  · exact (parseBad_foreign _).pre fun p hp => hp.1

/-- The node that an action returns, if there is one, is tagged with another token. -/
def AllHeadless (x : Child) (p : Parser) : Prop :=
  ∀ y, x = some y → Headless y p

theorem forStmt_foreign : Foreign (forStmt g) := by
  refine .tagged rfl fun a ha => .after fun _ => .after fun header => .after fun _ => ?_
  cases header with
  | clauses init cond post => exact add_foreign ha
  | range assign x => exact add_foreign rfl

theorem switchStmt_foreign : Foreign (switchStmt g) := by
  refine .tagged rfl fun a ha => .after fun _ => .after fun header => .get fun q => .after fun _ => add_foreign ?_
  show (if _ then _ else _ : Token).heads = false
  split
  · rfl
  · exact ha

theorem jumpStmt_foreign (keyword : Keyword) (hkeyword : (Token.kw keyword).heads = false) :
    Foreign (jumpStmt keyword) := by
  refine .tagged hkeyword fun a ha => .after fun _ => .tok fun t => .ite (fun _ => ?_) fun _ => ?_
  · exact .after fun _ => add_foreign ha
  · exact add_foreign ha

theorem statement?_foreign (h : g.Closed) :
    Agree (fun p => p.curr.token.heads = false) (statement? g) (statement? g) AllHeadless := by
  have hsome {m : ParseM NodeId} {P : Parser → Prop} (hm : Agree P m m Headless) :
      Agree P (some <$> m) (some <$> m) AllHeadless := by
    refine hm.map fun x p hx => ?_
    rintro y ⟨⟩
    exact hx
  have hmade {m : ParseM NodeId} {P : Parser → Prop} (hm : Foreign m) : Agree P (some <$> m) (some <$> m) AllHeadless :=
    hsome (hm.pre fun _ _ => trivial)
  have hcall (keyword : Keyword) (hkeyword : (Token.kw keyword).heads = false) :
      Foreign (deferredCall g keyword) :=
    .tagged hkeyword fun a ha => .after fun _ => .after fun _ => add_foreign ha
  refine .tok fun t => ?_
  split
  iterate 3 · exact .pure fun p _ => nofun
  iterate 3 · exact hsome (declaration_foreign.pre fun p hp => hp.1)
  · exact hmade (.tagged rfl fun a ha => .after fun _ => .after fun _ => .after fun _ => add_foreign ha)
  · exact hmade (.tagged rfl fun a ha => .after fun _ => .after fun _ => .after fun _ => .after fun _ =>
      add_foreign ha)
  · exact hmade forStmt_foreign
  · exact hmade switchStmt_foreign
  · exact hmade (.tagged rfl fun a ha => .after fun _ => .after fun _ => add_foreign ha)
  · exact hmade (.tagged rfl fun a ha => .after fun _ => .after fun _ => add_foreign ha)
  iterate 3 · exact hmade (jumpStmt_foreign _ rfl)
  · exact hsome (parseAtom_foreign rfl)
  iterate 2 · exact hmade (hcall _ rfl)
  · exact hmade (identStmt_foreign h)
  · refine .ite (fun _ => hsome ((simpleStmt_foreign h).pre fun p hp => hp.1)) fun _ => ?_
    exact hsome ((parseBad_foreign _).pre fun p hp => hp.1)

theorem strayClosing_foreign {t : Token} (hne : t.heads = false) :
    Agree P (strayClosing t) (strayClosing t) Headless :=
  .after fun _ => .after fun _ => .after fun _ => .after fun _ => add_foreign hne

end Grammar

end GoSource
