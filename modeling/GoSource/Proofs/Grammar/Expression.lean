import GoSource.Grammar.Statement
import GoSource.Proofs.Grammar.TypeExpr

/-!
# Expressions read on

An expression consumes the token that it starts with; its suffixes and operators consume theirs.  A block takes
in its statements, and none is lost between them.
-/

namespace GoSource.Grammar

variable {s : Stack × Parser} {n k : Nat} {w : Stack} {t : Token} {g g' : Rules}

/-! ### Blocks and functions -/

theorem stmtLoop_reads (h : g.Close n g') : (stmtLoop g).Reads n (stmtLoop g') where
  more_eq := rfl
  round k hk s w stmts t ht := by
    have hends : endsList t = false := by simpa [stmtLoop] using ht
    have hne : t ≠ .eof := by
      rintro rfl
      exact absurd hends (by decide)
    refine Agree.counted h.stmt? hk hne fun b hb x => ?_
    have hstmts (p : Parser) (k : Nat) (hp : Within s k (push x (push stmts w)) p) :
        Within s k (push (stmts ++ x.toList.map some) w) p := by
      rw [push_append, push_map_some, push_toList]
      exact hp
    refine Agree.tok fun u => Agree.ite (fun hu => ?_) (fun _ => Agree.ite (fun hu => ?_) (fun _ => ?_))
    · subst hu
      refine ((next_pass rfl).pre fun p hp => ⟨hp.1.within, hp.2⟩).bind fun _ => Agree.pure fun p hp => ?_
      exact (hstmts p b hp).weaken hb
    · refine Agree.pure fun p hp => (hstmts p b (hp.1.less fun hleft => ?_)).weaken hb
      rw [← hp.2, hp.1.token_eq hleft, hends] at hu
      exact absurd hu (by decide)
    · refine Agree.left fun j => Agree.ite (fun hj => ?_) (fun hj => ?_)
      · refine ((parseBad_counted (s := s) (w := push x (push stmts w)) .expectingStmt hne).pre fun p hp =>
          ⟨hp.1.1, hp.2.trans hj⟩).bind fun y => Agree.pure fun p hp => ?_
        show Within s k (push (stmts ++ x.toList.map some ++ [some y]) w) p
        simpa [push_map_some, push_toList] using hp.1.weaken hb
      · refine Agree.complain_here (s := s) (k := b) (w := push x (push stmts w)) _ (fun p hp =>
          hp.1.1.less (by rw [hp.2]; exact hj)) fun d => Agree.pure fun p hp => ?_
        exact (hstmts p b hp.1).weaken hb

/-- A block reads on as far as its opening brace does. -/
theorem block_agree (h : g.Close n g') (hk : k ≤ n) {P P' : Parser → Prop}
    (hatom : Agree P (makeAtom (.tag .block)) (makeAtom (.tag .block)) fun a p => P' p ∧ a.token = .tag .block)
    (henter : Agree P' (enter (.op .lbrace)) (enter (.op .lbrace)) fun bads => Within s k (push bads w)) :
    Agree P (block g) (block g') fun x => Within s k (.node x :: w) := by
  refine hatom.bind fun a => Agree.of_fact fun ha => henter.bind fun opened => ?_
  refine Agree.bind (Q := fun stmts => Within s k (push stmts w)) ?_ fun stmts => ?_
  · refine Agree.withComposite (fun _ b hp => hp.composite b) (fun _ _ b hp => hp.composite b) ?_
    exact (stmtLoop_reads h).run hk opened
  · refine (leave_reads rfl k hk s _).bind fun bads => ?_
    exact add_node ha rfl rfl (by simp)

theorem block_reads (h : g.Close n g') : Reads n (block g) (block g') :=
  fun k hk s w => block_agree h hk (makeAtom_reads _) (enter_reads rfl k hk s w)

theorem block_opens (h : g.Close n g') : Opens (.op .lbrace) n (block g) (block g') :=
  fun k hk s w => block_agree h hk (makeAtom_keeps _) (enter_opens rfl k hk s w)

theorem funcTypeOrLiteral_opens (h : g.Close n g') :
    Opens (.kw .func) n (funcTypeOrLiteral g) (funcTypeOrLiteral g') := by
  intro k hk s w
  refine (makeAtom_keeps _).bind fun a => Agree.of_fact fun ha => ?_
  refine (funcType_opens h k hk s w).bind fun x => ?_
  refine Agree.tok fun t => Agree.ite (fun _ => ?_) (fun _ => ?_)
  · exact Agree.pure fun p hp => hp.1
  · refine (((block_reads h).withComposite k hk s _).pre fun p hp => hp.1).bind fun y => ?_
    exact add_node ha rfl rfl rfl

/-! ### Operands -/

/-- An operand consumes the token that it starts with. -/
theorem operand_parses (h : g.Close n g') (htype : Parses startsType n g.type? g'.type?) :
    Parses startsExpr n (operand g) (operand g') := by
  have hbad {t : Token} (ht : startsExpr t = false) {k : Nat} (hk : k ≤ n) (s : Stack × Parser) (w : Stack) :
      Agree (fun p => Within s (k + 1) w p ∧ p.curr.token = t) (makeBad .expectingExpr)
        (makeBad .expectingExpr) fun x => Within s (if startsExpr t then k else k + 1) (push x w) :=
    (makeBad_reads .expectingExpr).parses hk ht s w
  intro k hk s w t
  refine Agree.tok_eq ?_
  split
  · exact parseIdent_opens.parses hk s w
  · rename_i c _
    exact (parseAtom_opens (t := .lit c) nofun).parses hk s w
  · refine Agree.lead rfl fun a ha => ((h.expr.withComposite) k hk s w).bind fun x => ?_
    refine Agree.bind (add_node (w := w) ha rfl rfl rfl) fun y => ?_
    exact leaveNode_reads rfl y
  · exact (funcTypeOrLiteral_opens h).parses hk s w
  · exact (type_opens (htype.opens rfl)).parses hk s w
  · exact (type_opens (htype.opens rfl)).parses hk s w
  · exact (type_opens (htype.opens rfl)).parses hk s w
  · exact (type_opens (htype.opens rfl)).parses hk s w
  · exact (type_opens (htype.opens rfl)).parses hk s w
  · exact hbad rfl hk s w
  · exact hbad rfl hk s w
  · exact hbad rfl hk s w
  · exact hbad rfl hk s w
  · exact hbad rfl hk s w
  · exact hbad rfl hk s w
  · exact hbad rfl hk s w
  · refine (parseBad_consumes _ (by assumption)).post fun x p hp => hp.1.weaken ?_
    split <;> omega

/-! ### Suffixes -/

theorem selectorOrAssertion_reads (h : g.Close n g') (hk : k ≤ n) (x : NodeId) :
    Agree (fun p => Within s (k + 1) (.node x :: w) p ∧ p.curr.token = .op .period)
      (selectorOrAssertion g x) (selectorOrAssertion g' x) fun y => Within s k (.node y :: w) := by
  refine (makeAtom_keeps _).bind fun a => Agree.of_fact fun ha => Agree.startOf fun pos => ?_
  refine (next_pass rfl).bind fun _ => Agree.tok fun t => ?_
  split
  · refine ((parseIdent_reads k hk s _).pre fun p hp => hp.1).bind fun y => ?_
    exact add_node ha rfl rfl rfl
  · refine (next_pass_le rfl).bind fun _ => Agree.tok fun t => ?_
    refine Agree.ite_bind (Q := fun y => Within s k (.node y :: .node x :: w)) (fun ht => ?_) (fun _ => ?_)
      fun y => ?_
    · subst ht
      exact (parseAtom_opens (n := n) (t := .kw .type) nofun).reads (Nat.le_succ_of_le hk) s _
    · exact (h.type k hk s _).pre fun p hp => hp.1
    · refine Agree.bind (add_node (w := w) rfl rfl rfl rfl) fun z => ?_
      exact leaveNode_reads rfl z
  · refine ((makeBad_reads _ k hk s _).pre fun p hp => hp.1).bind fun y => ?_
    exact add_node ha rfl rfl rfl

/-- The bound after a colon. -/
theorem sliceBound_reads (h : g.Close n g') (hk : k ≤ n) :
    Agree (fun p => Within s k w p ∧ p.curr.token = .op .colon) (sliceBound g) (sliceBound g')
      fun x => Within s k (push x w) := by
  refine (next_pass_le rfl).bind fun _ => Agree.tok fun t => ?_
  split
  · exact Agree.pure fun p hp => hp.1
  · exact Agree.pure fun p hp => hp.1
  · exact Agree.pure fun p hp => hp.1
  · exact (h.expr.some k hk s w).pre fun p hp => hp.1

theorem sliceParts_reads (h : g.Close n g') (hk : k ≤ n) (x : NodeId) (low : Child) :
    Agree (fun p => Within s k (push low (.node x :: w)) p ∧ p.curr.token = .op .colon)
      (sliceParts g x low) (sliceParts g' x low) fun kids => Within s k (push kids w) := by
  refine (sliceBound_reads h hk).bind fun high => ?_
  refine Agree.tok fun t => Agree.ite (fun _ => ?_) (fun ht => ?_)
  · refine Agree.pure fun p hp => ?_
    simpa using hp.1
  · obtain rfl : t = .op .colon := Decidable.of_not_not ht
    refine (sliceBound_reads h hk).bind fun max => ?_
    have hkids (p : Parser) (hp : Within s k (push max (push high (push low (.node x :: w)))) p) :
        Within s k (push [some x, low, high, max] w) p := by
      simpa using hp
    refine Agree.ite (fun _ => ?_) (fun _ => ?_)
    · exact Agree.complain_here _ (fun p hp => hp) fun d => Agree.pure fun p hp => hkids p hp.1
    · exact Agree.pure fun p hp => hkids p hp

theorem indexLoop_reads (h : g.Close n g') : (indexLoop g).Reads n (indexLoop g') where
  more_eq := rfl
  round k hk s w args t ht := by
    have ht : t = .op .comma := eq_of_beq ht
    refine (next_pass (ht ▸ rfl)).bind fun _ => ?_
    refine Agree.tok fun u => Agree.ite (fun _ => ?_) (fun _ => ?_)
    · exact Agree.pure fun p hp => hp.1.weaken (Nat.le_succ k)
    · refine ((h.expr k (Nat.le_of_lt hk) s _).pre fun p hp => hp.1).bind fun x => ?_
      refine Agree.pure fun p hp => ?_
      show Within s k (push (args ++ [some x]) w) p
      simpa using hp

theorem indexArguments_reads (h : g.Close n g') (hk : k ≤ n) (first : Child) :
    Agree (Within s k (push first w)) (indexArguments g first) (indexArguments g' first)
      fun x => Within s k (push x w) := by
  refine Agree.ite (fun hfirst => ?_) (fun _ => ?_)
  · obtain rfl := Option.isNone_iff_eq_none.1 hfirst
    exact (makeBad_reads _ k hk s w).bind fun x => Agree.pure fun p hp => hp
  · refine Agree.tok fun t => Agree.ite (fun _ => Agree.pure fun p hp => hp.1) (fun _ => ?_)
    refine (((indexLoop_reads h).run (s := s) (w := w) hk [first]).pre fun p hp => ?_).bind fun args => ?_
    · simpa using hp.1
    · exact Agree.map (listExprs_reads args) fun x p hp => hp

theorem indexBody_reads (h : g.Close n g') (hk : k ≤ n) {atom : Atom} (hatom : atom.token = .tag .index)
    (x : NodeId) :
    Agree (Within s k (.node x :: w)) (indexBody g atom x) (indexBody g' atom x)
      fun y => Within s k (.node y :: w) := by
  refine Agree.tok fun t => Agree.ite_bind (Q := fun first => Within s k (push first (.node x :: w)))
    (fun _ => ?_) (fun _ => ?_) fun first => ?_
  · exact Agree.pure fun p hp => hp.1
  · exact (h.expr.some k hk s _).pre fun p hp => hp.1
  · refine Agree.tok fun u => Agree.ite (fun hu => ?_) (fun _ => ?_)
    · subst hu
      refine (sliceParts_reads h hk x first).bind fun kids => ?_
      exact add_node rfl rfl rfl rfl
    · refine ((indexArguments_reads h hk first).pre fun p hp => hp.1).bind fun index => ?_
      exact add_node hatom rfl rfl (by simp)

theorem indexOrSlice_reads (h : g.Close n g') (hk : k ≤ n) (x : NodeId) :
    Agree (fun p => Within s (k + 1) (.node x :: w) p ∧ p.curr.token = .op .lbrack)
      (indexOrSlice g x) (indexOrSlice g' x) fun y => Within s k (.node y :: w) := by
  refine (makeAtom_keeps _).bind fun a => Agree.of_fact fun ha => Agree.startOf fun pos => ?_
  refine (next_pass rfl).bind fun _ => ?_
  refine Agree.bind (Q := fun y => Within s k (.node y :: w)) ?_ fun y => leaveNode_reads rfl y
  refine Agree.withComposite (fun _ b hp => hp.composite b) (fun _ _ b hp => hp.composite b) ?_
  refine indexBody_reads h hk ?_ x
  exact ha

theorem argument_reads (h : g.Close n g') : Reads n (argument g) (argument g') := by
  intro k hk s w
  refine (h.expr k hk s w).bind fun x => ?_
  refine Agree.tok fun t => Agree.ite (fun _ => Agree.pure fun p hp => hp.1) (fun ht => ?_)
  obtain rfl : t = .op .ellipsis := Decidable.of_not_not ht
  exact Agree.lead_le rfl fun a ha => add_node ha rfl rfl rfl

theorem argumentsLoop_reads (h : g.Close n g') : (argumentsLoop g).Reads n (argumentsLoop g') where
  more_eq := rfl
  round k hk s w args t ht := by
    have hargs (x : NodeId) (p : Parser) (k : Nat) (hp : Within s k (push x (push args w)) p) :
        Within s k (push (args ++ [some x]) w) p := by
      simpa using hp
    refine ((argument_reads h (k + 1) hk s _).pre fun p hp => hp.1).bind fun x => ?_
    refine Agree.tok fun u => Agree.ite (fun _ => ?_) (fun hu => ?_)
    · exact Agree.pure fun p hp => hargs x p (k + 1) hp.1
    · obtain rfl : u = .op .comma := Decidable.of_not_not hu
      refine (next_pass rfl).bind fun _ => Agree.pure fun p hp => ?_
      exact hargs x p k hp

theorem call_reads (h : g.Close n g') (hk : k ≤ n) (f : NodeId) :
    Agree (fun p => Within s (k + 1) (.node f :: w) p ∧ p.curr.token = .op .lparen)
      (call g f) (call g' f) fun y => Within s k (.node y :: w) := by
  refine (makeAtom_keeps _).bind fun a => Agree.of_fact fun ha => Agree.startOf fun pos => ?_
  refine (next_pass rfl).bind fun _ => ?_
  refine Agree.bind (Q := fun args => Within s k (push args w)) ?_ fun args => ?_
  · refine Agree.withComposite (fun _ b hp => hp.composite b) (fun _ _ b hp => hp.composite b) ?_
    exact (argumentsLoop_reads h).run hk [some f]
  · refine (leave_reads rfl k hk s _).bind fun bads => ?_
    exact add_node ha rfl rfl (by simp)

/-! ### Composite literals -/

theorem elementValue_reads (h : g.Close n g') : Reads n (elementValue g) (elementValue g') := by
  intro k hk s w
  refine Agree.tok fun t => Agree.ite (fun ht => ?_) (fun _ => ?_)
  · subst ht
    exact h.elements k hk s w
  · exact (h.expr k hk s w).pre fun p hp => hp.1

theorem element_reads (h : g.Close n g') : Reads n (element g) (element g') := by
  intro k hk s w
  refine (elementValue_reads h k hk s w).bind fun x => ?_
  refine Agree.tok fun t => Agree.ite (fun _ => Agree.pure fun p hp => hp.1) (fun ht => ?_)
  obtain rfl : t = .op .colon := Decidable.of_not_not ht
  refine (makeAtom_keeps _).bind fun a => Agree.of_fact fun ha => Agree.startOf fun pos => ?_
  refine (next_pass_le rfl).bind fun _ => (elementValue_reads h k hk s _).bind fun y => ?_
  exact add_node ha rfl rfl rfl

theorem elementsLoop_reads (h : g.Close n g') : (elementsLoop g).Reads n (elementsLoop g') where
  more_eq := rfl
  round k hk s w elems t ht := by
    have hne : t ≠ .eof := by
      simp only [elementsLoop, Bool.and_eq_true, bne_iff_ne] at ht
      exact ht.2
    refine Agree.counted (element_reads h) hk hne fun b hb x => ?_
    have helems (p : Parser) (k : Nat) (hp : Within s k (push x (push elems w)) p) :
        Within s k (push (elems ++ [some x]) w) p := by
      simpa using hp
    refine Agree.tok fun u => Agree.ite (fun hu => ?_) (fun _ => ?_)
    · subst hu
      refine ((next_pass rfl).pre fun p hp => ⟨hp.1.within, hp.2⟩).bind fun _ => Agree.pure fun p hp => ?_
      exact (helems p b hp).weaken hb
    · refine Agree.left fun j => Agree.ite (fun hj => ?_) (fun _ => Agree.pure fun p hp => ?_)
      · refine ((parseBad_counted (s := s) (w := push x (push elems w)) _ hne).pre fun p hp =>
          ⟨hp.1.1, hp.2.trans hj⟩).bind fun y => Agree.pure fun p hp => ?_
        show Within s k (push (elems ++ [some x] ++ [some y]) w) p
        simpa using hp.1.weaken hb
      · exact (helems p _ hp.1.1.within).weaken (Nat.succ_le_succ hb)

/-- A composite literal takes in its type, if that was parsed. -/
theorem compositeLit_reads (h : g.Close n g') (hk : k ≤ n) (typ : Child) :
    Agree (fun p => Within s (k + 1) (push typ w) p ∧ p.curr.token = .op .lbrace)
      (compositeLit g typ) (compositeLit g' typ) fun y => Within s k (.node y :: w) := by
  refine (atomFrom_keeps _ typ).bind fun a => Agree.of_fact fun ha => ?_
  refine (makeAtom_keeps _).bind fun b => Agree.of_fact fun hb => ?_
  refine (enter_opens rfl k hk s _).bind fun opened => ?_
  refine Agree.bind (Q := fun elems => Within s k (push elems (push typ w))) ?_ fun elems => ?_
  · refine Agree.withComposite (fun _ b hp => hp.composite b) (fun _ _ b hp => hp.composite b) ?_
    exact (elementsLoop_reads h).run hk opened
  · refine (leave_reads rfl k hk s _).bind fun bads => ?_
    refine Agree.bind (add_node (w := push typ w) hb rfl rfl (by simp)) fun list => ?_
    exact add_node ha rfl rfl (by simp)

/-! ### Operators -/

theorem suffixLoop_reads (h : g.Close n g') : (suffixLoop g).Reads (n + 1) (suffixLoop g') where
  more_eq := rfl
  round k hk s w x t ht := by
    have hk : k ≤ n := Nat.le_of_lt_succ hk
    have ht : extendsOperand t = true := ht
    refine Agree.tok_eq ?_
    unfold extendsOperand at ht
    split at ht
    · exact Agree.map (selectorOrAssertion_reads h hk x) fun y p hp => hp
    · exact Agree.map (indexOrSlice_reads h hk x) fun y p hp => hp
    · exact Agree.map (call_reads h hk x) fun y p hp => hp
    · refine Agree.get fun q => Agree.pre ?_ fun p hp => hp.1
      refine Agree.ite (fun _ => ?_) (fun _ => Agree.pure fun p hp => hp.1)
      exact Agree.map (compositeLit_reads h hk (some x)) fun y p hp => hp
    · exact absurd ht (by decide)

theorem suffixes_reads (h : g.Close n g') (hk : k ≤ n + 1) (x : NodeId) :
    Agree (Within s k (.node x :: w)) (suffixes g x) (suffixes g' x) fun y => Within s k (.node y :: w) :=
  (suffixLoop_reads h).run hk x

/-- An operand and its suffixes consume the token that they start with. -/
theorem suffixedOperand_parses (h : g.Close n g') (htype : Parses startsType n g.type? g'.type?) :
    Parses startsExpr n (do suffixes g (← operand g)) (do suffixes g' (← operand g')) := by
  intro k hk s w t
  refine (operand_parses h htype k hk s w t).bind fun x => suffixes_reads h ?_ x
  split <;> omega

/-- An expression without binary operators consumes the token that it starts with. -/
theorem unaryExpr_parses (h : g.Close n g') (htype : Parses startsType n g.type? g'.type?) :
    Parses startsExpr n (unaryExpr g) (unaryExpr g') := by
  intro k hk s w t
  refine Agree.tok_eq ?_
  split
  · refine Agree.lead rfl fun a ha => Agree.tok fun t => Agree.ite (fun _ => ?_) (fun _ => ?_)
    · refine ((recvChanType_reads h a k hk s w).pre fun p hp => hp.1).bind fun x => ?_
      exact suffixes_reads h (Nat.le_succ_of_le hk) x
    · refine ((h.unary k hk s w).pre fun p hp => hp.1).bind fun x => ?_
      exact add_node ha rfl rfl rfl
  · rename_i o _
    refine Agree.ite (fun _ => ?_) (fun _ => suffixedOperand_parses h htype k hk s w _)
    refine (Agree.lead (k := k) (Q := fun x => Within s k (push x w)) rfl fun a ha => ?_).post
      fun x p hp => hp.weaken ?_
    · refine (h.unary k hk s w).bind fun x => ?_
      exact add_node ha rfl rfl rfl
    · split <;> omega
  · exact suffixedOperand_parses h htype k hk s w _

/-- Operators that bind have no text of their own. -/
theorem isTag_of_precedence {t : Token} (h : 1 ≤ t.precedence) : t.isTag = true := by
  cases t with
  | op o => rfl
  | _ => exact absurd h (Nat.not_succ_le_zero 0)

theorem binaryLoop_reads (h : g.Close n g') {precedence : Nat} (hprec : 1 ≤ precedence) :
    (binaryLoop g precedence).Reads (n + 1) (binaryLoop g' precedence) where
  more_eq := rfl
  round k hk s w x t ht := by
    have ht : precedence ≤ t.precedence := of_decide_eq_true ht
    have htag : t.isTag = true := isTag_of_precedence (Nat.le_trans hprec ht)
    refine Agree.tok_eq (Agree.lead (Token.isPlain_of_isTag htag) fun a ha => ?_)
    refine (h.binary _ (Nat.succ_le_succ (Nat.zero_le _)) k (Nat.le_of_lt_succ hk) s _).bind fun y => ?_
    refine Agree.bind (add_node (w := w) ha htag rfl rfl) fun z => ?_
    exact Agree.pure fun p hp => hp

/-- A binary expression consumes the token that it starts with. -/
theorem binaryExpr_parses (h : g.Close n g') (hunary : Parses startsExpr n g.unary g'.unary)
    {precedence : Nat} (hprec : 1 ≤ precedence) :
    Parses startsExpr n (binaryExpr g precedence) (binaryExpr g' precedence) := by
  intro k hk s w t
  refine (hunary k hk s w t).bind fun x => (binaryLoop_reads h hprec).run ?_ x
  split <;> omega

end GoSource.Grammar
