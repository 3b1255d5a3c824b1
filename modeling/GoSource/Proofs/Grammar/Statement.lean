import GoSource.Proofs.Grammar.Expression

/-!
# Statements read on

A statement with a keyword consumes it.  A range clause drops what it cannot assign to, but only after a
complaint.
-/

namespace GoSource.Grammar

variable {s : Stack × Parser} {n k : Nat} {w : Stack} {t : Token} {g g' : Rules}

/-! ### Simple statements -/

instance : Holds Simple where
  held
    | .stmt x => [x]
    | .range assign x => held assign ++ [x]

@[simp] theorem push_simple_stmt (x : NodeId) : push (Simple.stmt x) w = .node x :: w := rfl

@[simp] theorem push_simple_range (assign : Child) (x : NodeId) :
    push (Simple.range assign x) w = .node x :: push assign w := by
  simp [push, held]

/-- Operators that assign have no text of their own. -/
theorem isTag_of_isAssign {t : Token} (h : t.isAssign = true) : t.isTag = true := by
  cases t with
  | op o => rfl
  | _ => exact absurd h Bool.false_ne_true

theorem finishAssign_reads (h : Reads n g.expr g'.expr) (hk : k ≤ n) {atom : Atom} (hatom : atom.token = t)
    (ht : t.isTag = true) (lhs : List Child) :
    Agree (Within s k (push lhs w)) (finishAssign g atom lhs) (finishAssign g' atom lhs)
      fun x => Within s k (.node x :: w) := by
  refine (wrapExprs_reads lhs).bind fun x => Agree.startOf fun pos => ?_
  refine (exprs_reads h k hk s _).bind fun rhs => (wrapExprs_reads rhs).bind fun y => ?_
  exact add_node hatom ht rfl rfl

/-- At most two targets are kept; of more, the rest is dropped with a complaint. -/
theorem rangeTargets_under (above : Stack) (atom : Atom) (lhs : List Child) :
    Agree (Within s k (above ++ push lhs w)) (rangeTargets atom lhs) (rangeTargets atom lhs)
      fun x => Within s k (above ++ push x w) := by
  match lhs with
  | [] => exact Agree.pure fun p hp => hp
  | [x] =>
      refine Agree.pure fun p hp => ?_
      simpa using hp
  | [x, y] =>
      refine Agree.pure fun p hp => ?_
      simpa using hp
  | x :: y :: z :: rest =>
      unfold rangeTargets
      refine Agree.ite (fun _ => ?_) (fun hlt => absurd (by simp) hlt)
      refine (complain_reads _ rfl).bind fun d => Agree.pure fun p hp => ?_
      have hkept := Within.drop (w := push y (push x w)) above (z :: rest) hp.2 (by simpa using hp.1)
      simpa using hkept

theorem rangeClause_reads (h : Reads n g.expr g'.expr) (hk : k ≤ n) {atom : Atom} (hatom : atom.token = t)
    (ht : t.isTag = true) (lhs : List Child) :
    Agree (fun p => Within s k (push lhs w) p ∧ p.curr.token = .kw .range)
      (rangeClause g atom lhs) (rangeClause g' atom lhs) fun x => Within s k (push x w) := by
  refine (next_pass_le rfl).bind fun _ => (h k hk s _).bind fun x => ?_
  refine (rangeTargets_under [.node x] atom lhs).bind fun (key, value) => ?_
  refine Agree.bind (add_under (w := w) [.node x] hatom ht rfl (by simp)) fun assign => ?_
  exact Agree.pure fun p hp => hp

/-- A simple statement reads on as far as its first expressions do.  Only where a range clause is allowed is
there one. -/
theorem simple_agree (h : Reads n g.expr g'.expr) (hk : k ≤ n + 1) {P : Parser → Prop}
    (hfirst : Agree P g.exprs g'.exprs fun x => Within s k (push x w)) (rangeOk : Bool) :
    Agree P (simple g rangeOk) (simple g' rangeOk)
      fun x p => Within s k (push x w) p ∧ (rangeOk = false → ∃ y, x = .stmt y) := by
  refine hfirst.bind fun lhs => ?_
  cases k with
  | zero => exact fun p hp => absurd hp.left_lt (Nat.not_lt_zero _)
  | succ k =>
      have hk' : k ≤ n := Nat.le_of_succ_le_succ hk
      have hstmt (y : NodeId) (p : Parser) (hp : Within s k (.node y :: w) p) :
          Within s (k + 1) (push (Simple.stmt y) w) p ∧ (rangeOk = false → ∃ z, Simple.stmt y = .stmt z) :=
        ⟨hp.weaken (Nat.le_succ k), fun _ => ⟨y, rfl⟩⟩
      refine Agree.tok fun t => Agree.ite (fun ht => ?_) (fun _ => Agree.ite (fun ht => ?_) (fun _ =>
        Agree.ite (fun ht => ?_) (fun _ => ?_)))
      · have htag : t.isTag = true := isTag_of_isAssign ht
        refine Agree.lead (Token.isPlain_of_isTag htag) fun a ha => Agree.tok fun u => Agree.ite (fun hu => ?_) (fun _ => ?_)
        · obtain ⟨hok, -, rfl⟩ := hu
          refine (rangeClause_reads h hk' ha htag lhs).post fun x p hp => ?_
          exact ⟨hp.weaken (Nat.le_succ k), fun hfalse => absurd (hfalse.symm.trans hok) (by decide)⟩
        · exact Agree.map ((finishAssign_reads h hk' ha htag lhs).pre fun p hp => hp.1) hstmt
      · subst ht
        refine (makeAtom_keeps _).bind fun a => Agree.of_fact fun ha => ?_
        refine (wrapExprs_keeps lhs).bind fun x => Agree.startOf fun pos => ?_
        refine (next_pass rfl).bind fun _ => (h k hk' s _).bind fun y => ?_
        exact Agree.map (add_node (w := w) ha rfl rfl rfl) hstmt
      · have htag : t.isTag = true := by rcases ht with rfl | rfl <;> rfl
        refine Agree.lead (Token.isPlain_of_isTag htag) fun a ha => (wrapExprs_reads lhs).bind fun x => ?_
        exact Agree.map (add_node (w := w) ha htag rfl rfl) hstmt
      · refine Agree.map ((wrapExprs_reads lhs).pre fun p hp => hp.1) fun x p hp => ?_
        exact ⟨hp, fun _ => ⟨x, rfl⟩⟩

theorem simpleStmt_agree (h : Reads n g.expr g'.expr) (hk : k ≤ n + 1) {P : Parser → Prop}
    (hfirst : Agree P g.exprs g'.exprs fun x => Within s k (push x w)) :
    Agree P (simpleStmt g) (simpleStmt g') fun x => Within s k (.node x :: w) := by
  refine (simple_agree h hk hfirst false).bind fun x => Agree.of_fact fun hx => ?_
  obtain ⟨y, rfl⟩ := hx rfl
  exact Agree.pure fun p hp => hp

theorem simpleStmt_reads (h : Reads n g.expr g'.expr) : Reads n (simpleStmt g) (simpleStmt g') :=
  fun k hk s w => simpleStmt_agree h (Nat.le_succ_of_le hk) (exprs_reads h k hk s w)

/-- A simple statement consumes the token that it starts with. -/
theorem simpleStmt_opens (h : Parses startsExpr n g.expr g'.expr) (ht : startsExpr t = true) :
    Opens t n (simpleStmt g) (simpleStmt g') := by
  intro k hk s w
  have hexpr : Reads n g.expr g'.expr := h.reads.mono (Nat.le_succ n)
  refine simpleStmt_agree hexpr (Nat.le_succ_of_le hk) ?_
  exact exprs_agree hexpr (Nat.le_succ_of_le hk) (h.opens ht k hk s w)

/-! ### Statements with a header -/

theorem header_reads (h : g.Close n g') {last last' : ParseM NodeId} (hlast : Reads n last last') :
    Reads n (header g last) (header g' last') := by
  intro k hk s w
  refine Agree.tok fun t => Agree.ite_bind (Q := fun first => Within s k (push first w)) (fun _ => ?_)
    (fun _ => ?_) fun first => ?_
  · exact Agree.pure fun p hp => hp.1
  · exact ((simpleStmt_reads h.expr).some k hk s w).pre fun p hp => hp.1
  refine Agree.tok fun u => Agree.ite (fun _ => ?_) (fun hu => ?_)
  · exact Agree.pure fun p hp => hp.1
  obtain rfl : u = .op .semicolon := Decidable.of_not_not hu
  refine (next_pass_le rfl).bind fun _ => Agree.tok fun t => ?_
  refine Agree.ite_bind (Q := fun second => Within s k (push second (push first w))) (fun _ => ?_)
    (fun _ => ?_) fun second => ?_
  · exact Agree.pure fun p hp => hp.1
  · exact (hlast.some k hk s _).pre fun p hp => hp.1
  · refine Agree.pure fun p hp => ?_
    rw [push_pair]
    exact hp

theorem ifHeader_reads (h : g.Close n g') : Reads n (ifHeader g) (ifHeader g') := by
  intro k hk s w
  refine Agree.tok fun t => Agree.ite (fun _ => ?_) (fun _ => ?_)
  · exact ((makeBad_reads _ k hk s w).pre fun p hp => hp.1).bind fun x => Agree.pure fun p hp => hp
  refine ((header_reads h h.expr k hk s w).pre fun p hp => hp.1).bind fun (init, cond) => ?_
  rw [push_pair]
  cases cond with
  | some cond =>
      refine Agree.pure fun p hp => ?_
      rw [push_pair]
      exact hp
  | none =>
      refine (makeBad_reads _ k hk s _).bind fun x => Agree.pure fun p hp => ?_
      rw [push_pair]
      exact hp

theorem elseBranch_reads (h : g.Close n g') : Reads n (elseBranch g) (elseBranch g') := by
  intro k hk s w
  refine Agree.tok fun t => Agree.ite (fun _ => ?_) (fun ht => ?_)
  · exact Agree.pure fun p hp => hp.1
  obtain rfl : t = .kw .else_ := Decidable.of_not_not ht
  refine (next_pass_le rfl).bind fun _ => Agree.tok fun u => ?_
  split
  · exact Agree.map (h.ifStmt k hk s w) fun x p hp => hp
  · exact ((block_reads h).some k hk s w).pre fun p hp => hp.1
  · exact ((makeBad_reads _).some k hk s w).pre fun p hp => hp.1

theorem ifStmt_opens (h : g.Close n g') : Opens (.kw .if_) n (ifStmt g) (ifStmt g') := by
  intro k hk s w
  refine Agree.lead rfl fun a ha => ?_
  refine ((ifHeader_reads h).withComposite k hk s w).bind fun (init, cond) => ?_
  refine (block_reads h k hk s _).bind fun body => (elseBranch_reads h k hk s _).bind fun otherwise => ?_
  exact add_node ha rfl rfl (by simp)

instance : Holds ForHeader where
  held
    | .clauses init cond post => held init ++ (held cond ++ held post)
    | .range assign x => held assign ++ [x]

@[simp] theorem push_for_clauses (init cond post : Child) :
    push (ForHeader.clauses init cond post) w = push post (push cond (push init w)) := by
  simp [push, held]

@[simp] theorem push_for_range (assign : Child) (x : NodeId) :
    push (ForHeader.range assign x) w = .node x :: push assign w := by
  simp [push, held]

theorem forClauses_reads (h : g.Close n g') (hk : k ≤ n) (first : Child) :
    Agree (Within s k (push first w)) (forClauses g first) (forClauses g' first)
      fun x => Within s k (push x w) := by
  refine Agree.tok fun t => Agree.ite (fun _ => ?_) (fun ht => ?_)
  · refine Agree.pure fun p hp => ?_
    simpa using hp.1
  obtain rfl : t = .op .semicolon := Decidable.of_not_not ht
  refine (next_pass_le rfl).bind fun _ => Agree.tok fun u => ?_
  refine Agree.ite_bind (Q := fun cond => Within s k (push cond (push first w))) (fun _ => ?_) (fun _ => ?_)
    fun cond => ?_
  · exact Agree.pure fun p hp => hp.1
  · exact (h.expr.some k hk s _).pre fun p hp => hp.1
  refine (expect_reads rfl k hk s _).bind fun _ => Agree.tok fun u => ?_
  refine Agree.ite_bind (Q := fun post => Within s k (push post (push cond (push first w)))) (fun _ => ?_)
    (fun _ => ?_) fun post => ?_
  · exact Agree.pure fun p hp => hp.1
  · exact ((simpleStmt_reads h.expr).some k hk s _).pre fun p hp => hp.1
  · refine Agree.pure fun p hp => ?_
    simpa using hp

theorem forHeader_reads (h : g.Close n g') : Reads n (forHeader g) (forHeader g') := by
  intro k hk s w
  refine Agree.tok fun t => ?_
  split
  · exact Agree.pure fun p hp => hp.1
  · refine (next_pass_le rfl).bind fun _ => (h.expr k hk s w).bind fun x => Agree.pure fun p hp => hp
  · exact (forClauses_reads h hk none).pre fun p hp => hp.1
  · have hsimple := simple_agree h.expr (Nat.le_succ_of_le hk) (exprs_reads h.expr k hk s w) true
    refine (hsimple.pre fun p hp => hp.1).bind fun x => Agree.pre ?_ fun p hp => hp.1
    cases x with
    | range assign x =>
        refine Agree.pure fun p hp => ?_
        simpa using hp
    | stmt x => exact forClauses_reads h hk (some x)

theorem forStmt_opens (h : g.Close n g') : Opens (.kw .for_) n (forStmt g) (forStmt g') := by
  intro k hk s w
  refine Agree.lead rfl fun a ha => ?_
  refine ((forHeader_reads h).withComposite k hk s w).bind fun x => ?_
  refine (block_reads h k hk s _).bind fun body => ?_
  cases x with
  | clauses init cond post => exact add_node ha rfl rfl (by simp)
  | range assign x => exact add_node rfl rfl rfl (by simp)

/-! ### Clauses -/

theorem clause_opens (h : g.Close n g') {head head' : ParseM NodeId} (hhead : Reads n head head')
    {keyword : Token} (hkeyword : keyword.isTag = true) :
    Opens keyword n (clause g head keyword) (clause g' head' keyword) := by
  intro k hk s w
  refine Agree.lead (Token.isPlain_of_isTag hkeyword) fun a ha => ?_
  refine Agree.ite_bind (Q := fun x => Within s k (push x w)) (fun _ => ?_) (fun _ => ?_) fun x => ?_
  · exact hhead.some k hk s w
  · exact Agree.pure fun p hp => hp
  refine (makeAtom_reads _).bind fun b => Agree.of_fact fun hb => ?_
  refine (expect_reads rfl k hk s _).bind fun _ => ((stmtLoop_reads h).run hk []).bind fun stmts => ?_
  refine Agree.bind (add_node (w := push x w) hb rfl rfl rfl) fun body => ?_
  exact add_node ha hkeyword rfl (by simp)

theorem clausesLoop_reads (h : g.Close n g') {head head' : ParseM NodeId} (hhead : Reads n head head') :
    (clausesLoop g head).Reads n (clausesLoop g' head') where
  more_eq := rfl
  round k hk s w kids t ht := by
    have hne : t ≠ .eof := by
      simp only [clausesLoop, Bool.and_eq_true, bne_iff_ne] at ht
      exact ht.2
    have hkids (x : NodeId) (p : Parser) (hp : Within s k (push x (push kids w)) p) :
        Within s k (push (kids ++ [some x]) w) p := by
      simpa using hp
    refine Agree.tok_eq (Agree.ite (fun ht => ?_) (fun _ => ?_))
    · have htag : t.isTag = true := by rcases ht with rfl | rfl <;> rfl
      refine (clause_opens h hhead htag k (Nat.le_of_lt hk) s _).bind fun x => ?_
      exact Agree.pure fun p hp => hkids x p hp
    · exact (parseBad_consumes _ hne).bind fun x => Agree.pure fun p hp => hkids x p hp.1

theorem clauses_reads (h : g.Close n g') {head head' : ParseM NodeId} (hhead : Reads n head head') :
    Reads n (clauses g head) (clauses g' head') := by
  intro k hk s w
  refine (makeAtom_reads _).bind fun a => Agree.of_fact fun ha => ?_
  refine (enter_reads rfl k hk s w).bind fun opened => ?_
  refine Agree.bind (Q := fun kids => Within s k (push kids w)) ?_ fun kids => ?_
  · refine Agree.withComposite (fun _ b hp => hp.composite b) (fun _ _ b hp => hp.composite b) ?_
    exact (clausesLoop_reads h hhead).run hk opened
  · refine (leave_reads rfl k hk s _).bind fun bads => ?_
    exact add_node ha rfl rfl (by simp)

theorem switchHeader_reads (h : g.Close n g') : Reads n (switchHeader g) (switchHeader g') := by
  intro k hk s w
  refine Agree.tok fun t => Agree.ite (fun _ => Agree.pure fun p hp => hp.1) (fun _ => ?_)
  exact (header_reads h (simpleStmt_reads h.expr) k hk s w).pre fun p hp => hp.1

theorem switchStmt_opens (h : g.Close n g') : Opens (.kw .switch) n (switchStmt g) (switchStmt g') := by
  intro k hk s w
  refine Agree.lead rfl fun a ha => ?_
  refine ((switchHeader_reads h).withComposite k hk s w).bind fun (init, tag) => ?_
  refine Agree.get fun q => Agree.pre ?_ fun p hp => hp.1
  have hcase : Reads n (do listExprs (← g.exprs)) (do listExprs (← g'.exprs)) :=
    fun k hk s w => (exprs_reads h.expr k hk s w).bind fun items => listExprs_reads items
  refine (clauses_reads h hcase k hk s _).bind fun body => ?_
  refine add_node rfl ?_ rfl (by simp)
  dsimp only
  split
  · rfl
  · rw [ha]
    rfl

theorem selectStmt_opens (h : g.Close n g') : Opens (.kw .select) n (selectStmt g) (selectStmt g') := by
  intro k hk s w
  refine Agree.lead rfl fun a ha => ?_
  refine (clauses_reads h (simpleStmt_reads h.expr) k hk s w).bind fun body => ?_
  exact add_node ha rfl rfl rfl

/-! ### Other statements -/

theorem returned_reads (h : g.Close n g') : Reads n (returned g) (returned g') := by
  intro k hk s w
  refine Agree.tok fun t => ?_
  split
  · exact Agree.pure fun p hp => hp.1
  · exact Agree.pure fun p hp => hp.1
  · exact Agree.pure fun p hp => hp.1
  · exact (exprs_reads h.expr k hk s w).pre fun p hp => hp.1

theorem returnStmt_opens (h : g.Close n g') : Opens (.kw .return_) n (returnStmt g) (returnStmt g') := by
  intro k hk s w
  refine Agree.lead rfl fun a ha => (returned_reads h k hk s w).bind fun results => ?_
  exact add_node ha rfl rfl rfl

theorem jumpStmt_opens (keyword : Keyword) (hkeyword : (Token.kw keyword).isTag = true) :
    Opens (.kw keyword) n (jumpStmt keyword) (jumpStmt keyword) := by
  intro k hk s w
  refine Agree.lead rfl fun a ha => Agree.tok fun t => ?_
  refine Agree.ite_bind (Q := fun x => Within s k (push x w)) (fun _ => ?_) (fun _ => ?_) fun x => ?_
  · exact (parseIdent_reads.some k hk s w).pre fun p hp => hp.1
  · exact Agree.pure fun p hp => hp.1
  · exact add_node ha hkeyword rfl (by simp)

theorem deferredCall_opens (h : g.Close n g') (keyword : Keyword) (hkeyword : (Token.kw keyword).isTag = true) :
    Opens (.kw keyword) n (deferredCall g keyword) (deferredCall g' keyword) := by
  intro k hk s w
  refine Agree.lead rfl fun a ha => (h.expr k hk s w).bind fun x => ?_
  exact add_node ha hkeyword rfl rfl

theorem labeledStmt_reads (h : g.Close n g') (hk : k ≤ n) {ident : Atom} (hident : ident.token ≠ .eof) :
    Agree (fun p => Within s k (.token ident :: w) p ∧ p.curr.token = .op .colon)
      (labeledStmt g ident) (labeledStmt g' ident) fun x => Within s k (.node x :: w) := by
  refine (makeAtom_keeps _).bind fun a => Agree.of_fact fun ha => ?_
  refine Agree.bind (Q := fun name p => Within s k (.node name :: w) p ∧ p.curr.token = .op .colon) ?_
    fun name => ?_
  · rintro p ⟨hp, ht⟩
    exact ⟨rfl, (add_leaf [] hident p hp).2, ht⟩
  refine (next_pass_le rfl).bind fun _ => (h.stmt? k hk s _).bind fun stmt => ?_
  exact add_node ha rfl rfl (by simp)

theorem identStmt_opens (h : g.Close n g') (hexpr : Parses startsExpr n g.expr g'.expr) :
    Opens (.lit .ident) n (identStmt g) (identStmt g') := by
  intro k hk s w
  refine Agree.lead_ident fun ident hident => ?_
  have hne : ident.token ≠ .eof := by rw [hident]; exact nofun
  refine Agree.tok fun t => Agree.ite (fun ht => ?_) (fun _ => ?_)
  · subst ht
    exact (labeledStmt_reads h hk hne).pre fun p hp => ⟨hp.1.take, hp.2⟩
  · refine (putBack_taken.pre fun p hp => hp.1).bind fun _ => ?_
    exact simpleStmt_opens hexpr rfl k hk s w

end GoSource.Grammar
