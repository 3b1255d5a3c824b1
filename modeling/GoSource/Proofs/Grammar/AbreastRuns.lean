import GoSource.Proofs.Grammar.AbreastTypes

/-!
# Expressions and statements over the same words

Expressions, statements and declarations do the same from states abreast, as long as they stay inside the words that
the two runs have in common.

* **`binaryExpr_near`**, **`compositeLit_near`**: expressions.
* **`simple_near`**, **`ifStmt_near`**, **`statement?_near`**: statements.
-/

namespace GoSource.Grammar

variable {c : Course} {S : Parser → Prop} {g g' : Rules}

/-! ### Expressions -/

theorem stmtList_near (h : g.Near c g') (stmts : List Child) :
    Near c S (stmtList g stmts) (stmtList g' (rename c.image stmts)) := by
  refine .run stmts rfl fun x => .left fun n n' => h.stmt?.bind fun s => .tok fun t => ?_
  refine .ite (fun _ => .bind .next fun _ => .pure (by simp)) fun _ => .ite (fun _ => .pure (by simp)) fun _ => ?_
  -- A statement that nothing ends is an error, whether it is empty or not.
  refine .of_outside (.left fun _ => .ite ?_ (.here fun pos => ?_))
  · exact (parseBad_outside _).bind fun _ _ hin => hin
  · exact (Outside.complain pos _).bind fun _ _ hin => hin

theorem block_near (h : g.Near c g') : Near c S (block g) (block g') := by
  refine .makeAtom fun a a' ha => (enter_near _).bind fun opened => ?_
  refine .bind (.withComposite true (stmtList_near h opened)) fun stmts => ?_
  exact (leave_near _).bind fun _ => .add ha (by simp [NodeShape.rename, rename_children])

theorem funcTypeOrLiteral_near (h : g.Near c g') : Near c S (funcTypeOrLiteral g) (funcTypeOrLiteral g') := by
  refine .makeAtom fun a a' ha => (funcType_near h).bind fun sig => .tok fun t => .ite (fun _ => .pure rfl) fun _ => ?_
  exact .bind (.withComposite true (block_near h)) fun body => .add ha rfl

theorem operand_near (h : g.Near c g') : Near c S (operand g) (operand g') := by
  refine .tok fun t => ?_
  split
  · exact parseIdent_near
  · exact parseAtom_near _
  · refine .lead fun a a' ha => .bind (.withComposite true h.expr) fun x => ?_
    exact .bind (.add ha rfl) fun paren => leaveNode_near paren _
  · exact funcTypeOrLiteral_near h
  iterate 5 · exact h.type
  iterate 7 · exact makeBad_near _
  · exact parseBad_near _

theorem selectorOrAssertion_near (h : g.Near c g') (x : NodeId) :
    Near c S (selectorOrAssertion g x) (selectorOrAssertion g' (c.image x)) := by
  refine .makeAtom fun a a' ha => .startOf fun pos pos' => .bind .next fun _ => .tok fun t => ?_
  have hat := ha.withPos pos pos'
  split
  · exact parseIdent_near.bind fun _ => .add hat rfl
  · refine .bind .next fun _ => .tok fun t => .ite_bind (fun _ => parseAtom_near _) (fun _ => h.type) fun typ => ?_
    exact .bind (.add (hat.withToken _) rfl) fun _ => leaveNode_near _ _
  · exact (makeBad_near _).bind fun _ => .add hat rfl

theorem sliceBound_near (h : g.Near c g') : Near c S (sliceBound g) (sliceBound g') := by
  refine .bind .next fun _ => .tok fun t => ?_
  split
  iterate 3 · exact .pure rfl
  · exact h.expr.some

theorem sliceParts_near (h : g.Near c g') (x : NodeId) (low : Child) :
    Near c S (sliceParts g x low) (sliceParts g' (c.image x) (rename c.image low)) := by
  refine (sliceBound_near h).bind fun high => .tok fun t => .ite (fun _ => .pure rfl) fun _ => ?_
  refine (sliceBound_near h).bind fun max => ?_
  have hmissing (x : Child) : (rename c.image x).isNone = x.isNone := by cases x <;> rfl
  rw [hmissing, hmissing]
  refine .ite (fun _ => .of_outside ?_) fun _ => .pure rfl
  exact .here fun pos => (Outside.complain pos _).bind fun _ _ hin => hin

theorem indexLoop_near (h : g.Near c g') (args : List Child) :
    Near c S ((indexLoop g).run args) ((indexLoop g').run (rename c.image args)) :=
  .run args rfl fun _ => .bind .next fun _ => .tok fun _ => .ite (fun _ => .pure rfl) fun _ =>
    h.expr.bind fun _ => .pure (by simp)

theorem indexArguments_near (h : g.Near c g') (first : Child) :
    Near c S (indexArguments g first) (indexArguments g' (rename c.image first)) := by
  cases first with
  | none => exact (makeBad_near _).bind fun _ => .pure rfl
  | some first =>
      refine .tok fun t => .ite (fun _ => .pure rfl) fun _ => ?_
      exact (indexLoop_near h [some first]).bind fun args => (listExprs_near args).some

theorem indexBody_near (h : g.Near c g') {a a' : Atom} (ha : a.Akin a') (x : NodeId) :
    Near c S (indexBody g a x) (indexBody g' a' (c.image x)) := by
  refine .tok fun t => .ite_bind (fun _ => .pure rfl) (fun _ => h.expr.some) fun first => .tok fun t => ?_
  refine .ite (fun _ => ?_) fun _ => ?_
  · exact (sliceParts_near h x first).bind fun _ => .add (ha.withToken _) rfl
  · exact (indexArguments_near h first).bind fun _ => .add ha rfl

theorem indexOrSlice_near (h : g.Near c g') (x : NodeId) :
    Near c S (indexOrSlice g x) (indexOrSlice g' (c.image x)) := by
  refine .makeAtom fun a a' ha => .startOf fun pos pos' => .bind .next fun _ => ?_
  exact .bind (.withComposite true (indexBody_near h (ha.withPos pos pos') x)) fun node => leaveNode_near node _

theorem argument_near (h : g.Near c g') : Near c S (argument g) (argument g') :=
  h.expr.bind fun _ => .tok fun _ => .ite (fun _ => .pure rfl) fun _ => .lead fun _ _ ha => .add ha rfl

theorem argumentsLoop_near (h : g.Near c g') (args : List Child) :
    Near c S ((argumentsLoop g).run args) ((argumentsLoop g').run (rename c.image args)) :=
  .run args rfl fun _ => (argument_near h).bind fun _ => .tok fun _ => .ite (fun _ => .pure (by simp)) fun _ =>
    .bind .next fun _ => .pure (by simp)

theorem call_near (h : g.Near c g') (f : NodeId) : Near c S (call g f) (call g' (c.image f)) := by
  refine .makeAtom fun a a' ha => .startOf fun pos pos' => .bind .next fun _ => ?_
  refine .bind (.withComposite true (argumentsLoop_near h [some f])) fun args => (leave_near _).bind fun _ => ?_
  exact .add (ha.withPos pos pos') (by simp [NodeShape.rename, rename_children])

theorem elementValue_near (h : g.Near c g') : Near c S (elementValue g) (elementValue g') :=
  .tok fun _ => .ite (fun ht => h.elements.mono fun _ hp => hp.2.trans ht) fun _ => h.expr

theorem element_near (h : g.Near c g') : Near c S (element g) (element g') := by
  refine (elementValue_near h).bind fun key => .tok fun t => .ite (fun _ => .pure rfl) fun _ => ?_
  refine .makeAtom fun a a' ha => .startOf fun pos pos' => .bind .next fun _ => ?_
  exact (elementValue_near h).bind fun value => .add (ha.withPos pos pos') rfl

/-- One round of a list of elements is an element and what follows it. -/
theorem elementsLoop_item (elems : List Child) :
    (elementsLoop g).round elems = (left >>= fun before => element g >>= itemEnd
      (fun elem => next >>= fun _ => pure (.again (elems ++ [some elem])))
      (fun elem => parseBad (.expecting (.op .rbrace)) >>= fun bad => pure (.again (elems ++ [some elem] ++ [some bad])))
      (fun elem => pure (.done (elems ++ [some elem]))) before) := rfl

theorem elementsLoop_near (h : g.Near c g') (elems : List Child) :
    Near c S ((elementsLoop g).run elems) ((elementsLoop g').run (rename c.image elems)) := by
  refine .run elems rfl fun elems => ?_
  rw [elementsLoop_item, elementsLoop_item]
  refine .item (element_near h) (fun _ => .bind .next fun _ => .pure (by simp)) (fun _ => ?_) fun _ => .pure (by simp)
  exact (parseBad_outside _).bind fun _ _ hin => hin

theorem compositeLit_near (h : g.Near c g') (typ : Child) :
    Near c S (compositeLit g typ) (compositeLit g' (rename c.image typ)) := by
  refine atomFrom_near _ _ fun a a' ha => .makeAtom fun b b' hb => (enter_near _).bind fun opened => ?_
  refine .bind (.withComposite true (elementsLoop_near h opened)) fun elems => (leave_near _).bind fun _ => ?_
  exact .bind (.add hb (by simp [NodeShape.rename, rename_children])) fun list => .add ha rfl

theorem isLiteralType_eq {p q : Parser} (hpq : Abreast c p q) (x : NodeId) :
    isLiteralType q (c.image x) = isLiteralType p x := by
  unfold isLiteralType
  rw [hpq.tree.op_eq, hpq.tree.isBad_eq, hpq.compositeOk]

theorem suffixes_near (h : g.Near c g') (x : NodeId) : Near c S (suffixes g x) (suffixes g' (c.image x)) := by
  have hliteral {S : Parser → Prop} (x : NodeId) (literal : Bool) : Near c S
      (if literal then .again <$> compositeLit g (some x) else pure (.done x) : ParseM (Turn NodeId))
      (if literal then .again <$> compositeLit g' (some (c.image x)) else pure (.done (c.image x))) :=
    .ite (fun _ => (compositeLit_near h (some x)).again) fun _ => .pure rfl
  refine .run x rfl fun x => .tok fun t => ?_
  split
  · exact (selectorOrAssertion_near h x).again
  · exact (indexOrSlice_near h x).again
  · exact (call_near h x).again
  · exact .look (fun p q hpq => isLiteralType_eq hpq x) (hliteral x)

theorem unaryExpr_near (h : g.Near c g') : Near c S (unaryExpr g) (unaryExpr g') := by
  have hoperand {S : Parser → Prop} : Near c S (operand g >>= suffixes g) (operand g' >>= suffixes g') :=
    (operand_near h).bind fun x => suffixes_near h x
  refine .tok fun t => ?_
  split
  · refine .lead fun a a' ha => .tok fun t => .ite (fun _ => ?_) fun _ => h.unary.bind fun _ => .add ha rfl
    exact (recvChanType_near h ha).bind fun x => suffixes_near h x
  · exact .ite (fun _ => .lead fun a a' ha => h.unary.bind fun _ => .add ha rfl) fun _ => hoperand
  · exact hoperand

theorem takes_unaryExpr (h : g.Near c g') : Takes c (·.curr.token = .lit .ident) (unaryExpr g) :=
  .tok_eq (.bind (.tok_eq takes_parseIdent) fun x p => (suffixes_near (S := Anywhere) h x).inside p trivial)

/-- Operators bind at least as tightly as 1. -/
theorem binaryLoop_near (h : g.Near c g') (precedence : Nat) (x : NodeId) :
    Near c S ((binaryLoop g precedence).run x) ((binaryLoop g' precedence).run (c.image x)) := by
  refine .run x rfl fun x => .tok fun op => .lead fun a a' ha => ?_
  exact (h.binary _ (Nat.le_add_left _ _)).bind fun _ => .bind (.add ha rfl) fun _ => .pure rfl

theorem binaryExpr_near (h : g.Near c g') (precedence : Nat) :
    Near c S (binaryExpr g precedence) (binaryExpr g' precedence) :=
  h.unary.bind fun first => binaryLoop_near h precedence first

theorem takes_binaryExpr (h : g.Near c g') (precedence : Nat) :
    Takes c (·.curr.token = .lit .ident) (binaryExpr g precedence) :=
  h.takes_unary.bind fun x p => (binaryLoop_near (S := Anywhere) h precedence x).inside p trivial

/-! ### Statements -/

instance : Renames Simple where
  rename f
    | .stmt node => .stmt (f node)
    | .range assign x => .range (rename f assign) (f x)

@[simp] theorem rename_stmt (f : NodeId → NodeId) (node : NodeId) : rename f (Simple.stmt node) = .stmt (f node) := rfl

theorem finishAssign_near (h : g.Near c g') {a a' : Atom} (ha : a.Akin a') (lhs : List Child) :
    Near c S (finishAssign g a lhs) (finishAssign g' a' (rename c.image lhs)) := by
  refine (wrapExprs_near lhs).bind fun x => .startOf fun pos pos' => h.exprs.bind fun rhs => ?_
  exact (wrapExprs_near rhs).bind fun _ => .add (ha.withPos pos pos') rfl

theorem rangeTargets_near (a a' : Atom) (lhs : List Child) :
    Near c S (rangeTargets a lhs) (rangeTargets a' (rename c.image lhs)) := by
  have hsecond : ((rename c.image lhs)[1]?).join = rename c.image (lhs[1]?).join := by
    rcases lhs with - | ⟨first, - | ⟨second, rest⟩⟩ <;> rfl
  unfold rangeTargets
  rw [length_rename, rename_head?, hsecond]
  refine .ite (fun _ => .of_outside ?_) fun _ => .pure rfl
  exact (Outside.complain _ _).bind fun _ _ hin => hin

theorem rangeClause_near (h : g.Near c g') {a a' : Atom} (ha : a.Akin a') (lhs : List Child) :
    Near c S (rangeClause g a lhs) (rangeClause g' a' (rename c.image lhs)) := by
  refine .bind .next fun _ => h.expr.bind fun x => (rangeTargets_near a a' lhs).bind fun targets => ?_
  exact .bind (.add ha rfl) fun _ => .pure rfl

/-- A simple statement from what follows its first expressions on. -/
def simpleFrom (g : Rules) (rangeOk : Bool) (lhs : List Child) : ParseM Simple := do
  let t ← tok
  if t.isAssign then
    let atom ← makeAtom t
    next
    if rangeOk ∧ (t = .op .define ∨ t = .op .assign) ∧ (← tok) = .kw .range then rangeClause g atom lhs
    else .stmt <$> finishAssign g atom lhs
  else if t = .op .arrow then
    let atom ← makeAtom (.op .arrow)
    let channel ← wrapExprs lhs
    let pos ← startOf channel
    next
    let value ← g.expr
    .stmt <$> add { atom with pos } (.binary (some channel) (some value))
  else if t = .op .inc ∨ t = .op .dec then
    let atom ← makeAtom t
    next
    let x ← wrapExprs lhs
    .stmt <$> add atom (.unary (some x))
  else .stmt <$> wrapExprs lhs

theorem simple_eq (g : Rules) (rangeOk : Bool) : simple g rangeOk = g.exprs >>= simpleFrom g rangeOk := rfl

theorem Near.stmt {m m' : ParseM NodeId} (h : Near c S m m') : Near c S (Simple.stmt <$> m) (Simple.stmt <$> m') :=
  h.map fun _ => rfl

theorem simpleFrom_near (h : g.Near c g') (rangeOk : Bool) (lhs : List Child) :
    Near c S (simpleFrom g rangeOk lhs) (simpleFrom g' rangeOk (rename c.image lhs)) := by
  refine .tok fun t => .ite (fun _ => ?_) fun _ => .ite (fun _ => ?_) fun _ => .ite (fun _ => ?_) fun _ => ?_
  · refine .lead fun a a' ha => .tok fun t => ?_
    exact .ite (fun _ => rangeClause_near h ha lhs) fun _ => (finishAssign_near h ha lhs).stmt
  · refine .makeAtom fun a a' ha => (wrapExprs_near lhs).bind fun channel => .startOf fun pos pos' => ?_
    exact .bind .next fun _ => h.expr.bind fun _ => (Near.add (ha.withPos pos pos') rfl).stmt
  · exact .lead fun a a' ha => (wrapExprs_near lhs).bind fun _ => (Near.add ha rfl).stmt
  · exact (wrapExprs_near lhs).stmt

theorem simple_near (h : g.Near c g') (rangeOk : Bool) : Near c S (simple g rangeOk) (simple g' rangeOk) := by
  rw [simple_eq, simple_eq]
  exact h.exprs.bind (simpleFrom_near h rangeOk)

theorem simpleStmt_near (h : g.Near c g') : Near c S (simpleStmt g) (simpleStmt g') := by
  refine (simple_near h false).bind fun s => ?_
  cases s with
  | stmt node => exact .pure rfl
  | range assign x => exact .pure rfl

theorem takes_simpleStmt (h : g.Near c g') : Takes c (·.curr.token = .lit .ident) (simpleStmt g) := by
  have hsimple : Takes c (·.curr.token = .lit .ident) (simple g false) :=
    h.takes_exprs.bind fun lhs p => (simpleFrom_near (S := Anywhere) h false lhs).inside p trivial
  refine hsimple.bind fun s p hin => ?_
  cases s <;> exact hin

theorem header_near (h : g.Near c g') {last last' : ParseM NodeId} (hlast : Near c Anywhere last last') :
    Near c S (header g last) (header g' last') := by
  refine .tok fun t => .ite_bind (fun _ => .pure rfl) (fun _ => (simpleStmt_near h).some) fun first => .tok fun t => ?_
  refine .ite (fun _ => .pure rfl) fun _ => .bind .next fun _ => .tok fun t => ?_
  exact .ite_bind (fun _ => .pure rfl) (fun _ => hlast.some.mono fun _ _ => trivial) fun second => .pure rfl

theorem ifHeader_near (h : g.Near c g') : Near c S (ifHeader g) (ifHeader g') := by
  refine .tok fun t => .ite (fun _ => (makeBad_near _).bind fun _ => .pure rfl) fun _ => ?_
  refine (header_near h h.expr).bind fun x => ?_
  obtain ⟨init, cond⟩ := x
  cases cond with
  | some cond => exact .pure rfl
  | none => exact (makeBad_near _).bind fun _ => .pure rfl

theorem elseBranch_near (h : g.Near c g') : Near c S (elseBranch g) (elseBranch g') := by
  refine .tok fun t => .ite (fun _ => .pure rfl) fun _ => .bind .next fun _ => .tok fun t => ?_
  split
  · exact h.ifStmt.some.mono fun _ hp => hp.2
  · exact (block_near h).some
  · exact (makeBad_near _).some

theorem ifStmt_near (h : g.Near c g') : Near c S (ifStmt g) (ifStmt g') := by
  refine .lead fun a a' ha => .bind (.withComposite false (ifHeader_near h)) fun x => ?_
  exact (block_near h).bind fun _ => (elseBranch_near h).bind fun _ => .add ha rfl

instance : Renames ForHeader where
  rename f
    | .clauses init cond post => .clauses (rename f init) (rename f cond) (rename f post)
    | .range assign x => .range (rename f assign) (f x)

theorem forClauses_near (h : g.Near c g') (first : Child) :
    Near c S (forClauses g first) (forClauses g' (rename c.image first)) := by
  refine .tok fun t => .ite (fun _ => .pure rfl) fun _ => .bind .next fun _ => .tok fun t => ?_
  refine .ite_bind (fun _ => .pure rfl) (fun _ => h.expr.some) fun cond => (expect_near _).bind fun _ => .tok fun t => ?_
  exact .ite_bind (fun _ => .pure rfl) (fun _ => (simpleStmt_near h).some) fun post => .pure rfl

theorem forHeader_near (h : g.Near c g') : Near c S (forHeader g) (forHeader g') := by
  refine .tok fun t => ?_
  split
  · exact .pure rfl
  · exact .bind .next fun _ => h.expr.bind fun _ => .pure rfl
  · exact forClauses_near h none
  · refine (simple_near h true).bind fun s => ?_
    cases s with
    | range assign x => exact .pure rfl
    | stmt node => exact forClauses_near h (some node)

theorem forStmt_near (h : g.Near c g') : Near c S (forStmt g) (forStmt g') := by
  refine .lead fun a a' ha => .bind (.withComposite false (forHeader_near h)) fun header => ?_
  refine (block_near h).bind fun body => ?_
  cases header with
  | clauses init cond post => exact .add ha rfl
  | range assign x => exact .add (ha.withToken _) rfl

theorem clause_near (h : g.Near c g') {head head' : ParseM NodeId} (hhead : Near c Anywhere head head')
    (keyword : Token) : Near c S (clause g head keyword) (clause g' head' keyword) := by
  refine .lead fun a a' ha => .ite_bind (fun _ => hhead.some) (fun _ => .pure rfl) fun x => .makeAtom fun b b' hb => ?_
  refine (expect_near _).bind fun _ => (stmtList_near h []).bind fun stmts => ?_
  exact .bind (.add hb rfl) fun body => .add ha rfl

theorem clausesLoop_near (h : g.Near c g') {head head' : ParseM NodeId} (hhead : Near c Anywhere head head')
    (kids : List Child) :
    Near c S ((clausesLoop g head).run kids) ((clausesLoop g' head').run (rename c.image kids)) :=
  .run kids rfl fun _ => .tok fun t => .ite (fun _ => (clause_near h hhead t).bind fun _ => .pure (by simp)) fun _ =>
    (parseBad_near _).bind fun _ => .pure (by simp)

theorem clauses_near (h : g.Near c g') {head head' : ParseM NodeId} (hhead : Near c Anywhere head head') :
    Near c S (clauses g head) (clauses g' head') := by
  refine .makeAtom fun a a' ha => (enter_near _).bind fun opened => ?_
  refine .bind (.withComposite true (clausesLoop_near h hhead opened)) fun _ => (leave_near _).bind fun _ => ?_
  exact .add ha (by simp [NodeShape.rename, rename_children])

theorem isTypeSwitch_eq {p q : Parser} (hpq : Abreast c p q) (tag : Child) :
    (rename c.image tag).any (isTypeSwitch q.tree) = tag.any (isTypeSwitch p.tree) := by
  have hguard (y : Child) : isTypeGuard q.tree (y.map c.image) = isTypeGuard p.tree y := by
    unfold isTypeGuard
    simp only [Option.any_map, hpq.tree.op_eq, hpq.tree.part?_eq]
  have hswitch (n : NodeId) : isTypeSwitch q.tree (c.image n) = isTypeSwitch p.tree n := by
    unfold isTypeSwitch
    rw [hpq.tree.op_eq, hpq.tree.part?_eq, hguard]
    rw [← hguard (some n)]
    rfl
  cases tag with
  | none => rfl
  | some n => exact hswitch n

theorem switchStmt_near (h : g.Near c g') : Near c S (switchStmt g) (switchStmt g') := by
  have hheader {S : Parser → Prop} : Near c S (switchHeader g) (switchHeader g') :=
    .tok fun _ => .ite (fun _ => .pure rfl) fun _ => header_near h (simpleStmt_near h)
  have htags : Near c Anywhere (g.exprs >>= listExprs) (g'.exprs >>= listExprs) := h.exprs.bind listExprs_near
  have hbody {a a' : Atom} (ha : a.Akin a') (init tag : Child) (typed : Bool) : Near c Anywhere
      (do
        let token := if typed then .tag .typeSwitch else a.token
        let body ← clauses g (g.exprs >>= listExprs)
        add { a with token } (.list [init, tag, some body]))
      (do
        let token := if typed then .tag .typeSwitch else a'.token
        let body ← clauses g' (g'.exprs >>= listExprs)
        add { a' with token } (.list [rename c.image init, rename c.image tag, some body])) := by
    rw [ha.token_eq]
    exact (clauses_near h htags).bind fun _ => .add (ha.withToken _) rfl
  refine .lead fun a a' ha => .bind (.withComposite false hheader) fun x => ?_
  have hlooked := Near.look (S := Anywhere) (fun p q hpq => isTypeSwitch_eq hpq x.2) (hbody ha x.1 x.2)
  exact hlooked

theorem selectStmt_near (h : g.Near c g') : Near c S (selectStmt g) (selectStmt g') :=
  .lead fun _ _ ha => (clauses_near h (simpleStmt_near h)).bind fun _ => .add ha rfl

theorem returned_near (h : g.Near c g') : Near c S (returned g) (returned g') := by
  refine .tok fun t => ?_
  split
  iterate 3 · exact .pure rfl
  · exact h.exprs

theorem returnStmt_near (h : g.Near c g') : Near c S (returnStmt g) (returnStmt g') :=
  .lead fun _ _ ha => (returned_near h).bind fun _ => .add ha rfl

theorem jumpStmt_near (keyword : Keyword) : Near c S (jumpStmt keyword) (jumpStmt keyword) :=
  .lead fun _ _ ha => .tok fun _ => .ite_bind (fun _ => parseIdent_near.some) (fun _ => .pure rfl) fun _ =>
    .add ha rfl

theorem deferredCall_near (h : g.Near c g') (keyword : Keyword) :
    Near c S (deferredCall g keyword) (deferredCall g' keyword) :=
  .lead fun _ _ ha => h.expr.bind fun _ => .add ha rfl

theorem labeledStmt_near (h : g.Near c g') {ident ident' : Atom} (hident : ident.Akin ident') :
    Near c S (labeledStmt g ident) (labeledStmt g' ident') := by
  refine .makeAtom fun a a' ha => .bind (.add hident rfl) fun name => .bind .next fun _ => ?_
  exact h.stmt?.bind fun _ => .add (ha.withPos _ _) rfl

theorem identStmt_near (h : g.Near c g') : Near c (·.curr.token = .lit .ident) (identStmt g) (identStmt g') := by
  refine near_peeking (fun _ hp => hp) fun a a' t ha => .ite (fun _ => .on (labeledStmt_near h ha)) fun _ => ?_
  exact .back rfl rfl (simpleStmt_near h) (takes_simpleStmt h)

/-! ### Declarations -/

theorem genDecl_near (keyword : Keyword) {spec spec' : ParseM NodeId} (hspec : Near c Anywhere spec spec') :
    Near c S (genDecl keyword spec) (genDecl keyword spec') := by
  refine .lead fun a a' ha => .tok fun t => .ite (fun _ => ?_) fun _ => ?_
  · exact (hspec.mono fun _ _ => trivial).bind fun _ => .add ha rfl
  · refine .bind .next fun _ => (membersLoop_near _ _ hspec []).bind fun specs => (leave_near _).bind fun _ => ?_
    exact .add ha (by simp [NodeShape.rename, rename_children])

theorem localName_near : Near c S localName localName := by
  refine .tok fun t => ?_
  split
  · exact parseIdent_near.some
  · exact (parseAtom_near _).some
  · exact .pure rfl

theorem importSpec_near : Near c S importSpec importSpec := by
  refine .makeAtom fun a a' ha => localName_near.bind fun name => .tok fun t => ?_
  exact .ite_bind (fun _ => parseAtom_near _) (fun _ => makeBad_near _) fun path => .add ha rfl

theorem importDecl_near : Near c S importDecl importDecl :=
  genDecl_near _ importSpec_near

theorem nameList_near : Near c S nameList nameList := by
  refine .makeAtom fun a a' ha => parseIdent_near.bind fun first => (moreNames_near first).bind fun names => ?_
  exact .add ha (congrArg NodeShape.list (rename_map_some _ names).symm)

theorem valueType_near (h : g.Near c g') : Near c S (valueType g) (valueType g') := by
  refine .tok fun t => ?_
  split
  iterate 4 · exact .pure rfl
  · exact h.type.some

theorem initialValues_near (h : g.Near c g') : Near c S (initialValues g) (initialValues g') :=
  .tok fun _ => .ite (fun _ => .pure rfl) fun _ => .bind .next fun _ => h.exprs.bind fun items =>
    (listExprs_near items).some

theorem valueSpec_near (h : g.Near c g') : Near c S (valueSpec g) (valueSpec g') :=
  .makeAtom fun _ _ ha => nameList_near.bind fun _ => (valueType_near h).bind fun _ =>
    (initialValues_near h).bind fun _ => .add ha rfl

instance : Renames TypeSpecHead where
  rename f
    | .generic name => .generic (f name)
    | .array typ => .array (f typ)

/-- What follows the look at the type parameters is decided on at their first token. -/
theorem opensTypeParams_bind {α : Type} (k : Bool → ParseM α) :
    opensTypeParams >>= k = (tok >>= fun t => if t ≠ .lit .ident then k false
      else peeking fun ident t => putBack ident >>= fun _ => k (!(t == .op .rbrack))) := by
  funext p
  have hlook : opensTypeParams p = (if p.curr.token ≠ .lit .ident then pure false
      else peeking fun ident t => putBack ident >>= fun _ => pure (!(t == .op .rbrack)) : ParseM Bool) p := rfl
  show k (opensTypeParams p).1 (opensTypeParams p).2 = (if p.curr.token ≠ .lit .ident then k false else _ : ParseM α) p
  rw [hlook]
  by_cases hident : p.curr.token = .lit .ident
  · rw [if_neg (not_not.2 hident), if_neg (not_not.2 hident)]
    rfl
  · rw [if_pos hident, if_pos hident]
    rfl

theorem typeParamsOrArray_near (h : g.Near c g') (name : NodeId) :
    Near c S (typeParamsOrArray g name) (typeParamsOrArray g' (c.image name)) := by
  -- Type parameters, or the length of an array.
  have hparams {S : Parser → Prop} {a a' : Atom} (ha : a.Akin a') : Near c S
      (do
        let params ← paramsBody g { a with token := .tag .params } [] (.op .rbrack) true
        let atom := Tree.tagAt (.tag .generic) (← startOf name)
        return .generic (← add atom (.binary (some name) (some params))))
      (do
        let params ← paramsBody g' { a' with token := .tag .params } [] (.op .rbrack) true
        let atom := Tree.tagAt (.tag .generic) (← startOf (c.image name))
        return TypeSpecHead.generic (← add atom (.binary (some (c.image name)) (some params)))) := by
    refine (paramsBody_near h (ha.withToken _) [] _ _).bind fun params => .startOf fun pos pos' => ?_
    exact .bind (.add (.tagAt _ _ _) rfl) fun _ => .pure rfl
  have harray {a a' : Atom} (ha : a.Akin a') (length : Child) : Near c Anywhere
      (do return .array (← arrayTail g a length))
      (do return TypeSpecHead.array (← arrayTail g' a' (rename c.image length))) :=
    (arrayTail_near h ha length).bind fun _ => .pure rfl
  unfold typeParamsOrArray
  simp only [opensTypeParams_bind]
  refine .lead fun a a' ha => .tok fun t => .ite (fun _ => ?_) fun ht => ?_
  · exact (arrayLength_near h).bind fun length => harray ha length
  · refine near_peeking (fun p hp => hp.2.trans (Decidable.not_not.1 ht)) fun b b' t hb => .back rfl rfl ?_ ?_
    · exact .ite (fun _ => hparams ha) fun _ => (arrayLength_near h).bind fun length => harray ha length
    · refine .ite (fun _ => ?_) fun _ => ?_
      · have hrbrack : Token.op .rbrack ≠ .lit .ident := by decide
        exact (takes_paramsBody h _ [] hrbrack true).bind fun _ _ hin => hin
      · exact (takes_arrayLength h).bind fun length p => (harray (.refl a) length).inside p trivial

theorem typeSpecTail_near (h : g.Near c g') {a a' : Atom} (ha : a.Akin a') (name : NodeId) :
    Near c S (typeSpecTail g a name) (typeSpecTail g' a' (c.image name)) := by
  refine .tok fun t => ?_
  dsimp only
  rw [ha.token_eq]
  exact .ite_then (fun _ => .next) (h.type.bind fun _ => .add (ha.withToken _) rfl)

theorem typeSpec_near (h : g.Near c g') : Near c S (typeSpec g) (typeSpec g') := by
  refine .makeAtom fun a a' ha => parseIdent_near.bind fun name => .tok fun t => ?_
  refine .ite (fun _ => typeSpecTail_near h ha name) fun _ => (typeParamsOrArray_near h name).bind fun head => ?_
  cases head with
  | generic name => exact typeSpecTail_near h ha name
  | array typ => exact .add ha rfl

theorem genericName_near (h : g.Near c g') (name : NodeId) :
    Near c S (genericName g name) (genericName g' (c.image name)) := by
  refine .tok fun t => .ite (fun _ => .pure rfl) fun _ => .startOf fun pos pos' => ?_
  exact (params_near h _ _ _ _).bind fun _ => .add (.tagAt _ _ _) rfl

theorem funcDecl_near (h : g.Near c g') : Near c S (funcDecl g) (funcDecl g') := by
  refine .lead fun a a' ha => .tok fun t => ?_
  refine .ite_bind (fun _ => (params_near h _ _ _ _).some) (fun _ => .pure rfl) fun recv => ?_
  refine parseIdent_near.bind fun ident => .startOf fun pos pos' => (genericName_near h ident).bind fun name => ?_
  refine (signature_near h (.tagAt _ _ _)).bind fun sig => .tok fun t => ?_
  exact .ite_bind (fun _ => (Near.withComposite true (block_near h)).some) (fun _ => .pure rfl) fun body => .add ha rfl

theorem declaration_near (h : g.Near c g') : Near c S (declaration g) (declaration g') := by
  refine .tok fun t => ?_
  split
  · exact genDecl_near _ (valueSpec_near h)
  · exact genDecl_near _ (valueSpec_near h)
  · exact genDecl_near _ (typeSpec_near h)
  · exact funcDecl_near h
  · exact importDecl_near
  · exact parseBad_near _

theorem statement?_near (h : g.Near c g') : Near c S (statement? g) (statement? g') := by
  refine .tok fun t => ?_
  split
  iterate 3 · exact .pure rfl
  iterate 3 · exact (declaration_near h).some
  · exact (block_near h).some
  · exact (ifStmt_near h).some
  · exact (forStmt_near h).some
  · exact (switchStmt_near h).some
  · exact (selectStmt_near h).some
  · exact (returnStmt_near h).some
  iterate 3 · exact (jumpStmt_near _).some
  · exact (parseAtom_near _).some
  iterate 2 · exact (deferredCall_near h _).some
  · exact (identStmt_near h).some.mono fun _ hp => hp.2
  · exact .ite (fun _ => (simpleStmt_near h).some) fun _ => (parseBad_near _).some

end GoSource.Grammar
