import GoSource.Grammar.Parse
import GoSource.Proofs.Grammar.Twins

/-!
# Productions from twins

Every production does the same from twins.  The lemmas follow the grammar: a production is put together from steps
that do the same, and the cycles are closed by induction on what is left to read.

* **`Rules.Alike`**: nonterminals that do the same from twins.
* **`rules_alike`**: the nonterminals of the grammar do.
* **`item?_alike`**, **`fileNode_alike`**: so do items and whole files, if the two modes accept the same.
-/

namespace GoSource.Grammar

variable {c : Pairing} {g : Rules}

/-! ### Recovery -/

theorem expect_alike (token : Token) : c.Alike (expect token) (expect token) := by
  refine tok_alike.bind fun t => .ite next_alike ?_
  exact here_alike.bind fun pos => (complain_alike pos _).bind fun _ => .pure ()

theorem makeEof_alike : c.Alike makeEof makeEof :=
  .makeAtom fun _ _ ha => add_alike ha _

theorem makeBad_alike (fault : SyntaxFault) : c.Alike (makeBad fault) (makeBad fault) := by
  refine here_alike.bind fun pos => (complain_alike pos fault).bind fun d => tok_alike.bind fun t => ?_
  exact .makeAtom fun _ _ ha => add_alike ha _

theorem wrapBad_alike (node : NodeId) (fault : SyntaxFault) : c.Alike (wrapBad node fault) (wrapBad node fault) := by
  refine here_alike.bind fun pos => (complain_alike pos fault).bind fun d => .get fun p q hpq => ?_
  have hatom := (hpq.tree.node node).atom
  dsimp only
  rw [hatom.token_eq, hatom.pos_eq, hatom.stop_eq]
  exact add_alike (.bare rfl) _

theorem parseBad_alike (fault : SyntaxFault) : c.Alike (parseBad fault) (parseBad fault) :=
  (makeBad_alike fault).bind fun bad => next_alike.bind fun _ => .pure bad

theorem parseAtom_alike (token : Token) : c.Alike (parseAtom token) (parseAtom token) :=
  .lead fun _ _ ha => add_alike ha _

theorem parseIdent_alike : c.Alike parseIdent parseIdent :=
  tok_alike.bind fun _ => .ite (parseAtom_alike _) (makeBad_alike _)

theorem enter_alike (token : Token) : c.Alike (enter token) (enter token) := by
  refine tok_alike.bind fun t => .ite (next_alike.bind fun _ => .pure []) ?_
  exact (makeBad_alike _).bind fun bad => .pure _

theorem skipTo_alike (stop : Token → Bool) (fault : SyntaxFault) : c.Alike (skipTo stop fault) (skipTo stop fault) :=
  run_alike (fun _ => (parseBad_alike fault).bind fun _ => .pure _) []

theorem leave_alike (token : Token) : c.Alike (leave token) (leave token) := by
  refine (skipTo_alike _ _).bind fun bads => tok_alike.bind fun t => ?_
  exact .ite (next_alike.bind fun _ => .pure bads) ((makeBad_alike _).bind fun bad => .pure _)

theorem leaveNode_alike (node : NodeId) (token : Token) : c.Alike (leaveNode node token) (leaveNode node token) := by
  refine tok_alike.bind fun t => .ite (next_alike.bind fun _ => .pure node) ?_
  refine (wrapBad_alike node _).bind fun wrapped => ?_
  refine (run_alike (fun _ => next_alike.bind fun _ => .pure _) ()).bind fun _ => tok_alike.bind fun t => ?_
  exact .ite_then next_alike (.pure wrapped)

/-! ### Nonterminals -/

/-- The nonterminals do the same from twins. -/
structure Rules.Alike (c : Pairing) (g : Rules) : Prop where
  binary : ∀ precedence, c.Alike (g.binary precedence) (g.binary precedence)
  unary : c.Alike g.unary g.unary
  type? : c.Alike g.type? g.type?
  stmt? : c.Alike g.stmt? g.stmt?
  ifStmt : c.Alike g.ifStmt g.ifStmt
  elements : c.Alike g.elements g.elements

namespace Rules.Alike

theorem expr (h : g.Alike c) : c.Alike g.expr g.expr :=
  h.binary 1

theorem type (h : g.Alike c) : c.Alike g.type g.type := by
  refine h.type?.bind fun found => ?_
  cases found with
  | some t => exact .pure t
  | none =>
      refine tok_alike.bind fun t => ?_
      split
      iterate 6 · exact makeBad_alike _
      · exact parseBad_alike _

theorem exprs (h : g.Alike c) : c.Alike g.exprs g.exprs :=
  h.expr.bind fun _ => run_alike (fun _ => next_alike.bind fun _ => h.expr.bind fun _ => .pure _) _

end Rules.Alike

/-- The atom of a construct is an atom like others. -/
theorem atomFrom_alike {β : Type} (tag : NodeTag) (first : Child) {k k' : Atom → ParseM β}
    (h : ∀ a a', c.Kin a a' → c.Alike (k a) (k' a')) :
    c.Alike (atomFrom tag first >>= k) (atomFrom tag first >>= k') := by
  unfold atomFrom
  rw [bind_assoc, bind_assoc]
  refine .makeAtom fun a a' ha => ?_
  cases first with
  | none => exact h a a' ha
  | some first =>
      simp only [bind_assoc, pure_bind]
      exact (startOf_alike first).bind fun pos => h _ _ (ha.withPos pos)

theorem listExprs_alike (items : List Child) : c.Alike (listExprs items) (listExprs items) :=
  atomFrom_alike _ _ fun _ _ ha => add_alike ha _

theorem wrapExprs_alike (items : List Child) : c.Alike (wrapExprs items) (wrapExprs items) := by
  unfold wrapExprs
  split
  · exact .pure _
  · exact listExprs_alike _

/-! ### Parameters -/

/-- Two trees that are twins stay so under an action that makes nodes. -/
def BuildAlike {α : Type} (c : Pairing) (b : Build α) : Prop :=
  ∀ t t', c.TreeTwins t t' → (b t').1 = (b t).1 ∧ c.TreeTwins (b t).2 (b t').2

theorem build_alike {α : Type} {b : Build α} (h : BuildAlike c b) : c.Alike (build b) (build b) := by
  intro p q hpq
  obtain ⟨heq, htwins⟩ := h _ _ hpq.tree
  exact ⟨heq, { hpq with tree := htwins }⟩

namespace BuildAlike

variable {α β : Type}

theorem pure (x : α) : BuildAlike c (Pure.pure x) :=
  fun _ _ h => ⟨rfl, h⟩

theorem bind {b : Build α} {k : α → Build β} (h : BuildAlike c b) (hk : ∀ x, BuildAlike c (k x)) :
    BuildAlike c (b >>= k) := by
  intro t t' htwins
  obtain ⟨heq, hmade⟩ := h t t' htwins
  show (k (b t').1 (b t').2).1 = _ ∧ c.TreeTwins (k (b t).1 (b t).2).2 (k (b t').1 (b t').2).2
  rw [heq]
  exact hk _ _ _ hmade

theorem add {a : Atom} (ha : a.comments = []) (shape : NodeShape) : BuildAlike c (Tree.add a shape) :=
  fun _ _ h => ⟨congrArg NodeId.mk h.size_eq, h.push (.bare ha) shape⟩

/-- Looking where a node starts. -/
theorem pos (id : NodeId) {k : Pos → Build β} (hk : ∀ pos, BuildAlike c (k pos)) :
    BuildAlike c (MonadState.get >>= fun t : Tree => k (t.pos id)) := by
  intro t t' htwins
  show (k (t'.pos id) t').1 = (k (t.pos id) t).1 ∧ c.TreeTwins (k (t.pos id) t).2 (k (t'.pos id) t').2
  rw [htwins.pos_eq]
  exact hk _ _ _ htwins

theorem addField (names : List NodeId) (typ : NodeId) (tag : Child) : BuildAlike c (Tree.addField names typ tag) := by
  have hfield (nameList : Child) :
      BuildAlike c (do
        let pos := (← MonadState.get : Tree).pos (nameList.getD typ)
        Tree.add (Tree.tagAt (.tag .field) pos) (.list [nameList, some typ, tag])) :=
    .pos _ fun _ => .add rfl _
  cases names with
  | nil => exact hfield none
  | cons first rest => exact .pos first fun _ => (BuildAlike.add rfl _).bind fun list => hfield (some list)

theorem typeFields (types : List NodeId) : BuildAlike c (Grammar.typeFields types) := by
  induction types with
  | nil => exact .pure []
  | cons t rest ih =>
      rw [Grammar.typeFields, List.mapM_cons]
      exact ((addField [] t none).bind fun field => .pure _).bind fun field => ih.bind fun _ => .pure _

theorem groupFrom (named : Bool) (pending : List NodeId) (entries : List ParamEntry) :
    BuildAlike c (Grammar.groupFrom named pending entries) := by
  fun_induction Grammar.groupFrom named pending entries with
  | case1 pending => exact .typeFields pending
  | case2 pending name typ rest ih => exact (addField _ _ _).bind fun _ => ih.bind fun _ => .pure _
  | case3 pending name rest hnamed ih => exact ih
  | case4 pending name rest hnamed ih => exact (addField _ _ _).bind fun _ => ih.bind fun _ => .pure _
  | case5 pending rest ih => exact ih

end BuildAlike

theorem addField_alike (names : List NodeId) (typ : NodeId) (tag : Child) :
    c.Alike (build (Tree.addField names typ tag)) (build (Tree.addField names typ tag)) :=
  build_alike (.addField names typ tag)

theorem typeTerm_alike (h : g.Alike c) : c.Alike (typeTerm g) (typeTerm g) :=
  tok_alike.bind fun _ => .ite (.lead fun _ _ ha => h.type.bind fun _ => add_alike ha _) h.type

theorem union_alike (h : g.Alike c) : c.Alike (union g) (union g) := by
  refine (typeTerm_alike h).bind fun first => run_alike (fun x => ?_) first
  refine .makeAtom fun a a' ha => (startOf_alike x).bind fun pos => next_alike.bind fun _ => ?_
  exact (typeTerm_alike h).bind fun y => (add_alike (ha.withPos pos) _).bind fun _ => .pure _

theorem paramType_alike (h : g.Alike c) (typeParams : Bool) : c.Alike (paramType g typeParams) (paramType g typeParams) :=
  tok_alike.bind fun _ => .ite (.lead fun _ _ ha => h.type.bind fun _ => add_alike ha _)
    (.ite (union_alike h) h.type)

theorem arrayTail_alike (h : g.Alike c) {a a' : Atom} (ha : c.Kin a a') (length : Child) :
    c.Alike (arrayTail g a length) (arrayTail g a' length) :=
  (expect_alike _).bind fun _ => h.type.bind fun _ => add_alike ha _

theorem argumentsPart_alike (pos : Pos) (args : List Child) : c.Alike (argumentsPart pos args) (argumentsPart pos args) := by
  unfold argumentsPart
  split
  · exact .pure _
  · exact (add_alike (.bare rfl) _).map _

/-- A type in brackets, and another after each comma. -/
theorem bracketLoop_alike (h : g.Alike c) (args : List Child) :
    c.Alike ((bracketLoop g).run args) ((bracketLoop g).run args) :=
  run_alike (fun _ => next_alike.bind fun _ => tok_alike.bind fun _ => .ite (.pure _)
    (h.type.bind fun _ => .pure _)) args

theorem bracketedParam_alike (h : g.Alike c) {ident ident' : Atom} (hident : c.Kin ident ident') :
    c.Alike (bracketedParam g ident) (bracketedParam g ident') := by
  have harray {a a' : Atom} (ha : c.Kin a a') (length : Child) :
      c.Alike (add ident .leaf >>= fun name => arrayTail g a length >>= fun typ =>
          Pure.pure { name := some name, typ := some typ })
        (add ident' .leaf >>= fun name => arrayTail g a' length >>= fun typ =>
          Pure.pure ({ name := some name, typ := some typ } : ParamEntry)) :=
    (add_alike hident _).bind fun _ => (arrayTail_alike h ha length).bind fun _ => .pure _
  refine .lead fun a a' ha => tok_alike.bind fun t => .ite ?_ ?_
  · exact .ite_bind ((parseAtom_alike _).map _) (.pure _) fun length => harray ha length
  · refine (withComposite_alike true (h.expr.bind fun _ => bracketLoop_alike h _)).bind fun args => ?_
    refine (expect_alike _).bind fun _ => (add_alike hident _).bind fun name => tok_alike.bind fun t => .ite ?_ ?_
    · exact h.type.bind fun _ => (add_alike ha _).bind fun _ => .pure _
    · refine (startOf_alike name).bind fun pos => (argumentsPart_alike pos args).bind fun arg => ?_
      exact (add_alike ((ha.withToken _).withPos pos) _).bind fun _ => .pure _

theorem paramEntry_alike (h : g.Alike c) (close : Token) (typeParams : Bool) :
    c.Alike (paramEntry g close typeParams) (paramEntry g close typeParams) := by
  have htype : c.Alike (paramType g typeParams) (paramType g typeParams) := paramType_alike h typeParams
  refine tok_alike.bind fun t => .ite (htype.bind fun _ => .pure _) (.lead fun a a' ha => ?_)
  refine tok_alike.bind fun t => .ite ((add_alike ha _).bind fun _ => .pure _) (.ite ?_ (.ite ?_ ?_))
  · exact (putBack_alike ha).bind fun _ => htype.bind fun _ => .pure _
  · exact bracketedParam_alike h ha
  · exact (add_alike ha _).bind fun _ => htype.bind fun _ => .pure _

theorem paramsBody_alike (h : g.Alike c) {a a' : Atom} (ha : c.Kin a a') (bads : List Child) (close : Token)
    (typeParams : Bool) : c.Alike (paramsBody g a bads close typeParams) (paramsBody g a' bads close typeParams) := by
  refine (withComposite_alike true (run_alike (fun x => ?_) ([], bads))).bind fun x => ?_
  · refine left_alike.bind fun before => (paramEntry_alike h close typeParams).bind fun e => tok_alike.bind fun t => ?_
    refine .ite (next_alike.bind fun _ => .pure _) (left_alike.bind fun _ => .ite ?_ (.pure _))
    exact (parseBad_alike _).bind fun _ => .pure _
  · refine (leave_alike close).bind fun more => ?_
    exact (build_alike (.groupFrom _ _ _)).bind fun fields => add_alike ha _

theorem params_alike (h : g.Alike c) (opening close : Token) (tag : NodeTag) (typeParams : Bool) :
    c.Alike (params g opening close tag typeParams) (params g opening close tag typeParams) :=
  .makeAtom fun _ _ ha => (enter_alike opening).bind fun bads => paramsBody_alike h ha bads close typeParams

theorem results_alike (h : g.Alike c) : c.Alike (results g) (results g) := by
  refine tok_alike.bind fun t => .ite (params_alike h _ _ _ _) ?_
  refine here_alike.bind fun pos => h.type?.bind fun found => ?_
  cases found with
  | none => exact add_alike (.bare rfl) _
  | some t => exact (addField_alike _ _ _).bind fun _ => add_alike (.bare rfl) _

theorem signature_alike (h : g.Alike c) {a a' : Atom} (ha : c.Kin a a') : c.Alike (signature g a) (signature g a') :=
  (params_alike h _ _ _ _).bind fun _ => (results_alike h).bind fun _ => add_alike ha _

/-! ### Types -/

theorem typeArguments_alike (h : g.Alike c) (name : NodeId) : c.Alike (typeArguments g name) (typeArguments g name) := by
  have hargs (args : List Child) : c.Alike ((typeArgumentsLoop g).run args) ((typeArgumentsLoop g).run args) :=
    run_alike (fun _ => h.type.bind fun _ => tok_alike.bind fun _ => .ite (.pure _)
      (next_alike.bind fun _ => .pure _)) args
  refine (startOf_alike name).bind fun pos => .makeAtom fun a a' ha => next_alike.bind fun _ => ?_
  refine (hargs []).bind fun args => .ite_bind ((makeBad_alike _).map _) (argumentsPart_alike pos args) fun arg => ?_
  exact (add_alike (ha.withPos pos) _).bind fun _ => leaveNode_alike _ _

theorem qualifiedName_alike : c.Alike qualifiedName qualifiedName := by
  refine parseIdent_alike.bind fun name => tok_alike.bind fun t => .ite (.pure name) ?_
  refine .makeAtom fun a a' ha => (startOf_alike name).bind fun pos => next_alike.bind fun _ => ?_
  exact parseIdent_alike.bind fun selected => add_alike (ha.withPos pos) _

theorem typeName_alike (h : g.Alike c) : c.Alike (typeName g) (typeName g) :=
  qualifiedName_alike.bind fun name => tok_alike.bind fun _ => .ite (typeArguments_alike h name) (.pure name)

theorem arrayLength_alike (h : g.Alike c) : c.Alike (arrayLength g) (arrayLength g) := by
  refine tok_alike.bind fun t => ?_
  split
  · exact .pure none
  · exact (parseAtom_alike _).map _
  · exact (withComposite_alike true h.expr).map _

theorem arrayType_alike (h : g.Alike c) : c.Alike (arrayType g) (arrayType g) :=
  .lead fun _ _ ha => (arrayLength_alike h).bind fun length => arrayTail_alike h ha length

theorem mapType_alike (h : g.Alike c) : c.Alike (mapType g) (mapType g) := by
  refine .lead fun a a' ha => (expect_alike _).bind fun _ => h.type.bind fun key => ?_
  exact (expect_alike _).bind fun _ => h.type.bind fun elem => add_alike ha _

theorem chanType_alike (h : g.Alike c) : c.Alike (chanType g) (chanType g) := by
  refine .lead fun a a' ha => ?_
  refine (tok_alike.bind fun _ => .ite (.pure _) (next_alike.bind fun _ => .pure _)).bind fun token => ?_
  exact h.type.bind fun elem => add_alike (ha.withToken token) _

theorem recvChanType_alike (h : g.Alike c) {a a' : Atom} (ha : c.Kin a a') :
    c.Alike (recvChanType g a) (recvChanType g a') :=
  (expect_alike _).bind fun _ => h.type.bind fun _ => add_alike (ha.withToken _) _

theorem funcType_alike (h : g.Alike c) : c.Alike (funcType g) (funcType g) :=
  .lead fun _ _ ha => signature_alike h ha

theorem memberEnd_alike (close missing : Operator) (before : Nat) :
    c.Alike (memberEnd close missing before) (memberEnd close missing before) := by
  have hskip : c.Alike (skipMember close missing) (skipMember close missing) :=
    (skipTo_alike _ _).bind fun bads => tok_alike.bind fun _ => .ite_then next_alike (.pure bads)
  refine tok_alike.bind fun t => .ite (next_alike.bind fun _ => .pure []) (.ite (.pure []) ?_)
  refine left_alike.bind fun n => .ite ?_ hskip
  exact here_alike.bind fun pos => (complain_alike pos _).bind fun _ => hskip

theorem membersLoop_alike {member : ParseM NodeId} (close missing : Operator) (hmember : c.Alike member member)
    (kids : List Child) :
    c.Alike ((membersLoop close missing member).run kids) ((membersLoop close missing member).run kids) :=
  run_alike (fun _ => left_alike.bind fun before => hmember.bind fun _ =>
    (memberEnd_alike close missing before).bind fun _ => .pure _) kids

theorem members_alike {member : ParseM NodeId} (hmember : c.Alike member member) :
    c.Alike (members member) (members member) :=
  (enter_alike _).bind fun opened => (membersLoop_alike _ _ hmember opened).bind fun _ =>
    (leave_alike _).bind fun _ => .pure _

theorem moreNames_alike (first : NodeId) : c.Alike (moreNames first) (moreNames first) :=
  run_alike (fun _ => next_alike.bind fun _ => parseIdent_alike.bind fun _ => .pure _) [first]

theorem fieldNamesAndType_alike (h : g.Alike c) : c.Alike (fieldNamesAndType g) (fieldNamesAndType g) := by
  refine tok_alike.bind fun t => ?_
  split
  · refine .lead fun a a' ha => tok_alike.bind fun t => ?_
    split
    iterate 4 · exact (putBack_alike ha).bind fun _ => (typeName_alike h).bind fun _ => .pure _
    · exact (add_alike ha _).bind fun _ => h.type.bind fun _ => .pure _
    · exact (add_alike ha _).bind fun name => (moreNames_alike name).bind fun _ => h.type.bind fun _ => .pure _
  · exact .lead fun a a' ha => (typeName_alike h).bind fun _ => (add_alike ha _).bind fun _ => .pure _
  · exact h.type.bind fun _ => .pure _

theorem structField_alike (h : g.Alike c) : c.Alike (structField g) (structField g) := by
  refine (fieldNamesAndType_alike h).bind fun x => tok_alike.bind fun t => ?_
  exact .ite_bind ((parseAtom_alike _).map _) (.pure _) fun tag => addField_alike _ _ tag

theorem structType_alike (h : g.Alike c) : c.Alike (structType g) (structType g) :=
  .lead fun _ _ ha => (members_alike (structField_alike h)).bind fun _ => add_alike ha _

theorem interfaceElem_alike (h : g.Alike c) : c.Alike (interfaceElem g) (interfaceElem g) := by
  have hembedded : c.Alike (embeddedElem g) (embeddedElem g) :=
    (union_alike h).bind fun t => addField_alike [] t none
  refine tok_alike.bind fun t => .ite hembedded (.lead fun a a' ha => tok_alike.bind fun t => .ite ?_ ?_)
  · exact (putBack_alike ha).bind fun _ => hembedded
  · refine (add_alike ha _).bind fun name => ?_
    rw [ha.pos_eq]
    exact (signature_alike h (.bare rfl)).bind fun sig => addField_alike [name] sig none

theorem interfaceType_alike (h : g.Alike c) : c.Alike (interfaceType g) (interfaceType g) :=
  .lead fun _ _ ha => (members_alike (interfaceElem_alike h)).bind fun _ => add_alike ha _

theorem typeExpr?_alike (h : g.Alike c) : c.Alike (typeExpr? g) (typeExpr? g) := by
  refine tok_alike.bind fun t => ?_
  split
  · exact (typeName_alike h).map _
  · exact (arrayType_alike h).map _
  · exact (structType_alike h).map _
  · exact .lead fun a a' ha => h.type.bind fun _ => (add_alike ha _).map _
  · exact (funcType_alike h).map _
  · exact (interfaceType_alike h).map _
  · exact (mapType_alike h).map _
  · exact (chanType_alike h).map _
  · exact .lead fun a a' ha => (recvChanType_alike h ha).map _
  · exact next_alike.bind fun _ => h.type.bind fun t => (leaveNode_alike t _).map _
  · exact .pure none

/-! ### Expressions -/

theorem stmtList_alike (h : g.Alike c) (stmts : List Child) : c.Alike (stmtList g stmts) (stmtList g stmts) := by
  refine run_alike (fun x => left_alike.bind fun before => h.stmt?.bind fun s => tok_alike.bind fun t => ?_) stmts
  refine .ite (next_alike.bind fun _ => .pure _) (.ite (.pure _) (left_alike.bind fun _ => .ite ?_ ?_))
  · exact (parseBad_alike _).bind fun _ => .pure _
  · exact here_alike.bind fun pos => (complain_alike pos _).bind fun _ => .pure _

theorem block_alike (h : g.Alike c) : c.Alike (block g) (block g) := by
  refine .makeAtom fun a a' ha => (enter_alike _).bind fun opened => ?_
  refine (withComposite_alike true (stmtList_alike h opened)).bind fun stmts => ?_
  exact (leave_alike _).bind fun _ => add_alike ha _

theorem funcTypeOrLiteral_alike (h : g.Alike c) : c.Alike (funcTypeOrLiteral g) (funcTypeOrLiteral g) := by
  refine .makeAtom fun a a' ha => (funcType_alike h).bind fun sig => tok_alike.bind fun t => .ite (.pure sig) ?_
  exact (withComposite_alike true (block_alike h)).bind fun body => add_alike ha _

theorem operand_alike (h : g.Alike c) : c.Alike (operand g) (operand g) := by
  refine tok_alike.bind fun t => ?_
  split
  · exact parseIdent_alike
  · exact parseAtom_alike _
  · refine .lead fun a a' ha => (withComposite_alike true h.expr).bind fun x => ?_
    exact (add_alike ha _).bind fun paren => leaveNode_alike paren _
  · exact funcTypeOrLiteral_alike h
  iterate 5 · exact h.type
  iterate 7 · exact makeBad_alike _
  · exact parseBad_alike _

theorem selectorOrAssertion_alike (h : g.Alike c) (x : NodeId) :
    c.Alike (selectorOrAssertion g x) (selectorOrAssertion g x) := by
  refine .makeAtom fun a a' ha => (startOf_alike x).bind fun pos => next_alike.bind fun _ => ?_
  refine tok_alike.bind fun t => ?_
  split
  · exact parseIdent_alike.bind fun _ => add_alike (ha.withPos pos) _
  · refine next_alike.bind fun _ => tok_alike.bind fun t => .ite_bind (parseAtom_alike _) h.type fun typ => ?_
    exact (add_alike ((ha.withPos pos).withToken _) _).bind fun _ => leaveNode_alike _ _
  · exact (makeBad_alike _).bind fun _ => add_alike (ha.withPos pos) _

theorem sliceBound_alike (h : g.Alike c) : c.Alike (sliceBound g) (sliceBound g) := by
  refine next_alike.bind fun _ => tok_alike.bind fun t => ?_
  split
  iterate 3 · exact .pure none
  · exact h.expr.map _

theorem sliceParts_alike (h : g.Alike c) (x : NodeId) (low : Child) :
    c.Alike (sliceParts g x low) (sliceParts g x low) := by
  refine (sliceBound_alike h).bind fun high => tok_alike.bind fun t => .ite (.pure _) ?_
  refine (sliceBound_alike h).bind fun max => .ite ?_ (.pure _)
  exact here_alike.bind fun pos => (complain_alike pos _).bind fun _ => .pure _

theorem indexArguments_alike (h : g.Alike c) (first : Child) :
    c.Alike (indexArguments g first) (indexArguments g first) := by
  have hargs (args : List Child) : c.Alike ((indexLoop g).run args) ((indexLoop g).run args) :=
    run_alike (fun _ => next_alike.bind fun _ => tok_alike.bind fun _ => .ite (.pure _)
      (h.expr.bind fun _ => .pure _)) args
  refine .ite ((makeBad_alike _).bind fun _ => .pure _) (tok_alike.bind fun t => .ite (.pure first) ?_)
  exact (hargs _).bind fun args => (listExprs_alike args).map _

theorem indexBody_alike (h : g.Alike c) {a a' : Atom} (ha : c.Kin a a') (x : NodeId) :
    c.Alike (indexBody g a x) (indexBody g a' x) := by
  refine tok_alike.bind fun t => .ite_bind (.pure none) (h.expr.map _) fun first => tok_alike.bind fun t => .ite ?_ ?_
  · exact (sliceParts_alike h x first).bind fun _ => add_alike (ha.withToken _) _
  · exact (indexArguments_alike h first).bind fun _ => add_alike ha _

theorem indexOrSlice_alike (h : g.Alike c) (x : NodeId) : c.Alike (indexOrSlice g x) (indexOrSlice g x) := by
  refine .makeAtom fun a a' ha => (startOf_alike x).bind fun pos => next_alike.bind fun _ => ?_
  exact (withComposite_alike true (indexBody_alike h (ha.withPos pos) x)).bind fun node => leaveNode_alike node _

theorem argument_alike (h : g.Alike c) : c.Alike (argument g) (argument g) :=
  h.expr.bind fun arg => tok_alike.bind fun _ => .ite (.pure arg) (.lead fun _ _ ha => add_alike ha _)

theorem call_alike (h : g.Alike c) (f : NodeId) : c.Alike (call g f) (call g f) := by
  have hargs (args : List Child) : c.Alike ((argumentsLoop g).run args) ((argumentsLoop g).run args) :=
    run_alike (fun _ => (argument_alike h).bind fun _ => tok_alike.bind fun _ => .ite (.pure _)
      (next_alike.bind fun _ => .pure _)) args
  refine .makeAtom fun a a' ha => (startOf_alike f).bind fun pos => next_alike.bind fun _ => ?_
  exact (withComposite_alike true (hargs _)).bind fun _ => (leave_alike _).bind fun _ => add_alike (ha.withPos pos) _

theorem elementValue_alike (h : g.Alike c) : c.Alike (elementValue g) (elementValue g) :=
  tok_alike.bind fun _ => .ite h.elements h.expr

theorem element_alike (h : g.Alike c) : c.Alike (element g) (element g) := by
  refine (elementValue_alike h).bind fun key => tok_alike.bind fun t => .ite (.pure key) ?_
  refine .makeAtom fun a a' ha => (startOf_alike key).bind fun pos => next_alike.bind fun _ => ?_
  exact (elementValue_alike h).bind fun value => add_alike (ha.withPos pos) _

theorem elementsLoop_alike (h : g.Alike c) (elems : List Child) :
    c.Alike ((elementsLoop g).run elems) ((elementsLoop g).run elems) := by
  refine run_alike (fun x => left_alike.bind fun before => (element_alike h).bind fun e => ?_) elems
  refine tok_alike.bind fun t => .ite (next_alike.bind fun _ => .pure _) (left_alike.bind fun _ => .ite ?_ (.pure _))
  exact (parseBad_alike _).bind fun _ => .pure _

theorem compositeLit_alike (h : g.Alike c) (typ : Child) : c.Alike (compositeLit g typ) (compositeLit g typ) := by
  refine atomFrom_alike _ _ fun a a' ha => .makeAtom fun b b' hb => (enter_alike _).bind fun opened => ?_
  refine (withComposite_alike true (elementsLoop_alike h opened)).bind fun elems => ?_
  exact (leave_alike _).bind fun _ => (add_alike hb _).bind fun list => add_alike ha _

theorem suffixes_alike (h : g.Alike c) (x : NodeId) : c.Alike (suffixes g x) (suffixes g x) := by
  refine run_alike (fun x => tok_alike.bind fun t => ?_) x
  split
  · exact (selectorOrAssertion_alike h x).map _
  · exact (indexOrSlice_alike h x).map _
  · exact (call_alike h x).map _
  · refine .get fun p q hpq => ?_
    have hliteral : isLiteralType q x = isLiteralType p x := by
      unfold isLiteralType
      rw [hpq.tree.op_eq, hpq.tree.isBad_eq, hpq.compositeOk]
    rw [hliteral]
    exact .ite ((compositeLit_alike h _).map _) (.pure _)

theorem unaryExpr_alike (h : g.Alike c) : c.Alike (unaryExpr g) (unaryExpr g) := by
  have hoperand : c.Alike (operand g >>= suffixes g) (operand g >>= suffixes g) :=
    (operand_alike h).bind fun x => suffixes_alike h x
  refine tok_alike.bind fun t => ?_
  split
  · refine .lead fun a a' ha => tok_alike.bind fun t => .ite ?_ (h.unary.bind fun _ => add_alike ha _)
    exact (recvChanType_alike h ha).bind fun x => suffixes_alike h x
  · exact .ite (.lead fun a a' ha => h.unary.bind fun _ => add_alike ha _) hoperand
  · exact hoperand

theorem binaryExpr_alike (h : g.Alike c) (precedence : Nat) :
    c.Alike (binaryExpr g precedence) (binaryExpr g precedence) := by
  refine h.unary.bind fun first => run_alike (fun x => tok_alike.bind fun op => ?_) first
  exact .lead fun a a' ha => (h.binary _).bind fun _ => (add_alike ha _).bind fun _ => .pure _

/-! ### Statements -/

theorem finishAssign_alike (h : g.Alike c) {a a' : Atom} (ha : c.Kin a a') (lhs : List Child) :
    c.Alike (finishAssign g a lhs) (finishAssign g a' lhs) := by
  refine (wrapExprs_alike lhs).bind fun x => (startOf_alike x).bind fun pos => h.exprs.bind fun rhs => ?_
  exact (wrapExprs_alike rhs).bind fun _ => add_alike (ha.withPos pos) _

theorem rangeClause_alike (h : g.Alike c) {a a' : Atom} (ha : c.Kin a a') (lhs : List Child) :
    c.Alike (rangeClause g a lhs) (rangeClause g a' lhs) := by
  have htargets : c.Alike (rangeTargets a lhs) (rangeTargets a' lhs) := by
    unfold rangeTargets
    rw [ha.pos_eq]
    exact .ite ((complain_alike _ _).bind fun _ => .pure _) (.pure _)
  refine next_alike.bind fun _ => h.expr.bind fun x => htargets.bind fun targets => ?_
  exact (add_alike ha _).bind fun _ => .pure _

theorem simple_alike (h : g.Alike c) (rangeOk : Bool) : c.Alike (simple g rangeOk) (simple g rangeOk) := by
  refine h.exprs.bind fun lhs => tok_alike.bind fun t => .ite ?_ (.ite ?_ (.ite ?_ ?_))
  · refine .lead fun a a' ha => tok_alike.bind fun t => ?_
    exact .ite (rangeClause_alike h ha lhs) ((finishAssign_alike h ha lhs).map _)
  · refine .makeAtom fun a a' ha => (wrapExprs_alike lhs).bind fun channel => (startOf_alike channel).bind fun pos => ?_
    exact next_alike.bind fun _ => h.expr.bind fun _ => (add_alike (ha.withPos pos) _).map _
  · exact .lead fun a a' ha => (wrapExprs_alike lhs).bind fun _ => (add_alike ha _).map _
  · exact (wrapExprs_alike lhs).map _

theorem simpleStmt_alike (h : g.Alike c) : c.Alike (simpleStmt g) (simpleStmt g) := by
  refine (simple_alike h false).bind fun s => ?_
  cases s with
  | stmt node => exact .pure node
  | range assign x => exact .pure x

theorem header_alike (h : g.Alike c) {last : ParseM NodeId} (hlast : c.Alike last last) :
    c.Alike (header g last) (header g last) := by
  refine tok_alike.bind fun t => .ite_bind (.pure none) ((simpleStmt_alike h).map _) fun first => ?_
  refine tok_alike.bind fun t => .ite (.pure _) (next_alike.bind fun _ => tok_alike.bind fun t => ?_)
  exact .ite_bind (.pure none) (hlast.map _) fun second => .pure _

theorem ifHeader_alike (h : g.Alike c) : c.Alike (ifHeader g) (ifHeader g) := by
  refine tok_alike.bind fun t => .ite ((makeBad_alike _).bind fun _ => .pure _) ?_
  refine (header_alike h h.expr).bind fun x => ?_
  obtain ⟨init, cond⟩ := x
  cases cond with
  | some cond => exact .pure _
  | none => exact (makeBad_alike _).bind fun _ => .pure _

theorem elseBranch_alike (h : g.Alike c) : c.Alike (elseBranch g) (elseBranch g) := by
  refine tok_alike.bind fun t => .ite (.pure none) (next_alike.bind fun _ => tok_alike.bind fun t => ?_)
  split
  · exact h.ifStmt.map _
  · exact (block_alike h).map _
  · exact (makeBad_alike _).map _

theorem ifStmt_alike (h : g.Alike c) : c.Alike (ifStmt g) (ifStmt g) := by
  refine .lead fun a a' ha => (withComposite_alike false (ifHeader_alike h)).bind fun x => ?_
  exact (block_alike h).bind fun _ => (elseBranch_alike h).bind fun _ => add_alike ha _

theorem forClauses_alike (h : g.Alike c) (first : Child) : c.Alike (forClauses g first) (forClauses g first) := by
  refine tok_alike.bind fun t => .ite (.pure _) (next_alike.bind fun _ => tok_alike.bind fun t => ?_)
  refine .ite_bind (.pure none) (h.expr.map _) fun cond => (expect_alike _).bind fun _ => tok_alike.bind fun t => ?_
  exact .ite_bind (.pure none) ((simpleStmt_alike h).map _) fun post => .pure _

theorem forHeader_alike (h : g.Alike c) : c.Alike (forHeader g) (forHeader g) := by
  refine tok_alike.bind fun t => ?_
  split
  · exact .pure _
  · exact next_alike.bind fun _ => h.expr.bind fun _ => .pure _
  · exact forClauses_alike h none
  · refine (simple_alike h true).bind fun s => ?_
    cases s with
    | range assign x => exact .pure _
    | stmt node => exact forClauses_alike h (some node)

theorem forStmt_alike (h : g.Alike c) : c.Alike (forStmt g) (forStmt g) := by
  refine .lead fun a a' ha => (withComposite_alike false (forHeader_alike h)).bind fun header => ?_
  refine (block_alike h).bind fun body => ?_
  cases header with
  | clauses init cond post => exact add_alike ha _
  | range assign x => exact add_alike (ha.withToken _) _

theorem clause_alike (h : g.Alike c) {head : ParseM NodeId} (hhead : c.Alike head head) (keyword : Token) :
    c.Alike (clause g head keyword) (clause g head keyword) := by
  refine .lead fun a a' ha => .ite_bind (hhead.map _) (.pure none) fun x => .makeAtom fun b b' hb => ?_
  refine (expect_alike _).bind fun _ => (stmtList_alike h []).bind fun stmts => ?_
  exact (add_alike hb _).bind fun body => add_alike ha _

theorem clauses_alike (h : g.Alike c) {head : ParseM NodeId} (hhead : c.Alike head head) :
    c.Alike (clauses g head) (clauses g head) := by
  have hloop (kids : List Child) : c.Alike ((clausesLoop g head).run kids) ((clausesLoop g head).run kids) :=
    run_alike (fun _ => tok_alike.bind fun t => .ite ((clause_alike h hhead t).bind fun _ => .pure _)
      ((parseBad_alike _).bind fun _ => .pure _)) kids
  refine .makeAtom fun a a' ha => (enter_alike _).bind fun opened => ?_
  exact (withComposite_alike true (hloop opened)).bind fun _ => (leave_alike _).bind fun _ => add_alike ha _

theorem switchStmt_alike (h : g.Alike c) : c.Alike (switchStmt g) (switchStmt g) := by
  have hheader : c.Alike (switchHeader g) (switchHeader g) :=
    tok_alike.bind fun _ => .ite (.pure _) (header_alike h (simpleStmt_alike h))
  refine .lead fun a a' ha => (withComposite_alike false hheader).bind fun x => .get fun p q hpq => ?_
  have hguard (y : Child) : isTypeGuard q.tree y = isTypeGuard p.tree y := by
    unfold isTypeGuard
    simp only [hpq.tree.op_eq, hpq.tree.part?_eq]
  have hswitch : isTypeSwitch q.tree = isTypeSwitch p.tree := by
    funext n
    unfold isTypeSwitch
    simp only [hpq.tree.op_eq, hpq.tree.part?_eq, hguard]
  dsimp only
  rw [hswitch, ha.token_eq]
  exact (clauses_alike h (h.exprs.bind fun items => listExprs_alike items)).bind fun _ =>
    add_alike (ha.withToken _) _

theorem selectStmt_alike (h : g.Alike c) : c.Alike (selectStmt g) (selectStmt g) :=
  .lead fun _ _ ha => (clauses_alike h (simpleStmt_alike h)).bind fun _ => add_alike ha _

theorem returnStmt_alike (h : g.Alike c) : c.Alike (returnStmt g) (returnStmt g) := by
  refine .lead fun a a' ha => (tok_alike.bind fun t => ?_).bind fun results => add_alike ha _
  split
  iterate 3 · exact .pure []
  · exact h.exprs

theorem jumpStmt_alike (keyword : Keyword) : c.Alike (jumpStmt keyword) (jumpStmt keyword) :=
  .lead fun _ _ ha => tok_alike.bind fun _ => .ite_bind (parseIdent_alike.map _) (.pure none) fun _ => add_alike ha _

theorem deferredCall_alike (h : g.Alike c) (keyword : Keyword) :
    c.Alike (deferredCall g keyword) (deferredCall g keyword) :=
  .lead fun _ _ ha => h.expr.bind fun _ => add_alike ha _

theorem labeledStmt_alike (h : g.Alike c) {ident ident' : Atom} (hident : c.Kin ident ident') :
    c.Alike (labeledStmt g ident) (labeledStmt g ident') := by
  unfold labeledStmt
  rw [hident.pos_eq]
  refine .makeAtom fun a a' ha => (add_alike hident _).bind fun name => next_alike.bind fun _ => ?_
  exact h.stmt?.bind fun _ => add_alike (ha.withPos _) _

theorem identStmt_alike (h : g.Alike c) : c.Alike (identStmt g) (identStmt g) := by
  refine .lead fun a a' ha => tok_alike.bind fun t => .ite (labeledStmt_alike h ha) ?_
  exact (putBack_alike ha).bind fun _ => simpleStmt_alike h

/-! ### Declarations -/

theorem packageClause_alike : c.Alike packageClause packageClause :=
  .lead fun _ _ ha => parseIdent_alike.bind fun _ => add_alike ha _

theorem genDecl_alike (keyword : Keyword) {spec : ParseM NodeId} (hspec : c.Alike spec spec) :
    c.Alike (genDecl keyword spec) (genDecl keyword spec) := by
  refine .lead fun a a' ha => tok_alike.bind fun t => .ite (hspec.bind fun _ => add_alike ha _) ?_
  refine next_alike.bind fun _ => (membersLoop_alike _ _ hspec []).bind fun specs => ?_
  exact (leave_alike _).bind fun _ => add_alike ha _

theorem importSpec_alike : c.Alike importSpec importSpec := by
  have hname : c.Alike localName localName := by
    refine tok_alike.bind fun t => ?_
    split
    · exact parseIdent_alike.map _
    · exact (parseAtom_alike _).map _
    · exact .pure none
  refine .makeAtom fun a a' ha => hname.bind fun name => tok_alike.bind fun t => ?_
  exact .ite_bind (parseAtom_alike _) (makeBad_alike _) fun path => add_alike ha _

theorem importDecl_alike : c.Alike importDecl importDecl :=
  genDecl_alike _ importSpec_alike

theorem valueSpec_alike (h : g.Alike c) : c.Alike (valueSpec g) (valueSpec g) := by
  have hnames : c.Alike nameList nameList :=
    .makeAtom fun _ _ ha => parseIdent_alike.bind fun first => (moreNames_alike first).bind fun _ => add_alike ha _
  have htype : c.Alike (valueType g) (valueType g) := by
    refine tok_alike.bind fun t => ?_
    split
    iterate 4 · exact .pure none
    · exact h.type.map _
  have hvalues : c.Alike (initialValues g) (initialValues g) :=
    tok_alike.bind fun _ => .ite (.pure none) (next_alike.bind fun _ => h.exprs.bind fun items =>
      (listExprs_alike items).map _)
  exact .makeAtom fun _ _ ha => hnames.bind fun _ => htype.bind fun _ => hvalues.bind fun _ => add_alike ha _

theorem typeParamsOrArray_alike (h : g.Alike c) (name : NodeId) :
    c.Alike (typeParamsOrArray g name) (typeParamsOrArray g name) := by
  have hopens : c.Alike opensTypeParams opensTypeParams :=
    tok_alike.bind fun _ => .ite (.pure false) (.lead fun _ _ ha => tok_alike.bind fun _ =>
      (putBack_alike ha).bind fun _ => .pure _)
  refine .lead fun a a' ha => hopens.bind fun opens => .ite ?_ ?_
  · refine (paramsBody_alike h (ha.withToken _) _ _ _).bind fun params => (startOf_alike name).bind fun pos => ?_
    exact (add_alike (.bare rfl) _).bind fun _ => .pure _
  · exact (arrayLength_alike h).bind fun length => (arrayTail_alike h ha length).bind fun _ => .pure _

theorem typeSpecTail_alike (h : g.Alike c) {a a' : Atom} (ha : c.Kin a a') (name : NodeId) :
    c.Alike (typeSpecTail g a name) (typeSpecTail g a' name) := by
  refine tok_alike.bind fun t => ?_
  dsimp only
  rw [ha.token_eq]
  exact .ite_then next_alike (h.type.bind fun _ => add_alike (ha.withToken _) _)

theorem typeSpec_alike (h : g.Alike c) : c.Alike (typeSpec g) (typeSpec g) := by
  refine .makeAtom fun a a' ha => parseIdent_alike.bind fun name => tok_alike.bind fun t => ?_
  refine .ite (typeSpecTail_alike h ha name) ((typeParamsOrArray_alike h name).bind fun head => ?_)
  cases head with
  | generic name => exact typeSpecTail_alike h ha name
  | array typ => exact add_alike ha _

theorem genericName_alike (h : g.Alike c) (name : NodeId) : c.Alike (genericName g name) (genericName g name) := by
  refine tok_alike.bind fun t => .ite (.pure name) ((startOf_alike name).bind fun pos => ?_)
  exact (params_alike h _ _ _ _).bind fun _ => add_alike (.bare rfl) _

theorem funcDecl_alike (h : g.Alike c) : c.Alike (funcDecl g) (funcDecl g) := by
  refine .lead fun a a' ha => tok_alike.bind fun t => .ite_bind ((params_alike h _ _ _ _).map _) (.pure none) fun recv => ?_
  refine parseIdent_alike.bind fun ident => (startOf_alike ident).bind fun pos => ?_
  refine (genericName_alike h ident).bind fun name => (signature_alike h (.bare rfl)).bind fun sig => ?_
  refine tok_alike.bind fun t => ?_
  exact .ite_bind ((withComposite_alike true (block_alike h)).map _) (.pure none) fun body => add_alike ha _

theorem declaration_alike (h : g.Alike c) : c.Alike (declaration g) (declaration g) := by
  refine tok_alike.bind fun t => ?_
  split
  · exact genDecl_alike _ (valueSpec_alike h)
  · exact genDecl_alike _ (valueSpec_alike h)
  · exact genDecl_alike _ (typeSpec_alike h)
  · exact funcDecl_alike h
  · exact importDecl_alike
  · exact parseBad_alike _

theorem statement?_alike (h : g.Alike c) : c.Alike (statement? g) (statement? g) := by
  refine tok_alike.bind fun t => ?_
  split
  iterate 3 · exact .pure none
  iterate 3 · exact (declaration_alike h).map _
  · exact (block_alike h).map _
  · exact (ifStmt_alike h).map _
  · exact (forStmt_alike h).map _
  · exact (switchStmt_alike h).map _
  · exact (selectStmt_alike h).map _
  · exact (returnStmt_alike h).map _
  iterate 3 · exact (jumpStmt_alike _).map _
  · exact (parseAtom_alike _).map _
  iterate 2 · exact (deferredCall_alike h _).map _
  · exact (identStmt_alike h).map _
  · exact .ite ((simpleStmt_alike h).map _) ((parseBad_alike _).map _)

/-! ### Files -/

/-- A nonterminal whose weight decides what it does: twins have the same weight. -/
theorem weight_alike {α : Type} {rank bound : Nat} (production : Rules → ParseM α) {otherwise : ParseM α}
    (hless : ∀ w < bound, c.Alike (production (rules w)) (production (rules w))) (hotherwise : c.Alike otherwise otherwise) :
    c.Alike
      (fun p => if _h : weight rank p < bound then production (rules (weight rank p)) p else otherwise p)
      (fun p => if _h : weight rank p < bound then production (rules (weight rank p)) p else otherwise p) := by
  intro p q hpq
  have hweight : weight rank q = weight rank p := by
    unfold weight
    rw [hpq.left_eq]
  dsimp only
  rw [hweight]
  split
  · rename_i hlt
    exact hless _ hlt p q hpq
  · exact hotherwise p q hpq

/-- The nonterminals of the grammar do the same from twins. -/
theorem rules_alike (bound : Nat) : (rules bound).Alike c := by
  induction bound using Nat.strongRecOn with
  | ind bound ih =>
    rw [rules]
    exact ⟨fun precedence => weight_alike (binaryExpr · precedence)
        (fun w hw => binaryExpr_alike (ih w hw) precedence) (makeBad_alike _),
      weight_alike unaryExpr (fun w hw => unaryExpr_alike (ih w hw)) (makeBad_alike _),
      weight_alike typeExpr? (fun w hw => typeExpr?_alike (ih w hw)) (.pure none),
      weight_alike statement? (fun w hw => statement?_alike (ih w hw)) (.pure none),
      weight_alike ifStmt (fun w hw => ifStmt_alike (ih w hw)) (makeBad_alike _),
      weight_alike (compositeLit · none) (fun w hw => compositeLit_alike (ih w hw) none) (makeBad_alike _)⟩

theorem run_production_alike {α : Type} {production : Rules → ParseM α}
    (h : ∀ g : Rules, g.Alike c → c.Alike (production g) (production g)) :
    c.Alike (run production) (run production) := by
  intro p q hpq
  have hrules : rulesAt q = rulesAt p := by
    unfold rulesAt weight
    rw [hpq.left_eq]
  show ((production (rulesAt q)) q).1 = _ ∧ c.Twins (production (rulesAt p) p).2 (production (rulesAt q) q).2
  rw [hrules]
  exact h _ (rules_alike _) p q hpq

theorem strayClosing_alike (token : Token) : c.Alike (strayClosing token) (strayClosing token) := by
  refine here_alike.bind fun pos => (parseAtom_alike token).bind fun atom => ?_
  refine (complain_alike pos _).bind fun d => .get fun p q hpq => ?_
  dsimp only
  rw [hpq.tree.stop_eq]
  exact add_alike (.bare rfl) _

/-- The two runs accept the same items. -/
def Pairing.Accepts (c : Pairing) : Prop :=
  ∀ {m m' : Mode}, c.modes m m' → m'.imports = m.imports ∧ m'.decls = m.decls

theorem itemBody?_alike (hc : c.Accepts) : c.Alike itemBody? itemBody? := by
  refine .get fun p q hpq => ?_
  obtain ⟨himports, hdecls⟩ := hc hpq.modes
  dsimp only
  rw [himports, hdecls]
  refine tok_alike.bind fun t => .ite (makeEof_alike.map _) (.ite (packageClause_alike.map _) (.ite ?_ ?_))
  · refine .ite (importDecl_alike.map _) (.ite ?_ (makeEof_alike.map _))
    exact importDecl_alike.bind fun _ => .pure none
  · refine .ite (.pure none) (.ite (makeEof_alike.map _) (.ite ((strayClosing_alike t).map _) (.ite ?_ ?_)))
    · exact (run_production_alike fun _ => declaration_alike).map _
    · exact run_production_alike fun _ => statement?_alike

theorem item?_alike (hc : c.Accepts) : c.Alike item? item? :=
  tok_alike.bind fun _ => .ite_then next_alike (itemBody?_alike hc)

theorem checkTopLevel_alike (item : Child) : c.Alike (checkTopLevel item) (checkTopLevel item) := by
  refine .get fun p q hpq => ?_
  have htop (n : NodeId) : isTopLevel q.tree n = isTopLevel p.tree n := by
    unfold isTopLevel
    rw [hpq.tree.isBad_eq, hpq.tree.op_eq]
  dsimp only
  simp only [htop]
  split
  · rw [hpq.tree.pos_eq]
    exact (complain_alike _ _).bind fun _ => .pure ()
  · exact .pure ()

theorem fileNode_alike (hc : c.Accepts) : c.Alike fileNode fileNode := by
  have hround (decls : List Child) : c.Alike (fileLoop.round decls) (fileLoop.round decls) := by
    refine left_alike.bind fun before => (item?_alike hc).bind fun item => .get fun p q hpq => ?_
    simp only [hpq.tree.op_eq]
    refine .ite (.pure _) ((checkTopLevel_alike item).bind fun _ => left_alike.bind fun _ => .ite ?_ (.pure _))
    exact (parseBad_alike _).bind fun _ => .pure _
  exact here_alike.bind fun pos => (run_alike hround []).bind fun decls => add_alike (.bare rfl) _

end GoSource.Grammar
