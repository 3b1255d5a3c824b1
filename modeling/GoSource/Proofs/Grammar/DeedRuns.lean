import GoSource.Grammar.Parse
import GoSource.Proofs.Grammar.Deeds
import GoSource.Proofs.Grammar.Parameter
import GoSource.Proofs.Grammar.Restart
import GoSource.Proofs.Grammar.Statement
import GoSource.Proofs.Grammar.Visits

/-!
# Productions do deeds

Every production does deeds and uses up the atoms it takes.  The lemmas follow the grammar, and the cycles are closed
by induction on what is left to read.

* **`Rules.Works`**: types expose no bare literal; expressions do only where composite literals are allowed.
* **`rules_works`**: so it is with the nonterminals of the grammar.
* **`item?_works`**, **`fileNode_works`**: items and whole files.
* **`deeds_run`**: a call does deeds.  **`Parser.operated_induction`**: so what deeds keep goes on to hold whatever was
  asked of a parser.
-/

namespace GoSource

namespace Grammar

variable {ok b : Bool} {N : List Mark} {g : Rules}

/-! ### Recovery -/

theorem expect_works (token : Token) : Works ok N 0 (expect token) fun _ => [] :=
  .tok fun _ => .ite (fun _ => .next) fun _ => .here fun _ => .bind .complain fun _ => .pure entails_nil

theorem makeEof_works : Works ok N 0 makeEof (marked false) :=
  .makeAtom fun _ ha => .add ha nofun rfl nofun

theorem makeBad_works (fault : SyntaxFault) : Works ok N 0 (makeBad fault) (marked false) :=
  .here fun _ => .bind .complain fun _ => .tok fun _ => .makeAtom fun _ _ => .add_bad nofun

theorem wrapBad_works {node : NodeId} (fault : SyntaxFault) (h : Has N b node) :
    Works ok N 0 (wrapBad node fault) (marked b) :=
  .here fun _ => .bind .complain fun _ => .get fun _ _ => .forge rfl (.add_bad (by simpa using h))

theorem parseBad_works (fault : SyntaxFault) : Works ok N 0 (parseBad fault) (marked false) :=
  (makeBad_works fault).bind fun _ => .bind .next fun _ => .give (by grind)

theorem parseAtom_works {token : Token} (hne : token ≠ .tag .compositeLit) :
    Works ok N 0 (parseAtom token) (marked false) :=
  .lead fun _ ha => .add ha hne rfl nofun

theorem parseIdent_works : Works ok N 0 parseIdent (marked false) :=
  .tok fun _ => .ite (fun _ => parseAtom_works nofun) fun _ => makeBad_works _

theorem enter_works (token : Token) : Works ok N 0 (enter token) (marked false) :=
  .tok fun _ => .ite (fun _ => .bind .next fun _ => .give (by grind))
    fun _ => (makeBad_works _).bind fun _ => .give (by grind)

theorem skipTo_works (stop : Token → Bool) (fault : SyntaxFault) : Works ok N 0 (skipTo stop fault) (marked false) :=
  Loop.run_collects (fun _ => (parseBad_works fault).bind fun _ => .give (by grind)) nofun

theorem leave_works (token : Token) : Works ok N 0 (leave token) (marked false) :=
  (skipTo_works _ _).bind fun _ => .tok fun _ => .ite (fun _ => .bind .next fun _ => .give (by grind))
    fun _ => (makeBad_works _).bind fun _ => .give (by grind)

theorem leaveNode_works {node : NodeId} (token : Token) (h : Has N b node) :
    Works ok N 0 (leaveNode node token) (marked b) := by
  refine .tok fun t => .ite (fun _ => .bind .next fun _ => .give (by simpa using h)) fun _ => ?_
  refine (wrapBad_works _ h).bind fun wrapped => ?_
  refine (Loop.run_collects (b := b) (fun _ => .bind .next fun _ => .give (by grind)) (by grind)).bind
    fun _ => .tok fun t => ?_
  exact .ite_then .next (.give (by grind))

/-! ### Nonterminals -/

/-- What the nonterminals lead to: nothing in types is bare, and in expressions nothing is where literals may not
be. -/
structure Rules.Works (g : Rules) : Prop where
  binary : ∀ {ok : Bool} {N : List Mark} {precedence : Nat}, 0 < precedence →
    Grammar.Works ok N 0 (g.binary precedence) (marked ok)
  unary : ∀ {ok : Bool} {N : List Mark}, Grammar.Works ok N 0 g.unary (marked ok)
  type? : ∀ {ok : Bool} {N : List Mark}, Grammar.Works ok N 0 g.type? (marked false)
  stmt? : ∀ {ok : Bool} {N : List Mark}, Grammar.Works ok N 0 g.stmt? (marked true)
  ifStmt : ∀ {ok : Bool} {N : List Mark}, Grammar.Works ok N 0 g.ifStmt (marked true)
  elements : ∀ {ok : Bool} {N : List Mark}, Grammar.Works ok N 0 g.elements (marked ok)

namespace Rules.Works

theorem expr (h : g.Works) : Grammar.Works ok N 0 g.expr (marked ok) :=
  h.binary Nat.one_pos

theorem type (h : g.Works) : Grammar.Works ok N 0 g.type (marked false) := by
  refine h.type?.bind fun found => ?_
  cases found with
  | some t => exact .give (by grind)
  | none =>
      refine .tok fun t => ?_
      split
      iterate 6 · exact makeBad_works _
      · exact parseBad_works _

theorem exprs (h : g.Works) : Grammar.Works ok N 0 g.exprs (marked ok) :=
  h.expr.bind fun _ => Loop.run_collects (fun _ => .bind .next fun _ =>
    h.expr.bind fun _ => .give (by grind)) (by grind)

end Rules.Works

theorem listExprs_works {items : List Child} (h : ∀ x ∈ held items, Has N b x) :
    Works ok N 0 (listExprs items) (marked b) := by
  refine .atomFrom (fun x hx => (h x (mem_held_of_head (hx ▸ mem_held_node.2 rfl))).made) fun a a' M ha hbegins => ?_
  exact .add_from ha hbegins rfl nofun (.of_parts rfl (by grind))

theorem wrapExprs_works {items : List Child} (h : ∀ x ∈ held items, Has N b x) :
    Works ok N 0 (wrapExprs items) (marked b) := by
  unfold wrapExprs
  split
  · exact .give (by grind)
  · exact listExprs_works h

/-! ### Making nodes together -/

namespace Works

variable {α β : Type} {hand : Hand} {Q : α → List Mark} {R : β → List Mark}

theorem build_bind {x : Build α} {k : α → Build β} (h : Works ok N 0 (build x) Q)
    (hk : ∀ y, Works ok (also (Q y) N) hand (build (k y)) R) : Works ok N hand (build (x >>= k)) R :=
  h.bind hk

/-- Looking where a node starts. -/
theorem build_pos {id : NodeId} {k : Pos → Build α} (h : ∀ pos, Works ok N hand (build (k pos)) Q) :
    Works ok N hand (build (MonadState.get >>= fun t : Tree => k (t.pos id))) Q :=
  fun p hp hN => h _ p hp hN

/-- A node that is made of nothing. -/
theorem add_tag {token : Token} {pos : Pos} {shape : NodeShape} (hne : token ≠ .tag .compositeLit)
    (hheader : headerParts token shape = []) (h : ∀ x ∈ held (parts shape), Has N b x) :
    Works ok N 0 (Grammar.add (Tree.tagAt token pos) shape) (marked b) :=
  .forge rfl (.add rfl hne hheader h)

end Works

theorem addField_works {names : List NodeId} {typ : NodeId} {tag : Child} (hnames : ∀ x ∈ held names, Has N b x)
    (htyp : Has N b typ) (htag : ∀ x ∈ held tag, Has N b x) :
    Works ok N 0 (build (Tree.addField names typ tag)) (marked b) := by
  have hfield {M : List Mark} (nameList : Child) (h : ∀ x ∈ held [nameList, some typ, tag], Has M b x) :
      Works ok M 0 (build do
        let pos := (← get).pos (nameList.getD typ)
        Tree.add (Tree.tagAt (.tag .field) pos) (.list [nameList, some typ, tag])) (marked b) := by
    have hadd (pos : Pos) :
        Works ok M 0 (add (Tree.tagAt (.tag .field) pos) (.list [nameList, some typ, tag])) (marked b) :=
      .add_tag nofun rfl h
    exact .build_pos hadd
  cases names with
  | nil => exact hfield none (by grind)
  | cons first rest =>
      have hlist (pos : Pos) :
          Works ok N 0 (add (Tree.tagAt (.tag .names) pos) (.list ((first :: rest).map some))) (marked b) :=
        .add_tag nofun rfl (by grind)
      have hboth (pos : Pos) : Works ok N 0 (do
          let list ← add (Tree.tagAt (.tag .names) pos) (.list ((first :: rest).map some))
          build do
            let pos := (← get).pos list
            Tree.add (Tree.tagAt (.tag .field) pos) (.list [some list, some typ, tag])) (marked b) :=
        (hlist pos).bind fun list => hfield (some list) (by grind)
      exact fun p => hboth (p.tree.pos first) p

theorem typeFields_works {types : List NodeId} (h : ∀ x ∈ held types, Has N b x) :
    Works ok N 0 (build (typeFields types)) (marked b) := by
  induction types generalizing N with
  | nil => exact .give (by grind)
  | cons t rest ih =>
      rw [typeFields, List.mapM_cons]
      have hfield : Works ok N 0 (build (Tree.addField [] t none)) (marked b) :=
        addField_works (by grind) (by grind) (by grind)
      refine Works.build_bind (.some hfield) fun field => ?_
      exact Works.build_bind (ih (by grind)) fun fields => .give (by grind)

@[grind =] theorem mem_held_entry {x : NodeId} {name typ : Child} :
    x ∈ held ({ name, typ } : ParamEntry) ↔ x ∈ held name ∨ x ∈ held typ := List.mem_append

theorem groupFrom_works {named : Bool} {pending : List NodeId} {entries : List ParamEntry}
    (hpending : ∀ x ∈ held pending, Has N b x) (hentries : ∀ x ∈ held entries, Has N b x) :
    Works ok N 0 (build (groupFrom named pending entries)) (marked b) := by
  fun_induction groupFrom named pending entries generalizing N with
  | case1 pending => exact typeFields_works hpending
  | case2 pending name typ rest ih =>
      refine Works.build_bind (addField_works (b := b) (by grind) (by grind) (by grind)) fun field => ?_
      exact Works.build_bind (ih (by grind) (by grind)) fun fields => .give (by grind)
  | case3 pending name rest hnamed ih => exact ih (by grind) (by grind)
  | case4 pending name rest hnamed ih =>
      refine Works.build_bind (addField_works (b := b) (by grind) (by grind) (by grind)) fun field => ?_
      exact Works.build_bind (ih (by grind) (by grind)) fun fields => .give (by grind)
  | case5 pending rest ih => exact ih hpending (by grind)

/-! ### Parameters -/

theorem typeTerm_works (h : g.Works) : Works ok N 0 (typeTerm g) (marked false) :=
  .tok fun _ => .ite (fun _ => .lead fun _ ha => h.type.bind fun _ => .add ha nofun rfl (by grind)) fun _ => h.type

theorem union_works (h : g.Works) : Works ok N 0 (union g) (marked false) := by
  refine (typeTerm_works h).bind fun first => Loop.run_collects (fun x => ?_) (by grind)
  refine .makeAtom fun a ha => .startOf (by grind) fun n => .bind .next fun _ => (typeTerm_works h).bind fun y => ?_
  exact .bind_held (.add_from (b := false) ha (.at (by simp)) rfl nofun (.of_parts rfl (by grind))) fun z =>
    .give (by grind)

theorem paramType_works (h : g.Works) (typeParams : Bool) : Works ok N 0 (paramType g typeParams) (marked false) :=
  .tok fun _ => .ite (fun _ => .lead fun _ ha => h.type.bind fun _ => .add ha nofun rfl (by grind)) fun _ =>
    .ite (fun _ => union_works h) fun _ => h.type

/-- The length of an array stands in brackets. -/
theorem arrayTail_works (h : g.Works) {a : Atom} (ha : a.token = .tag .array) (length : Child) :
    Works ok N (a ::ₘ 0) (arrayTail g a length) (marked false) :=
  (expect_works _).bind fun _ => h.type.bind fun _ => .add_sheltered ha nofun (.of_outer rfl rfl (by grind))

theorem argumentsPart_works {pos : Pos} {args : List Child} (h : ∀ x ∈ held args, Has N b x) :
    Works ok N 0 (argumentsPart pos args) (marked b) := by
  unfold argumentsPart
  split
  · exact .give (by grind)
  · exact .some (.add_tag nofun rfl (by grind))

/-- A type in brackets, and another after each comma. -/
theorem bracketLoop_works (h : g.Works) {args : List Child} (hargs : ∀ x ∈ held args, Has N b x) :
    Works ok N 0 ((bracketLoop g).run args) (marked b) :=
  Loop.run_collects (fun _ => .bind .next fun _ => .tok fun _ => .ite (fun _ => .give (by grind)) fun _ =>
    h.type.bind fun _ => .give (by grind)) hargs

theorem bracketedParam_works (h : g.Works) {ident : Atom} (hident : ident.token = .lit .ident) :
    Works ok N (ident ::ₘ 0) (bracketedParam g ident) (marked false) := by
  have hname {M : List Mark} : Works ok M (ident ::ₘ 0) (add ident .leaf) (marked false) :=
    .add hident nofun rfl (by grind)
  refine .lead fun a ha => .swap (.tok fun t => .ite (fun _ => ?_) fun _ => ?_)
  · have harray {M : List Mark} (length : Child) :
        Works ok M (ident ::ₘ a ::ₘ 0) (add ident .leaf >>= fun name => arrayTail g a length >>= fun typ =>
          Pure.pure ({ name := some name, typ := some typ } : ParamEntry)) (marked false) :=
      .bind_held hname fun _ => .bind_held (arrayTail_works h ha length) fun _ => .give (by grind)
    exact .ite_bind (fun _ => .some (parseAtom_works nofun)) (fun _ => .give (b := false) (by grind))
      fun length => harray length
  · refine (Works.composite (b := true) (h.expr.bind fun _ => bracketLoop_works (b := true) h (by grind))).bind
      fun args => ?_
    refine (expect_works _).bind fun _ => .bind_held hname fun name => .tok fun t => .ite (fun _ => ?_) fun _ => ?_
    · refine h.type.bind fun elem => ?_
      exact .bind_held (.add_sheltered (b := false) ha nofun (.of_outer rfl rfl (by grind))) fun typ => .give (by grind)
    · refine .startOf (by grind) fun n => (argumentsPart_works (b := true) (by grind)).bind fun arg =>
        .retag (.tag .index) ?_
      refine .bind_held (.add_from (b := false) rfl (.at (by simp)) rfl nofun (.of_outer rfl rfl (by grind)))
        fun typ => ?_
      exact .give (by grind)

theorem paramEntry_works (h : g.Works) (close : Token) (typeParams : Bool) :
    Works ok N 0 (paramEntry g close typeParams) (marked false) := by
  have htype {M : List Mark} {name : Child} (hname : ∀ x ∈ held name, Has M false x) :
      Works ok M 0 (paramType g typeParams >>= fun typ => Pure.pure ({ name, typ := some typ } : ParamEntry))
        (marked false) :=
    (paramType_works h typeParams).bind fun _ => .give (by grind)
  refine .tok fun t => .ite (fun _ => htype (by grind)) fun _ => .lead fun a ha => .tok fun t => ?_
  have hname {M : List Mark} : Works ok M (a ::ₘ 0) (add a .leaf) (marked false) := .add ha nofun rfl (by grind)
  refine .ite (fun _ => .bind_held hname fun _ => .give (by grind)) fun _ => .ite (fun _ => ?_) fun _ =>
    .ite (fun _ => bracketedParam_works h ha) fun _ => ?_
  · exact .bind_held .putBack fun _ => htype (by grind)
  · exact .bind_held hname fun _ => htype (by grind)

theorem paramsBody_works (h : g.Works) {a : Atom} {bads : List Child} {close : Token} {typeParams : Bool}
    (ha : a.token = .tag .params ∨ a.token = .tag .results) (hbads : ∀ x ∈ held bads, Has N false x) :
    Works ok N (a ::ₘ 0) (paramsBody g a bads close typeParams) (marked false) := by
  have hloop : Works true N 0 ((paramsLoop g close typeParams).run ([], bads)) (marked false) := by
    refine Loop.run_collects (fun x => .left fun before => (paramEntry_works h close typeParams).bind fun e => ?_)
      (by grind)
    refine .tok fun t => .ite (fun _ => .bind .next fun _ => .give (by grind)) fun _ => .left fun _ =>
      .ite (fun _ => ?_) fun _ => .give (by grind)
    exact (parseBad_works _).bind fun _ => .give (by grind)
  refine (Works.composite hloop).bind fun x => (leave_works close).bind fun more => ?_
  refine (groupFrom_works (b := false) (by grind) (by grind)).bind fun fields => ?_
  rcases ha with ha | ha
  · exact .add ha nofun rfl (by grind)
  · exact .add ha nofun rfl (by grind)

theorem params_works (h : g.Works) (opening close : Token) {tag : NodeTag} (typeParams : Bool)
    (htag : tag = .params ∨ tag = .results) : Works ok N 0 (params g opening close tag typeParams) (marked false) := by
  refine .makeAtom fun a ha => (enter_works opening).bind fun bads => paramsBody_works h ?_ (by grind)
  rcases htag with rfl | rfl
  · exact .inl ha
  · exact .inr ha

theorem results_works (h : g.Works) : Works ok N 0 (results g) (marked false) := by
  refine .tok fun t => .ite (fun _ => params_works h _ _ _ (.inr rfl)) fun _ =>
    .here fun pos => h.type?.bind fun found => ?_
  cases found with
  | none => exact .add_tag nofun rfl (by grind)
  | some t =>
      refine (addField_works (b := false) (by grind) (by grind) (by grind)).bind fun field => ?_
      exact .add_tag nofun rfl (by grind)

theorem signature_works (h : g.Works) {a : Atom} (ha : a.token = .kw .func) :
    Works ok N (a ::ₘ 0) (signature g a) (marked false) :=
  (params_works h _ _ _ (.inl rfl)).bind fun _ => (results_works h).bind fun _ => .add ha nofun rfl (by grind)

/-! ### Types -/

theorem typeArguments_works (h : g.Works) {name : NodeId} (hname : Has N false name) :
    Works ok N 0 (typeArguments g name) (marked false) := by
  have hargs {M : List Mark} : Works ok M 0 ((typeArgumentsLoop g).run []) (marked false) :=
    Loop.run_collects (fun _ => h.type.bind fun _ => .tok fun _ => .ite (fun _ => .give (by grind)) fun _ =>
      .bind .next fun _ => .give (by grind)) (by grind)
  refine .startOf hname.made fun n => .makeAtom fun a ha => .bind .next fun _ => hargs.bind fun args => ?_
  refine .ite_bind (fun _ => (makeBad_works _).some) (fun _ => argumentsPart_works (by grind)) fun arg => ?_
  refine .bind_held (.add_from (b := false) ha (.at (by simp)) rfl nofun (.of_outer rfl rfl (by grind))) fun typ => ?_
  exact leaveNode_works _ (by grind)

theorem qualifiedName_works : Works ok N 0 qualifiedName (marked false) := by
  refine parseIdent_works.bind fun name => .tok fun t => .ite (fun _ => .give (by grind)) fun _ =>
    .makeAtom fun a ha => ?_
  refine .startOf (by grind) fun n => .bind .next fun _ => parseIdent_works.bind fun selected => ?_
  exact .add_from ha (.at (by simp)) rfl nofun (.of_parts rfl (by grind))

theorem typeName_works (h : g.Works) : Works ok N 0 (typeName g) (marked false) :=
  qualifiedName_works.bind fun name => .tok fun _ => .ite (fun _ => typeArguments_works h (by grind)) fun _ =>
    .give (by grind)

theorem arrayLength_works (h : g.Works) : Works ok N 0 (arrayLength g) (marked true) := by
  refine .tok fun t => ?_
  split
  · exact .give (by grind)
  · exact .some (.lax (parseAtom_works nofun))
  · exact .some (.composite h.expr)

theorem arrayType_works (h : g.Works) : Works ok N 0 (arrayType g) (marked false) :=
  .lead fun _ ha => (arrayLength_works h).bind fun length => arrayTail_works h ha length

theorem mapType_works (h : g.Works) : Works ok N 0 (mapType g) (marked false) := by
  refine .lead fun a ha => (expect_works _).bind fun _ => h.type.bind fun key => ?_
  exact (expect_works _).bind fun _ => h.type.bind fun elem => .add ha nofun rfl (by grind)

theorem chanType_works (h : g.Works) : Works ok N 0 (chanType g) (marked false) := by
  have hdirection {M : List Mark} :
      Works ok M 0 chanDirection fun token => [.fact (token = .tag .bothDir ∨ token = .tag .sendDir)] := by
    refine .tok fun _ => .ite (fun _ => .pure ?_) fun _ => .bind .next fun _ => .pure ?_
    · exact entails_fact (.inl rfl)
    · exact entails_fact (.inr rfl)
  refine .lead fun a ha => hdirection.bind fun token => h.type.bind fun elem => .retag token ?_
  refine .of_fact (P := token = .tag .bothDir ∨ token = .tag .sendDir) (by simp) fun htoken => ?_
  rcases htoken with rfl | rfl
  · exact .add rfl nofun rfl (by grind)
  · exact .add rfl nofun rfl (by grind)

theorem recvChanType_works (h : g.Works) {a : Atom} : Works ok N (a ::ₘ 0) (recvChanType g a) (marked false) :=
  (expect_works _).bind fun _ => h.type.bind fun _ => .retag (.tag .recvDir) (.add rfl nofun rfl (by grind))

theorem funcType_works (h : g.Works) : Works ok N 0 (funcType g) (marked false) :=
  .lead fun _ ha => signature_works h ha

theorem memberEnd_works (close missing : Operator) (before : Nat) :
    Works ok N 0 (memberEnd close missing before) (marked false) := by
  have hskip {M : List Mark} : Works ok M 0 (skipMember close missing) (marked false) :=
    (skipTo_works _ _).bind fun bads => .tok fun _ => .ite_then .next (.give (by grind))
  refine .tok fun t => .ite (fun _ => .bind .next fun _ => .give (by grind)) fun _ =>
    .ite (fun _ => .give (by grind)) fun _ => .left fun n => .ite (fun _ => ?_) fun _ => hskip
  exact .here fun pos => .bind .complain fun _ => hskip

theorem membersLoop_works {member : ParseM NodeId} (close missing : Operator)
    (hmember : ∀ {M : List Mark}, Works ok M 0 member (marked b)) {kids : List Child}
    (hkids : ∀ x ∈ held kids, Has N b x) :
    Works ok N 0 ((membersLoop close missing member).run kids) (marked b) :=
  Loop.run_collects (fun _ => .left fun before => hmember.bind fun _ =>
    (memberEnd_works close missing before).bind fun _ => .give (by grind)) hkids

theorem members_works {member : ParseM NodeId} (hmember : ∀ {M : List Mark}, Works ok M 0 member (marked b)) :
    Works ok N 0 (members member) (marked b) :=
  (enter_works _).bind fun opened => (membersLoop_works _ _ hmember (by grind)).bind fun _ =>
    (leave_works _).bind fun _ => .give (by grind)

theorem moreNames_works {first : NodeId} (h : Has N false first) : Works ok N 0 (moreNames first) (marked false) :=
  Loop.run_collects (fun _ => .bind .next fun _ => parseIdent_works.bind fun _ => .give (by grind)) (by grind)

theorem fieldNamesAndType_works (h : g.Works) : Works ok N 0 (fieldNamesAndType g) (marked false) := by
  have htype {M : List Mark} {names : List NodeId} (hnames : ∀ x ∈ held names, Has M false x) :
      Works ok M 0 (g.type >>= fun typ => Pure.pure (names, typ)) (marked false) :=
    h.type.bind fun _ => .give (by grind)
  refine .tok fun t => ?_
  split
  · refine .lead fun a ha => .tok fun t => ?_
    have hname {M : List Mark} : Works ok M (a ::ₘ 0) (add a .leaf) (marked false) := .add ha nofun rfl (by grind)
    split
    iterate 4 · exact .bind_held .putBack fun _ => (typeName_works h).bind fun _ => .give (by grind)
    · exact .bind_held hname fun _ => htype (by grind)
    · exact .bind_held hname fun name => (moreNames_works (by grind)).bind fun _ => htype (by grind)
  · refine .lead fun a ha => (typeName_works h).bind fun _ => ?_
    exact .bind_held (.add (b := false) ha nofun rfl (by grind)) fun _ => .give (by grind)
  · exact htype (by grind)

theorem structField_works (h : g.Works) : Works ok N 0 (structField g) (marked false) := by
  refine (fieldNamesAndType_works h).bind fun x => .tok fun t => ?_
  refine .ite_bind (fun _ => .some (parseAtom_works nofun)) (fun _ => .give (b := false) (by grind)) fun tag => ?_
  exact addField_works (by grind) (by grind) (by grind)

theorem structType_works (h : g.Works) : Works ok N 0 (structType g) (marked false) :=
  .lead fun _ ha => (members_works (structField_works h)).bind fun _ => .add ha nofun rfl (by grind)

theorem interfaceElem_works (h : g.Works) : Works ok N 0 (interfaceElem g) (marked false) := by
  have hembedded {M : List Mark} : Works ok M 0 (embeddedElem g) (marked false) :=
    (union_works h).bind fun t => addField_works (by grind) (by grind) (by grind)
  refine .tok fun t => .ite (fun _ => hembedded) fun _ => .lead fun a ha => .tok fun t => .ite (fun _ => ?_) fun _ => ?_
  · exact .bind_held .putBack fun _ => hembedded
  · refine .bind_held (.add (b := false) ha nofun rfl (by grind)) fun name => ?_
    refine .bind (.forge rfl (signature_works h rfl)) fun sig => ?_
    exact addField_works (by grind) (by grind) (by grind)

theorem interfaceType_works (h : g.Works) : Works ok N 0 (interfaceType g) (marked false) :=
  .lead fun _ ha => (members_works (interfaceElem_works h)).bind fun _ => .add ha nofun rfl (by grind)

theorem typeExpr?_works (h : g.Works) : Works ok N 0 (typeExpr? g) (marked false) := by
  refine .tok fun t => ?_
  split
  · exact (typeName_works h).some
  · exact (arrayType_works h).some
  · exact (structType_works h).some
  · exact .lead fun a ha => h.type.bind fun _ => .some (.add ha nofun rfl (by grind))
  · exact (funcType_works h).some
  · exact (interfaceType_works h).some
  · exact (mapType_works h).some
  · exact (chanType_works h).some
  · exact .lead fun a ha => (recvChanType_works h).some
  · exact .bind .next fun _ => h.type.bind fun t => .some (leaveNode_works _ (by grind))
  · exact .give (by grind)

/-! ### Expressions -/

theorem stmtList_works (h : g.Works) {stmts : List Child} (hstmts : ∀ x ∈ held stmts, Has N true x) :
    Works ok N 0 (stmtList g stmts) (marked true) := by
  refine Loop.run_collects (fun x => .left fun before => h.stmt?.bind fun s => .tok fun t => ?_) hstmts
  refine .ite (fun _ => .bind .next fun _ => .give (by grind)) fun _ => .ite (fun _ => .give (by grind)) fun _ =>
    .left fun _ => .ite (fun _ => ?_) fun _ => ?_
  · exact (parseBad_works _).bind fun _ => .give (by grind)
  · exact .here fun pos => .bind .complain fun _ => .give (by grind)

theorem block_works (h : g.Works) : Works ok N 0 (block g) (marked true) := by
  refine .makeAtom fun a ha => (enter_works _).bind fun opened => ?_
  refine (Works.composite (b := true) (stmtList_works h (by grind))).bind fun stmts => ?_
  exact (leave_works _).bind fun _ => .add ha nofun rfl (by grind)

/-- The body of a function literal stands in brackets. -/
theorem funcTypeOrLiteral_works (h : g.Works) : Works ok N 0 (funcTypeOrLiteral g) (marked false) := by
  refine .makeAtom fun a ha => (funcType_works h).bind fun sig => .tok fun t => .ite (fun _ => ?_) fun _ => ?_
  · exact .drop (.give (by grind))
  · refine (Works.composite (b := true) (block_works h)).bind fun body => ?_
    exact .add_sheltered ha nofun (.of_outer rfl rfl (by grind))

theorem operand_works (h : g.Works) : Works ok N 0 (operand g) (marked ok) := by
  refine .tok fun t => ?_
  split
  · exact .lax parseIdent_works
  · exact .lax (parseAtom_works nofun)
  · refine .lead fun a ha => (Works.composite (b := true) h.expr).bind fun x => ?_
    exact .bind_held (.add_sheltered (b := ok) ha nofun (.of_closed rfl rfl)) fun paren => leaveNode_works _ (by grind)
  · exact .lax (funcTypeOrLiteral_works h)
  iterate 5 · exact .lax h.type
  iterate 7 · exact .lax (makeBad_works _)
  · exact .lax (parseBad_works _)

theorem selectorOrAssertion_works (h : g.Works) {x : NodeId} (hx : Has N ok x) :
    Works ok N 0 (selectorOrAssertion g x) (marked ok) := by
  refine .makeAtom fun a ha => .startOf hx.made fun n => .bind .next fun _ => .tok fun t => ?_
  split
  · refine parseIdent_works.bind fun _ => .add_from ha (.at (by simp)) rfl nofun (.of_parts rfl (by grind))
  · refine .bind .next fun _ => .tok fun t => .ite_bind (fun _ => parseAtom_works nofun) (fun _ => h.type) fun typ => ?_
    refine .retag (.tag .typeAssert) ?_
    refine .bind_held (.add_from (b := ok) rfl (.at (by simp)) rfl nofun (.of_parts rfl (by grind))) fun assertion => ?_
    exact leaveNode_works _ (by grind)
  · refine (makeBad_works _).bind fun _ => .add_from ha (.at (by simp)) rfl nofun (.of_parts rfl (by grind))

theorem sliceBound_works (h : g.Works) : Works ok N 0 (sliceBound g) (marked ok) := by
  refine .bind .next fun _ => .tok fun t => ?_
  split
  iterate 3 · exact .give (by grind)
  · exact h.expr.some

/-- The parts of a slice expression start with what is sliced. -/
theorem sliceParts_works (h : g.Works) {x : NodeId} {low : Child} :
    Works ok N 0 (sliceParts g x low) fun kids => [.fact (∃ bounds, kids = some x :: bounds)] := by
  have hkids {M : List Mark} {bounds : List Child} :
      Entails M [.fact (∃ bounds', some x :: bounds = some x :: bounds')] :=
    entails_fact ⟨bounds, rfl⟩
  refine (sliceBound_works h).bind fun high => .tok fun t => .ite (fun _ => .pure hkids) fun _ => ?_
  refine (sliceBound_works h).bind fun max => .ite (fun _ => ?_) fun _ => .pure hkids
  exact .here fun pos => .bind .complain fun _ => .pure hkids

theorem indexArguments_works (h : g.Works) {first : Child} (hfirst : ∀ x ∈ held first, Has N ok x) :
    Works ok N 0 (indexArguments g first) (marked ok) := by
  refine .ite (fun _ => (makeBad_works _).bind fun _ => .give (by grind)) fun _ => .tok fun t =>
    .ite (fun _ => .give hfirst) fun _ => ?_
  refine .bind (Loop.run_collects (b := ok) (fun _ => .bind .next fun _ => .tok fun _ => ?_) ?_) fun args => ?_
  · exact .ite (fun _ => .give (by grind)) fun _ => h.expr.bind fun _ => .give (by grind)
  · grind
  · exact .some (listExprs_works (by grind))

/-- What is between the brackets of an index or slice expression does not count. -/
theorem indexBody_works (h : g.Works) {a a' : Atom} {x : NodeId} (ha : a.token = .tag .index)
    (hbegins : Begins N a a' (some x)) (hx : Has N b x) : Works ok N (a ::ₘ 0) (indexBody g a' x) (marked b) := by
  refine .tok fun t => .ite_bind (fun _ => .give (b := ok) (by grind)) (fun _ => h.expr.some)
    fun first => .tok fun t => ?_
  refine .ite (fun _ => ?_) fun _ => ?_
  · refine (sliceParts_works h).bind fun kids => .of_fact (P := ∃ bounds, kids = some x :: bounds) (by simp) ?_
    rintro ⟨bounds, rfl⟩
    refine .retag (.tag .slice) (.add_from rfl ((hbegins.retag _).mono ?_) rfl nofun (.of_outer rfl rfl (by grind)))
    grind
  · refine (indexArguments_works h (by grind)).bind fun index => ?_
    exact .add_from ha (hbegins.mono (by grind)) rfl nofun (.of_outer rfl rfl (by grind))

theorem indexOrSlice_works (h : g.Works) {x : NodeId} (hx : Has N ok x) :
    Works ok N 0 (indexOrSlice g x) (marked ok) := by
  refine .makeAtom fun a ha => .startOf hx.made fun n => .bind .next fun _ => ?_
  refine .bind_held (Q := marked ok) (.composite (b := true) ?_) fun node => leaveNode_works _ (by grind)
  exact indexBody_works h ha (.at (by simp)) (by grind)

theorem argument_works (h : g.Works) : Works ok N 0 (argument g) (marked ok) :=
  h.expr.bind fun arg => .tok fun _ => .ite (fun _ => .give (by grind)) fun _ =>
    .lead fun _ ha => .add ha nofun rfl (by grind)

/-- The arguments of a call stand in brackets. -/
theorem call_works (h : g.Works) {f : NodeId} (hf : Has N ok f) : Works ok N 0 (call g f) (marked ok) := by
  have hargs {M : List Mark} : Works true M 0 ((argumentsLoop g).run [some f]) fun args =>
      [.fact (∃ rest, args = some f :: rest)] := by
    refine Loop.run_works (fun args => .of_fact (P := ∃ rest, args = some f :: rest) (by simp) ?_)
      (entails_fact ⟨[], rfl⟩)
    rintro ⟨rest, rfl⟩
    exact (argument_works h).bind fun arg => .tok fun t => .ite (fun _ => .pure (entails_fact ⟨_, rfl⟩)) fun _ =>
      .bind .next fun _ => .pure (entails_fact ⟨_, rfl⟩)
  refine .makeAtom fun a ha => .startOf hf.made fun n => .bind .next fun _ => (Works.composite hargs).bind
    fun args => ?_
  refine .of_fact (P := ∃ rest, args = some f :: rest) (by simp) ?_
  rintro ⟨rest, rfl⟩
  exact (leave_works _).bind fun _ => .add_from ha (.at (by simp)) rfl nofun (.of_outer rfl rfl (by grind))

theorem elementValue_works (h : g.Works) : Works ok N 0 (elementValue g) (marked ok) :=
  .tok fun _ => .ite (fun _ => h.elements) fun _ => h.expr

theorem element_works (h : g.Works) : Works ok N 0 (element g) (marked ok) := by
  refine (elementValue_works h).bind fun key => .tok fun t => .ite (fun _ => .give (by grind)) fun _ => ?_
  refine .makeAtom fun a ha => .startOf (by grind) fun n => .bind .next fun _ => (elementValue_works h).bind
    fun value => ?_
  exact .add_from ha (.at (by simp)) rfl nofun (.of_parts rfl (by grind))

theorem elementsLoop_works (h : g.Works) {elems : List Child} (helems : ∀ x ∈ held elems, Has N ok x) :
    Works ok N 0 ((elementsLoop g).run elems) (marked ok) := by
  refine Loop.run_collects (fun x => .left fun before => (element_works h).bind fun e => .tok fun t => ?_) helems
  refine .ite (fun _ => .bind .next fun _ => .give (by grind)) fun _ => .left fun _ => .ite (fun _ => ?_) fun _ =>
    .give (by grind)
  exact (parseBad_works _).bind fun _ => .give (by grind)

/-- The elements of a literal stand in brackets. -/
theorem compositeLit_works (h : g.Works) {typ : Child} (htyp : Works.Fits ok N typ) :
    Works ok N 0 (compositeLit g typ) (marked ok) := by
  refine .atomFrom (fun x hx => (htyp x hx).1.made) fun a a' M ha hbegins => .makeAtom fun b hb => .swap ?_
  refine (enter_works _).bind fun opened => (Works.composite (b := true) (elementsLoop_works h (by grind))).bind
    fun elems => ?_
  refine (leave_works _).bind fun _ => .swap (.bind_held (.add (b := true) hb nofun rfl (by grind)) fun list => ?_)
  exact .add_literal ha (hbegins.mono fun _ hk => by simp [hk]) (htyp.mono fun _ hk => by simp [hk])

theorem suffixes_works (h : g.Works) {x : NodeId} (hx : Has N ok x) : Works ok N 0 (suffixes g x) (marked ok) := by
  refine Loop.run_collects (fun x => .tok fun t => ?_) (by grind)
  have hround {M : List Mark} {m : ParseM NodeId} (hm : Works ok M 0 m (marked ok)) :
      Works ok M 0 (Turn.again <$> m) (marked ok) :=
    hm.map _ fun _ => entails_of_subset (List.Subset.refl _)
  split
  · exact hround (selectorOrAssertion_works h (by grind))
  · exact hround (indexOrSlice_works h (by grind))
  · exact hround (call_works h (by grind))
  · refine .look (x := x) (by grind) fun q hq => .ite (fun hliteral => hround (compositeLit_works h ?_)) fun _ =>
      .give (by grind)
    rintro y ⟨⟩
    refine ⟨by grind, fun hok => ⟨q.tree.node x, by simp, ?_⟩⟩
    -- A named type opens no literal where literals are not allowed.
    unfold isLiteralType Tree.op at hliteral
    unfold Token.namesType
    grind

theorem unaryExpr_works (h : g.Works) : Works ok N 0 (unaryExpr g) (marked ok) := by
  have hoperand {M : List Mark} : Works ok M 0 (operand g >>= suffixes g) (marked ok) :=
    (operand_works h).bind fun x => suffixes_works h (by grind)
  refine .tok fun t => ?_
  split
  · refine .lead fun a ha => .tok fun t => .ite (fun _ => ?_) fun _ =>
      h.unary.bind fun _ => .add ha nofun rfl (by grind)
    exact .bind_held (recvChanType_works h) fun x => suffixes_works h (by grind)
  · exact .ite (fun _ => .lead fun a ha => h.unary.bind fun _ => .add ha nofun rfl (by grind)) fun _ => hoperand
  · exact hoperand

/-- A token that has a precedence is no tag. -/
theorem ne_compositeLit_of_precedence {t : Token} (h : 0 < t.precedence) : t ≠ .tag .compositeLit := by
  rintro rfl
  exact absurd h (by decide)

theorem binaryExpr_works (h : g.Works) {precedence : Nat} (hpos : 0 < precedence) :
    Works ok N 0 (binaryExpr g precedence) (marked ok) := by
  refine h.unary.bind fun first => Loop.run_works_due (I := marked ok) (fun x => ?_) (entails_marked (by grind))
  have hround (op : Token) (hop : 0 < op.precedence) : Works ok (also (marked ok x) (also (marked ok first) N)) 0 (do
      let atom ← makeAtom op
      next
      let y ← g.binary (op.precedence + 1)
      return Turn.again (← add atom (.binary (some x) (some y)))) (marked ok) := by
    refine .lead fun a ha => (h.binary (Nat.succ_pos _)).bind fun y => ?_
    exact .bind_held (.add (b := ok) ha (ne_compositeLit_of_precedence hop) rfl (by grind)) fun z => .give (by grind)
  intro p hp hN
  by_cases hdue : (binaryLoop g precedence).more p.curr.token = true
  · rw [Loop.step_of_more hdue]
    exact hround _ (Nat.lt_of_lt_of_le hpos (of_decide_eq_true hdue)) p hp hN
  · rw [Loop.step_of_not_more hdue]
    exact Works.pure (entails_marked (by grind)) p hp hN

/-! ### Statements -/

theorem ne_compositeLit_of_isAssign {t : Token} (h : t.isAssign = true) : t ≠ .tag .compositeLit := by
  rintro rfl
  exact absurd h (by decide)

@[grind =] theorem mem_held_stmt {x y : NodeId} : x ∈ held (Simple.stmt y) ↔ x = y := List.mem_singleton

@[grind =] theorem mem_held_range {x y : NodeId} {assign : Child} :
    x ∈ held (Simple.range assign y) ↔ x ∈ held assign ∨ x = y := by
  simp [held]

theorem finishAssign_works (h : g.Works) {a : Atom} {lhs : List Child} (ha : a.token.isAssign = true)
    (hlhs : ∀ x ∈ held lhs, Has N ok x) : Works ok N (a ::ₘ 0) (finishAssign g a lhs) (marked ok) := by
  refine (wrapExprs_works hlhs).bind fun x => .startOf (by grind) fun n => h.exprs.bind fun rhs => ?_
  refine (wrapExprs_works (b := ok) (by grind)).bind fun y => ?_
  exact .add_from rfl (.at (by simp)) rfl (ne_compositeLit_of_isAssign ha) (.of_parts rfl (by grind))

theorem rangeClause_works (h : g.Works) {a : Atom} {lhs : List Child} (ha : a.token.isAssign = true)
    (hlhs : ∀ x ∈ held lhs, Has N ok x) : Works ok N (a ::ₘ 0) (rangeClause g a lhs) (marked ok) := by
  have htargets {M : List Mark} (hM : ∀ x ∈ held lhs, Has M ok x) : Works ok M 0 (rangeTargets a lhs) (marked ok) := by
    have hall : ∀ x ∈ held (lhs.head?.join, (lhs[1]?).join), Has M ok x := by
      intro x hx
      rcases mem_held_pair.1 hx with hx | hx
      · exact hM x (mem_held_of_head hx)
      · exact hM x (mem_held_of_place hx)
    exact .ite (fun _ => .bind .complain fun _ => .give hall) fun _ => .give hall
  refine .bind .next fun _ => h.expr.bind fun x => (htargets (by grind)).bind fun targets => ?_
  exact .bind_held (.add (b := ok) rfl (ne_compositeLit_of_isAssign ha) rfl (by grind)) fun assign => .give (by grind)

theorem simple_works (h : g.Works) (rangeOk : Bool) : Works ok N 0 (simple g rangeOk) (marked ok) := by
  have hstmt {M : List Mark} {hand : Hand} {m : ParseM NodeId} (hm : Works ok M hand m (marked ok)) :
      Works ok M hand (Simple.stmt <$> m) (marked ok) :=
    hm.map _ fun _ => entails_of_subset (List.Subset.refl _)
  refine h.exprs.bind fun lhs => .tok fun t => .ite (fun ht => ?_) fun _ => .ite (fun _ => ?_) fun _ =>
    .ite (fun ht => ?_) fun _ => hstmt (wrapExprs_works (by grind))
  · refine .lead fun a ha => .tok fun t => .ite (fun _ => ?_) fun _ => hstmt ?_
    · exact rangeClause_works h (ha ▸ ht) (by grind)
    · exact finishAssign_works h (ha ▸ ht) (by grind)
  · refine .makeAtom fun a ha => (wrapExprs_works (b := ok) (by grind)).bind fun channel =>
      .startOf (by grind) fun n => ?_
    refine .bind .next fun _ => h.expr.bind fun value => hstmt ?_
    exact .add_from ha (.at (by simp)) rfl nofun (.of_parts rfl (by grind))
  · refine .lead fun a ha => (wrapExprs_works (b := ok) (by grind)).bind fun x => hstmt (.add ha ?_ rfl (by grind))
    rcases ht with rfl | rfl
    · nofun
    · nofun

theorem simpleStmt_works (h : g.Works) : Works ok N 0 (simpleStmt g) (marked ok) := by
  refine (simple_works h false).bind fun s => ?_
  cases s with
  | stmt node => exact .give (by grind)
  | range assign x => exact .give (by grind)

theorem header_works (h : g.Works) {last : ParseM NodeId} (hlast : ∀ {M : List Mark}, Works ok M 0 last (marked ok)) :
    Works ok N 0 (header g last) (marked ok) := by
  refine .tok fun t => .ite_bind (fun _ => .give (b := ok) (by grind)) (fun _ => (simpleStmt_works h).some)
    fun first => ?_
  refine .tok fun t => .ite (fun _ => .give (by grind)) fun _ => .bind .next fun _ => .tok fun t => ?_
  exact .ite_bind (fun _ => .give (b := ok) (by grind)) (fun _ => hlast.some) fun second => .give (by grind)

theorem ifHeader_works (h : g.Works) : Works ok N 0 (ifHeader g) (marked ok) := by
  refine .tok fun t => .ite (fun _ => (makeBad_works _).bind fun _ => .give (by grind)) fun _ => ?_
  refine (header_works h h.expr).bind fun x => ?_
  obtain ⟨init, cond⟩ := x
  cases cond with
  | some cond => exact .give (by grind)
  | none => exact (makeBad_works _).bind fun _ => .give (by grind)

theorem elseBranch_works (h : g.Works) : Works ok N 0 (elseBranch g) (marked true) := by
  refine .tok fun t => .ite (fun _ => .give (by grind)) fun _ => .bind .next fun _ => .tok fun t => ?_
  split
  · exact h.ifStmt.some
  · exact (block_works h).some
  · exact .some (.lax (makeBad_works _))

theorem ifStmt_works (h : g.Works) : Works ok N 0 (ifStmt g) (marked true) := by
  refine .lead fun a ha => (Works.composite (b := false) (ifHeader_works h)).bind fun x => ?_
  refine (block_works h).bind fun body => (elseBranch_works h).bind fun otherwise => ?_
  exact .add_sheltered ha nofun (.of_header [x.1, some x.2] rfl (by grind) (by grind))

@[grind =] theorem mem_held_clauses {x : NodeId} {init cond post : Child} :
    x ∈ held (ForHeader.clauses init cond post) ↔ x ∈ held init ∨ x ∈ held cond ∨ x ∈ held post := by
  simp [held]

@[grind =] theorem mem_held_rangeHeader {x y : NodeId} {assign : Child} :
    x ∈ held (ForHeader.range assign y) ↔ x ∈ held assign ∨ x = y := by
  simp [held]

theorem forClauses_works (h : g.Works) {first : Child} (hfirst : ∀ x ∈ held first, Has N ok x) :
    Works ok N 0 (forClauses g first) (marked ok) := by
  refine .tok fun t => .ite (fun _ => .give (by grind)) fun _ => .bind .next fun _ => .tok fun t => ?_
  refine .ite_bind (fun _ => .give (b := ok) (by grind)) (fun _ => h.expr.some) fun cond =>
    (expect_works _).bind fun _ => ?_
  refine .tok fun t => .ite_bind (fun _ => .give (b := ok) (by grind)) (fun _ => (simpleStmt_works h).some)
    fun post => ?_
  exact .give (by grind)

theorem forHeader_works (h : g.Works) : Works ok N 0 (forHeader g) (marked ok) := by
  refine .tok fun t => ?_
  split
  · exact .give (by grind)
  · exact .bind .next fun _ => h.expr.bind fun _ => .give (by grind)
  · exact forClauses_works h (by grind)
  · refine (simple_works h true).bind fun s => ?_
    cases s with
    | range assign x => exact .give (by grind)
    | stmt node => exact forClauses_works h (by grind)

theorem forStmt_works (h : g.Works) : Works ok N 0 (forStmt g) (marked true) := by
  refine .lead fun a ha => (Works.composite (b := false) (forHeader_works h)).bind fun header => ?_
  refine (block_works h).bind fun body => ?_
  cases header with
  | clauses init cond post =>
      exact .add_sheltered ha nofun (.of_header [init, cond, post] rfl (by grind) (by grind))
  | range assign x =>
      exact .retag (.kw .range) (.add_sheltered rfl nofun (.of_header [assign, some x] rfl (by grind) (by grind)))

theorem clause_works (h : g.Works) {head : ParseM NodeId} {keyword : Token} (hkeyword : keyword ≠ .tag .compositeLit)
    (hhead : ∀ {M : List Mark}, Works ok M 0 head (marked true)) :
    Works ok N 0 (clause g head keyword) (marked true) := by
  refine .lead fun a ha => .ite_bind (fun _ => hhead.some) (fun _ => .give (b := true) (by grind)) fun x => ?_
  refine .makeAtom fun b hb => .swap ((expect_works _).bind fun _ => (stmtList_works h (by grind)).bind fun stmts => ?_)
  refine .swap (.bind_held (.add (b := true) hb nofun rfl (by grind)) fun body => ?_)
  exact .add ha hkeyword rfl (by grind)

theorem clauses_works (h : g.Works) {head : ParseM NodeId}
    (hhead : ∀ {M : List Mark}, Works true M 0 head (marked true)) : Works ok N 0 (clauses g head) (marked true) := by
  have hloop {M : List Mark} {kids : List Child} (hkids : ∀ x ∈ held kids, Has M true x) :
      Works true M 0 ((clausesLoop g head).run kids) (marked true) := by
    refine Loop.run_collects (fun x => .tok fun t => .ite (fun ht => ?_) fun _ => ?_) hkids
    · refine (clause_works h ?_ hhead).bind fun _ => .give (by grind)
      rcases ht with rfl | rfl
      · nofun
      · nofun
    · exact (parseBad_works _).bind fun _ => .give (by grind)
  refine .makeAtom fun a ha => (enter_works _).bind fun opened => (Works.composite (hloop (by grind))).bind
    fun kids => ?_
  exact (leave_works _).bind fun _ => .add ha nofun rfl (by grind)

theorem switchStmt_works (h : g.Works) : Works ok N 0 (switchStmt g) (marked true) := by
  have hheader {M : List Mark} : Works false M 0 (switchHeader g) (marked false) :=
    .tok fun _ => .ite (fun _ => .give (by grind)) fun _ => header_works h (simpleStmt_works h)
  have hhead {M : List Mark} : Works true M 0 (g.exprs >>= listExprs) (marked true) :=
    h.exprs.bind fun items => listExprs_works (by grind)
  refine .lead fun a ha => (Works.composite hheader).bind fun x => .get fun q _ =>
    (clauses_works h hhead).bind fun body => ?_
  refine .retag _ (.add_sheltered rfl ?_ (.of_header [x.1, x.2] ?_ (by grind) (by grind)))
  · rw [ha]
    split <;> nofun
  · rw [ha]
    split <;> rfl

theorem selectStmt_works (h : g.Works) : Works ok N 0 (selectStmt g) (marked true) :=
  .lead fun _ ha => (clauses_works h (simpleStmt_works h)).bind fun _ => .add ha nofun rfl (by grind)

theorem returnStmt_works (h : g.Works) : Works ok N 0 (returnStmt g) (marked true) := by
  have hreturned {M : List Mark} : Works ok M 0 (returned g) (marked ok) := by
    refine .tok fun t => ?_
    split
    iterate 3 · exact .give (by grind)
    · exact h.exprs
  exact .lead fun _ ha => hreturned.bind fun _ => .add ha nofun rfl (by grind)

theorem jumpStmt_works (keyword : Keyword) : Works ok N 0 (jumpStmt keyword) (marked true) :=
  .lead fun _ ha => .tok fun _ => .ite_bind (fun _ => parseIdent_works.some)
    (fun _ => .give (b := false) (by grind)) fun _ =>
    .add ha nofun rfl (by grind)

theorem deferredCall_works (h : g.Works) (keyword : Keyword) : Works ok N 0 (deferredCall g keyword) (marked true) :=
  .lead fun _ ha => h.expr.bind fun _ => .add ha nofun rfl (by grind)

theorem labeledStmt_works (h : g.Works) {ident : Atom} (hident : ident.token = .lit .ident) :
    Works ok N (ident ::ₘ 0) (labeledStmt g ident) (marked true) := by
  refine .makeAtom fun a ha => .swap (.bind_held (.add_leaf hident) fun name => .bind .next fun _ =>
    h.stmt?.bind fun stmt => ?_)
  have hname : .is name { atom := ident, shape := .leaf } ∈
      also (marked true stmt) (also [] (also [.node false name, .is name { atom := ident, shape := .leaf }] N)) :=
        by simp
  exact .add_from ha (.at hname) rfl nofun (.of_parts rfl (by grind))

theorem identStmt_works (h : g.Works) : Works ok N 0 (identStmt g) (marked true) := by
  refine .lead fun a ha => .tok fun t => .ite (fun _ => labeledStmt_works h ha) fun _ => ?_
  exact .bind_held .putBack fun _ => (simpleStmt_works h).made

/-! ### Declarations -/

theorem packageClause_works : Works ok N 0 packageClause (marked false) :=
  .lead fun _ ha => parseIdent_works.bind fun _ => .add ha nofun rfl (by grind)

theorem genDecl_works {keyword : Keyword} {spec : ParseM NodeId} (hheader : headerLength (.kw keyword) = 0)
    (hspec : ∀ {M : List Mark}, Works ok M 0 spec (marked true)) :
    Works ok N 0 (genDecl keyword spec) (marked true) := by
  have hlist {items : List Child} : headerParts (.kw keyword) (.list items) = [] := by
    rw [headerParts, hheader, List.take_zero]
  refine .lead fun a ha => .tok fun t => .ite (fun _ => hspec.bind fun _ => .add ha nofun hlist (by grind)) fun _ => ?_
  refine .bind .next fun _ => (membersLoop_works _ _ hspec (by grind)).bind fun specs => ?_
  exact (leave_works _).bind fun _ => .add ha nofun hlist (by grind)

theorem importSpec_works : Works ok N 0 importSpec (marked true) := by
  have hname {M : List Mark} : Works ok M 0 localName (marked false) := by
    refine .tok fun t => ?_
    split
    · exact parseIdent_works.some
    · exact .some (parseAtom_works nofun)
    · exact .give (by grind)
  refine .makeAtom fun a ha => hname.bind fun name => .tok fun t => ?_
  exact .ite_bind (fun _ => parseAtom_works nofun) (fun _ => makeBad_works _) fun path => .add ha nofun rfl (by grind)

theorem importDecl_works : Works ok N 0 importDecl (marked true) :=
  genDecl_works rfl importSpec_works

theorem nameList_works : Works ok N 0 nameList (marked false) :=
  .makeAtom fun _ ha => parseIdent_works.bind fun first => (moreNames_works (by grind)).bind fun _ =>
    .add ha nofun rfl (by grind)

theorem valueSpec_works (h : g.Works) : Works ok N 0 (valueSpec g) (marked true) := by
  have htype {M : List Mark} : Works ok M 0 (valueType g) (marked false) := by
    refine .tok fun t => ?_
    split
    iterate 4 · exact .give (by grind)
    · exact h.type.some
  have hvalues {M : List Mark} : Works ok M 0 (initialValues g) (marked ok) :=
    .tok fun _ => .ite (fun _ => .give (by grind)) fun _ => .bind .next fun _ => h.exprs.bind fun items =>
      .some (listExprs_works (by grind))
  exact .makeAtom fun _ ha => nameList_works.bind fun _ => htype.bind fun _ => hvalues.bind fun _ =>
    .add ha nofun rfl (by grind)

instance : Holds TypeSpecHead where
  held
    | .generic name => [name]
    | .array typ => [typ]

@[grind =] theorem mem_held_generic {x y : NodeId} : x ∈ held (TypeSpecHead.generic y) ↔ x = y := List.mem_singleton

@[grind =] theorem mem_held_array {x y : NodeId} : x ∈ held (TypeSpecHead.array y) ↔ x = y := List.mem_singleton

theorem typeParamsOrArray_works (h : g.Works) {name : NodeId} (hname : Has N false name) :
    Works ok N 0 (typeParamsOrArray g name) (marked false) := by
  have hopens {M : List Mark} : Works ok M 0 opensTypeParams fun _ => [] :=
    .tok fun _ => .ite (fun _ => .pure entails_nil) fun _ => .lead fun _ _ => .tok fun _ =>
      .bind_held .putBack fun _ => .pure entails_nil
  refine .lead fun a ha => hopens.bind fun opens => .ite (fun _ => ?_) fun _ => ?_
  · refine .retag (.tag .params) (.bind_held (paramsBody_works h (.inl rfl) (by grind)) fun params => ?_)
    refine .startOf (by grind) fun n => .bind (.add_tag (b := false) nofun rfl (by grind)) fun generic =>
      .give (by grind)
  · exact (arrayLength_works h).bind fun length => .bind_held (arrayTail_works h ha length) fun _ => .give (by grind)

theorem typeSpecTail_works (h : g.Works) {a : Atom} {name : NodeId} (ha : a.token = .kw .type)
    (hname : Has N false name) :
    Works ok N (a ::ₘ 0) (typeSpecTail g a name) (marked true) := by
  refine .tok fun t => .ite_then .next (h.type.bind fun _ => .retag _ (.add rfl ?_ rfl (by grind)))
  rw [ha]
  split <;> nofun

theorem typeSpec_works (h : g.Works) : Works ok N 0 (typeSpec g) (marked true) := by
  refine .makeAtom fun a ha => parseIdent_works.bind fun name => .tok fun t => .ite (fun _ => ?_) fun _ => ?_
  · exact typeSpecTail_works h ha (by grind)
  · refine (typeParamsOrArray_works h (by grind)).bind fun head => ?_
    cases head with
    | generic name => exact typeSpecTail_works h ha (by grind)
    | array typ => exact .add ha nofun rfl (by grind)

theorem genericName_works (h : g.Works) {name : NodeId} (hname : Has N false name) :
    Works ok N 0 (genericName g name) (marked false) := by
  refine .tok fun t => .ite (fun _ => .give (by grind)) fun _ => .startOf (by grind) fun n => ?_
  exact (params_works h _ _ _ (.inl rfl)).bind fun _ => .add_tag nofun rfl (by grind)

theorem funcDecl_works (h : g.Works) : Works ok N 0 (funcDecl g) (marked true) := by
  refine .lead fun a ha => .tok fun t => ?_
  refine .ite_bind (fun _ => .some (params_works h _ _ _ (.inl rfl))) (fun _ => .give (b := false) (by grind))
    fun recv => ?_
  refine parseIdent_works.bind fun ident => .startOf (by grind) fun n => (genericName_works h (by grind)).bind
    fun name => ?_
  refine .bind (.forge rfl (signature_works h rfl)) fun sig => .tok fun t => ?_
  refine .ite_bind (fun _ => .some (.composite (block_works h))) (fun _ => .give (b := true) (by grind)) fun body => ?_
  exact .add ha nofun rfl (by grind)

theorem declaration_works (h : g.Works) : Works ok N 0 (declaration g) (marked true) := by
  refine .tok fun t => ?_
  split
  · exact genDecl_works rfl (valueSpec_works h)
  · exact genDecl_works rfl (valueSpec_works h)
  · exact genDecl_works rfl (typeSpec_works h)
  · exact funcDecl_works h
  · exact importDecl_works
  · exact .lax (parseBad_works _)

theorem statement?_works (h : g.Works) : Works ok N 0 (statement? g) (marked true) := by
  refine .tok fun t => ?_
  split
  iterate 3 · exact .give (by grind)
  iterate 3 · exact (declaration_works h).some
  · exact (block_works h).some
  · exact (ifStmt_works h).some
  · exact (forStmt_works h).some
  · exact (switchStmt_works h).some
  · exact (selectStmt_works h).some
  · exact (returnStmt_works h).some
  iterate 3 · exact (jumpStmt_works _).some
  · exact .some (.lax (parseAtom_works nofun))
  iterate 2 · exact (deferredCall_works h _).some
  · exact (identStmt_works h).some
  · exact .ite (fun _ => (simpleStmt_works h).made.some) fun _ => .some (.lax (parseBad_works _))

/-! ### Files -/

/-- A nonterminal whose weight decides what it does. -/
theorem weight_works {α : Type} [Holds α] {rank bound : Nat} (production : Rules → ParseM α) {otherwise : ParseM α}
    (hless : ∀ w < bound, Works ok N 0 (production (rules w)) (marked b))
    (hotherwise : Works ok N 0 otherwise (marked b)) :
    Works ok N 0 (fun p => if _h : weight rank p < bound then production (rules (weight rank p)) p else otherwise p)
      (marked b) := by
  intro p hp hN
  dsimp only
  split
  · next hlt => exact hless _ hlt p hp hN
  · exact hotherwise p hp hN

/-- So it is with the nonterminals of the grammar. -/
theorem rules_works (bound : Nat) : (rules bound).Works := by
  induction bound using Nat.strongRecOn with
  | ind bound ih =>
    rw [rules]
    have hnone {ok : Bool} {N : List Mark} {typ : Child} (htyp : typ = none) : Works.Fits ok N typ :=
      fun x hx => absurd (hx.symm.trans htyp) (Option.some_ne_none x)
    exact ⟨fun hpos => weight_works (binaryExpr · _) (fun w hw => binaryExpr_works (ih w hw) hpos)
        (.lax (makeBad_works _)),
      weight_works unaryExpr (fun w hw => unaryExpr_works (ih w hw)) (.lax (makeBad_works _)),
      weight_works typeExpr? (fun w hw => typeExpr?_works (ih w hw)) (.give (by grind)),
      weight_works statement? (fun w hw => statement?_works (ih w hw)) (.give (by grind)),
      weight_works ifStmt (fun w hw => ifStmt_works (ih w hw)) (.lax (makeBad_works _)),
      weight_works (compositeLit · none) (fun w hw => compositeLit_works (ih w hw) (hnone rfl))
        (.lax (makeBad_works _))⟩

theorem run_works {α : Type} {production : Rules → ParseM α} {Q : α → List Mark}
    (h : ∀ g : Rules, g.Works → Works ok N 0 (production g) Q) : Works ok N 0 (run production) Q :=
  fun p hp hN => h _ (rules_works _) p hp hN

theorem strayClosing_works {token : Token} (htoken : token ≠ .tag .compositeLit) :
    Works ok N 0 (strayClosing token) (marked true) := by
  refine .here fun pos => (parseAtom_works htoken).bind fun atom => .bind .complain fun d => .get fun p _ => ?_
  exact .forge rfl (.add_bad (by grind))

theorem itemBody?_works : Works ok N 0 itemBody? (marked true) := by
  refine .get fun p _ => .tok fun t => .ite (fun _ => .some (.lax makeEof_works)) fun _ =>
    .ite (fun _ => .some (.lax packageClause_works)) fun _ => .ite (fun _ => ?_) fun _ => ?_
  · refine .ite (fun _ => importDecl_works.some) fun _ => .ite (fun _ => ?_) fun _ => .some (.lax makeEof_works)
    exact importDecl_works.bind fun _ => .give (by grind)
  · refine .ite (fun _ => .give (by grind)) fun _ => .ite (fun _ => .some (.lax makeEof_works)) fun _ =>
      .ite (fun ht => .some (strayClosing_works ?_)) fun _ => .ite (fun _ => ?_) fun _ => ?_
    · rintro rfl
      exact absurd ht (by decide)
    · exact .some (run_works fun _ => declaration_works)
    · exact run_works fun _ => statement?_works

theorem item?_works : Works ok N 0 item? (marked true) :=
  .tok fun _ => .ite_then .next itemBody?_works

theorem checkTopLevel_works (item : Child) : Works ok N 0 (checkTopLevel item) fun _ => [] := by
  refine .get fun p _ => ?_
  dsimp only
  split
  · exact .bind .complain fun _ => .pure entails_nil
  · exact .pure entails_nil

theorem fileNode_works : Works ok N 0 fileNode (marked true) := by
  refine .here fun pos => .bind (Loop.run_collects (b := true) (fun decls => ?_) (by grind)) fun decls => ?_
  · refine .left fun before => item?_works.bind fun item => .get fun p _ => .ite (fun _ => .give (by grind)) fun _ => ?_
    refine (checkTopLevel_works item).bind fun _ => .left fun _ => .ite (fun _ => ?_) fun _ => .give (by grind)
    exact (parseBad_works _).bind fun _ => .give (by grind)
  · exact .add_tag nofun rfl (by grind)

/-! ### Calls -/

theorem Works.deeds {α : Type} {m : ParseM α} {Q : α → List Mark} {p : Parser} (h : Works p.compositeOk [] 0 m Q) :
    Deeds (0, p) (0, (m p).2) := by
  have hdeeds := (h p rfl fun _ hk => absurd hk List.not_mem_nil).2.1 0
  rwa [zero_add] at hdeeds

/-- A call does deeds, and nothing is left in its hand. -/
theorem deeds_run (p : Parser) (call : Parser.Call) : Deeds (0, p) (0, call.run p) := by
  cases call with
  | parse => exact item?_works.deeds
  | parseFile => exact fileNode_works.deeds
  | parseExpression => exact (run_works fun _ h => h.expr).deeds
  | parseDeclaration => exact (run_works fun _ h => declaration_works h).deeds
  | skip => exact .single .advance

end Grammar

/-! ### Sequences of operations -/

namespace Parser

/-- The stream of the text that an operation starts, or of the one that was started before. -/
def Operation.stream (p : Parser) (whole : List Item) : Operation → List Item
  | .init file source _ => (p.scanner.init file source).stream.items
  | .setBudget budget => (p.scanner.setBudget budget).stream.items
  | .clearJournal => whole
  | .call _ => whole

/-- The whole stream of the text that was started last by a sequence of operations. -/
def streamed (p : Parser) (whole : List Item) : List Operation → List Item
  | [] => whole
  | operation :: operations => (operation.run p).streamed (operation.stream p whole) operations

/-- Something that holds at the start of every text, and that goes on to hold where calls do deeds and a journal is
forgotten, holds whatever was asked of a parser. -/
theorem operated_induction {I : List Item → Parser → Prop} (hblank : I [] {})
    (hstart : ∀ (scanner : Scanner) (mode : Mode),
      I scanner.stream.items { scanner, mode, compositeOk := true })
    (hclear : ∀ {whole : List Item} {p : Parser}, I whole p → I whole p.clearJournal)
    (hdeeds : ∀ {whole : List Item} {p q : Parser}, Grammar.Deeds (0, p) (0, q) → I whole p → I whole q)
    (operations : List Operation) :
    I (({} : Parser).streamed [] operations) (({} : Parser).operated operations) := by
  suffices h : ∀ (whole : List Item) (p : Parser), I whole p →
      I (p.streamed whole operations) (p.operated operations) from
    h [] {} hblank
  induction operations with
  | nil => exact fun _ _ h => h
  | cons operation operations ih =>
      intro whole p h
      refine ih _ _ ?_
      cases operation with
      | init file source mode => exact hdeeds (.single .advance) (hstart (p.scanner.init file source) mode)
      | setBudget budget => exact hdeeds (.single .advance) (hstart (p.scanner.setBudget budget) p.mode)
      | clearJournal => exact hclear h
      | call call => exact hdeeds (Grammar.deeds_run p call) h

end Parser

end GoSource
