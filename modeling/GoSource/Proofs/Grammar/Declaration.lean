import GoSource.Grammar.Parse
import GoSource.Proofs.Grammar.Imports
import GoSource.Proofs.Grammar.Statement

/-!
# Declarations read on

A declaration consumes its keyword, a statement the token that it starts with; only a separator, a closing brace
and the end of the text are left where they are.
-/

namespace GoSource.Grammar

variable {s : Stack × Parser} {n k : Nat} {w : Stack} {t : Token} {g g' : Rules}

theorem packageClause_opens : Opens (.kw .package) n packageClause packageClause := by
  intro k hk s w
  refine Agree.lead rfl fun a ha => (parseIdent_reads k hk s w).bind fun x => ?_
  exact add_node ha rfl rfl rfl

/-- A declaration reads on if its specifications do, and if a node can be made of what they return. -/
theorem genDecl_opens_of {keyword : Keyword} {spec spec' : ParseM NodeId} {P : List Child → Parser → Prop}
    (hone : ∀ k ≤ n, ∀ s w, Agree (Within s k w) spec spec' fun x p => Within s k (.node x :: w) p ∧ P [some x] p)
    (hmany : ∀ k ≤ n, ∀ s w, Agree (Within s k w) (do return (← specGroup spec) ++ (← leave (.op .rparen)))
      (do return (← specGroup spec') ++ (← leave (.op .rparen))) fun xs p => Within s k (push xs w) p ∧ P xs p)
    (hadd : ∀ k s w a xs, a.token = .kw keyword →
      Agree (fun p => Within s k (push xs w) p ∧ P xs p) (add a (.list xs)) (add a (.list xs))
        fun y => Within s k (.node y :: w)) :
    Opens (.kw keyword) n (genDecl keyword spec) (genDecl keyword spec') := by
  intro k hk s w
  refine Agree.lead rfl fun a ha => Agree.tok fun t => Agree.ite (fun _ => ?_) (fun ht => ?_)
  · exact ((hone k hk s w).pre fun p hp => hp.1).bind fun x => hadd k s w a [some x] ha
  · obtain rfl : t = .op .lparen := Decidable.of_not_not ht
    refine (next_pass_le rfl).bind fun _ => ?_
    exact (hmany k hk s w).bind fun xs => hadd k s w a xs ha

theorem specGroup_reads {spec spec' : ParseM NodeId} (h : Reads n spec spec') :
    Reads n (do return (← specGroup spec) ++ (← leave (.op .rparen)))
      (do return (← specGroup spec') ++ (← leave (.op .rparen))) := by
  intro k hk s w
  refine ((membersLoop_reads h).run hk []).bind fun specs => ?_
  refine (leave_reads rfl k hk s _).bind fun bads => Agree.pure fun p hp => ?_
  rw [push_append]
  exact hp

/-- A declaration of which the parts can be any. -/
theorem genDecl_opens {keyword : Keyword} (hkeyword : (Token.kw keyword).isTag = true) {spec spec' : ParseM NodeId}
    (h : Reads n spec spec') :
    Opens (.kw keyword) n (genDecl keyword spec) (genDecl keyword spec') := by
  refine genDecl_opens_of (P := fun _ _ => True) ?_ ?_ ?_
  · exact fun k hk s w => (h k hk s w).post fun _ _ hp => ⟨hp, trivial⟩
  · exact fun k hk s w => (specGroup_reads h k hk s w).post fun _ _ hp => ⟨hp, trivial⟩
  · exact fun k s w a xs ha => (add_node ha hkeyword rfl rfl).pre fun p hp => hp.1

/-! ### Imports, constants and variables -/

/-- An import declaration: its parts are import specifications, or they are bad. -/
theorem importDecl_opens : Opens (.kw .import_) n importDecl importDecl := by
  refine genDecl_opens_of (P := fun xs => Supplied (.tag .importSpec) (held xs)) ?_ ?_ ?_
  · intro k hk s w
    exact ((importSpec_reads k hk s w).and (importSpec_supplies [])).pre fun p hp => ⟨hp, nofun, nofun⟩
  · intro k hk s w
    have hsupplies : Agree (Supplied (.tag .importSpec) []) (do return (← specGroup importSpec) ++ (← leave (.op .rparen)))
        (do return (← specGroup importSpec) ++ (← leave (.op .rparen)))
        fun xs => Supplied (.tag .importSpec) (held xs) := by
      refine (membersLoop_supplies .rparen .rparen importSpec_supplies []).bind fun specs => ?_
      refine (leave_supplies _ _).bind fun bads => Agree.pure fun p hp => ?_
      simpa [held] using hp
    exact ((specGroup_reads importSpec_reads k hk s w).and hsupplies).pre fun p hp => ⟨hp, nofun, nofun⟩
  · intro k s w a xs ha
    refine add_formed ha rfl rfl rfl fun p hp => ⟨nofun, fun _ spec hspec => ?_, nofun⟩
    refine hp.2 spec ?_
    exact List.mem_flatMap.2 ⟨some spec, hspec, List.mem_singleton.2 rfl⟩

theorem nameList_reads : Reads n nameList nameList := by
  intro k hk s w
  refine (makeAtom_reads _).bind fun a => Agree.of_fact fun ha => ?_
  refine (parseIdent_reads k hk s w).bind fun x => (moreNames_reads x).bind fun names => ?_
  exact add_node ha rfl rfl (by rw [parts_list, push_map_some])

theorem valueType_reads (h : g.Close n g') : Reads n (valueType g) (valueType g') := by
  intro k hk s w
  refine Agree.tok fun t => ?_
  split
  · exact Agree.pure fun p hp => hp.1
  · exact Agree.pure fun p hp => hp.1
  · exact Agree.pure fun p hp => hp.1
  · exact Agree.pure fun p hp => hp.1
  · exact (h.type.some k hk s w).pre fun p hp => hp.1

theorem initialValues_reads (h : g.Close n g') : Reads n (initialValues g) (initialValues g') := by
  intro k hk s w
  refine Agree.tok fun t => Agree.ite (fun _ => Agree.pure fun p hp => hp.1) (fun ht => ?_)
  obtain rfl : t = .op .assign := Decidable.of_not_not ht
  refine (next_pass_le rfl).bind fun _ => (exprs_reads h.expr k hk s w).bind fun items => ?_
  exact Agree.map (listExprs_reads items) fun x p hp => hp

theorem valueSpec_reads (h : g.Close n g') : Reads n (valueSpec g) (valueSpec g') := by
  intro k hk s w
  refine (makeAtom_reads _).bind fun a => Agree.of_fact fun ha => ?_
  refine (nameList_reads k hk s w).bind fun names => (valueType_reads h k hk s _).bind fun typ => ?_
  refine (initialValues_reads h k hk s _).bind fun values => ?_
  exact add_node ha rfl rfl (by simp)

/-! ### Types and functions -/

/-- Looking for type parameters takes nothing. -/
theorem opensTypeParams_reads :
    Agree (Within s k w) opensTypeParams opensTypeParams fun _ => Within s k w := by
  refine Agree.tok fun t => Agree.ite (fun _ => Agree.pure fun p hp => hp.1) (fun ht => ?_)
  obtain rfl : t = .lit .ident := Decidable.of_not_not ht
  cases k with
  | zero => exact fun p hp => absurd hp.1.left_lt (Nat.not_lt_zero _)
  | succ k =>
      refine Agree.lead_ident fun ident _ => Agree.tok fun u => ?_
      refine (putBack_taken.pre fun p hp => hp.1).bind fun _ => Agree.pure fun p hp => hp.1

/-- What the brackets after the name of a type leave on the stack. -/
def TypeSpecHead.onto (name : NodeId) (w : Stack) : TypeSpecHead → Stack
  | .generic x => .node x :: w
  | .array typ => .node typ :: .node name :: w

theorem typeParamsOrArray_reads (h : g.Close n g') (hk : k ≤ n) (name : NodeId) :
    Agree (fun p => Within s k (.node name :: w) p ∧ p.curr.token = .op .lbrack)
      (typeParamsOrArray g name) (typeParamsOrArray g' name) fun x => Within s k (x.onto name w) := by
  refine Agree.lead_le rfl fun bracket hbracket => opensTypeParams_reads.bind fun generic => ?_
  refine Agree.ite (fun _ => ?_) (fun _ => ?_)
  · refine Agree.bind (Agree.pre (paramsBody_reads (w := .node name :: w) h rfl true hk rfl rfl [])
      fun p hp => ⟨hp, .inl rfl⟩) fun params => Agree.startOf fun pos => ?_
    refine Agree.bind (add_node (w := w) rfl rfl rfl rfl) fun x => ?_
    exact Agree.pure fun p hp => hp
  · refine (arrayLength_reads h k hk s _).bind fun length => ?_
    exact (arrayTail_reads h hk hbracket length).bind fun typ => Agree.pure fun p hp => hp

theorem typeSpecTail_reads (h : g.Close n g') (hk : k ≤ n) {atom : Atom} (hatom : atom.token = .kw .type)
    (name : NodeId) :
    Agree (Within s k (.node name :: w)) (typeSpecTail g atom name) (typeSpecTail g' atom name)
      fun x => Within s k (.node x :: w) := by
  refine Agree.tok fun t => Agree.ite_then (Q := Within s k (.node name :: w)) (fun ht => ?_)
    (fun _ p hp => hp.1) ?_
  · exact next_pass_le (eq_of_beq ht ▸ rfl)
  · refine (h.type k hk s _).bind fun typ => add_node rfl ?_ rfl rfl
    dsimp only
    split
    · rfl
    · rw [hatom]
      rfl

theorem typeSpec_reads (h : g.Close n g') : Reads n (typeSpec g) (typeSpec g') := by
  intro k hk s w
  refine (makeAtom_reads _).bind fun a => Agree.of_fact fun ha => ?_
  refine (parseIdent_reads k hk s w).bind fun name => Agree.tok fun t => Agree.ite (fun _ => ?_) (fun ht => ?_)
  · exact (typeSpecTail_reads h hk ha name).pre fun p hp => hp.1
  · obtain rfl : t = .op .lbrack := Decidable.of_not_not ht
    refine (typeParamsOrArray_reads h hk name).bind fun x => ?_
    cases x with
    | generic x => exact typeSpecTail_reads h hk ha x
    | array typ => exact add_node ha rfl rfl rfl

theorem genericName_reads (h : g.Close n g') (hk : k ≤ n) (name : NodeId) :
    Agree (Within s k (.node name :: w)) (genericName g name) (genericName g' name)
      fun x => Within s k (.node x :: w) := by
  refine Agree.tok fun t => Agree.ite (fun _ => Agree.pure fun p hp => hp.1) (fun _ => ?_)
  refine Agree.startOf fun pos => ?_
  refine ((params_reads h rfl rfl .params rfl true k hk s _).pre fun p hp => hp.1).bind fun params => ?_
  exact add_node rfl rfl rfl rfl

theorem funcDecl_opens (h : g.Close n g') : Opens (.kw .func) n (funcDecl g) (funcDecl g') := by
  intro k hk s w
  refine Agree.lead rfl fun a ha => Agree.tok fun t => ?_
  refine Agree.ite_bind (Q := fun recv => Within s k (push recv w)) (fun _ => ?_) (fun _ => ?_) fun recv => ?_
  · exact ((params_reads h rfl rfl .params rfl false).some k hk s w).pre fun p hp => hp.1
  · exact Agree.pure fun p hp => hp.1
  refine (parseIdent_reads k hk s _).bind fun ident => Agree.startOf fun pos => ?_
  refine (genericName_reads h hk ident).bind fun name => ?_
  refine (signature_isFunc h rfl hk).bind fun sig => Agree.tok fun t => ?_
  refine Agree.ite_bind
    (Q := fun body p => Within s k (push body (.node sig :: .node name :: push recv w)) p ∧ IsFunc sig p)
    (fun _ => ?_) (fun _ => ?_) fun body => ?_
  · exact ((block_reads h).withComposite.some.keeps hk IsFunc.moves).pre fun p hp => hp.1
  · exact Agree.pure fun p hp => hp.1
  · refine add_func ha rfl (by simp) fun x p hsig hx => ?_
    cases hx
    exact hsig.op_eq

/-! ### Declarations and statements -/

theorem declaration_parses (h : g.Close n g') : Parses Token.isDecl n (declaration g) (declaration g') := by
  intro k hk s w t
  refine Agree.tok_eq ?_
  split
  · exact (genDecl_opens rfl (valueSpec_reads h)).parses hk s w
  · exact (genDecl_opens rfl (valueSpec_reads h)).parses hk s w
  · exact (genDecl_opens rfl (typeSpec_reads h)).parses hk s w
  · exact (funcDecl_opens h).parses hk s w
  · exact importDecl_opens.parses hk s w
  · have hleads : t.isDecl = false := by
      unfold Token.isDecl
      split <;> simp_all
    exact (parseBad_reads _).parses hk hleads s w

/-- Tokens that a statement can start with, rightly or not. -/
def startsStmt : Token → Bool
  | .op .semicolon | .op .rbrace | .eof => false
  | _ => true

/-- A statement consumes the token that it starts with. -/
theorem statement?_parses (h : g.Close n g') (hexpr : Parses startsExpr n g.expr g'.expr) :
    Parses startsStmt n (statement? g) (statement? g') := by
  intro k hk s w t
  refine Agree.tok_eq ?_
  split
  · exact Agree.pure fun p hp => hp.1
  · exact Agree.pure fun p hp => hp.1
  · exact Agree.pure fun p hp => hp.1
  · exact ((declaration_parses h).opens rfl).some.parses hk s w
  · exact ((declaration_parses h).opens rfl).some.parses hk s w
  · exact ((declaration_parses h).opens rfl).some.parses hk s w
  · exact (block_opens h).some.parses hk s w
  · exact (ifStmt_opens h).some.parses hk s w
  · exact (forStmt_opens h).some.parses hk s w
  · exact (switchStmt_opens h).some.parses hk s w
  · exact (selectStmt_opens h).some.parses hk s w
  · exact (returnStmt_opens h).some.parses hk s w
  · exact (jumpStmt_opens .break_ rfl).some.parses hk s w
  · exact (jumpStmt_opens .continue_ rfl).some.parses hk s w
  · exact (jumpStmt_opens .goto rfl).some.parses hk s w
  · exact (parseAtom_opens (t := .kw .fallthrough) nofun).some.parses hk s w
  · exact (deferredCall_opens h .go rfl).some.parses hk s w
  · exact (deferredCall_opens h .defer rfl).some.parses hk s w
  · exact (identStmt_opens h hexpr).some.parses hk s w
  · refine Agree.ite (fun ht => ?_) (fun _ => ?_)
    · exact (simpleStmt_opens hexpr ht).some.parses hk s w
    · have hbad : Opens t n (parseBad .expectingStmt) (parseBad .expectingStmt) :=
        fun k _ s w => (parseBad_consumes _ (by assumption)).post fun x p hp => hp.1
      exact hbad.some.parses hk s w

end GoSource.Grammar
