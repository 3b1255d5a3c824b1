import GoSource.Proofs.Grammar.Abreast

/-!
# Types over the same words

Every production of types and signatures does the same from states abreast, as long as it stays inside the words that
the two runs have in common.  The lemmas follow the grammar: a production is put together from steps that do the same.

* **`Rules.Near`**: nonterminals that do the same from states abreast.
* **`paramsBody_near`**, **`signature_near`**: lists of parameters, and signatures.
* **`typeExpr?_near`**: types.
-/

namespace GoSource.Grammar

variable {c : Course} {S : Parser → Prop} {g g' : Rules}

/-! ### Recovery -/

theorem expect_near (token : Token) : Near c S (expect token) (expect token) :=
  .tok fun _ => .ite (fun _ => .next) fun _ => .here fun pos _ =>
    .of_outside ((Outside.complain pos _).bind fun _ _ hin => hin)

theorem makeBad_outside (fault : SyntaxFault) : Outside c S (makeBad fault) :=
  fun p _ hin => Parser.not_clean_complain p _ hin.1

theorem makeBad_near (fault : SyntaxFault) : Near c S (makeBad fault) (makeBad fault) :=
  .of_outside (makeBad_outside fault)

theorem parseBad_outside (fault : SyntaxFault) : Outside c S (parseBad fault) :=
  (makeBad_outside fault).bind fun _ _ hin => hin.of_advance

theorem parseBad_near (fault : SyntaxFault) : Near c S (parseBad fault) (parseBad fault) :=
  .of_outside (parseBad_outside fault)

theorem wrapBad_near (node : NodeId) (fault : SyntaxFault) :
    Near c S (wrapBad node fault) (wrapBad (c.image node) fault) :=
  .of_outside fun p _ hin => Parser.not_clean_complain p _ hin.1

theorem parseAtom_near (token : Token) : Near c S (parseAtom token) (parseAtom token) :=
  .lead fun _ _ ha => .add ha rfl

theorem parseIdent_near : Near c S parseIdent parseIdent :=
  .tok fun _ => .ite (fun _ => parseAtom_near _) fun _ => makeBad_near _

theorem enter_near (token : Token) : Near c S (enter token) (enter token) :=
  .tok fun _ => .ite (fun _ => .bind .next fun _ => .pure rfl) fun _ => (makeBad_near _).bind fun _ => .pure rfl

theorem skipLoop_near (stop : Token → Bool) (fault : SyntaxFault) (bads : List Child) :
    Near c S ((skipLoop stop fault).run bads) ((skipLoop stop fault).run (rename c.image bads)) :=
  .run bads rfl fun _ => (parseBad_near fault).bind fun _ => .pure (by simp)

theorem skipTo_near (stop : Token → Bool) (fault : SyntaxFault) : Near c S (skipTo stop fault) (skipTo stop fault) :=
  skipLoop_near stop fault []

/-- Nobody is inside who had to skip a token. -/
theorem skipTo_outside {stop : Token → Bool} (fault : SyntaxFault)
    (hS : ∀ p, S p → stop p.curr.token = false ∧ p.curr.token ≠ .eof) : Outside c S (skipTo stop fault) := by
  intro p hp hin
  have hmore : (skipLoop stop fault).more p.curr.token = true := by
    show (!stop p.curr.token && p.curr.token != .eof) = true
    simp [hS p hp]
  have hround : Outside c Anywhere ((skipLoop stop fault).round []) :=
    (parseBad_outside fault).bind fun _ _ hin => hin
  refine hround p trivial (inside_round hmore (fun x p => ?_) hin)
  exact (skipLoop_near (S := Anywhere) stop fault x).inside p trivial

theorem leave_near (token : Token) : Near c S (leave token) (leave token) := by
  refine (skipTo_near _ _).bind fun bads => .tok fun _ => .ite (fun _ => .bind .next fun _ => .pure rfl) fun _ => ?_
  exact (makeBad_near _).bind fun _ => .pure (by simp)

theorem leaveNode_near (node : NodeId) (token : Token) :
    Near c S (leaveNode node token) (leaveNode (c.image node) token) := by
  refine .tok fun _ => .ite (fun _ => .bind .next fun _ => .pure rfl) fun _ => (wrapBad_near node _).bind fun _ => ?_
  refine .bind (.run () rfl fun _ => .bind .next fun _ => .pure rfl) fun _ => .tok fun _ => ?_
  exact .ite_then (fun _ => .next) (.pure rfl)

/-! ### Nonterminals -/

/-- The nonterminals do the same from states abreast.  At an identifier they consume it. -/
structure Rules.Near (c : Course) (g g' : Rules) : Prop where
  binary : ∀ {S : Parser → Prop} (precedence : Nat), 1 ≤ precedence →
    Grammar.Near c S (g.binary precedence) (g'.binary precedence)
  unary : ∀ {S : Parser → Prop}, Grammar.Near c S g.unary g'.unary
  type? : ∀ {S : Parser → Prop}, Grammar.Near c S g.type? g'.type?
  stmt? : ∀ {S : Parser → Prop}, Grammar.Near c S g.stmt? g'.stmt?
  ifStmt : Grammar.Near c (·.curr.token = .kw .if_) g.ifStmt g'.ifStmt
  elements : Grammar.Near c (·.curr.token = .op .lbrace) g.elements g'.elements
  takes_type? : Takes c (·.curr.token = .lit .ident) g.type?
  takes_unary : Takes c (·.curr.token = .lit .ident) g.unary
  takes_expr : Takes c (·.curr.token = .lit .ident) g.expr

namespace Rules.Near

theorem expr (h : g.Near c g') : Grammar.Near c S g.expr g'.expr :=
  h.binary 1 (Nat.le_refl 1)

/-- A type, or a bad node in its place. -/
theorem found (found : Option NodeId) : Grammar.Near c S
    (match found with
      | some t => return t
      | none => do
          match ← tok with
          | .op .rparen | .op .rbrack | .op .rbrace | .op .semicolon | .op .comma | .eof =>
              makeBad .expectingType
          | _ => parseBad .expectingType)
    (match rename c.image found with
      | some t => return t
      | none => do
          match ← tok with
          | .op .rparen | .op .rbrack | .op .rbrace | .op .semicolon | .op .comma | .eof =>
              makeBad .expectingType
          | _ => parseBad .expectingType) := by
  cases found with
  | some t => exact .pure rfl
  | none =>
      refine .tok fun t => ?_
      split
      iterate 6 · exact makeBad_near _
      · exact parseBad_near _

theorem type (h : g.Near c g') : Grammar.Near c S g.type g'.type :=
  h.type?.bind found

theorem takes_type (h : g.Near c g') : Takes c (·.curr.token = .lit .ident) g.type :=
  h.takes_type?.bind fun x p => (found (S := Anywhere) x).inside p trivial

theorem exprsLoop (h : g.Near c g') (items : List Child) :
    Grammar.Near c S (g.exprsLoop.run items) (g'.exprsLoop.run (rename c.image items)) :=
  .run _ rfl fun _ => .bind .next fun _ => h.expr.bind fun _ => .pure (by simp)

theorem exprs (h : g.Near c g') : Grammar.Near c S g.exprs g'.exprs :=
  h.expr.bind fun x => h.exprsLoop [some x]

theorem takes_exprs (h : g.Near c g') : Takes c (·.curr.token = .lit .ident) g.exprs :=
  h.takes_expr.bind fun x p => (h.exprsLoop (S := Anywhere) [some x]).inside p trivial

end Rules.Near

/-- The atom of a construct is an atom like others. -/
theorem atomFrom_near {β : Type} [Renames β] (tag : NodeTag) (first : Child) {k k' : Atom → ParseM β}
    (h : ∀ a a', a.Akin a' → Near c Anywhere (k a) (k' a')) :
    Near c S (atomFrom tag first >>= k) (atomFrom tag (rename c.image first) >>= k') := by
  unfold atomFrom
  rw [bind_assoc, bind_assoc]
  refine .makeAtom fun a a' ha => ?_
  cases first with
  | none => exact h a a' ha
  | some first =>
      simp only [bind_assoc, pure_bind, rename_some]
      exact .startOf fun pos pos' => h _ _ (ha.withPos pos pos')

theorem listExprs_near (items : List Child) : Near c S (listExprs items) (listExprs (rename c.image items)) := by
  unfold listExprs
  rw [rename_head?]
  exact atomFrom_near _ _ fun _ _ ha => .add ha rfl

theorem wrapExprs_near (items : List Child) : Near c S (wrapExprs items) (wrapExprs (rename c.image items)) := by
  rcases items with - | ⟨- | only, - | ⟨second, rest⟩⟩
  · exact listExprs_near _
  · exact listExprs_near _
  · exact listExprs_near _
  · exact .pure rfl
  · exact listExprs_near _

/-! ### Parameters -/

instance : Renames ParamEntry := ⟨fun f e => { name := rename f e.name, typ := rename f e.typ }⟩

@[simp] theorem rename_entry (f : NodeId → NodeId) (name typ : Child) :
    rename f ({ name, typ } : ParamEntry) = { name := rename f name, typ := rename f typ } := rfl

/-- Two trees that echo each other go on to do so under an action that makes nodes. -/
def BuildNear {α : Type} [Renames α] (c : Course) (b b' : Build α) : Prop :=
  ∀ t t', c.Echoes t t' → (b' t').1 = rename c.image (b t).1 ∧ c.Echoes (b t).2 (b' t').2

namespace BuildNear

variable {α β : Type} [Renames α] [Renames β]

theorem pure {x y : α} (h : y = rename c.image x) : BuildNear c (Pure.pure x) (Pure.pure y) :=
  fun _ _ ht => ⟨h, ht⟩

theorem bind {b b' : Build α} {k k' : α → Build β} (h : BuildNear c b b')
    (hk : ∀ x, BuildNear c (k x) (k' (rename c.image x))) : BuildNear c (b >>= k) (b' >>= k') := by
  intro t t' ht
  obtain ⟨heq, hmade⟩ := h t t' ht
  show (k' (b' t').1 (b' t').2).1 = rename c.image (k (b t).1 (b t).2).1 ∧
    c.Echoes (k (b t).1 (b t).2).2 (k' (b' t').1 (b' t').2).2
  rw [heq]
  exact hk _ _ _ hmade

theorem add {a a' : Atom} {shape shape' : NodeShape} (ha : a.Akin a') (hshape : shape' = shape.rename c.image) :
    BuildNear c (Tree.add a shape) (Tree.add a' shape') := by
  subst hshape
  exact fun _ _ ht => ⟨(ht.next 0).symm, ht.push ha shape⟩

theorem map {b b' : Build α} {f f' : α → β} (h : BuildNear c b b')
    (hf : ∀ x, f' (rename c.image x) = rename c.image (f x)) : BuildNear c (f <$> b) (f' <$> b') := by
  intro t t' ht
  obtain ⟨heq, hmade⟩ := h t t' ht
  exact ⟨(congrArg f' heq).trans (hf _), hmade⟩

theorem addField (names : List NodeId) (typ : NodeId) (tag : Child) :
    BuildNear c (Tree.addField names typ tag)
      (Tree.addField (rename c.image names) (c.image typ) (rename c.image tag)) := by
  have hlisted (tag : NodeTag) (pos pos' : Pos) (kids : List Child) :
      BuildNear c (Tree.add (Tree.tagAt (.tag tag) pos) (.list kids))
        (Tree.add (Tree.tagAt (.tag tag) pos') (.list (rename c.image kids))) :=
    .add (.tagAt _ _ _) rfl
  -- The field, which starts where its names or its type do.
  have hfield (nameList : Child) (x x' : NodeId) :
      BuildNear c
        (do
          let pos := (← MonadState.get : Tree).pos x
          Tree.add (Tree.tagAt (.tag .field) pos) (.list [nameList, some typ, tag]))
        (do
          let pos := (← MonadState.get : Tree).pos x'
          Tree.add (Tree.tagAt (.tag .field) pos) (.list (rename c.image [nameList, some typ, tag]))) :=
    fun t t' => hlisted .field (t.pos x) (t'.pos x') _ t t'
  cases names with
  | nil => exact hfield none _ _
  | cons first rest =>
      intro t t'
      have hnames := hlisted .names (t.pos first) (t'.pos (c.image first)) ((first :: rest).map some)
      rw [rename_map_some] at hnames
      refine (BuildNear.bind hnames fun list => ?_ : BuildNear c
        (do
          let list ← Tree.add (Tree.tagAt (.tag .names) (t.pos first)) (.list ((first :: rest).map some))
          let pos := (← MonadState.get : Tree).pos list
          Tree.add (Tree.tagAt (.tag .field) pos) (.list [some list, some typ, tag]))
        (do
          let list ← Tree.add (Tree.tagAt (.tag .names) (t'.pos (c.image first)))
            (.list ((rename c.image (first :: rest)).map some))
          let pos := (← MonadState.get : Tree).pos list
          Tree.add (Tree.tagAt (.tag .field) pos) (.list (some list :: rename c.image [some typ, tag])))) t t'
      exact hfield (some list) _ _

theorem typeFields (types : List NodeId) :
    BuildNear c (Grammar.typeFields types) (Grammar.typeFields (rename c.image types)) := by
  induction types with
  | nil => exact .pure rfl
  | cons t rest ih =>
      rw [rename_cons, Grammar.typeFields, Grammar.typeFields, List.mapM_cons, List.mapM_cons]
      refine .bind ((addField [] t none).map fun _ => rfl) fun _ => ?_
      exact ih.bind fun _ => .pure rfl

theorem groupFrom (named : Bool) (pending : List NodeId) (entries : List ParamEntry) :
    BuildNear c (Grammar.groupFrom named pending entries)
      (Grammar.groupFrom named (rename c.image pending) (rename c.image entries)) := by
  fun_induction Grammar.groupFrom named pending entries with
  | case1 pending => exact .typeFields pending
  | case2 pending name typ rest ih =>
      rw [rename_cons, rename_entry, rename_some, Grammar.groupFrom, ← rename_toList, ← rename_append]
      exact (addField _ _ _).bind fun _ => ih.bind fun _ => .pure rfl
  | case3 pending name rest hnamed ih =>
      rw [rename_cons, rename_entry, rename_some, rename_none, Grammar.groupFrom, if_pos hnamed]
      rwa [rename_append] at ih
  | case4 pending name rest hnamed ih =>
      rw [rename_cons, rename_entry, rename_some, rename_none, Grammar.groupFrom, if_neg hnamed]
      exact (addField _ _ _).bind fun _ => ih.bind fun _ => .pure rfl
  | case5 pending rest ih => exact ih

theorem groupParams (entries : List ParamEntry) :
    BuildNear c (Grammar.groupParams entries) (Grammar.groupParams (rename c.image entries)) := by
  have hnamed : ((rename c.image entries).any fun e => e.name.isSome && e.typ.isSome) =
      entries.any fun e => e.name.isSome && e.typ.isSome := by
    simp only [rename, List.any_map, Function.comp_def, Option.isSome_map]
  unfold Grammar.groupParams
  rw [hnamed]
  exact groupFrom _ [] entries

end BuildNear

theorem addField_near (names : List NodeId) (typ : NodeId) (tag : Child) :
    Near c S (build (Tree.addField names typ tag))
      (build (Tree.addField (rename c.image names) (c.image typ) (rename c.image tag))) :=
  .build (BuildNear.addField names typ tag)

theorem typeTerm_near (h : g.Near c g') : Near c S (typeTerm g) (typeTerm g') :=
  .tok fun _ => .ite (fun _ => .lead fun _ _ ha => h.type.bind fun _ => .add ha rfl) fun _ => h.type

theorem unionLoop_near (h : g.Near c g') (x : NodeId) :
    Near c S ((unionLoop g).run x) ((unionLoop g').run (c.image x)) := by
  refine .run x rfl fun x => .makeAtom fun a a' ha => .startOf fun pos pos' => .bind .next fun _ => ?_
  exact (typeTerm_near h).bind fun y => (Near.add (ha.withPos pos pos') rfl).bind fun _ => .pure rfl

theorem union_near (h : g.Near c g') : Near c S (union g) (union g') :=
  (typeTerm_near h).bind fun first => unionLoop_near h first

theorem takes_union (h : g.Near c g') : Takes c (·.curr.token = .lit .ident) (union g) := by
  refine .bind (.tok_eq (.ite nofun fun _ => h.takes_type)) fun x p => ?_
  exact (unionLoop_near (S := Anywhere) h x).inside p trivial

theorem paramType_near (h : g.Near c g') (typeParams : Bool) :
    Near c S (paramType g typeParams) (paramType g' typeParams) :=
  .tok fun _ => .ite (fun _ => .lead fun _ _ ha => h.type.bind fun _ => .add ha rfl) fun _ =>
    .ite (fun _ => union_near h) fun _ => h.type

theorem takes_paramType (h : g.Near c g') (typeParams : Bool) :
    Takes c (·.curr.token = .lit .ident) (paramType g typeParams) :=
  .tok_eq (.ite nofun fun _ => .ite (fun _ => takes_union h) fun _ => h.takes_type)

theorem arrayTail_near (h : g.Near c g') {a a' : Atom} (ha : a.Akin a') (length : Child) :
    Near c S (arrayTail g a length) (arrayTail g' a' (rename c.image length)) :=
  (expect_near _).bind fun _ => h.type.bind fun _ => .add ha rfl

theorem argumentsPart_near (pos pos' : Pos) (args : List Child) :
    Near c S (argumentsPart pos args) (argumentsPart pos' (rename c.image args)) := by
  have hlist (args : List Child) : Near c S (some <$> add (Tree.tagAt (.tag .exprs) pos) (.list args))
      (some <$> add (Tree.tagAt (.tag .exprs) pos') (.list (rename c.image args))) :=
    .some (.add (.tagAt _ _ _) rfl)
  rcases args with - | ⟨only, - | ⟨second, rest⟩⟩
  · exact hlist []
  · exact .pure rfl
  · exact hlist (only :: second :: rest)

theorem bracketLoop_near (h : g.Near c g') (args : List Child) :
    Near c S ((bracketLoop g).run args) ((bracketLoop g').run (rename c.image args)) :=
  .run args rfl fun _ => .bind .next fun _ => .tok fun _ => .ite (fun _ => .pure rfl) fun _ =>
    h.type.bind fun _ => .pure (by simp)

theorem bracketedParam_near (h : g.Near c g') {ident ident' : Atom} (hident : ident.Akin ident') :
    Near c S (bracketedParam g ident) (bracketedParam g' ident') := by
  have harray {a a' : Atom} (ha : a.Akin a') (length : Child) :
      Near c Anywhere (add ident .leaf >>= fun name => arrayTail g a length >>= fun typ =>
          Pure.pure { name := some name, typ := some typ })
        (add ident' .leaf >>= fun name => arrayTail g' a' (rename c.image length) >>= fun typ =>
          Pure.pure ({ name := some name, typ := some typ } : ParamEntry)) :=
    (Near.add hident rfl).bind fun _ => (arrayTail_near h ha length).bind fun _ => .pure rfl
  refine .lead fun a a' ha => .tok fun t => .ite (fun _ => ?_) fun _ => ?_
  · exact .ite_bind (fun _ => (parseAtom_near _).some) (fun _ => .pure rfl) fun length => harray ha length
  · refine .bind (.withComposite true (h.expr.bind fun first => bracketLoop_near h [some first])) fun args => ?_
    refine (expect_near _).bind fun _ => .bind (.add hident rfl) fun name => .tok fun t => ?_
    rw [length_rename]
    refine .ite (fun _ => ?_) fun _ => .startOf fun pos pos' => ?_
    · rw [rename_head?]
      exact h.type.bind fun _ => .bind (.add ha rfl) fun _ => .pure rfl
    · refine (argumentsPart_near pos pos' args).bind fun arg => ?_
      exact .bind (.add ((ha.withToken _).withPos pos pos') rfl) fun _ => .pure rfl

/-- After an identifier that starts an entry. -/
theorem paramEntry_goesOn (h : g.Near c g') (close : Token) (typeParams : Bool) {ident ident' : Atom}
    (hident : ident.Akin ident') (t : Token) : GoesOn c
    (if t = .op .comma ∨ t = close then add ident .leaf >>= fun name => pure ({ name := some name } : ParamEntry)
      else if t = .op .period then
        putBack ident >>= fun _ => paramType g typeParams >>= fun typ => pure { typ := some typ }
      else if t = .op .lbrack then bracketedParam g ident
      else add ident .leaf >>= fun name => paramType g typeParams >>= fun typ =>
        pure { name := some name, typ := some typ })
    (if t = .op .comma ∨ t = close then add ident' .leaf >>= fun name => pure ({ name := some name } : ParamEntry)
      else if t = .op .period then
        putBack ident' >>= fun _ => paramType g' typeParams >>= fun typ => pure { typ := some typ }
      else if t = .op .lbrack then bracketedParam g' ident'
      else add ident' .leaf >>= fun name => paramType g' typeParams >>= fun typ =>
        pure { name := some name, typ := some typ }) ident ident' := by
  refine .ite (fun _ => .on (.bind (.add hident rfl) fun _ => .pure rfl)) fun _ => .ite (fun _ => ?_) fun _ => ?_
  · refine .back rfl rfl ((paramType_near h _).bind fun _ => .pure rfl) ?_
    exact (takes_paramType h _).bind fun _ _ hin => hin
  · refine .ite (fun _ => .on (bracketedParam_near h hident)) fun _ => .on (.bind (.add hident rfl) fun _ => ?_)
    exact (paramType_near h _).bind fun _ => .pure rfl

theorem paramEntry_near (h : g.Near c g') (close : Token) (typeParams : Bool) :
    Near c S (paramEntry g close typeParams) (paramEntry g' close typeParams) := by
  refine .tok fun t => .ite (fun _ => (paramType_near h _).bind fun _ => .pure rfl) fun ht => ?_
  refine near_peeking (fun p hp => hp.2.trans (Decidable.not_not.1 ht)) fun _ _ t ha => ?_
  exact paramEntry_goesOn h close typeParams ha t

theorem takes_paramEntry (h : g.Near c g') (close : Token) (typeParams : Bool) :
    Takes c (·.curr.token = .lit .ident) (paramEntry g close typeParams) :=
  .tok_eq (.ite (fun ht => absurd rfl ht) fun _ => takes_peeking fun _ _ t ha =>
    paramEntry_goesOn h close typeParams ha t)

/-- One round of a parameter list is an item of it and what follows it. -/
theorem paramsLoop_item (close : Token) (typeParams : Bool) (entries : List ParamEntry) (bads : List Child) :
    (paramsLoop g close typeParams).round (entries, bads) = (left >>= fun before =>
      paramEntry g close typeParams >>= itemEnd
        (fun entry => next >>= fun _ => pure (.again (entries ++ [entry], bads)))
        (fun entry => parseBad (.expecting close) >>= fun bad => pure (.again (entries ++ [entry], bads ++ [some bad])))
        (fun entry => pure (.done (entries ++ [entry], bads))) before) := rfl

theorem paramsLoop_near (h : g.Near c g') (close : Token) (typeParams : Bool) (x : List ParamEntry × List Child) :
    Near c S ((paramsLoop g close typeParams).run x) ((paramsLoop g' close typeParams).run (rename c.image x)) := by
  refine .run x rfl fun ⟨entries, bads⟩ => ?_
  rw [rename_pair, paramsLoop_item, paramsLoop_item]
  refine .item (paramEntry_near h _ _) (fun _ => .bind .next fun _ => .pure (by simp)) (fun _ => ?_)
    fun _ => .pure (by simp)
  exact (parseBad_outside _).bind fun _ _ hin => hin

theorem takes_paramsLoop (h : g.Near c g') {close : Token} (hclose : close ≠ .lit .ident) (typeParams : Bool)
    (x : List ParamEntry × List Child) :
    Takes c (·.curr.token = .lit .ident) ((paramsLoop g close typeParams).run x) := by
  refine .run (fun p hp => ?_) ?_ fun x p => (paramsLoop_near (S := Anywhere) h _ _ x).inside p trivial
  · show (p.curr.token != .eof && p.curr.token != close) = true
    rw [hp]
    simpa using hclose.symm
  · obtain ⟨entries, bads⟩ := x
    rw [paramsLoop_item]
    refine (takes_paramEntry h _ _).item (fun _ p hin => hin.of_advance) (fun _ => ?_) fun _ p hin => hin
    exact (parseBad_outside _).bind fun _ _ hin => hin

/-- What follows the entries of a list. -/
theorem paramsEnd_near {a a' : Atom} (ha : a.Akin a') (entries : List ParamEntry) (bads : List Child) (close : Token) :
    Near c S
      (do
        let bads := bads ++ (← leave close)
        let fields ← build (groupParams entries)
        add a (.list (fields ++ bads)))
      (do
        let bads := rename c.image bads ++ (← leave close)
        let fields ← build (groupParams (rename c.image entries))
        add a' (.list (fields ++ bads))) := by
  refine (leave_near close).bind fun more => .bind (.build (BuildNear.groupParams entries)) fun fields => ?_
  exact .add ha (by simp [NodeShape.rename, rename_children])

theorem paramsBody_near (h : g.Near c g') {a a' : Atom} (ha : a.Akin a') (bads : List Child) (close : Token)
    (typeParams : Bool) :
    Near c S (paramsBody g a bads close typeParams) (paramsBody g' a' (rename c.image bads) close typeParams) :=
  .bind (.withComposite true (paramsLoop_near h close typeParams ([], bads))) fun x =>
    paramsEnd_near ha x.1 x.2 close

theorem takes_paramsBody (h : g.Near c g') (a : Atom) (bads : List Child) {close : Token}
    (hclose : close ≠ .lit .ident) (typeParams : Bool) :
    Takes c (·.curr.token = .lit .ident) (paramsBody g a bads close typeParams) :=
  .bind (.withComposite true (takes_paramsLoop h hclose typeParams ([], bads)) fun _ hp => hp) fun x p =>
    (paramsEnd_near (S := Anywhere) (.refl a) x.1 x.2 close).inside p trivial

theorem params_near (h : g.Near c g') (opening close : Token) (tag : NodeTag) (typeParams : Bool) :
    Near c S (params g opening close tag typeParams) (params g' opening close tag typeParams) :=
  .makeAtom fun _ _ ha => (enter_near opening).bind fun bads => paramsBody_near h ha bads close typeParams

theorem results_near (h : g.Near c g') : Near c S (results g) (results g') := by
  refine .tok fun t => .ite (fun _ => params_near h _ _ _ _) fun _ => .here fun pos pos' => h.type?.bind fun found => ?_
  cases found with
  | none => exact .add (.tagAt _ _ _) rfl
  | some t => exact (addField_near [] t none).bind fun _ => .add (.tagAt _ _ _) rfl

theorem signature_near (h : g.Near c g') {a a' : Atom} (ha : a.Akin a') : Near c S (signature g a) (signature g' a') :=
  (params_near h _ _ _ _).bind fun _ => (results_near h).bind fun _ => .add ha rfl

/-! ### Types -/

theorem typeArgumentsLoop_near (h : g.Near c g') (args : List Child) :
    Near c S ((typeArgumentsLoop g).run args) ((typeArgumentsLoop g').run (rename c.image args)) :=
  .run args rfl fun _ => h.type.bind fun _ => .tok fun _ => .ite (fun _ => .pure (by simp)) fun _ =>
    .bind .next fun _ => .pure (by simp)

theorem typeArguments_near (h : g.Near c g') (name : NodeId) :
    Near c S (typeArguments g name) (typeArguments g' (c.image name)) := by
  refine .startOf fun pos pos' => .makeAtom fun a a' ha => .bind .next fun _ => ?_
  refine (typeArgumentsLoop_near h []).bind fun args => ?_
  have hempty : (rename c.image args).isEmpty = args.isEmpty := by cases args <;> rfl
  rw [hempty]
  refine .ite_bind (fun _ => (makeBad_near _).some) (fun _ => argumentsPart_near pos pos' args) fun arg => ?_
  exact .bind (.add (ha.withPos pos pos') rfl) fun _ => leaveNode_near _ _

/-- What follows a name that may be qualified. -/
theorem selected_near (name : NodeId) :
    Near c S
      (do
        if (← tok) ≠ .op .period then return name
        let atom := { ← makeAtom (.op .period) with pos := ← startOf name }
        next
        let selected ← parseIdent
        add atom (.binary (some name) (some selected)))
      (do
        if (← tok) ≠ .op .period then return c.image name
        let atom := { ← makeAtom (.op .period) with pos := ← startOf (c.image name) }
        next
        let selected ← parseIdent
        add atom (.binary (some (c.image name)) (some selected))) := by
  refine .tok fun t => .ite (fun _ => .pure rfl) fun _ => ?_
  refine .makeAtom fun a a' ha => .startOf fun pos pos' => .bind .next fun _ => ?_
  exact parseIdent_near.bind fun selected => .add (ha.withPos pos pos') rfl

theorem qualifiedName_near : Near c S qualifiedName qualifiedName :=
  parseIdent_near.bind selected_near

theorem takes_parseIdent : Takes c (·.curr.token = .lit .ident) parseIdent :=
  .tok_eq (.ite (fun _ => .lead fun _ _ ha => .add ha rfl) fun ht => absurd rfl ht)

/-- What follows a name that may have arguments. -/
theorem instantiated_near (h : g.Near c g') (name : NodeId) :
    Near c S
      (do if (← tok) = .op .lbrack then typeArguments g name else return name)
      (do if (← tok) = .op .lbrack then typeArguments g' (c.image name) else return c.image name) :=
  .tok fun _ => .ite (fun _ => typeArguments_near h name) fun _ => .pure rfl

theorem typeName_near (h : g.Near c g') : Near c S (typeName g) (typeName g') :=
  qualifiedName_near.bind (instantiated_near h)

theorem takes_typeName (h : g.Near c g') : Takes c (·.curr.token = .lit .ident) (typeName g) :=
  .bind (.bind takes_parseIdent fun name p => (selected_near (S := Anywhere) name).inside p trivial) fun name p =>
    (instantiated_near (S := Anywhere) h name).inside p trivial

theorem arrayLength_near (h : g.Near c g') : Near c S (arrayLength g) (arrayLength g') := by
  refine .tok fun t => ?_
  split
  · exact .pure rfl
  · exact (parseAtom_near _).some
  · exact (Near.withComposite true h.expr).some

theorem takes_arrayLength (h : g.Near c g') : Takes c (·.curr.token = .lit .ident) (arrayLength g) :=
  .tok_eq ((h.takes_expr.withComposite true fun _ hp => hp).map some)

theorem arrayType_near (h : g.Near c g') : Near c S (arrayType g) (arrayType g') :=
  .lead fun _ _ ha => (arrayLength_near h).bind fun length => arrayTail_near h ha length

theorem mapType_near (h : g.Near c g') : Near c S (mapType g) (mapType g') := by
  refine .lead fun a a' ha => (expect_near _).bind fun _ => h.type.bind fun key => ?_
  exact (expect_near _).bind fun _ => h.type.bind fun elem => .add ha rfl

theorem chanDirection_near : Near c S chanDirection chanDirection :=
  .tok fun _ => .ite (fun _ => .pure rfl) fun _ => .bind .next fun _ => .pure rfl

theorem chanType_near (h : g.Near c g') : Near c S (chanType g) (chanType g') :=
  .lead fun _ _ ha => chanDirection_near.bind fun token => h.type.bind fun _ => .add (ha.withToken token) rfl

theorem recvChanType_near (h : g.Near c g') {a a' : Atom} (ha : a.Akin a') :
    Near c S (recvChanType g a) (recvChanType g' a') :=
  (expect_near _).bind fun _ => h.type.bind fun _ => .add (ha.withToken _) rfl

theorem funcType_near (h : g.Near c g') : Near c S (funcType g) (funcType g') :=
  .lead fun _ _ ha => signature_near h ha

theorem skipMember_near (close missing : Operator) :
    Near c S (skipMember close missing) (skipMember close missing) :=
  (skipTo_near _ _).bind fun _ => .tok fun _ => .ite_then (fun _ => .next) (.pure rfl)

/-- Nobody is inside who had to skip a token of a member. -/
theorem skipMember_outside {close : Operator} (missing : Operator)
    (hS : ∀ p, S p → p.curr.token ≠ .op .semicolon ∧ p.curr.token ≠ .op close ∧ p.curr.token ≠ .eof) :
    Outside c S (skipMember close missing) := by
  have hpassed (bads : List Child) : Near c Anywhere
      (tok >>= fun t => if t = .op .semicolon then next >>= fun _ => pure bads else pure bads)
      (tok >>= fun t => if t = .op .semicolon then next >>= fun _ => pure (rename c.image bads)
        else pure (rename c.image bads)) :=
    .tok fun _ => .ite (fun _ => .bind .next fun _ => .pure rfl) fun _ => .pure rfl
  refine (skipTo_outside _ fun p hp => ⟨?_, (hS p hp).2.2⟩).bind fun bads p => (hpassed bads).inside p trivial
  simp [hS p hp]

theorem memberEnd_near (close missing : Operator) (n n' : Nat) :
    Near c S (memberEnd close missing n) (memberEnd close missing n') := by
  refine .tok fun t => .ite (fun _ => .bind .next fun _ => .pure rfl) fun hsemicolon => .ite (fun _ => .pure rfl) ?_
  refine fun hend => .of_outside ?_
  obtain ⟨hclose, heof⟩ := not_or.1 hend
  have hskip : Outside c (fun p => S p ∧ p.curr.token = t) (skipMember close missing) :=
    skipMember_outside missing fun p hp => hp.2 ▸ ⟨hsemicolon, hclose, heof⟩
  refine .left fun l => .ite (.here fun pos => (Outside.complain pos _).bind fun _ p => ?_) hskip
  exact (skipMember_near (S := Anywhere) close missing).inside p trivial

theorem membersLoop_near {member member' : ParseM NodeId} (close missing : Operator)
    (hmember : Near c Anywhere member member') (kids : List Child) :
    Near c S ((membersLoop close missing member).run kids)
      ((membersLoop close missing member').run (rename c.image kids)) :=
  .run kids rfl fun _ => .left fun n n' => hmember.bind fun _ => (memberEnd_near close missing n n').bind fun _ =>
    .pure (by simp)

theorem members_near {member member' : ParseM NodeId} (hmember : Near c Anywhere member member') :
    Near c S (members member) (members member') :=
  (enter_near _).bind fun opened => (membersLoop_near _ _ hmember opened).bind fun _ =>
    (leave_near _).bind fun _ => .pure (by simp)

theorem moreNames_near (first : NodeId) : Near c S (moreNames first) (moreNames (c.image first)) :=
  .run [first] rfl fun _ => .bind .next fun _ => parseIdent_near.bind fun _ => .pure (by simp)

/-- After an identifier that starts a field. -/
theorem fieldStart_goesOn (h : g.Near c g') {first first' : Atom} (hfirst : first.Akin first') (t : Token) : GoesOn c
    (match t with
      | .op .semicolon | .op .rbrace | .lit .string | .op .period =>
          putBack first >>= fun _ => typeName g >>= fun t => pure (([] : List NodeId), t)
      | .op .lbrack => add first .leaf >>= fun name => g.type >>= fun t => pure ([name], t)
      | _ => add first .leaf >>= fun name => moreNames name >>= fun names => g.type >>= fun t => pure (names, t))
    (match t with
      | .op .semicolon | .op .rbrace | .lit .string | .op .period =>
          putBack first' >>= fun _ => typeName g' >>= fun t => pure (([] : List NodeId), t)
      | .op .lbrack => add first' .leaf >>= fun name => g'.type >>= fun t => pure ([name], t)
      | _ => add first' .leaf >>= fun name => moreNames name >>= fun names => g'.type >>= fun t => pure (names, t))
    first first' := by
  have hembedded : GoesOn c
      (putBack first >>= fun _ => typeName g >>= fun t => pure (([] : List NodeId), t))
      (putBack first' >>= fun _ => typeName g' >>= fun t => pure (([] : List NodeId), t)) first first' :=
    .back rfl rfl ((typeName_near h).bind fun _ => .pure rfl) ((takes_typeName h).bind fun _ _ hin => hin)
  split
  iterate 4 · exact hembedded
  · exact .on (.bind (.add hfirst rfl) fun _ => h.type.bind fun _ => .pure rfl)
  · exact .on (.bind (.add hfirst rfl) fun name => (moreNames_near name).bind fun _ => h.type.bind fun _ => .pure rfl)

theorem fieldNamesAndType_near (h : g.Near c g') : Near c S (fieldNamesAndType g) (fieldNamesAndType g') := by
  refine .tok fun t => ?_
  split
  · exact near_peeking (fun p hp => hp.2) fun _ _ t ha => fieldStart_goesOn h ha t
  · exact .lead fun a a' ha => (typeName_near h).bind fun _ => .bind (.add ha rfl) fun _ => .pure rfl
  · exact h.type.bind fun _ => .pure rfl

theorem structField_near (h : g.Near c g') : Near c S (structField g) (structField g') := by
  refine (fieldNamesAndType_near h).bind fun x => .tok fun t => ?_
  exact .ite_bind (fun _ => (parseAtom_near _).some) (fun _ => .pure rfl) fun tag => addField_near x.1 x.2 tag

theorem structType_near (h : g.Near c g') : Near c S (structType g) (structType g') :=
  .lead fun _ _ ha => (members_near (structField_near h)).bind fun _ => .add ha rfl

theorem embeddedElem_near (h : g.Near c g') : Near c S (embeddedElem g) (embeddedElem g') :=
  (union_near h).bind fun t => addField_near [] t none

theorem takes_embeddedElem (h : g.Near c g') : Takes c (·.curr.token = .lit .ident) (embeddedElem g) :=
  (takes_union h).bind fun _ _ hin => hin

/-- After an identifier that starts an element of an interface. -/
theorem interfaceElem_goesOn (h : g.Near c g') {ident ident' : Atom} (hident : ident.Akin ident') (t : Token) :
    GoesOn c
      (if t ≠ .op .lparen then putBack ident >>= fun _ => embeddedElem g
        else add ident .leaf >>= fun name => signature g (Tree.tagAt (.kw .func) ident.pos) >>= fun sig =>
          build (Tree.addField [name] sig none))
      (if t ≠ .op .lparen then putBack ident' >>= fun _ => embeddedElem g'
        else add ident' .leaf >>= fun name => signature g' (Tree.tagAt (.kw .func) ident'.pos) >>= fun sig =>
          build (Tree.addField [name] sig none)) ident ident' := by
  refine .ite (fun _ => .back rfl rfl (embeddedElem_near h) (takes_embeddedElem h)) fun _ => .on ?_
  refine .bind (.add hident rfl) fun name => (signature_near h (.tagAt _ _ _)).bind fun sig => ?_
  exact addField_near [name] sig none

theorem interfaceElem_near (h : g.Near c g') : Near c S (interfaceElem g) (interfaceElem g') := by
  refine .tok fun t => .ite (fun _ => embeddedElem_near h) fun ht => ?_
  refine near_peeking (fun p hp => hp.2.trans (Decidable.not_not.1 ht)) fun _ _ t ha => interfaceElem_goesOn h ha t

theorem interfaceType_near (h : g.Near c g') : Near c S (interfaceType g) (interfaceType g') :=
  .lead fun _ _ ha => (members_near (interfaceElem_near h)).bind fun _ => .add ha rfl

theorem typeExpr?_near (h : g.Near c g') : Near c S (typeExpr? g) (typeExpr? g') := by
  refine .tok fun t => ?_
  split
  · exact (typeName_near h).some
  · exact (arrayType_near h).some
  · exact (structType_near h).some
  · exact .lead fun a a' ha => h.type.bind fun _ => (Near.add ha rfl).some
  · exact (funcType_near h).some
  · exact (interfaceType_near h).some
  · exact (mapType_near h).some
  · exact (chanType_near h).some
  · exact .lead fun a a' ha => (recvChanType_near h ha).some
  · exact .bind .next fun _ => h.type.bind fun t => (leaveNode_near t _).some
  · exact .pure rfl

theorem takes_typeExpr? (h : g.Near c g') : Takes c (·.curr.token = .lit .ident) (typeExpr? g) :=
  .tok_eq ((takes_typeName h).map some)

end GoSource.Grammar
