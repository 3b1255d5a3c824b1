import GoSource.Proofs.Grammar.TypeWords

/-!
# The words of functions and interfaces

The productions with lists in them: parameters, results, signatures and the methods of interfaces.

* **`ParamWords`**: the words are an entry of a parameter list that is one node, a name or a type.
* **`SignatureWords`**: the words are parameters and results.
* **`typeWords_func`**, **`typeWords_interface`**.
-/

namespace GoSource.Grammar

variable {p q : Parser} {ws rest : List Word} {P Q : NodeProp}

/-! ### Entries of a parameter list -/

/-- An entry that is one node, which is a name or a type. -/
def IsLone (e : ParamEntry) (n : NodeId) : Prop :=
  e = { name := some n } ∨ e = { typ := some n }

/-- A parameter is followed by a comma or by the end of the list. -/
def FollowsParam (rest : List Word) : Prop :=
  ∃ vs, rest = (.op .comma, "") :: vs ∨ rest = (.op .rparen, "") :: vs

theorem FollowsParam.follows (h : FollowsParam rest) : Follows rest := by
  obtain ⟨vs, rfl | rfl⟩ := h
  · exact .cons rfl _ _
  · exact .cons rfl _ _

/-- The words `ws` are an entry that is one node, with the property `P`. -/
structure ParamWords (ws : List Word) (P : NodeProp) : Prop where
  opens : ∃ w vs, ws = w :: vs ∧ w.1 ≠ .op .rparen
  run : ∀ p rest, p.Ready (ws ++ rest) → FollowsParam rest →
    ∃ e n q, paramEntry grammar (.op .rparen) false p = (e, q) ∧ IsLone e n ∧ p.Reaches rest q ∧ P q.tree n

/-- A type that does not start with a name. -/
theorem TypeWords.param (h : TypeWords ws P) {w : Word} {vs : List Word} (hws : ws = w :: vs)
    (hident : w.1 ≠ .lit .ident) (hellipsis : w.1 ≠ .op .ellipsis) (hclose : w.1 ≠ .op .rparen) :
    ParamWords ws P := by
  refine ⟨⟨w, vs, hws, hclose⟩, ?_⟩
  intro p rest hp hrest
  obtain ⟨x, q, hrun, hreaches, hx⟩ := h.run hp hrest.follows
  have htoken : p.curr.token = w.1 := by
    subst hws
    exact hp.token_eq
  refine ⟨{ typ := some x }, x, q, ?_, .inr rfl, hreaches, hx⟩
  have htype : paramType grammar false p = (x, q) := by
    rw [paramType, run_bind (tok_run p), if_neg (by rw [htoken]; exact hellipsis)]
    exact hrun
  rw [paramEntry, run_bind (tok_run p), if_pos (by rw [htoken]; exact hident), run_bind htype]
  rfl

/-- A lone name. -/
theorem paramWords_name (name : String) : ParamWords [(.lit .ident, name)] (IsLeaf (.lit .ident, name)) := by
  refine ⟨⟨_, _, rfl, by simp⟩, ?_⟩
  intro p rest hp hrest
  have hnext := (Parser.Reaches.refl hp).advance
  have htoken : p.advance.curr.token = .op .comma ∨ p.advance.curr.token = .op .rparen := by
    obtain ⟨vs, rfl | rfl⟩ := hrest
    · exact .inl hnext.ready.token_eq
    · exact .inr hnext.ready.token_eq
  refine ⟨_, nextId p.advance, withNode p.advance (atomOf p (.lit .ident)) .leaf, ?_, .inl rfl,
    hnext.withNode _ _, atomOf p (.lit .ident), holds_withNode _ _ _, ?_⟩
  · rw [paramEntry, run_bind (tok_run p), if_neg (not_not_intro hp.token_eq)]
    refine (lead_run (.lit .ident) p).trans ?_
    rw [run_bind (tok_run _), if_pos htoken, run_bind (add_run _ _ _)]
    rfl
  · simp [atomOf, hp.token_eq, hp.literal_eq]

/-- The rest of the arguments. -/
theorem paramWords_variadic (hP : Stable P) (h : TypeWords ws P) :
    ParamWords ((.op .ellipsis, "") :: ws) (IsUnary (.op .ellipsis) P) := by
  refine ⟨⟨_, _, rfl, by simp⟩, ?_⟩
  intro p rest hp hrest
  have hstart := (Parser.Reaches.refl hp).advance
  obtain ⟨x, q, hrun, hreaches, hx⟩ := h.run hstart.ready hrest.follows
  refine ⟨{ typ := some (nextId q) }, nextId q, withNode q (atomOf p (.op .ellipsis)) (.unary (some x)), ?_,
    .inr rfl, (hstart.trans hreaches).withNode _ _, isUnary_add hP rfl hx⟩
  have htype : paramType grammar false p =
      (nextId q, withNode q (atomOf p (.op .ellipsis)) (.unary (some x))) := by
    rw [paramType, run_bind (tok_run p), if_pos hp.token_eq]
    refine (lead_run (.op .ellipsis) p).trans ?_
    rw [run_bind hrun, add_run]
  rw [paramEntry, run_bind (tok_run p), if_pos (by rw [hp.token_eq]; decide), run_bind htype]
  rfl

/-! ### Parameter lists -/

/-- Each node has its property. -/
abbrev Nodes (tree : Tree) : List NodeId → List NodeProp → Prop :=
  List.Forall₂ fun n P => P tree n

theorem Nodes.grow {t t' : Tree} {ns : List NodeId} {Ps : List NodeProp} (h : Nodes t ns Ps)
    (hPs : ∀ P ∈ Ps, Stable P) (hgrows : t.Grows t') : Nodes t' ns Ps := by
  induction h with
  | nil => exact .nil
  | cons hn _ ih =>
      exact .cons ((hPs _ List.mem_cons_self).grow hn hgrows) (ih fun P hP => hPs P (List.mem_cons_of_mem _ hP))

/-- Words with an operator between each two of them. -/
def joinWords (o : Operator) : List (List Word) → List Word
  | [] => []
  | [ws] => ws
  | ws :: rest => ws ++ (.op o, "") :: joinWords o rest

theorem joinWords_cons (o : Operator) (ws vs : List Word) (wss : List (List Word)) :
    joinWords o (ws :: vs :: wss) = ws ++ (.op o, "") :: joinWords o (vs :: wss) := rfl

/-- Another entry is due. -/
theorem paramsLoop_more {vs : List Word} {w : Word} (hp : p.Ready (w :: vs)) (hclose : w.1 ≠ .op .rparen) :
    (paramsLoop grammar (.op .rparen) false).more p.curr.token = true := by
  have htoken : p.curr.token = w.1 := hp.token_eq
  have hne := hp.ne_eof
  simp [paramsLoop, htoken ▸ hclose, hne]

/-- An entry and the comma after it. -/
theorem paramsLoop_round_comma {e : ParamEntry} {vs : List Word} (es : List ParamEntry)
    (hrun : paramEntry grammar (.op .rparen) false p = (e, q)) (hq : q.Ready ((.op .comma, "") :: vs)) :
    (paramsLoop grammar (.op .rparen) false).round (es, []) p = (.again (es ++ [e], []), q.advance) := by
  unfold paramsLoop
  dsimp only
  rw [run_bind (left_run p), run_bind hrun, run_bind (tok_run q), if_pos hq.token_eq,
    run_bind (next_run q)]
  rfl

/-- The last entry. -/
theorem paramsLoop_round_last {e : ParamEntry} {vs : List Word} (es : List ParamEntry)
    (hrun : paramEntry grammar (.op .rparen) false p = (e, q)) (hq : q.Ready ((.op .rparen, "") :: vs))
    (hless : q.left < p.left) :
    (paramsLoop grammar (.op .rparen) false).round (es, []) p = (.done (es ++ [e], []), q) := by
  unfold paramsLoop
  dsimp only
  rw [run_bind (left_run p), run_bind hrun, run_bind (tok_run q),
    if_neg (by rw [hq.token_eq]; decide), run_bind (left_run q), if_neg (Nat.ne_of_lt hless)]
  rfl

/-- The loop over the entries of a list. -/
theorem paramsLoop_run {wss : List (List Word)} {Ps : List NodeProp} (h : List.Forall₂ ParamWords wss Ps)
    (hPs : ∀ P ∈ Ps, Stable P) (es : List ParamEntry)
    (hp : p.Ready (joinWords .comma wss ++ (.op .rparen, "") :: rest)) :
    ∃ es' ns q, (paramsLoop grammar (.op .rparen) false).run (es, []) p = ((es ++ es', []), q) ∧
      p.Reaches ((.op .rparen, "") :: rest) q ∧ List.Forall₂ IsLone es' ns ∧
      Nodes q.tree ns Ps := by
  induction h generalizing p es with
  | nil =>
      refine ⟨[], [], p, ?_, .refl hp, .nil, .nil⟩
      rw [List.append_nil]
      have hp : p.Ready ((.op .rparen, "") :: rest) := hp
      exact Loop.run_stop (by simp [paramsLoop, hp.token_eq])
  | @cons ws P wss Ps hhead htail ih =>
      obtain ⟨⟨w, vs, rfl, hclose⟩, hentry⟩ := hhead
      cases htail with
      | nil =>
          obtain ⟨e, n, q, hrun, hlone, hreaches, hn⟩ := hentry p _ hp ⟨_, .inr rfl⟩
          refine ⟨[e], [n], q, ?_, hreaches, .cons hlone .nil, .cons hn .nil⟩
          have hless : q.left < p.left := by
            rw [hp.left_eq, hreaches.ready.left_eq]
            simp only [joinWords, List.cons_append, List.length_cons, List.length_append]
            omega
          exact Loop.run_done (paramsLoop_more hp hclose)
            (paramsLoop_round_last es hrun hreaches.ready hless)
      | @cons ws' P' wss' Ps' hnext hothers =>
          rw [joinWords_cons, List.append_assoc] at hp
          obtain ⟨e, n, q, hrun, hlone, hreaches, hn⟩ := hentry p _ hp ⟨_, .inl rfl⟩
          obtain ⟨es', ns, r, hloop, hreaches', hlones, hns⟩ :=
            ih (fun P hP => hPs P (List.mem_cons_of_mem _ hP)) (es ++ [e]) hreaches.advance.ready
          refine ⟨e :: es', n :: ns, r, ?_, hreaches.advance.trans hreaches', .cons hlone hlones, .cons ?_ hns⟩
          · rw [Loop.run_again (grammar_loopsAdvance.params _ _) (paramsLoop_more hp hclose)
              (paramsLoop_round_comma es hrun hreaches.ready), hloop, List.append_assoc, List.singleton_append]
          · refine (hPs P List.mem_cons_self).grow hn ?_
            have hgrows := hreaches'.grows
            rw [Parser.tree_advance] at hgrows
            exact hgrows

/-! ### Fields -/

/-- A field that is only a type. -/
def IsTypeField (P : NodeProp) : NodeProp := fun tree id =>
  ∃ atom x, tree.Holds id { atom, shape := .list [none, some x, none] } ∧ x.index < id.index ∧ P tree x

theorem stable_isTypeField (hP : Stable P) : Stable (IsTypeField P) where
  index_lt := fun ⟨_, _, hholds, _⟩ => hholds.index_lt
  grow := fun ⟨atom, x, hholds, hlt, hx⟩ hgrows => ⟨atom, x, hholds.grow hgrows, hlt, hP.grow hx hgrows⟩

/-- A field for one type. -/
theorem addField_run {x : NodeId} (hP : Stable P) (hp : p.Ready ws) (hx : P p.tree x) :
    ∃ id q, build (Tree.addField [] x none) p = (id, q) ∧ p.Reaches ws q ∧ IsTypeField P q.tree id :=
  ⟨nextId p, withNode p (Tree.tagAt (.tag .field) (p.tree.pos x)) (.list [none, some x, none]), rfl,
    (Parser.Reaches.refl hp).withNode _ _, _, x, holds_withNode _ _ _, hP.index_lt hx,
    hP.grow hx (grows_withNode _ _ _)⟩

/-- No entry has both a name and a type. -/
theorem any_named_of_lone {es : List ParamEntry} {ns : List NodeId} (h : List.Forall₂ IsLone es ns) :
    (es.any fun e => e.name.isSome && e.typ.isSome) = false := by
  induction h with
  | nil => rfl
  | cons hlone _ ih =>
      rw [List.any_cons, ih]
      rcases hlone with rfl | rfl
      · rfl
      · rfl

/-- Fields for entries that are one node each. -/
theorem groupFrom_run {es : List ParamEntry} {ns : List NodeId} {Ps : List NodeProp}
    (hlones : List.Forall₂ IsLone es ns) (hPs : ∀ P ∈ Ps, Stable P) (hp : p.Ready ws)
    (hns : Nodes p.tree ns Ps) :
    ∃ fields q, build (groupFrom false [] es) p = (fields.map some, q) ∧ p.Reaches ws q ∧
      Nodes q.tree fields (Ps.map IsTypeField) := by
  induction hlones generalizing p Ps with
  | nil =>
      cases hns
      exact ⟨[], p, rfl, .refl hp, .nil⟩
  | @cons e n es ns hlone hlones ih =>
      cases hns with
      | @cons _ P _ Ps hn hns =>
          obtain ⟨f, q, hfield, hreaches, hf⟩ := addField_run (hPs P List.mem_cons_self) hp hn
          have hothers (P : NodeProp) (hP : P ∈ Ps) : Stable P := hPs P (List.mem_cons_of_mem _ hP)
          obtain ⟨fields, r, hrest, hreaches', hfields⟩ := 
            ih hothers hreaches.ready (Nodes.grow hns hothers hreaches.grows)
          have hP := stable_isTypeField (hPs P List.mem_cons_self)
          refine ⟨f :: fields, r, ?_, hreaches.trans hreaches', .cons (hP.grow hf hreaches'.grows) hfields⟩
          have hstep : groupFrom false [] (e :: es) = (do
              let field ← Tree.addField [] n none
              return some field :: (← groupFrom false [] es)) := by
            rcases hlone with rfl | rfl
            · rfl
            · rfl
          rw [hstep, build_bind, run_bind hfield, build_bind, run_bind hrest]
          rfl

/-- A list node whose parts have the given properties, each of them made before it. -/
def IsList (t : Token) (Ps : List NodeProp) : NodeProp := fun tree id =>
  ∃ atom kids, tree.Holds id { atom, shape := .list (kids.map some) } ∧ atom.token = t ∧
    (∀ kid ∈ kids, kid.index < id.index) ∧ Nodes tree kids Ps

theorem index_lt_of_nodes {t : Tree} {ns : List NodeId} {Ps : List NodeProp} (h : Nodes t ns Ps)
    (hPs : ∀ P ∈ Ps, Stable P) : ∀ n ∈ ns, n.index < t.size := by
  induction h with
  | nil => simp
  | cons hn _ ih =>
      intro n hmem
      rcases List.mem_cons.1 hmem with rfl | hmem
      · exact (hPs _ List.mem_cons_self).index_lt hn
      · exact ih (fun P hP => hPs P (List.mem_cons_of_mem _ hP)) n hmem

theorem isList_add {t : Token} {atom : Atom} {kids : List NodeId} {Ps : List NodeProp} (hPs : ∀ P ∈ Ps, Stable P)
    (hatom : atom.token = t) (hkids : Nodes q.tree kids Ps) :
    IsList t Ps (withNode q atom (.list (kids.map some))).tree (nextId q) :=
  ⟨atom, kids, holds_withNode _ _ _, hatom, index_lt_of_nodes hkids hPs,
    Nodes.grow hkids hPs (grows_withNode _ _ _)⟩

theorem stable_isList {t : Token} {Ps : List NodeProp} (hPs : ∀ P ∈ Ps, Stable P) : Stable (IsList t Ps) where
  index_lt := fun ⟨_, _, hholds, _⟩ => hholds.index_lt
  grow := fun ⟨atom, kids, hholds, hatom, hlt, hkids⟩ hgrows =>
    ⟨atom, kids, hholds.grow hgrows, hatom, hlt, Nodes.grow hkids hPs hgrows⟩

theorem stable_map_isTypeField {Ps : List NodeProp} (hPs : ∀ P ∈ Ps, Stable P) :
    ∀ P ∈ Ps.map IsTypeField, Stable P := by
  intro P hP
  obtain ⟨Q, hQ, rfl⟩ := List.mem_map.1 hP
  exact stable_isTypeField (hPs Q hQ)

theorem leave_run {t : Token} {l : String} (hp : p.Ready ((t, l) :: ws)) : leave t p = ([], p.advance) := by
  have hskip : skipTo (· == t) (.expecting t) p = ([], p) :=
    Loop.run_stop (by simp [skipLoop, hp.token_eq])
  rw [leave, run_bind hskip, run_bind (tok_run p), if_pos hp.token_eq, run_bind (next_run p)]
  rfl

/-- A list in parentheses. -/
theorem params_run (tag : NodeTag) {wss : List (List Word)} {Ps : List NodeProp}
    (h : List.Forall₂ ParamWords wss Ps) (hPs : ∀ P ∈ Ps, Stable P)
    (hp : p.Ready ((.op .lparen, "") :: joinWords .comma wss ++ (.op .rparen, "") :: rest)) :
    ∃ id q, params grammar (.op .lparen) (.op .rparen) tag false p = (id, q) ∧ p.Reaches rest q ∧
      IsList (.tag tag) (Ps.map IsTypeField) q.tree id := by
  have hopen := ((Parser.Reaches.refl hp).bare).advance
  obtain ⟨es, ns, q, hloop, hreaches, hlones, hns⟩ := paramsLoop_run h hPs [] (hopen.composite true).ready
  have hclose := (hreaches.composite (bare p).advance.compositeOk).advance
  have hgrouped : groupParams ([] ++ es) = groupFrom false [] es := by
    rw [List.nil_append, groupParams, any_named_of_lone hlones]
  obtain ⟨fields, r, hgroup, hreaches', hfields⟩ := groupFrom_run hlones hPs hclose.ready (by
    rw [Parser.tree_advance]
    exact hns)
  refine ⟨nextId r, withNode r (atomOf p (.tag tag)) (.list (fields.map some)), ?_,
    ((hopen.trans ((Parser.Reaches.refl hopen.ready).composite true)).trans (hclose.trans hreaches')).withNode _ _,
    isList_add (stable_map_isTypeField hPs) rfl hfields⟩
  rw [params, run_bind (makeAtom_run _ p), run_bind (enter_run (p := bare p) hp.token_eq), paramsBody,
    run_bind (withComposite_run true hloop)]
  dsimp only
  rw [run_bind (leave_run (hreaches.composite _).ready), hgrouped, run_bind hgroup]
  simp only [List.append_nil]
  rfl

/-! ### Signatures -/

/-- The words `ws` are results with the given properties. -/
def ResultWords (ws : List Word) (Ps : List NodeProp) : Prop :=
  ∀ p rest, p.Ready (ws ++ rest) → Follows rest →
    ∃ id q, results grammar p = (id, q) ∧ p.Reaches rest q ∧ IsList (.tag .results) (Ps.map IsTypeField) q.tree id

theorem here_run (p : Parser) : here p = (p.curr.pos, p) := rfl

theorem eq_of_endsType {t : Token} (h : endsType t = true) :
    t = .op .comma ∨ t = .op .rparen ∨ t = .op .rbrack ∨ t = .op .rbrace ∨ t = .op .semicolon := by
  cases t with
  | op o => cases o <;> simp_all [endsType]
  | _ => simp [endsType] at h

/-- What ends a type starts none. -/
theorem type?_run_none (h : endsType p.curr.token = true) : grammar.type? p = (none, p) := by
  rw [type?_run, typeExpr?, run_bind (tok_run p)]
  rcases eq_of_endsType h with h | h | h | h | h <;> rw [h] <;> rfl

theorem resultWords_none : ResultWords [] [] := by
  intro p rest hp hrest
  have hparen : p.curr.token ≠ .op .lparen := hrest.token_ne hp rfl
  refine ⟨nextId p, withNode p (Tree.tagAt (.tag .results) p.curr.pos) (.list []), ?_,
    (Parser.Reaches.refl hp).withNode _ _, isList_add (by simp) rfl .nil⟩
  rw [results, run_bind (tok_run p), if_neg hparen, run_bind (here_run p), run_bind (type?_run_none (hrest.token hp))]
  exact add_run _ _ p

theorem resultWords_one (hP : Stable P) (h : TypeWords ws P) {w : Word} {vs : List Word} (hws : ws = w :: vs)
    (hparen : w.1 ≠ .op .lparen) : ResultWords ws [P] := by
  intro p rest hp hrest
  obtain ⟨x, q, hrun, hreaches, hx⟩ := h p rest hp hrest
  obtain ⟨f, r, hfield, hreaches', hf⟩ := addField_run hP hreaches.ready hx
  have htoken : p.curr.token = w.1 := by
    subst hws
    exact hp.token_eq
  refine ⟨nextId r, withNode r (Tree.tagAt (.tag .results) p.curr.pos) (.list [some f]), ?_,
    (hreaches.trans hreaches').withNode _ _, ?_⟩
  rotate_left
  · have hkids : Nodes r.tree [f] [IsTypeField P] := .cons hf .nil
    exact isList_add (by simpa using stable_isTypeField hP) rfl hkids
  rw [results, run_bind (tok_run p), if_neg (by rw [htoken]; exact hparen), run_bind (here_run p), run_bind hrun]
  refine (run_bind hfield).trans ?_
  rw [add_run]

theorem resultWords_many {wss : List (List Word)} {Ps : List NodeProp} (h : List.Forall₂ ParamWords wss Ps)
    (hPs : ∀ P ∈ Ps, Stable P) :
    ResultWords ((.op .lparen, "") :: joinWords .comma wss ++ [(.op .rparen, "")]) Ps := by
  intro p rest hp hrest
  rw [List.append_assoc] at hp
  obtain ⟨id, q, hrun, hothers⟩ := params_run .results h hPs hp
  refine ⟨id, q, ?_, hothers⟩
  rw [results, run_bind (tok_run p), if_pos hp.token_eq, hrun]

/-- The parts of a signature, by the properties of the parameters and of the results. -/
abbrev IsSignature (t : Token) (Ps Qs : List NodeProp) : NodeProp :=
  IsBinary t (IsList (.tag .params) (Ps.map IsTypeField)) (IsList (.tag .results) (Qs.map IsTypeField))

theorem stable_isSignature {t : Token} {Ps Qs : List NodeProp} (hPs : ∀ P ∈ Ps, Stable P)
    (hQs : ∀ Q ∈ Qs, Stable Q) : Stable (IsSignature t Ps Qs) :=
  stable_isBinary (stable_isList (stable_map_isTypeField hPs)) (stable_isList (stable_map_isTypeField hQs))

/-- The words `ws` are parameters and results with the given properties. -/
def SignatureWords (ws : List Word) (Ps Qs : List NodeProp) : Prop :=
  ∀ p rest atom, p.Ready (ws ++ rest) → Follows rest →
    ∃ id q, signature grammar atom p = (id, q) ∧ p.Reaches rest q ∧ IsSignature atom.token Ps Qs q.tree id

theorem signatureWords {wss : List (List Word)} {vs : List Word} {Ps Qs : List NodeProp}
    (h : List.Forall₂ ParamWords wss Ps) (hPs : ∀ P ∈ Ps, Stable P) (h' : ResultWords vs Qs)
    (hQs : ∀ Q ∈ Qs, Stable Q) :
    SignatureWords ((.op .lparen, "") :: joinWords .comma wss ++ (.op .rparen, "") :: vs) Ps Qs := by
  intro p rest atom hp hrest
  rw [List.append_assoc] at hp
  obtain ⟨x, q, hrun, hreaches, hx⟩ := params_run .params h hPs hp
  obtain ⟨y, r, hrun', hreaches', hy⟩ := h' q rest hreaches.ready hrest
  have hparams := stable_isList (t := .tag .params) (stable_map_isTypeField hPs)
  have hresults := stable_isList (t := .tag .results) (stable_map_isTypeField hQs)
  refine ⟨nextId r, withNode r atom (.binary (some x) (some y)), ?_, (hreaches.trans hreaches').withNode _ _,
    isBinary_add hparams hresults rfl (hparams.grow hx hreaches'.grows) hy⟩
  rw [signature, run_bind hrun, run_bind hrun', add_run]

theorem typeWords_func {Ps Qs : List NodeProp} (h : SignatureWords ws Ps Qs) :
    TypeWords ((.kw .func, "") :: ws) (IsSignature (.kw .func) Ps Qs) := by
  intro p rest hp hrest
  have hstart := (Parser.Reaches.refl hp).advance
  obtain ⟨id, q, hrun, hreaches, hid⟩ := h p.advance rest (atomOf p (.kw .func)) hstart.ready hrest
  refine ⟨id, q, ?_, hstart.trans hreaches, hid⟩
  rw [type?_run, typeExpr?, run_bind (tok_run p), hp.token_eq]
  refine run_map ?_
  rw [funcType, lead_run, hrun]

/-! ### Interfaces -/

/-- A method of an interface. -/
def IsMethod (name : String) (P : NodeProp) : NodeProp := fun tree id =>
  ∃ atom atom' names x y, tree.Holds id { atom, shape := .list [some names, some x, none] } ∧
    tree.Holds names { atom := atom', shape := .list [some y] } ∧ IsLeaf (.lit .ident, name) tree y ∧
    x.index < id.index ∧ P tree x

theorem stable_isMethod {name : String} (hP : Stable P) : Stable (IsMethod name P) where
  index_lt := fun ⟨_, _, _, _, _, hholds, _⟩ => hholds.index_lt
  grow := fun ⟨atom, atom', names, x, y, hholds, hnames, hleaf, hlt, hx⟩ hgrows =>
    ⟨atom, atom', names, x, y, hholds.grow hgrows, hnames.grow hgrows, (stable_isLeaf _).grow hleaf hgrows, hlt,
      hP.grow hx hgrows⟩

/-- A field for a method. -/
theorem addMethod_run {name : String} {x y : NodeId} (hP : Stable P) (hp : p.Ready ws)
    (hy : IsLeaf (.lit .ident, name) p.tree y) (hx : P p.tree x) :
    ∃ id q, build (Tree.addField [y] x none) p = (id, q) ∧ p.Reaches ws q ∧ IsMethod name P q.tree id := by
  let names := withNode p (Tree.tagAt (.tag .names) (p.tree.pos y)) (.list [some y])
  let field := withNode names (Tree.tagAt (.tag .field) (names.tree.pos (nextId p)))
    (.list [some (nextId p), some x, none])
  have hreaches : p.Reaches ws names := (Parser.Reaches.refl hp).withNode _ _
  have hgrows : names.tree.Grows field.tree := grows_withNode _ _ _
  refine ⟨nextId names, field, rfl, hreaches.withNode _ _, _, _, nextId p, x, y, holds_withNode _ _ _,
    (holds_withNode _ _ _).grow hgrows, (stable_isLeaf _).grow hy (hreaches.grows.trans hgrows), ?_,
    hP.grow hx (hreaches.grows.trans hgrows)⟩
  exact Nat.lt_of_lt_of_le (hP.index_lt hx) hreaches.grows.size_le

/-- The words `ws` are a member of an interface with the property `P`. -/
structure MemberWords (ws : List Word) (P : NodeProp) : Prop where
  opens : ∃ w vs, ws = w :: vs ∧ w.1 ≠ .op .rbrace
  run : ∀ p rest, p.Ready (ws ++ rest) → Follows rest →
    ∃ id q, interfaceElem grammar p = (id, q) ∧ p.Reaches rest q ∧ P q.tree id

theorem memberWords_method {Ps Qs : List NodeProp} {vs : List Word} (name : String) (h : SignatureWords ws Ps Qs)
    (hPs : ∀ P ∈ Ps, Stable P) (hQs : ∀ Q ∈ Qs, Stable Q) (hws : ws = (.op .lparen, "") :: vs) :
    MemberWords ((.lit .ident, name) :: ws) (IsMethod name (IsSignature (.kw .func) Ps Qs)) := by
  refine ⟨⟨_, _, rfl, by simp⟩, ?_⟩
  intro p rest hp hrest
  have hnext := (Parser.Reaches.refl hp).advance
  have hparen : p.advance.curr.token = .op .lparen := by
    subst hws
    exact hnext.ready.token_eq
  have hnamed := hnext.withNode (atomOf p (.lit .ident)) .leaf
  obtain ⟨x, q, hrun, hreaches, hx⟩ := h _ rest (Tree.tagAt (.kw .func) (atomOf p (.lit .ident)).pos)
    hnamed.ready hrest
  have hleaf : IsLeaf (.lit .ident, name) q.tree (nextId p.advance) := by
    refine (stable_isLeaf _).grow ⟨_, holds_withNode _ _ _, ?_⟩ hreaches.grows
    simp [atomOf, hp.token_eq, hp.literal_eq]
  obtain ⟨id, r, hbuild, hreaches', hid⟩ := addMethod_run (stable_isSignature hPs hQs) hreaches.ready hleaf hx
  refine ⟨id, r, ?_, (hnamed.trans hreaches).trans hreaches', hid⟩
  rw [interfaceElem, run_bind (tok_run p), if_neg (not_not_intro hp.token_eq)]
  refine (lead_run (.lit .ident) p).trans ?_
  rw [run_bind (tok_run _), if_neg (not_not_intro hparen)]
  refine (run_bind (add_run _ _ _)).trans ?_
  rw [run_bind hrun, hbuild]

/-- Another member is due. -/
theorem membersLoop_more {member : ParseM NodeId} {vs : List Word} {w : Word} (hp : p.Ready (w :: vs))
    (hclose : w.1 ≠ .op .rbrace) : (membersLoop .rbrace .semicolon member).more p.curr.token = true := by
  have htoken : p.curr.token = w.1 := hp.token_eq
  have hne := hp.ne_eof
  simp [membersLoop, htoken ▸ hclose, hne]

/-- A member and the semicolon after it. -/
theorem membersLoop_round_semicolon {id : NodeId} {vs : List Word} (kids : List Child)
    (hrun : interfaceElem grammar p = (id, q)) (hq : q.Ready ((.op .semicolon, "") :: vs)) :
    (membersLoop .rbrace .semicolon (interfaceElem grammar)).round kids p =
      (.again (kids ++ [some id]), q.advance) := by
  have hend : memberEnd .rbrace .semicolon p.left q = ([], q.advance) := by
    rw [memberEnd, run_bind (tok_run q), if_pos hq.token_eq, run_bind (next_run q)]
    rfl
  unfold membersLoop
  dsimp only
  rw [run_bind (left_run p), run_bind hrun, run_bind hend]
  rfl

/-- The last member. -/
theorem membersLoop_round_last {member : ParseM NodeId} {id : NodeId} {vs : List Word} (kids : List Child)
    (hrun : member p = (id, q)) (hq : q.Ready ((.op .rbrace, "") :: vs)) :
    (membersLoop .rbrace .semicolon member).round kids p = (.again (kids ++ [some id]), q) := by
  have hend : memberEnd .rbrace .semicolon p.left q = ([], q) := by
    rw [memberEnd, run_bind (tok_run q), if_neg (by rw [hq.token_eq]; decide), if_pos (.inl hq.token_eq)]
    rfl
  unfold membersLoop
  dsimp only
  rw [run_bind (left_run p), run_bind hrun, run_bind hend]
  rfl

/-- The loop over the members of an interface. -/
theorem membersLoop_run {wss : List (List Word)} {Ps : List NodeProp} (h : List.Forall₂ MemberWords wss Ps)
    (hPs : ∀ P ∈ Ps, Stable P) (kids : List Child)
    (hp : p.Ready (joinWords .semicolon wss ++ (.op .rbrace, "") :: rest)) :
    ∃ ids q, (membersLoop .rbrace .semicolon (interfaceElem grammar)).run kids p = (kids ++ ids.map some, q) ∧
      p.Reaches ((.op .rbrace, "") :: rest) q ∧ Nodes q.tree ids Ps := by
  induction h generalizing p kids with
  | nil =>
      have hp : p.Ready ((.op .rbrace, "") :: rest) := hp
      refine ⟨[], p, ?_, .refl hp, .nil⟩
      rw [List.map_nil, List.append_nil]
      exact Loop.run_stop (by simp [membersLoop, hp.token_eq])
  | @cons ws P wss Ps hhead htail ih =>
      obtain ⟨⟨w, vs, rfl, hclose⟩, hmember⟩ := hhead
      have hothers (P : NodeProp) (hP : P ∈ Ps) : Stable P := hPs P (List.mem_cons_of_mem _ hP)
      cases htail with
      | nil =>
          obtain ⟨id, q, hrun, hreaches, hid⟩ := hmember p _ hp (.cons rfl _ _)
          refine ⟨[id], q, ?_, hreaches, .cons hid .nil⟩
          rw [Loop.run_again grammar_loopsAdvance.methods (membersLoop_more hp hclose)
            (membersLoop_round_last kids hrun hreaches.ready)]
          exact Loop.run_stop (by simp [membersLoop, hreaches.ready.token_eq])
      | cons hnext hrest =>
          rw [joinWords_cons, List.append_assoc] at hp
          obtain ⟨id, q, hrun, hreaches, hid⟩ := hmember p _ hp (.cons rfl _ _)
          obtain ⟨ids, r, hloop, hreaches', hids⟩ := ih hothers (kids ++ [some id]) hreaches.advance.ready
          refine ⟨id :: ids, r, ?_, hreaches.advance.trans hreaches', .cons ?_ hids⟩
          · rw [Loop.run_again grammar_loopsAdvance.methods (membersLoop_more hp hclose)
              (membersLoop_round_semicolon kids hrun hreaches.ready), hloop, List.map_cons, List.append_assoc,
              List.singleton_append]
          · have hgrows := hreaches'.grows
            rw [Parser.tree_advance] at hgrows
            exact (hPs P List.mem_cons_self).grow hid hgrows

theorem typeWords_interface {wss : List (List Word)} {Ps : List NodeProp} (h : List.Forall₂ MemberWords wss Ps)
    (hPs : ∀ P ∈ Ps, Stable P) :
    TypeWords ((.kw .interface, "") :: (.op .lbrace, "") :: joinWords .semicolon wss ++ [(.op .rbrace, "")])
      (IsList (.kw .interface) Ps) := by
  intro p rest hp hrest
  rw [List.append_assoc] at hp
  have hbrace := (Parser.Reaches.refl hp).advance
  have hstart := hbrace.advance
  obtain ⟨ids, q, hloop, hreaches, hids⟩ := membersLoop_run h hPs [] hstart.ready
  have hids' : Nodes q.advance.tree ids Ps := by
    rw [Parser.tree_advance]
    exact hids
  refine ⟨nextId q.advance, withNode q.advance (atomOf p (.kw .interface)) (.list (ids.map some)), ?_,
    (hstart.trans hreaches.advance).withNode _ _, isList_add hPs rfl hids'⟩
  have hmembers : members (interfaceElem grammar) p.advance = (ids.map some, q.advance) := by
    rw [members, run_bind (enter_run hbrace.ready.token_eq), run_bind hloop,
      run_bind (leave_run hreaches.ready), List.append_nil, List.nil_append]
    rfl
  rw [type?_run, typeExpr?, run_bind (tok_run p), hp.token_eq]
  refine run_map ?_
  rw [interfaceType, lead_run, run_bind hmembers, add_run]

end GoSource.Grammar
