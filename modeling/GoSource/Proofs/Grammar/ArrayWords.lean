import GoSource.Proofs.Grammar.Lookahead
import GoSource.Proofs.Grammar.Printing
import GoSource.Proofs.Grammar.Shown
import GoSource.Proofs.Grammar.VariableWords

/-!
# Array types wherever they stand

An array type after a name is read by three productions: as the type of a variable or of a struct field, as a
parameter, and as what a type declaration stands for.  The words of an array type are read alike by the three, with one
exception: a type declaration takes a length that starts with a name, and is more than that, for type parameters.

* **`bracketedParam_array`**, **`typeParamsOrArray_array`**: the two productions that have to decide about a bracket.
* **`opensParams`**: the lengths that are taken for type parameters; `typeSpec_generic` says what becomes of them.
* **`DeclaresAs`**: what the declaration in a file is parsed into.
* **`arrays_parse_alike`**: the declarations of a variable, a parameter, a field and a type with the words of an array
  type; `arrays_parse_alike_fails` is the exception.
-/

namespace GoSource

namespace Grammar

open GoSource.Tree

variable {p q : Parser} {ls ws rest : List Word} {P Q : NodeProp} {name s l m : String}

/-- Where a type stands, a token opens one. -/
theorem TypeWords.startsType (h : TypeWords ws P) (hp : p.Ready (ws ++ rest)) (hrest : Follows rest) :
    startsType p.curr.token = true := by
  obtain ⟨id, q, hrun, -⟩ := h p rest hp hrest
  rw [type?_run, typeExpr?, run_bind (tok_run p)] at hrun
  generalize p.curr.token = t at hrun
  split at hrun
  iterate 10 rfl
  cases congrArg Prod.fst hrun

/-- An expression can be the length of an array. -/
theorem ExprWords.length {t : Tree} {e : NodeId} (h : ExprWords t 1 e ls) : LengthWords ls (Shows (t.render e)) := by
  have hhead (token : Token) (htoken : opensExpr token = false) : headToken ls ≠ token := fun heq => by
    rw [← heq, h.opens] at htoken
    cases htoken
  refine ⟨?_, fun p rest hp _ => ?_⟩
  · cases ls with
    | nil => exact absurd rfl (hhead .eof rfl)
    | cons w ls => exact ⟨w, ls, rfl, hhead (.op .rbrack) rfl, hhead (.op .ellipsis) rfl⟩
  · obtain ⟨x, q, hrun, hreaches, hecho⟩ := h.expr_run hp ⟨rfl, rfl⟩
    exact ⟨x, q, hrun, hreaches, hecho.shows⟩

/-! ### Parameters -/

/-- A name and an array type in a parameter list. -/
theorem bracketedParam_array (hP : Stable P) (hQ : Stable Q) (hl : LengthWords ls P) (h : TypeWords ws Q) {w : Word}
    (ident : Atom) (hident : (ident.token, ident.literal) = w) (hp : p.Ready (arrayWords ls ws ++ rest))
    (hrest : Follows rest) :
    ∃ n typ q, bracketedParam grammar ident p = ({ name := some n, typ := some typ }, q) ∧ p.Reaches rest q ∧
      IsLeaf w q.tree n ∧ IsArray P Q q.tree typ := by
  obtain ⟨⟨t, lit⟩, vs, rfl, hclose, hellipsis⟩ := hl.opens
  rw [arrayWords_append] at hp
  have hopen := (Parser.Reaches.refl hp).advance
  obtain ⟨x, q, hrun, hreaches, hx⟩ := hl.run _ _ (hopen.composite true).ready rfl
  let q₁ : Parser := { q with compositeOk := p.advance.compositeOk }
  have hreaches₁ : p.Reaches _ q₁ := ((hopen.composite true).trans hreaches).composite _
  -- The node of the name is made after the length was read.
  let q₂ := withNode q₁.advance ident .leaf
  have hreaches₂ : p.Reaches (ws ++ rest) q₂ := hreaches₁.advance.withNode _ _
  have hx₂ : P q₂.tree x := by
    refine hP.grow hx ?_
    have hgrows := grows_withNode q₁.advance ident .leaf
    rwa [Parser.tree_advance] at hgrows
  have hn₂ : IsLeaf w q₂.tree (nextId q₁.advance) := ⟨ident, holds_withNode _ _ _, hident⟩
  obtain ⟨y, r, hrun', hreaches', hy⟩ := h.run hreaches₂.ready hrest
  have hnode := grows_withNode r (atomOf p (.tag .array)) (.binary (some x) (some y))
  refine ⟨nextId q₁.advance, nextId r, withNode r (atomOf p (.tag .array)) (.binary (some x) (some y)), ?_,
    (hreaches₂.trans hreaches').withNode _ _, (stable_isLeaf w).grow hn₂ (hreaches'.grows.trans hnode),
    isBinary_add hP hQ rfl (hP.grow hx₂ hreaches'.grows) hy⟩
  have hargs : (do
      let first ← grammar.expr
      (bracketLoop grammar).run [some first]) { p.advance with compositeOk := true } = ([some x], q) := by
    refine (run_bind hrun).trans ?_
    exact Loop.run_stop (by rw [hreaches.ready.token_eq]; rfl)
  have hlength : ¬ (p.advance.curr.token = .op .rbrack ∨ p.advance.curr.token = .op .ellipsis) := by
    rw [hopen.ready.token_eq]
    exact not_or.2 ⟨hclose, hellipsis⟩
  have helem : ([some x] : List Child).length = 1 ∧ Grammar.startsType q₂.curr.token = true :=
    ⟨rfl, h.startsType hreaches₂.ready hrest⟩
  rw [bracketedParam, lead_run, run_bind (tok_run _), if_neg hlength, run_bind (withComposite_run true hargs),
    run_bind (expect_run hreaches₁.ready.token_eq), run_bind (add_run _ _ _), run_bind (tok_run _)]
  refine (congrFun (if_pos helem) _).trans ?_
  rw [run_bind hrun', run_bind (add_run _ _ r)]
  rfl

/-- The words `ws` are an entry of a parameter list with a name and a type. -/
structure NamedParam (ws : List Word) (name typ : String) : Prop where
  opens : ∃ w vs, ws = w :: vs ∧ w.1 ≠ .op .rparen
  run : ∀ p rest, p.Ready (ws ++ (.op .rparen, "") :: rest) →
    ∃ n x q, paramEntry grammar (.op .rparen) false p = ({ name := some n, typ := some x }, q) ∧
      p.Reaches ((.op .rparen, "") :: rest) q ∧ Shows name q.tree n ∧ Shows typ q.tree x

theorem namedParam_array (hname : name ≠ "") (hl : LengthWords ls (Shows l)) (h : TypeWords ws (Shows m)) :
    NamedParam ((.lit .ident, name) :: arrayWords ls ws) name (shownNode (.tag .array) [l, m]) := by
  refine ⟨⟨_, _, rfl, by simp⟩, fun p rest hp => ?_⟩
  have hnext := (Parser.Reaches.refl hp).advance
  have hident : ((atomOf p (.lit .ident)).token, (atomOf p (.lit .ident)).literal) = (.lit .ident, name) := by
    simp [atomOf, hp.token_eq, hp.literal_eq]
  obtain ⟨n, typ, q, hrun, hreaches, hn, htyp⟩ :=
    bracketedParam_array (stable_shows l) (stable_shows m) hl h _ hident hnext.ready (.cons rfl _ _)
  refine ⟨n, typ, q, ?_, hnext.trans hreaches, isLeaf_shows hn hname, isBinary_shows htyp (fun _ hx => hx) fun _ hx => hx⟩
  have htoken : p.advance.curr.token = .op .lbrack := by
    have hready := hnext.ready
    exact hready.token_eq
  rw [paramEntry, run_bind (tok_run p), if_neg (not_not_intro hp.token_eq)]
  refine (lead_run (.lit .ident) p).trans ?_
  rw [run_bind (tok_run _), htoken, if_neg (by decide), if_neg (by decide), if_pos rfl, hrun]

/-- How a field of one name and a type is shown. -/
def shownField (name typ : String) : String :=
  shownNode (.tag .field) [shownNode (.tag .names) [name], typ, "nil"]

theorem addField_shows {n x : NodeId} (hp : p.Ready ws) (hn : Shows name p.tree n) (hx : Shows s p.tree x) :
    ∃ id q, build (Tree.addField [n] x none) p = (id, q) ∧ p.Reaches ws q ∧ Shows (shownField name s) q.tree id := by
  let names := withNode p (Tree.tagAt (.tag .names) (p.tree.pos n)) (.list [some n])
  let field := withNode names (Tree.tagAt (.tag .field) (names.tree.pos (nextId p)))
    (.list [some (nextId p), some x, none])
  have hreaches : p.Reaches ws names := (Parser.Reaches.refl hp).withNode _ _
  have hnames : Shows (shownNode (.tag .names) [name]) names.tree (nextId p) :=
    shows_withNode rfl rfl (.cons hn.part .nil)
  have hx' : Shows s names.tree x := (stable_shows s).grow hx hreaches.grows
  exact ⟨nextId names, field, rfl, hreaches.withNode _ _,
    shows_withNode rfl rfl (.cons hnames.part (.cons hx'.part (.cons (showsPart_none _) .nil)))⟩

/-- A list of one parameter. -/
theorem params_one_run (h : NamedParam ws name s)
    (hp : p.Ready ((.op .lparen, "") :: (ws ++ (.op .rparen, "") :: rest))) :
    ∃ id q, params grammar (.op .lparen) (.op .rparen) .params false p = (id, q) ∧ p.Reaches rest q ∧
      Shows (shownNode (.tag .params) [shownField name s]) q.tree id := by
  obtain ⟨w, vs, rfl, hopens⟩ := h.opens
  have hopen := ((Parser.Reaches.refl hp).bare).advance
  have hstart := hopen.composite true
  obtain ⟨n, x, q, hrun, hreaches, hn, hx⟩ := h.run _ _ hstart.ready
  let q₁ : Parser := { q with compositeOk := (bare p).advance.compositeOk }
  have hreaches₁ : p.Reaches ((.op .rparen, "") :: rest) q₁ := (hstart.trans hreaches).composite _
  have hn₁ : Shows name q₁.advance.tree n := (Parser.tree_advance q₁).symm ▸ hn
  have hx₁ : Shows s q₁.advance.tree x := (Parser.tree_advance q₁).symm ▸ hx
  obtain ⟨f, r, hfield, hreaches', hf⟩ := addField_shows hreaches₁.advance.ready hn₁ hx₁
  refine ⟨nextId r, withNode r (atomOf p (.tag .params)) (.list [some f]), ?_,
    (hreaches₁.advance.trans hreaches').withNode _ _, shows_withNode rfl rfl (.cons hf.part .nil)⟩
  have hless : q.left < (bare p).advance.left := by
    rw [hreaches.ready.left_eq, hopen.ready.left_eq]
    simp only [List.cons_append, List.length_cons, List.length_append]
    omega
  have hentries : (paramsLoop grammar (.op .rparen) false).run ([], []) { (bare p).advance with compositeOk := true } =
      (([{ name := some n, typ := some x }], []), q) :=
    Loop.run_done (paramsLoop_more hstart.ready hopens) (paramsLoop_round_last [] hrun hreaches.ready hless)
  have hgroup : build (groupParams [{ name := some n, typ := some x }]) q₁.advance = ([some f], r) := by
    have hfields : groupParams [{ name := some n, typ := some x }] = (do
        let field ← Tree.addField [n] x none
        return [some field]) := rfl
    rw [hfields, build_bind, run_bind hfield]
    rfl
  rw [params, run_bind (makeAtom_run _ p), run_bind (enter_run (p := bare p) hp.token_eq), paramsBody,
    run_bind (withComposite_run true hentries)]
  dsimp only
  rw [run_bind (leave_run hreaches₁.ready), run_bind hgroup]
  rfl

/-- How a signature of one parameter without results is shown. -/
def shownSignature (name typ : String) : String :=
  shownNode (.kw .func) [shownNode (.tag .params) [shownField name typ], shownNode (.tag .results) []]

theorem signature_one_run (h : NamedParam ws name s) (atom : Atom) (hatom : atom.token = .kw .func)
    (hp : p.Ready ((.op .lparen, "") :: (ws ++ (.op .rparen, "") :: rest))) (hrest : Follows rest) :
    ∃ id q, signature grammar atom p = (id, q) ∧ p.Reaches rest q ∧ Shows (shownSignature name s) q.tree id := by
  obtain ⟨x, q, hparams, hreaches, hx⟩ := params_one_run h hp
  obtain ⟨y, r, hresults, hreaches', hy⟩ := resultWords_none q rest hreaches.ready hrest
  have hx' := (stable_shows _).grow hx hreaches'.grows
  have hy' : Shows (shownNode (.tag .results) []) r.tree y := isList_shows hy .nil
  refine ⟨nextId r, withNode r atom (.binary (some x) (some y)), ?_, (hreaches.trans hreaches').withNode _ _,
    shows_withNode hatom rfl (.cons hx'.part (.cons hy'.part .nil))⟩
  rw [signature, run_bind hparams, run_bind hresults, add_run]

/-- A function of one parameter, without results and without a body. -/
theorem declWords_func {f : String} (hf : f ≠ "") (h : NamedParam ws name s) :
    DeclWords .func ((.lit .ident, f) :: (.op .lparen, "") :: (ws ++ [(.op .rparen, "")]))
      (Shows (shownNode (.kw .func) ["nil", f, shownSignature name s, "nil"])) where
  mem_keywords := by decide
  run {p rest} hp hrest := by
    rw [List.cons_append, List.cons_append, List.append_assoc] at hp
    have hstart := (Parser.Reaches.refl hp).advance
    obtain ⟨ident, q, hident, hreaches, hleaf⟩ := parseIdent_run hstart.ready
    obtain ⟨sig, r, hsignature, hreaches', hsig⟩ := signature_one_run h
      (Tree.tagAt (.kw .func) (q.tree.pos ident)) rfl hreaches.ready hrest
    have hname : Shows f r.tree ident := (stable_shows f).grow (isLeaf_shows hleaf hf) hreaches'.grows
    refine ⟨nextId r, withNode r (atomOf p (.kw .func)) (.list [none, some ident, some sig, none]), ?_,
      ((hstart.trans hreaches).trans hreaches').withNode _ _, (holds_withNode _ _ _).op_eq,
      shows_withNode rfl rfl
        (.cons (showsPart_none _) (.cons hname.part (.cons hsig.part (.cons (showsPart_none _) .nil))))⟩
    have hreceiver : p.advance.curr.token ≠ .op .lparen := hstart.ready.token_ne (by decide)
    have hgeneric : genericName grammar ident q = (ident, q) := by
      have hbrack : q.curr.token ≠ .op .lbrack := hreaches.ready.token_ne (by decide)
      rw [genericName, run_bind (tok_run q), if_pos hbrack]
      rfl
    have hbody : r.curr.token ≠ .op .lbrace := hrest.token_ne hreaches'.ready rfl
    rw [declaration, run_bind (tok_run p), hp.token_eq]
    refine (lead_run (.kw .func) p).trans ?_
    rw [run_bind (tok_run _), if_neg hreceiver]
    refine (run_bind (x := (none : Child)) rfl).trans ((run_bind hident).trans ?_)
    rw [run_bind (startOf_run ident q), run_bind hgeneric, run_bind hsignature, run_bind (tok_run r), if_neg hbody]
    rfl

/-! ### Fields -/

/-- A field of one name, with a type that starts with a bracket. -/
theorem structField_run (hname : name ≠ "") {vs : List Word} (hws : ws = (.op .lbrack, "") :: vs)
    (h : TypeWords ws (Shows s)) (hp : p.Ready ((.lit .ident, name) :: (ws ++ rest))) (hrest : Follows rest) :
    ∃ id q, structField grammar p = (id, q) ∧ p.Reaches rest q ∧ Shows (shownField name s) q.tree id := by
  have hnext := (Parser.Reaches.refl hp).advance
  have hbracket : p.advance.curr.token = .op .lbrack := by
    subst hws
    exact hnext.ready.token_eq
  let q₁ := withNode p.advance (atomOf p (.lit .ident)) .leaf
  have hreaches₁ : p.Reaches (ws ++ rest) q₁ := hnext.withNode _ _
  obtain ⟨x, q, hrun, hreaches, hx⟩ := h.run hreaches₁.ready hrest
  have hleaf : IsLeaf (.lit .ident, name) q₁.tree (nextId p.advance) := by
    refine ⟨_, holds_withNode _ _ _, ?_⟩
    simp [atomOf, hp.token_eq, hp.literal_eq]
  have hn : Shows name q.tree (nextId p.advance) := (stable_shows name).grow (isLeaf_shows hleaf hname) hreaches.grows
  obtain ⟨f, r, hfield, hreaches', hf⟩ := addField_shows hreaches.ready hn hx
  refine ⟨f, r, ?_, (hreaches₁.trans hreaches).trans hreaches', hf⟩
  have hstring : q.curr.token ≠ .lit .string := hrest.token_ne hreaches.ready rfl
  have hparts : fieldNamesAndType grammar p = (([nextId p.advance], x), q) := by
    rw [fieldNamesAndType, run_bind (tok_run p), hp.token_eq]
    refine (lead_run (.lit .ident) p).trans ?_
    rw [run_bind (tok_run _), hbracket]
    refine (run_bind (add_run _ _ _)).trans ?_
    rw [run_bind hrun]
    rfl
  rw [structField, run_bind hparts]
  dsimp only
  rw [run_bind (tok_run q), if_neg hstring]
  refine (run_bind (x := (none : Child)) rfl).trans ?_
  exact hfield

/-- A struct of one field, whose type starts with a bracket. -/
theorem typeWords_struct (hname : name ≠ "") {vs : List Word} (hws : ws = (.op .lbrack, "") :: vs)
    (h : TypeWords ws (Shows s)) :
    TypeWords ((.kw .struct, "") :: (.op .lbrace, "") :: (.lit .ident, name) :: (ws ++ [(.op .rbrace, "")]))
      (Shows (shownNode (.kw .struct) [shownField name s])) := by
  intro p rest hp hrest
  rw [List.cons_append, List.cons_append, List.cons_append, List.append_assoc] at hp
  have hbrace := (Parser.Reaches.refl hp).advance
  have hstart := hbrace.advance
  obtain ⟨f, q, hrun, hreaches, hf⟩ := structField_run hname hws h hstart.ready (.cons rfl _ _)
  have htree : q.advance.tree = q.tree := Parser.tree_advance q
  refine ⟨nextId q.advance, withNode q.advance (atomOf p (.kw .struct)) (.list [some f]), ?_,
    (hstart.trans hreaches.advance).withNode _ _, shows_withNode rfl rfl (.cons (htree ▸ hf.part) .nil)⟩
  have hloop : (membersLoop .rbrace .semicolon (structField grammar)).run [] p.advance.advance = ([some f], q) := by
    rw [Loop.run_again grammar_loopsAdvance.fields (membersLoop_more hstart.ready (by simp))
      (membersLoop_round_last [] hrun hreaches.ready)]
    exact Loop.run_stop (by simp [membersLoop, hreaches.ready.token_eq])
  have hmembers : members (structField grammar) p.advance = ([some f], q.advance) := by
    rw [members, run_bind (enter_run hbrace.ready.token_eq), run_bind hloop, run_bind (leave_run hreaches.ready)]
    rfl
  rw [type?_run, typeExpr?, run_bind (tok_run p), hp.token_eq]
  refine run_map ?_
  rw [structType, lead_run, run_bind hmembers, add_run]

/-! ### Type declarations -/

/-- A length that a type declaration takes for type parameters: a name, and not the closing bracket after it. -/
def opensParams : List Word → Bool
  | (.lit .ident, _) :: (t, _) :: _ => t != .op .rbrack
  | _ => false

theorem exists_of_opensParams (h : opensParams ls = true) :
    ∃ n t s vs, ls = (.lit .ident, n) :: (t, s) :: vs ∧ t ≠ .op .rbrack := by
  unfold opensParams at h
  split at h
  · exact ⟨_, _, _, _, rfl, by simpa using h⟩
  · cases h

/-- Any other length is not, even though a lone name is looked past. -/
theorem opensTypeParams_run (hl : ∃ w vs, ls = w :: vs) (hopens : opensParams ls = false)
    (hp : p.Ready (ls ++ (.op .rbrack, "") :: rest)) :
    ∃ q, opensTypeParams p = (false, q) ∧ p.Reaches (ls ++ (.op .rbrack, "") :: rest) q := by
  obtain ⟨⟨t, lit⟩, vs, rfl⟩ := hl
  by_cases hident : t = .lit .ident
  · subst hident
    obtain ⟨-, hrun⟩ := (looksAhead grammar).brackets p hp.token_eq
    have hclose : p.advance.curr.token = .op .rbrack := by
      cases vs with
      | nil => exact hp.advance.token_eq
      | cons w vs => exact hp.advance.token_eq.trans (by simpa [opensParams] using hopens)
    refine ⟨p.advance.putBack p.curr, ?_, (Parser.Reaches.refl hp).peek⟩
    rw [hrun, if_pos rfl, hclose]
    rfl
  · refine ⟨p, ?_, .refl hp⟩
    have htoken : p.curr.token ≠ .lit .ident := hp.token_ne hident
    rw [opensTypeParams, run_bind (tok_run p), if_pos htoken]
    rfl

/-- What stands in brackets after the name of a type is the length of an array. -/
theorem typeParamsOrArray_array (hP : Stable P) (hQ : Stable Q) (hl : LengthWords ls P) (h : TypeWords ws Q)
    (hopens : opensParams ls = false) (n : NodeId) (hp : p.Ready (arrayWords ls ws ++ rest)) (hrest : Follows rest) :
    ∃ id q, typeParamsOrArray grammar n p = (.array id, q) ∧ p.Reaches rest q ∧ IsArray P Q q.tree id := by
  obtain ⟨w, vs, hls, -⟩ := hl.opens
  rw [arrayWords_append] at hp
  have hopen := (Parser.Reaches.refl hp).advance
  obtain ⟨q, hlook, hreaches⟩ := opensTypeParams_run ⟨w, vs, hls⟩ hopens hopen.ready
  obtain ⟨id, r, hrun, hreaches', hid⟩ :=
    arrayRest_run (atomOf p (.tag .array)) rfl hP hQ hl h hreaches.ready hrest
  refine ⟨id, r, ?_, (hopen.trans hreaches).trans hreaches', hid⟩
  rw [typeParamsOrArray, lead_run, run_bind hlook]
  refine (congrFun (if_neg Bool.false_ne_true) q).trans ?_
  exact run_map (f := TypeSpecHead.array) hrun

/-- The declaration of a type that is an array. -/
theorem typeSpec_array (hP : Stable P) (hQ : Stable Q) (hl : LengthWords ls P) (h : TypeWords ws Q)
    (hopens : opensParams ls = false) (hp : p.Ready ((.lit .ident, name) :: (arrayWords ls ws ++ rest)))
    (hrest : Follows rest) :
    ∃ id q, typeSpec grammar p = (id, q) ∧ p.Reaches rest q ∧
      IsBinary (.kw .type) (IsLeaf (.lit .ident, name)) (IsArray P Q) q.tree id := by
  have hstart := (Parser.Reaches.refl hp).bare
  obtain ⟨n, q, hident, hreaches, hleaf⟩ := parseIdent_run hstart.ready
  obtain ⟨x, r, hrun, hreaches', hx⟩ := typeParamsOrArray_array hP hQ hl h hopens n hreaches.ready hrest
  refine ⟨nextId r, withNode r (atomOf p (.kw .type)) (.binary (some n) (some x)), ?_,
    ((hstart.trans hreaches).trans hreaches').withNode _ _,
    isBinary_add (stable_isLeaf _) (stable_isBinary hP hQ) rfl ((stable_isLeaf _).grow hleaf hreaches'.grows) hx⟩
  have hbracket : ¬ q.curr.token ≠ .op .lbrack := not_not_intro hreaches.ready.token_eq
  rw [typeSpec, run_bind (makeAtom_run _ p), run_bind hident, run_bind (tok_run q), if_neg hbracket, run_bind hrun]
  rfl

/-- The declaration of a type that does not start with a bracket. -/
theorem typeSpec_plain (hP : Stable P) (h : TypeWords ws P) {w : Word} {vs : List Word} (hws : ws = w :: vs)
    (hbracket : w.1 ≠ .op .lbrack) (hp : p.Ready ((.lit .ident, name) :: (ws ++ rest))) (hrest : Follows rest) :
    ∃ id q, typeSpec grammar p = (id, q) ∧ p.Reaches rest q ∧
      IsBinary (.kw .type) (IsLeaf (.lit .ident, name)) P q.tree id := by
  have hstart := (Parser.Reaches.refl hp).bare
  obtain ⟨n, q, hident, hreaches, hleaf⟩ := parseIdent_run hstart.ready
  obtain ⟨x, r, hrun, hreaches', hx⟩ := h.run hreaches.ready hrest
  refine ⟨nextId r, withNode r (atomOf p (.kw .type)) (.binary (some n) (some x)), ?_,
    ((hstart.trans hreaches).trans hreaches').withNode _ _,
    isBinary_add (stable_isLeaf _) hP rfl ((stable_isLeaf _).grow hleaf hreaches'.grows) hx⟩
  have hnone : q.curr.token ≠ .op .lbrack := by
    subst hws
    exact hreaches.ready.token_ne hbracket
  have hassign : (q.curr.token == .op .assign) = false := beq_eq_false_iff_ne.2 (h.token_ne hreaches.ready hrest rfl)
  have htail : typeSpecTail grammar (atomOf p (.kw .type)) n q =
      (nextId r, withNode r (atomOf p (.kw .type)) (.binary (some n) (some x))) := by
    rw [typeSpecTail, run_bind (tok_run q)]
    dsimp only
    rw [hassign, if_neg Bool.false_ne_true, run_bind hrun]
    rfl
  rw [typeSpec, run_bind (makeAtom_run _ p), run_bind hident, run_bind (tok_run q), if_pos hnone, htail]

/-- Reading a type only adds nodes. -/
theorem type_grows (p : Parser) : p.tree.Grows (grammar.type p).2.tree := by
  have hwithin : Within ([], p) (p.left + 1) [] p := ⟨.refl, Nat.lt_succ_self _⟩
  exact ((grammar_self (p.left + 1)).type _ (Nat.le_refl _) _ _ p hwithin).2.moves.grows

/-- The end of a type declaration makes a node whose first part is what stands for the name. -/
theorem typeSpecTail_parts (atom : Atom) (n : NodeId) (p : Parser) :
    p.tree.Grows (typeSpecTail grammar atom n p).2.tree ∧
      (typeSpecTail grammar atom n p).2.tree.part? (typeSpecTail grammar atom n p).1 0 = some n := by
  have hmade (q : Parser) (a : Atom) (x : NodeId) (hgrows : p.tree.Grows q.tree) :
      p.tree.Grows (withNode q a (.binary (some n) (some x))).tree ∧
        (withNode q a (.binary (some n) (some x))).tree.part? (nextId q) 0 = some n := by
    refine ⟨hgrows.trans (grows_withNode q _ _), ?_⟩
    rw [part?, children, (holds_withNode q _ _).node_eq]
    rfl
  rw [typeSpecTail, run_bind (tok_run p)]
  dsimp only
  cases p.curr.token == .op .assign with
  | false => exact hmade _ _ _ (type_grows p)
  | true => exact hmade _ _ _ (p.tree_advance ▸ type_grows p.advance)

theorem advance_withNode (p : Parser) (atom : Atom) (shape : NodeShape) :
    (withNode p atom shape).advance = withNode p.advance atom shape := by
  cases hahead : p.ahead with
  | none =>
      rw [Parser.advance_of_none hahead, Parser.advance_of_none (p := withNode p atom shape) hahead]
      rfl
  | some a =>
      rw [Parser.advance_of_some hahead, Parser.advance_of_some (p := withNode p atom shape) hahead]
      rfl

/-- A name with something after it opens type parameters, and they make the name that is declared a generic one. -/
theorem typeParamsOrArray_generic (n : NodeId) (hname : p.advance.curr.token = .lit .ident)
    (hmore : p.advance.advance.curr.token ≠ .op .rbrack) :
    ∃ head q, typeParamsOrArray grammar n p = (.generic head, q) ∧ head.index < q.tree.size ∧
      q.tree.op head = .tag .generic := by
  have hopens : opensTypeParams p.advance = (true, p.advance.advance.putBack p.advance.curr) := by
    obtain ⟨-, hrun⟩ := (looksAhead grammar).brackets p.advance hname
    rw [hrun, if_pos rfl]
    show (!(p.advance.advance.curr.token == .op .rbrack), _) = (true, _)
    rw [beq_eq_false_iff_ne.2 hmore, Bool.not_false]
  let start := p.advance.advance.putBack p.advance.curr
  let body := paramsBody grammar { atomOf p (.tag .array) with token := .tag .params } [] (.op .rbrack) true start
  have hholds := holds_withNode body.2 (Tree.tagAt (.tag .generic) (body.2.tree.pos n)) (.binary (some n) (some body.1))
  refine ⟨_, _, ?_, hholds.index_lt, hholds.op_eq⟩
  rw [typeParamsOrArray, lead_run, run_bind hopens]
  rfl

/-- Whatever follows such a name and whatever was reported, what is declared is a generic name. -/
theorem typeSpec_generic (hident : p.curr.token = .lit .ident) (hbracket : p.advance.curr.token = .op .lbrack)
    (hname : p.advance.advance.curr.token = .lit .ident)
    (hmore : p.advance.advance.advance.curr.token ≠ .op .rbrack) :
    ∃ n, (typeSpec grammar p).2.tree.part? (typeSpec grammar p).1 0 = some n ∧
      (typeSpec grammar p).2.tree.op n = .tag .generic := by
  let q := withNode p.advance (atomOf (bare p) (.lit .ident)) .leaf
  have hparsed : parseIdent (bare p) = (nextId p.advance, q) := by
    have htoken : (bare p).curr.token = .lit .ident := hident
    rw [parseIdent, run_bind (tok_run _), if_pos htoken, parseAtom, lead_run, advance_bare, add_run]
  have hq : q.curr.token = .op .lbrack := hbracket
  obtain ⟨head, r, hhead, hlt, hop⟩ := typeParamsOrArray_generic (p := q) (nextId p.advance)
    (by rw [advance_withNode]; exact hname) (by rw [advance_withNode, advance_withNode]; exact hmore)
  obtain ⟨hgrows, hpart⟩ := typeSpecTail_parts (atomOf p (.kw .type)) head r
  have hrun : typeSpec grammar p = typeSpecTail grammar (atomOf p (.kw .type)) head r := by
    rw [typeSpec, run_bind (makeAtom_run _ p), run_bind hparsed, run_bind (tok_run q), if_neg (not_not_intro hq),
      run_bind hhead]
  refine ⟨head, hrun ▸ hpart, ?_⟩
  rw [hrun, op, hgrows.node_eq head hlt]
  exact hop

/-- A type declaration, from its specification. -/
theorem declWords_type (hname : name ≠ "") (hP : ∀ t id, P t id → Shows s t id)
    (hspec : ∀ {p : Parser} {rest : List Word}, p.Ready ((.lit .ident, name) :: (ws ++ rest)) → Follows rest →
      ∃ id q, typeSpec grammar p = (id, q) ∧ p.Reaches rest q ∧
        IsBinary (.kw .type) (IsLeaf (.lit .ident, name)) P q.tree id) :
    DeclWords .type ((.lit .ident, name) :: ws) (Shows (shownNode (.kw .type) [shownNode (.kw .type) [name, s]])) where
  mem_keywords := by decide
  run {p rest} hp hrest := by
    have hstart := (Parser.Reaches.refl hp).advance
    obtain ⟨x, q, hrun, hreaches, hx⟩ := hspec hstart.ready hrest
    have hparen : p.advance.curr.token ≠ .op .lparen := hstart.ready.token_ne (by decide)
    have hshown : Shows (shownNode (.kw .type) [name, s]) q.tree x :=
      isBinary_shows hx (fun _ hleaf => isLeaf_shows hleaf hname) (hP q.tree)
    obtain ⟨id, r, hdecl, hreaches', hop, hid⟩ := genDecl_run (stable_shows _) hparen hp hrun hreaches hshown
    refine ⟨id, r, ?_, hreaches', hop, isList_shows hid (.cons (fun _ hx => hx) .nil)⟩
    rw [declaration, run_bind (tok_run p), hp.token_eq]
    exact hdecl

/-- The declaration of a variable. -/
theorem declWords_var (hname : name ≠ "") (h : TypeWords ws (Shows s)) :
    DeclWords .var ((.lit .ident, name) :: ws)
      (Shows (shownNode (.kw .var) [shownNode (.tag .valueSpec) [shownNode (.tag .names) [name], s, "nil"]])) where
  mem_keywords := by decide
  run {p rest} hp hrest := by
    have hstart := (Parser.Reaches.refl hp).advance
    obtain ⟨names, typ, q, hrun, hreaches, hnames, htyp⟩ := valueSpec_made h hstart.ready hrest
    have hparen : p.advance.curr.token ≠ .op .lparen := hstart.ready.token_ne (by decide)
    have hnames' : Shows (shownNode (.tag .names) [name]) q.tree names :=
      isList_shows hnames (.cons (fun _ hleaf => isLeaf_shows hleaf hname) .nil)
    obtain ⟨id, r, hdecl, hreaches', hop, hid⟩ :=
      genDecl_run (stable_shows (shownNode (.tag .valueSpec) [shownNode (.tag .names) [name], s, "nil"])) hparen hp hrun
        (hreaches.withNode _ _)
        (shows_withNode rfl rfl (.cons hnames'.part (.cons htyp.part (.cons (showsPart_none _) .nil))))
    refine ⟨id, r, ?_, hreaches', hop, isList_shows hid (.cons (fun _ hx => hx) .nil)⟩
    rw [declaration, run_bind (tok_run p), hp.token_eq]
    exact hdecl

end Grammar

/-! ### Files -/

open Grammar Lexeme

/-- A package clause and a declaration, with a blank between each two tokens. -/
def declText (ws : List Word) : String :=
  respell ((.kw .package, "") :: (.lit .ident, "p") :: (.op .semicolon, "") :: (ws ++ [(.op .semicolon, "")]))

/-- The words `ws`, as the declaration of a file, are parsed without a report, and what is declared is shown as `s`. -/
def DeclaresAs (ws : List Word) (s : String) : Prop :=
  ∀ name, (ParsedFile.ofString name (declText ws)).diagnostics = [] ∧
    (ParsedFile.ofString name (declText ws)).render = shownNode (.tag .file) [shownNode (.kw .package) ["p"], s]

theorem Grammar.DeclWords.declaresAs {keyword : Keyword} {ws : List Word} {s : String}
    (h : DeclWords keyword ws (Shows s)) (hws : ∀ w ∈ ws, Respellable w) : DeclaresAs ((.kw keyword, "") :: ws) s := by
  intro name
  have hwords : ∀ w ∈ (.kw .package, "") :: (.lit .ident, "p") :: (.op .semicolon, "") :: (.kw keyword, "") ::
      (ws ++ [(.op .semicolon, "")]), Respellable w := by
    have hp : Scanner.ScansAs .ident "p" := by decide +kernel
    simp only [List.forall_mem_cons, List.forall_mem_append]
    exact ⟨respellable_keyword _, hp.respellable, respellable_operator _, respellable_keyword _, hws,
      respellable_operator _, by simp⟩
  obtain ⟨root, q, hrun, hclean, hfile⟩ := fileNode_decl_run (stable_shows s) h
    (Parser.ready_respell hwords {} rfl { name } {}) (by rw [mode_init])
  have hparsed : (Parser.new { name } { bytes := (declText ((.kw keyword, "") :: ws)).toUTF8 } {}).parseFile =
      (root, q) := hrun
  have hclause (x : NodeId) (hx : IsPackageClause "p" q.tree x) : Shows (shownNode (.kw .package) ["p"]) q.tree x :=
    isUnary_shows hx fun _ hleaf => isLeaf_shows hleaf (by decide)
  rw [ParsedFile.ofString, hparsed]
  exact ⟨congrArg Array.toList hclean.2, (isList_shows hfile (.cons hclause (.cons (fun _ hx => hx) .nil))).2⟩

variable {ls ws : List Word} {l m a : String}

/-- Array types are read alike, wherever they stand.  Let `ls` be the words of an expression and `ws` those of a type.
Then `[ ls ] ws` is the type of a variable, of a parameter and of a struct field, and what a type declaration stands
for, without a report and always shown the same; but in a type declaration only if the length is a lone name or does not
start with a name.  A type declaration with any other length declares a generic name instead. -/
theorem arrays_parse_alike (hl : LengthWords ls (Shows l)) (h : TypeWords ws (Shows m))
    (hwords : ∀ w ∈ ls ++ ws, Respellable w) (ha : Scanner.ScansAs .ident a) :
    let named := (.lit .ident, a) :: arrayWords ls ws
    let array := shownNode (.tag .array) [l, m]
    DeclaresAs ((.kw .var, "") :: named)
        (shownNode (.kw .var) [shownNode (.tag .valueSpec) [shownNode (.tag .names) [a], array, "nil"]]) ∧
      DeclaresAs ((.kw .func, "") :: (.lit .ident, "f") :: (.op .lparen, "") :: (named ++ [(.op .rparen, "")]))
        (shownNode (.kw .func) ["nil", "f", shownNode (.kw .func)
          [shownNode (.tag .params) [shownField a array], shownNode (.tag .results) []], "nil"]) ∧
      DeclaresAs ((.kw .type, "") :: (.lit .ident, "T") :: (.kw .struct, "") :: (.op .lbrace, "") ::
          (named ++ [(.op .rbrace, "")]))
        (shownNode (.kw .type) [shownNode (.kw .type) ["T", shownNode (.kw .struct) [shownField a array]]]) ∧
      (opensParams ls = false →
        DeclaresAs ((.kw .type, "") :: named) (shownNode (.kw .type) [shownNode (.kw .type) [a, array]])) ∧
      (opensParams ls = true → ∀ (p : Parser) (rest : List Word), p.Ready (named ++ rest) →
        ∃ n, (typeSpec grammar p).2.tree.part? (typeSpec grammar p).1 0 = some n ∧
          (typeSpec grammar p).2.tree.op n = .tag .generic) := by
  intro named array
  have hne := ha.ne_empty
  have hf : Scanner.ScansAs .ident "f" := by decide +kernel
  have hT : Scanner.ScansAs .ident "T" := by decide +kernel
  have harray : TypeWords (arrayWords ls ws) (Shows array) :=
    (typeWords_array (stable_shows l) (stable_shows m) hl h).mono fun _ _ hid =>
      isBinary_shows hid (fun _ hx => hx) fun _ hx => hx
  have hbracket : arrayWords ls ws = (.op .lbrack, "") :: (ls ++ (.op .rbrack, "") :: ws) := rfl
  have hnamed : ∀ w ∈ named, Respellable w := by
    obtain ⟨hls, hws⟩ := List.forall_mem_append.1 hwords
    rw [List.forall_mem_cons, hbracket, List.forall_mem_cons, List.forall_mem_append, List.forall_mem_cons]
    exact ⟨ha.respellable, respellable_operator _, hls, respellable_operator _, hws⟩
  have hbetween (o o' : Operator) {vs : List Word} (hvs : ∀ w ∈ vs, Respellable w) :
      ∀ w ∈ (.op o, "") :: (vs ++ [(.op o', "")]), Respellable w :=
    List.forall_mem_cons.2 ⟨respellable_operator o,
      List.forall_mem_append.2 ⟨hvs, List.forall_mem_singleton.2 (respellable_operator o')⟩⟩
  refine ⟨?_, ?_, ?_, fun hopens => ?_, fun hopens p rest hp => ?_⟩
  · exact (declWords_var hne harray).declaresAs hnamed
  · refine (declWords_func (by decide) (namedParam_array hne hl h)).declaresAs ?_
    exact List.forall_mem_cons.2 ⟨hf.respellable, hbetween .lparen .rparen hnamed⟩
  · have hstruct := typeWords_struct hne hbracket harray
    refine (declWords_type (by decide) (fun _ _ hx => hx) fun hp hrest =>
      typeSpec_plain (stable_shows _) hstruct rfl (by simp) hp hrest).declaresAs ?_
    exact List.forall_mem_cons.2 ⟨hT.respellable,
      List.forall_mem_cons.2 ⟨respellable_keyword _, hbetween .lbrace .rbrace hnamed⟩⟩
  · refine (declWords_type hne (fun _ _ hid => isBinary_shows hid (fun _ hx => hx) fun _ hx => hx) fun hp hrest =>
      typeSpec_array (stable_shows l) (stable_shows m) hl h hopens hp hrest).declaresAs hnamed
  · obtain ⟨n, t, s, vs, rfl, hmore⟩ := exists_of_opensParams hopens
    exact typeSpec_generic hp.token_eq hp.advance.token_eq hp.advance.advance.token_eq
      (hp.advance.advance.advance.token_ne hmore)

/-- A tree for `2 * N`. -/
def productTree : Tree where
  nodes := #[
    { atom := { token := .lit .int, literal := "2" } },
    { atom := { token := .lit .ident, literal := "N" } },
    { atom := { token := .op .mul }, shape := .binary (some ⟨0⟩) (some ⟨1⟩) }]

/-- The array is one of `2 * N` pointers. -/
theorem arrays_parse_alike_product :
    let ls : List Word := [(.lit .int, "2"), (.op .mul, ""), (.lit .ident, "N")]
    let ws : List Word := [(.op .mul, ""), (.lit .ident, "int")]
    let named := (.lit .ident, "A") :: arrayWords ls ws
    declText ((.kw .type, "") :: named) = "package p ; type A [ 2 * N ] * int ;" ∧
      LengthWords ls (Shows "(* 2 N)") ∧ TypeWords ws (Shows "(* int)") ∧
      DeclaresAs ((.kw .var, "") :: named) "(var (VALUE_SPEC (NAMES A) (ARRAY (* 2 N) (* int)) nil))" ∧
      DeclaresAs ((.kw .type, "") :: named) "(type (type A (ARRAY (* 2 N) (* int))))" := by
  intro ls ws named
  have htwo : productTree.Printed (.primary ⟨0⟩) [(.lit .int, "2")] :=
    .atom ⟨⟨rfl, rfl, by decide⟩, rfl, by decide +kernel⟩
  have hN : productTree.Printed (.primary ⟨1⟩) [(.lit .ident, "N")] :=
    .atom ⟨⟨rfl, rfl, by decide⟩, rfl, by decide +kernel⟩
  have hproduct : productTree.Printed (.expr 1 ⟨2⟩) ls :=
    .binary (o := .mul) ⟨rfl, rfl, by decide⟩ (by decide) (by decide) (.ofUnary (.ofPrimary htwo))
      (.ofUnary (.ofPrimary hN))
  have hl : LengthWords ls (Shows "(* 2 N)") := by
    have hrender : productTree.render ⟨2⟩ = "(* 2 N)" := by decide +kernel
    exact hrender ▸ ExprWords.length hproduct.parses
  have h : TypeWords ws (Shows "(* int)") := by
    have hshown : shownNode (.op .mul) ["int"] = "(* int)" := by decide +kernel
    refine (typeWords_pointer (stable_isLeaf _) (typeWords_name "int")).mono fun t id hid => hshown ▸ ?_
    exact isUnary_shows hid fun x hx => isLeaf_shows hx (by decide)
  have hint : Scanner.ScansAs .ident "int" := by decide +kernel
  have hwords : ∀ w ∈ ls ++ ws, Respellable w :=
    List.forall_mem_append.2 ⟨hproduct.respellable, List.forall_mem_cons.2
      ⟨respellable_operator _, List.forall_mem_singleton.2 hint.respellable⟩⟩
  obtain ⟨hvar, -, -, htype, -⟩ := arrays_parse_alike (a := "A") hl h hwords (by decide +kernel)
  have hvarShown : shownNode (.kw .var) [shownNode (.tag .valueSpec) [shownNode (.tag .names) ["A"],
      shownNode (.tag .array) ["(* 2 N)", "(* int)"], "nil"]] =
      "(var (VALUE_SPEC (NAMES A) (ARRAY (* 2 N) (* int)) nil))" := by decide +kernel
  have htypeShown : shownNode (.kw .type) [shownNode (.kw .type) ["A", shownNode (.tag .array) ["(* 2 N)", "(* int)"]]] =
      "(type (type A (ARRAY (* 2 N) (* int))))" := by decide +kernel
  exact ⟨by decide +kernel, hl, h, hvarShown ▸ hvar, htypeShown ▸ htype rfl⟩

/-- The length `p.N` makes an array of a variable, and a type parameter of a type declaration, without a report.  The
length `N+1` leaves a report as well. -/
theorem arrays_parse_alike_fails :
    let parsed (text : String) :=
      let f := ParsedFile.ofString "f" ("package p\n" ++ text ++ "\n")
      (f.render, f.diagnostics.map (·.render))
    parsed "var A [p.N]int" = ("(FILE (package p) (var (VALUE_SPEC (NAMES A) (ARRAY (. p N) int) nil)))", []) ∧
      parsed "type A [p.N]int" =
        ("(FILE (package p) (type (type (GENERIC A (PARAMS (FIELD nil (. p N) nil))) int)))", []) ∧
      parsed "var A [N+1]int" = ("(FILE (package p) (var (VALUE_SPEC (NAMES A) (ARRAY (+ N 1) int) nil)))", []) ∧
      parsed "type A [N+1]int" =
        ("(FILE (package p) (type (type (GENERIC A (PARAMS (FIELD (NAMES N) (BAD) nil) (BAD))) int)))",
          ["f:2:10: expecting type"]) := by
  decide +kernel

end GoSource
