import GoSource.Proofs.Grammar.SignatureWords

/-!
# The words of a file with one declaration

What the production for files does on the words of a package clause and one declaration.

* **`DeclWords`**: the words after a keyword are a declaration.
* **`fileNode_decl_run`**: the words of a file with one declaration are parsed, and nothing is reported.
-/

namespace GoSource.Grammar

variable {p q : Parser} {ws rest : List Word} {P : NodeProp} {name path : String} {keyword : Keyword}

/-! ### Declarations -/

/-- The keywords of declarations that are no imports. -/
def declKeywords : List Keyword :=
  [.const, .var, .type, .func]

/-- The words `ws` after the keyword are a declaration with the property `P`. -/
structure DeclWords (keyword : Keyword) (ws : List Word) (P : NodeProp) : Prop where
  mem_keywords : keyword ∈ declKeywords
  run : ∀ {p rest}, p.Ready ((.kw keyword, "") :: (ws ++ rest)) → Follows rest →
    ∃ id q, declaration grammar p = (id, q) ∧ p.Reaches rest q ∧ q.tree.op id = .kw keyword ∧ P q.tree id

/-- A declaration of one specification. -/
theorem genDecl_run {spec : ParseM NodeId} {x : NodeId} (hP : Stable P) (hparen : p.advance.curr.token ≠ .op .lparen)
    (hp : p.Ready ((.kw keyword, "") :: ws)) (hrun : spec p.advance = (x, q)) (hreaches : p.advance.Reaches rest q)
    (hx : P q.tree x) :
    ∃ id r, genDecl keyword spec p = (id, r) ∧ p.Reaches rest r ∧ r.tree.op id = .kw keyword ∧
      IsList (.kw keyword) [P] r.tree id := by
  refine ⟨nextId q, withNode q (atomOf p (.kw keyword)) (.list [some x]), ?_,
    ((Parser.Reaches.refl hp).advance.trans hreaches).withNode _ _, (holds_withNode _ _ _).op_eq,
    isList_add (by simpa using hP) rfl (.cons hx .nil)⟩
  refine (lead_run (.kw keyword) p).trans ?_
  rw [run_bind (tok_run _), if_pos hparen, run_bind hrun, add_run]

/-! ### Items -/

/-- A package clause. -/
abbrev IsPackageClause (path : String) : NodeProp :=
  IsUnary (.kw .package) (IsLeaf (.lit .ident, path))

theorem packageClause_run (hp : p.Ready ((.kw .package, "") :: (.lit .ident, path) :: rest)) :
    ∃ id q, packageClause p = (id, q) ∧ p.Reaches rest q ∧ IsPackageClause path q.tree id := by
  have hstart := (Parser.Reaches.refl hp).advance
  obtain ⟨x, q, hrun, hreaches, hx⟩ := parseIdent_run hstart.ready
  refine ⟨nextId q, withNode q (atomOf p (.kw .package)) (.unary (some x)), ?_,
    (hstart.trans hreaches).withNode _ _, isUnary_add (stable_isLeaf _) rfl hx⟩
  refine (lead_run (.kw .package) p).trans ?_
  rw [run_bind hrun, add_run]

theorem get_run (p : Parser) : (get : ParseM Parser) p = (p, p) := rfl

theorem item?_of_semicolon (h : p.curr.token = .op .semicolon) : item? p = itemBody? p.advance := by
  rw [item?, run_bind (tok_run p), if_pos h]
  rfl

theorem item?_of_ne_semicolon (h : p.curr.token ≠ .op .semicolon) : item? p = itemBody? p := by
  rw [item?, run_bind (tok_run p), if_neg h]

/-- A package clause or a declaration is the next item of the file. -/
structure ItemRun (p : Parser) (id : NodeId) (q : Parser) : Prop where
  run : item? p = (some id, q)
  op_eq : ∃ keyword ∈ .package :: declKeywords, q.tree.op id = .kw keyword
  left_lt : q.left < p.left

theorem ItemRun.fileLoop_run {id : NodeId} (h : ItemRun p id q) (decls : List Child) :
    fileLoop.run decls p = fileLoop.run (decls ++ [some id]) q := by
  obtain ⟨keyword, hkeyword, hop⟩ := h.op_eq
  have htop : isTopLevel q.tree id = true := by
    rw [isTopLevel, hop, Bool.or_eq_true]
    right
    clear hop
    revert keyword
    decide
  have heof : q.tree.op id ≠ .eof := by
    rw [hop]
    exact nofun
  have hcheck : checkTopLevel (some id) q = ((), q) := by
    rw [checkTopLevel, run_bind (get_run q), Option.filter_some, htop]
    rfl
  refine Loop.run_again (Loop.Reads.advances fun n => fileLoop_reads) rfl ?_
  rw [fileLoop]
  dsimp only
  rw [run_bind (left_run p), run_bind h.run, run_bind (get_run q), if_neg (by simpa using heof),
    run_bind hcheck, run_bind (left_run q), if_neg (Nat.ne_of_lt h.left_lt)]
  rfl

/-- The items end with the text. -/
theorem fileLoop_run_eof (hp : p.Ready [(.op .semicolon, "")]) (decls : List Child) :
    ∃ q, fileLoop.run decls p = (decls, q) ∧ p.Reaches [] q := by
  have hnext := (Parser.Reaches.refl hp).advance
  refine ⟨withNode (bare p.advance) (atomOf p.advance .eof) .leaf, ?_, hnext.bare.withNode _ _⟩
  have hitem : item? p = (some (nextId p.advance), withNode (bare p.advance) (atomOf p.advance .eof) .leaf) := by
    rw [item?_of_semicolon hp.token_eq, itemBody?, run_bind (get_run _), run_bind (tok_run _),
      if_pos hnext.ready.eof]
    refine run_map ?_
    rw [makeEof, run_bind (makeAtom_run _ _), add_run]
    rfl
  have hop : (withNode (bare p.advance) (atomOf p.advance .eof) .leaf).tree.op (nextId p.advance) = .eof :=
    (holds_withNode (bare p.advance) (atomOf p.advance .eof) .leaf).op_eq
  refine Loop.run_done rfl ?_
  rw [fileLoop]
  dsimp only
  rw [run_bind (left_run p), run_bind hitem, run_bind (get_run _), if_pos (by simpa using hop)]
  rfl

theorem item?_packageClause (hp : p.Ready ((.kw .package, "") :: (.lit .ident, path) :: rest)) :
    ∃ id q, ItemRun p id q ∧ p.Reaches rest q ∧ IsPackageClause path q.tree id := by
  obtain ⟨id, q, hrun, hreaches, hid⟩ := packageClause_run hp
  refine ⟨id, q, ⟨?_, ⟨.package, List.mem_cons_self, ?_⟩, ?_⟩, hreaches, hid⟩
  · have hsemicolon : p.curr.token ≠ .op .semicolon := hp.token_ne (by decide)
    rw [item?_of_ne_semicolon hsemicolon, itemBody?, run_bind (get_run p), run_bind (tok_run p), hp.token_eq]
    exact run_map hrun
  · obtain ⟨atom, x, hholds, hatom, -⟩ := hid
    exact hholds.op_eq.trans hatom
  · rw [hreaches.ready.left_eq, hp.left_eq]
    simp only [List.length_cons]
    omega

theorem item?_decl (h : DeclWords keyword ws P)
    (hp : p.Ready ((.op .semicolon, "") :: (.kw keyword, "") :: (ws ++ rest))) (hrest : Follows rest)
    (hdecls : p.mode.decls = true) : ∃ id q, ItemRun p id q ∧ p.Reaches rest q ∧ P q.tree id := by
  have hnext := (Parser.Reaches.refl hp).advance
  obtain ⟨id, q, hrun, hreaches, hop, hid⟩ := h.run hnext.ready hrest
  refine ⟨id, q, ⟨?_, ⟨keyword, List.mem_cons_of_mem _ h.mem_keywords, hop⟩, ?_⟩, hnext.trans hreaches, hid⟩
  · rw [item?_of_semicolon hp.token_eq, itemBody?, run_bind (get_run _), run_bind (tok_run _),
      hnext.ready.token_eq, hnext.mode_eq, hdecls]
    have hkeyword := h.mem_keywords
    have hitem : (some <$> Grammar.run declaration) p.advance = (some id, q) := by
      rw [run_declaration]
      exact run_map hrun
    simp only [declKeywords, List.mem_cons, List.not_mem_nil, or_false] at hkeyword
    rcases hkeyword with rfl | rfl | rfl | rfl
    · exact hitem
    · exact hitem
    · exact hitem
    · exact hitem
  · rw [hreaches.ready.left_eq, hp.left_eq]
    simp only [List.length_cons, List.length_append]
    omega

/-! ### The file -/

/-- A file of a package clause and one declaration. -/
abbrev IsDeclFile (path : String) (P : NodeProp) : NodeProp :=
  IsList (.tag .file) [IsPackageClause path, P]

/-- The words of a package clause and of a declaration are a file, and nothing is reported. -/
theorem fileNode_decl_run (hP : Stable P) (h : DeclWords keyword ws P)
    (hp : p.Ready ((.kw .package, "") :: (.lit .ident, path) :: (.op .semicolon, "") ::
      (.kw keyword, "") :: (ws ++ [(.op .semicolon, "")])))
    (hdecls : p.mode.decls = true) :
    ∃ id q, fileNode p = (id, q) ∧ q.journal.Clean ∧ IsDeclFile path P q.tree id := by
  obtain ⟨clause, q₁, hclause, hreaches₁, hisClause⟩ := item?_packageClause hp
  obtain ⟨decl, q₂, hdecl, hreaches₂, hisDecl⟩ := item?_decl h hreaches₁.ready (.cons rfl _ _)
    (hreaches₁.mode_eq ▸ hdecls)
  obtain ⟨q₃, hend, hreaches₃⟩ := fileLoop_run_eof hreaches₂.ready [some clause, some decl]
  have hclauseStable : Stable (IsPackageClause path) := stable_isUnary (stable_isLeaf _)
  refine ⟨nextId q₃, withNode q₃ (Tree.tagAt (.tag .file) p.curr.pos) (.list [some clause, some decl]), ?_,
    hreaches₃.ready.clean, isList_add ?_ rfl (.cons ?_ (.cons ?_ .nil))⟩
  · rw [fileNode, run_bind (here_run p)]
    rw [run_bind ((hclause.fileLoop_run []).trans ((hdecl.fileLoop_run [some clause]).trans hend)), add_run]
  · simp only [List.mem_cons, List.not_mem_nil, or_false, forall_eq_or_imp, forall_eq]
    exact ⟨hclauseStable, hP⟩
  · exact hclauseStable.grow hisClause (hreaches₂.grows.trans hreaches₃.grows)
  · exact hP.grow hisDecl hreaches₃.grows

end GoSource.Grammar
