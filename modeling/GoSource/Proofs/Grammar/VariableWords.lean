import GoSource.Proofs.Grammar.DeclarationWords

/-!
# The words of a variable

What the productions do on the words of the declaration of one variable with its type, and of a file with it.

* **`valueSpec_made`**, **`valueSpec_run`**: the specification of the variable.
* **`IsVariableFile`**: the tree of a file that declares the variable.
* **`fileNode_run`**: the words of the file are parsed into that tree, and nothing is reported.
-/

namespace GoSource.Grammar

variable {p q : Parser} {ws rest : List Word} {P : NodeProp} {name path : String}

/-! ### One variable and its type -/

/-- A type starts with no token that the production for types refuses. -/
theorem TypeWords.token_ne (h : TypeWords ws P) (hp : p.Ready (ws ++ rest)) (hrest : Follows rest) {t : Token}
    (hnone : (typeExpr? grammar { p with curr := { p.curr with token := t } }).1 = none) : p.curr.token ≠ t := by
  obtain ⟨id, q, hrun, -⟩ := h p rest hp hrest
  rintro rfl
  rw [type?_run] at hrun
  rw [hrun] at hnone
  cases hnone

/-- A type where it may be left out. -/
theorem valueType_run (h : TypeWords ws P) (hp : p.Ready (ws ++ rest)) (hrest : Follows rest) :
    ∃ id q, valueType grammar p = (some id, q) ∧ p.Reaches rest q ∧ P q.tree id := by
  obtain ⟨id, q, hrun, hreaches, hid⟩ := h.run hp hrest
  refine ⟨id, q, ?_, hreaches, hid⟩
  rw [valueType, run_bind (tok_run p)]
  refine (congrFun (g := some <$> grammar.type) ?_ p).trans (run_map hrun)
  split
  · exact absurd ‹_› (h.token_ne hp hrest rfl)
  · exact absurd ‹_› (h.token_ne hp hrest rfl)
  · exact absurd ‹_› (h.token_ne hp hrest rfl)
  · exact absurd ‹_› (h.token_ne hp hrest rfl)
  · rfl

/-- A list of one name. -/
theorem nameList_run (hp : p.Ready ((.lit .ident, name) :: rest))
    (hcomma : ∀ q : Parser, q.Ready rest → q.curr.token ≠ .op .comma) :
    ∃ id q, nameList p = (id, q) ∧ p.Reaches rest q ∧ IsList (.tag .names) [IsLeaf (.lit .ident, name)] q.tree id := by
  have hstart : p.Reaches ((.lit .ident, name) :: rest) (bare p) := (Parser.Reaches.refl hp).bare
  obtain ⟨x, q, hrun, hreaches, hx⟩ := parseIdent_run hstart.ready
  refine ⟨nextId q, withNode q (atomOf p (.tag .names)) (.list [some x]), ?_, (hstart.trans hreaches).withNode _ _,
    isList_add (by simpa using stable_isLeaf _) rfl (.cons hx .nil)⟩
  have hmore : namesLoop.more q.curr.token = false := beq_eq_false_iff_ne.2 (hcomma q hreaches.ready)
  rw [nameList, run_bind (makeAtom_run _ p), run_bind hrun, moreNames, run_bind (Loop.run_stop hmore), add_run]
  rfl

theorem stable_names (name : String) : Stable (IsList (.tag .names) [IsLeaf (.lit .ident, name)]) :=
  stable_isList (by simpa using stable_isLeaf _)

/-- The specification of one variable, with its type and without a value. -/
def IsVariableSpec (name : String) (P : NodeProp) : NodeProp := fun tree id =>
  ∃ atom names typ, tree.Holds id { atom, shape := .list [some names, some typ, none] } ∧
    atom.token = .tag .valueSpec ∧ IsList (.tag .names) [IsLeaf (.lit .ident, name)] tree names ∧ P tree typ

theorem stable_isVariableSpec (hP : Stable P) : Stable (IsVariableSpec name P) where
  index_lt := fun ⟨_, _, _, hholds, _⟩ => hholds.index_lt
  grow := fun ⟨atom, names, typ, hholds, hatom, hnames, htyp⟩ hgrows =>
    ⟨atom, names, typ, hholds.grow hgrows, hatom, (stable_names name).grow hnames hgrows, hP.grow htyp hgrows⟩

/-- The node of the specification is made of the list of names and the type. -/
theorem valueSpec_made (h : TypeWords ws P) (hp : p.Ready ((.lit .ident, name) :: (ws ++ rest)))
    (hrest : Follows rest) :
    ∃ names typ q, valueSpec grammar p =
        (nextId q, withNode q (atomOf p (.tag .valueSpec)) (.list [some names, some typ, none])) ∧
      p.Reaches rest q ∧ IsList (.tag .names) [IsLeaf (.lit .ident, name)] q.tree names ∧ P q.tree typ := by
  have hstart : p.Reaches ((.lit .ident, name) :: (ws ++ rest)) (bare p) := (Parser.Reaches.refl hp).bare
  obtain ⟨names, q₁, hnames, hreaches₁, hisNames⟩ := nameList_run hstart.ready fun q hq => h.token_ne hq hrest rfl
  obtain ⟨typ, q₂, htyp, hreaches₂, hisType⟩ := valueType_run h hreaches₁.ready hrest
  have hvalues : initialValues grammar q₂ = (none, q₂) := by
    have hassign : q₂.curr.token ≠ .op .assign := hrest.token_ne hreaches₂.ready rfl
    rw [initialValues, run_bind (tok_run q₂), if_pos hassign]
    rfl
  refine ⟨names, typ, q₂, ?_, (hstart.trans hreaches₁).trans hreaches₂,
    (stable_names name).grow hisNames hreaches₂.grows, hisType⟩
  rw [valueSpec, run_bind (makeAtom_run _ p), run_bind hnames, run_bind htyp, run_bind hvalues, add_run]

theorem valueSpec_run (hP : Stable P) (h : TypeWords ws P)
    (hp : p.Ready ((.lit .ident, name) :: (ws ++ rest))) (hrest : Follows rest) :
    ∃ id q, valueSpec grammar p = (id, q) ∧ p.Reaches rest q ∧ IsVariableSpec name P q.tree id := by
  obtain ⟨names, typ, q, hrun, hreaches, hnames, htyp⟩ := valueSpec_made h hp hrest
  have hgrows := grows_withNode q (atomOf p (.tag .valueSpec)) (.list [some names, some typ, none])
  exact ⟨_, _, hrun, hreaches.withNode _ _, _, names, typ, holds_withNode _ _ _, rfl,
    (stable_names name).grow hnames hgrows, hP.grow htyp hgrows⟩

/-! ### The file -/

/-- The declaration of one variable. -/
abbrev IsVariable (name : String) (P : NodeProp) : NodeProp :=
  IsList (.kw .var) [IsVariableSpec name P]

theorem declWords_variable (hP : Stable P) (h : TypeWords ws P) :
    DeclWords .var ((.lit .ident, name) :: ws) (IsVariable name P) where
  mem_keywords := by decide
  run {p rest} hp hrest := by
    have hstart := (Parser.Reaches.refl hp).advance
    obtain ⟨x, q, hrun, hreaches, hx⟩ := valueSpec_run hP h hstart.ready hrest
    have hparen : p.advance.curr.token ≠ .op .lparen := hstart.ready.token_ne (by decide)
    rw [declaration, run_bind (tok_run p), hp.token_eq]
    exact genDecl_run (stable_isVariableSpec hP) hparen hp hrun hreaches hx

/-- A file of a package clause and the declaration of one variable. -/
abbrev IsVariableFile (path name : String) (P : NodeProp) : NodeProp :=
  IsDeclFile path (IsVariable name P)

/-- The words of a package clause and of a variable are a file, and nothing is reported. -/
theorem fileNode_run (hP : Stable P) (h : TypeWords ws P)
    (hp : p.Ready ((.kw .package, "") :: (.lit .ident, path) :: (.op .semicolon, "") ::
      (.kw .var, "") :: (.lit .ident, name) :: (ws ++ [(.op .semicolon, "")])))
    (hdecls : p.mode.decls = true) :
    ∃ id q, fileNode p = (id, q) ∧ q.journal.Clean ∧ IsVariableFile path name P q.tree id :=
  fileNode_decl_run (stable_isList (by simpa using stable_isVariableSpec hP)) (declWords_variable hP h) hp hdecls

end GoSource.Grammar
