import GoSource.Proofs.Grammar.Forest
import GoSource.Proofs.Grammar.Restart
import GoSource.Proofs.Grammar.Tags
import GoSource.Proofs.Grammar.TwinRuns

/-!
# Modes only filter

What a mode leaves out of a tree changes nothing else in it.  Without comments the nodes of a file are those with
comments, less the comments; without imports they are the same nodes, and the file lists its items but the import
declarations.

* **`NoImport x`**: the node `x` is no import declaration.
* **`itemBody?_drops`**, **`item?_drops`**: an item, where imports are kept and where they are left out.
* **`fileLoop_drops`**: all items of a file.
* **`parseFile_modes`**: the parses of a file in two modes.
-/

namespace GoSource

/-- The nodes less the comments of their atoms. -/
def Tree.withoutComments (t : Tree) : Tree :=
  { nodes := t.nodes.map fun n => { n with atom := { n.atom with comments := [] } } }

theorem Tree.node_withoutComments (t : Tree) (id : NodeId) :
    t.withoutComments.node id = { t.node id with atom := { (t.node id).atom with comments := [] } } := by
  unfold withoutComments node
  dsimp only
  rw [Array.getElem?_map]
  cases t.nodes[id.index]? <;> rfl

namespace Grammar

variable {g : Rules}

/-! ### Import declarations

Only an item that starts with `import` is an import declaration. -/

/-- The node is no import declaration. -/
def NoImport (x : NodeId) (p : Parser) : Prop :=
  p.tree.op x ≠ .kw .import_

/-- No node that an action returns is an import declaration. -/
def NoImports (x : Child) (p : Parser) : Prop :=
  ∀ y, x = some y → NoImport y p

theorem Headless.noImport {x : NodeId} {p : Parser} (h : Headless x p) : NoImport x p := by
  intro himport
  rw [Headless, himport] at h
  cases h

theorem AllHeadless.noImports {x : Child} {p : Parser} (h : AllHeadless x p) : NoImports x p :=
  fun y hy => (h y hy).noImport

theorem declaration_noImport {t : Token} (ht : t ≠ .kw .import_) :
    Agree (fun p => p.curr.token = t) (declaration g) (declaration g) NoImport := by
  by_cases hvar : t = .kw .var
  · subst hvar
    have htagged : Agree (fun p => True ∧ p.curr.token = .kw .var) (declaration g) (declaration g) fun x p =>
        p.tree.op x = .kw .var :=
      .tok_eq (genDecl_tagged .var (valueSpec g))
    refine htagged.mono (fun p hp => ⟨trivial, hp⟩) fun x p hx himport => ?_
    cases hx.symm.trans himport
  · have hheads : t.heads = false := Token.heads_eq_false fun h => h.elim ht hvar
    exact declaration_foreign.mono (fun p hp => hp ▸ hheads) fun _ _ => Headless.noImport

/-! ### Items with and without imports -/

/-- Runs that have read nothing are alike in their comments. -/
theorem no_comments : ([] : List String) = [] :=
  rfl

/-- Two runs of which only the first returns imports. -/
def importPairing : Pairing where
  journals := Eq
  comments := Eq
  modes m m' := m.imports = true ∧ m.decls = true ∧ m' = { m with imports := false }
  journals_report _ h := by rw [h]
  journals_complain _ h := by rw [h]
  comments_nil := no_comments
  comments_kept h _ := by rw [h.2.2]

/-- Whether a node stays where imports are left out. -/
def keeps (t : Tree) (x : NodeId) : Bool :=
  t.op x ≠ .kw .import_

/-- At the token `t`, the second run does what the first one does, but returns no import declaration. -/
def Drops (t : Token) (m m' : ParseM Child) : Prop :=
  ∀ p q, importPairing.Twins p q → p.curr.token = t →
    (m' q).1 = (m p).1.filter (keeps (m p).2.tree) ∧ importPairing.Twins (m p).2 (m' q).2

namespace Drops

variable {t : Token} {m m' : ParseM Child}

/-- What returns no import declaration anyway is the same in both runs. -/
theorem of_alike (h : importPairing.Alike m m') (hm : Agree (fun p => p.curr.token = t) m m NoImports) :
    Drops t m m' := by
  intro p q hpq ht
  obtain ⟨heq, htwins⟩ := h p q hpq
  refine ⟨heq.trans ?_, htwins⟩
  have hforeign := (hm p ht).2
  cases hx : (m p).1 with
  | none => rfl
  | some x =>
      have hne : (m p).2.tree.op x ≠ .kw .import_ := hforeign x hx
      simp [Option.filter, keeps, hne]

theorem some_of_alike {m m' : ParseM NodeId} (h : importPairing.Alike m m')
    (hm : Agree (fun p => p.curr.token = t) m m NoImport) : Drops t (some <$> m) (some <$> m') := by
  refine .of_alike (h.map some) (hm.map fun x p hx => ?_)
  rintro y ⟨⟩
  exact hx

theorem ite {b : Prop} [Decidable b] {l l' r r' : ParseM Child} (hl : b → Drops t l l') (hr : ¬ b → Drops t r r') :
    Drops t (if b then l else r) (if b then l' else r') := by
  by_cases hb : b
  · rw [if_pos hb, if_pos hb]
    exact hl hb
  · rw [if_neg hb, if_neg hb]
    exact hr hb

theorem get {k k' : Parser → ParseM Child} (h : ∀ p q, importPairing.Twins p q → Drops t (k p) (k' q)) :
    Drops t (MonadState.get >>= k) (MonadState.get >>= k') :=
  fun p q hpq ht => h p q hpq p q hpq ht

theorem tok {f f' : Token → ParseM Child} (h : Drops t (f t) (f' t)) :
    Drops t (Grammar.tok >>= f) (Grammar.tok >>= f') := by
  rintro p q hpq rfl
  show (f' q.curr.token q).1 = _ ∧ importPairing.Twins (f p.curr.token p).2 (f' q.curr.token q).2
  rw [hpq.curr.token_eq]
  exact h p q hpq rfl

end Drops

/-- An import declaration is dropped. -/
theorem importDecl_drops : Drops (.kw .import_) (some <$> importDecl) (importDecl >>= fun _ => pure none) := by
  intro p q hpq _
  obtain ⟨-, htwins⟩ := importDecl_alike (c := importPairing) p q hpq
  have himport : (importDecl p).2.tree.op (importDecl p).1 = .kw .import_ :=
    (genDecl_tagged (P := fun _ => True) .import_ importSpec p trivial).2
  refine ⟨?_, htwins⟩
  show none = (some (importDecl p).1).filter (keeps (importDecl p).2.tree)
  simp [Option.filter, keeps, himport]

theorem itemBody?_drops (t : Token) : Drops t itemBody? itemBody? := by
  have hend : Drops t (some <$> makeEof) (some <$> makeEof) :=
    .some_of_alike makeEof_alike ((Agree.tagged rfl fun a ha => add_foreign ha).post fun _ _ => Headless.noImport)
  refine .get fun p q hpq => ?_
  obtain ⟨himports, hdecls, hmode⟩ := hpq.modes
  dsimp only
  rw [hmode]
  refine .tok (.ite (fun _ => hend) fun _ => .ite (fun _ => ?_) fun _ => .ite (fun ht => ?_) fun hne => ?_)
  · refine .some_of_alike packageClause_alike (Agree.post ?_ fun _ _ => Headless.noImport)
    exact .tagged rfl fun a ha => .after fun _ => .after fun _ => add_foreign ha
  · subst ht
    rw [if_pos himports, if_neg Bool.false_ne_true, if_pos hdecls]
    exact importDecl_drops
  refine .ite (fun _ => .of_alike (.pure none) (.pure fun _ _ => nofun)) fun _ => .ite (fun _ => hend) fun _ => ?_
  refine .ite (fun hclosing => ?_) fun _ => .ite (fun _ => ?_) fun hdecl => ?_
  · refine .some_of_alike (strayClosing_alike t) (Agree.post ?_ fun _ _ => Headless.noImport)
    exact strayClosing_foreign (Token.heads_of_isClosing hclosing)
  · refine .some_of_alike (run_production_alike fun _ => declaration_alike) ?_
    rw [run_declaration]
    exact declaration_noImport hne
  · have hheads : t.heads = false := Token.heads_of_not_isDecl hdecl
    refine .of_alike (run_production_alike fun _ => statement?_alike) ?_
    rw [run_statement?]
    exact (statement?_foreign grammar_closed).mono (fun p hp => hp ▸ hheads) fun _ _ => AllHeadless.noImports

/-- The items of a file are the same without imports, but the import declarations are not among them. -/
theorem item?_drops {p q : Parser} (hpq : importPairing.Twins p q) :
    (item? q).1 = (item? p).1.filter (keeps (item? p).2.tree) ∧ importPairing.Twins (item? p).2 (item? q).2 := by
  have hnext : Drops p.curr.token (next >>= fun _ => itemBody?) (next >>= fun _ => itemBody?) :=
    fun p q hpq _ => itemBody?_drops _ _ _ hpq.advance rfl
  have hitem : Drops p.curr.token item? item? :=
    .tok (.ite (fun _ => hnext) fun _ => itemBody?_drops _)
  exact hitem p q hpq rfl

/-! ### Files -/

/-- The parts that stay where imports are left out. -/
def kept (t : Tree) (items : List Child) : List Child :=
  items.filter (·.all (keeps t))

/-- What is made later changes nothing in this. -/
theorem Planted.kept_of_grows {items : List Child} {p : Parser} {t : Tree} (h : Planted (push items [], p))
    (hgrows : p.tree.Grows t) : kept t items = kept p.tree items := by
  refine List.filter_congr fun c hc => ?_
  cases c with
  | none => rfl
  | some x =>
      have hmade : x.index < p.tree.size := by
        refine h.made x ?_
        rw [inHand_push]
        exact List.mem_append_left _ (List.mem_reverse.2 (List.mem_flatMap.2 ⟨some x, hc, List.mem_singleton.2 rfl⟩))
      have hop : t.op x = p.tree.op x := by
        unfold Tree.op
        rw [hgrows.node_eq x hmade]
      simp [keeps, hop]

theorem kept_append (t : Tree) (items : List Child) (x : Child) :
    kept t (items ++ x.toList.map some) = kept t items ++ (x.filter (keeps t)).toList.map some := by
  cases x with
  | none => simp
  | some x => by_cases hx : keeps t x <;> simp [kept, Option.filter, hx]

/-- Import declarations may stand at the top level, so what is reported of items is the same. -/
theorem checkTopLevel_drops {p q : Parser} (hpq : importPairing.Twins p q) (item : Child) :
    importPairing.Twins (checkTopLevel item p).2 (checkTopLevel (item.filter (keeps p.tree)) q).2 := by
  cases item with
  | none => exact hpq
  | some x =>
      by_cases hx : p.tree.op x = .kw .import_
      · have htop : isTopLevel p.tree x = true := by
          unfold isTopLevel
          rw [hx]
          exact Bool.or_true _
        have hdropped : (some x).filter (keeps p.tree) = none := by simp [Option.filter, keeps, hx]
        have hnone : (some x).filter (fun n => !isTopLevel p.tree n) = none := by simp [Option.filter, htop]
        have hquiet : (checkTopLevel (some x) p).2 = p := by
          rw [checkTopLevel, run_bind (get_run p), hnone]
          rfl
        rw [hdropped, hquiet]
        exact hpq
      · have hkept : (some x).filter (keeps p.tree) = some x := by simp [Option.filter, keeps, hx]
        rw [hkept]
        exact (checkTopLevel_alike _ p q hpq).2

/-- The loop over the items ends with the one that is the end. -/
theorem fileLoop_run_end {p p' : Parser} {item : Child} (items : List Child) (hitem : item? p = (item, p'))
    (hend : item.any (p'.tree.op · = .eof) = true) : fileLoop.run items p = (items, p') := by
  refine Loop.run_done rfl ?_
  rw [fileLoop]
  dsimp only
  rw [run_bind (left_run p), run_bind hitem, run_bind (get_run _), if_pos hend]
  rfl

/-- Otherwise it goes on, if the item passed over a token. -/
theorem fileLoop_run_on {p p' : Parser} {item : Child} (items : List Child) (hitem : item? p = (item, p'))
    (hend : ¬ item.any (p'.tree.op · = .eof) = true) (hleft : (checkTopLevel item p').2.left < p.left) :
    fileLoop.run items p = fileLoop.run (items ++ item.toList.map some) (checkTopLevel item p').2 := by
  have hcheck : checkTopLevel item p' = ((), (checkTopLevel item p').2) := rfl
  refine Loop.run_again (Loop.Reads.advances fun n => fileLoop_reads) rfl ?_
  rw [fileLoop]
  dsimp only
  rw [run_bind (left_run p), run_bind hitem, run_bind (get_run _), if_neg hend, run_bind hcheck,
    run_bind (left_run _), if_neg (Nat.ne_of_lt hleft)]
  rfl

/-- The items of a file without imports are those with imports, less the import declarations. -/
theorem fileLoop_drops {p q : Parser} (hpq : importPairing.Twins p q) (items : List Child)
    (hplanted : Planted (push items [], p)) :
    (fileLoop.run (kept p.tree items) q).1 = kept (fileLoop.run items p).2.tree (fileLoop.run items p).1 ∧
      importPairing.Twins (fileLoop.run items p).2 (fileLoop.run (kept p.tree items) q).2 := by
  induction hj : p.left using Nat.strongRecOn generalizing p q items with
  | ind j ih =>
    subst hj
    obtain ⟨hdropped, htwins⟩ := item?_drops hpq
    have hitemized := (item?_itemized p (Within.refl (w := push items []) (Nat.lt_succ_self p.left))).2
    rcases hp : item? p with ⟨item, p'⟩
    rcases hq : item? q with ⟨item', q'⟩
    rw [hp, hq] at hdropped htwins
    rw [hp] at hitemized
    dsimp only at hdropped htwins hitemized
    subst hdropped
    have hmoves := hitemized.within.moves
    have hkept := hplanted.kept_of_grows hmoves.grows
    -- The end is no import declaration, so it is there in both runs.
    have hend : (item.filter (keeps p'.tree)).any (q'.tree.op · = .eof) = item.any (p'.tree.op · = .eof) := by
      simp only [htwins.tree.op_eq]
      cases item with
      | none => rfl
      | some x => by_cases hx : p'.tree.op x = .kw .import_ <;> simp [Option.filter, keeps, hx]
    by_cases heof : item.any (p'.tree.op · = .eof) = true
    · rw [fileLoop_run_end _ hp heof, fileLoop_run_end _ hq (hend.trans heof)]
      exact ⟨hkept.symm, htwins⟩
    · have hconsumed := hitemized.resolve_right fun h => heof h.2
      have hleft := (checkTopLevel_reads (n := p.left) item _ (Nat.le_refl _) _ _ _ hconsumed).2.left_lt
      have hcheck := Reads.moves (fun n => checkTopLevel_reads item) (push (items ++ item.toList.map some) []) p'
      have hplanted' : Planted (push (items ++ item.toList.map some) [], p') := by
        rw [push_append, push_map_some, push_toList]
        exact hmoves.planted hplanted
      have hitems : kept (checkTopLevel item p').2.tree (items ++ item.toList.map some) =
          kept p.tree items ++ (item.filter (keeps p'.tree)).toList.map some := by
        rw [hplanted'.kept_of_grows hcheck.grows, kept_append, hkept]
      have hnext := checkTopLevel_drops htwins item
      rw [fileLoop_run_on items hp heof hleft,
        fileLoop_run_on _ hq (hend ▸ heof) (by rw [hnext.left_eq, hpq.left_eq]; exact hleft), ← hitems]
      exact ih _ hleft hnext _ (hcheck.planted hplanted') rfl

/-- The outcome `y` of parsing a file without imports, beside the outcome `x` with them: the root lists fewer items,
and nothing else differs. -/
structure WithoutImports (x y : NodeId × Parser) : Prop where
  root_eq : y.1 = x.1
  size_eq : y.2.tree.size = x.2.tree.size
  node_eq : ∀ id, id ≠ x.1 → y.2.tree.node id = x.2.tree.node id
  items : ∃ atom items, x.2.tree.node x.1 = { atom, shape := .list items } ∧
    y.2.tree.node x.1 = { atom, shape := .list (kept x.2.tree items) }
  file_eq : y.2.file = x.2.file
  journal_eq : y.2.journal = x.2.journal

theorem fileNode_drops {p q : Parser} (hpq : importPairing.Twins p q) (htree : p.tree = {}) :
    WithoutImports (fileNode p) (fileNode q) := by
  obtain ⟨hitems, htwins⟩ := fileLoop_drops hpq [] (planted_empty htree)
  have hplanted := (Reads.moves (fun n _ hk _ _ => (fileLoop_reads (n := n)).run hk []) [] p).planted
    (planted_empty htree)
  rcases hp : fileLoop.run [] p with ⟨items, p'⟩
  have hnone : kept p.tree [] = [] := rfl
  rw [hnone] at hitems htwins
  rcases hq : fileLoop.run [] q with ⟨items', q'⟩
  rw [hp, hq] at hitems htwins
  rw [hp] at hplanted
  dsimp only at hitems htwins hplanted
  subst hitems
  have htrees : q'.tree = p'.tree := htwins.tree.eq id
  have hkept : kept (withNode p' (Tree.tagAt (.tag .file) p.curr.pos) (.list items)).tree items = kept p'.tree items :=
    hplanted.kept_of_grows (grows_withNode _ _ _)
  have hhere (p : Parser) : here p = (p.curr.pos, p) := rfl
  rw [fileNode, run_bind (hhere p), run_bind (hhere q), run_bind hp, run_bind hq, add_run, add_run, hpq.curr.pos_eq]
  have hnext : nextId q' = nextId p' := congrArg (fun t : Tree => NodeId.mk t.nodes.size) htrees
  refine ⟨hnext, ?_, fun id hid => ?_, ⟨Tree.tagAt (.tag .file) p.curr.pos, items, ?_, ?_⟩, htwins.file_eq,
    htwins.journals.symm⟩
  · simp [withNode, Tree.size, htrees]
  · rw [node_withNode, node_withNode, if_neg hid, if_neg (hnext ▸ hid), htrees]
  · rw [node_withNode, if_pos rfl]
  · rw [node_withNode, if_pos hnext.symm, hkept]

/-! ### Files with and without comments -/

/-- Two runs of which only the second keeps comments. -/
def commentPairing : Pairing where
  journals := Eq
  comments l _ := l = []
  modes m m' := m.comments = false ∧ m' = { m with comments := true }
  journals_report _ h := by rw [h]
  journals_complain _ h := by rw [h]
  comments_nil := no_comments
  comments_kept h _ := by rw [h.1]; rfl

/-- The outcome `y` of parsing a file with comments, beside the outcome `x` without them: nothing differs but the
comments of the atoms. -/
structure WithComments (x y : NodeId × Parser) : Prop where
  root_eq : y.1 = x.1
  tree_eq : y.2.tree.withoutComments = x.2.tree
  file_eq : y.2.file = x.2.file
  journal_eq : y.2.journal = x.2.journal

theorem withoutComments_of_twins {t t' : Tree} (h : commentPairing.TreeTwins t t') : t'.withoutComments = t := by
  refine Tree.ext_node (by simp [Tree.withoutComments, h.size_eq]) fun id => ?_
  rw [Tree.node_withoutComments]
  rcases hnode : t.node id with ⟨⟨token, pos, stop, literal, comments⟩, shape⟩
  rcases hnode' : t'.node id with ⟨⟨token', pos', stop', literal', comments'⟩, shape'⟩
  obtain ⟨⟨rfl, rfl, rfl, rfl, rfl⟩, rfl⟩ := hnode ▸ hnode' ▸ h.node id
  rfl

theorem fileNode_withComments {p q : Parser} (hpq : commentPairing.Twins p q) :
    WithComments (fileNode p) (fileNode q) := by
  have haccepts : commentPairing.Accepts := fun h => by rw [h.2]; exact ⟨rfl, rfl⟩
  obtain ⟨hroot, htwins⟩ := fileNode_alike haccepts p q hpq
  exact ⟨hroot, withoutComments_of_twins htwins.tree, htwins.file_eq, htwins.journals.symm⟩

/-! ### Two modes -/

/-- The same file in two modes, at its start. -/
theorem Pairing.twins_init {c : Pairing} (p : Parser) (file : SourceFile) (source : ByteSource) {mode mode' : Mode}
    (hmodes : c.modes mode mode') (hjournals : ∀ j, c.journals j j) :
    c.Twins (p.init file source mode) (p.init file source mode') := by
  let start (mode : Mode) : Parser :=
    { p with scanner := p.scanner.init file source, mode, tree := {}, curr := {}, ahead := none, compositeOk := true }
  refine Twins.advance (p := start mode) (q := start mode') ⟨rfl, hjournals _, ⟨rfl, fun _ => ?_⟩, hmodes, ?_, ?_, rfl⟩
  · exact ⟨.bare rfl, rfl⟩
  · exact .bare rfl
  · exact .none

/-- Mode bits only filter: whatever the parser, the file and its bytes are, and as long as declarations are parsed,
keeping comments changes nothing but the comments of the atoms, and leaving out imports changes nothing but the list of
the file's items, from which the import declarations are gone. -/
theorem parseFile_modes (p : Parser) (file : SourceFile) (source : ByteSource) (imports comments : Bool) :
    WithComments (p.init file source { imports, decls := true, comments := false }).parseFile
        (p.init file source { imports, decls := true, comments := true }).parseFile ∧
      WithoutImports (p.init file source { imports := true, decls := true, comments }).parseFile
        (p.init file source { imports := false, decls := true, comments }).parseFile := by
  constructor
  · exact fileNode_withComments (Pairing.twins_init p file source ⟨rfl, rfl⟩ fun _ => rfl)
  · refine fileNode_drops (Pairing.twins_init p file source ⟨rfl, rfl, rfl⟩ fun _ => rfl) ?_
    exact Parser.tree_advance _

end Grammar

end GoSource
