import GoSource.Proofs.Grammar.Totality
import GoSource.Proofs.Scanner.Runes
import Mathlib.Data.List.Basic

/-!
# No leaf is lost

The identifiers and literals of a text are the leaves of its tree, in the same order, if nothing was reported.

* **`Tree.literals`** are the identifiers and literals under a node, from left to right.
* **`Holding L`**: what a production has in its hands and what is upcoming make up `L`.  No step changes that,
  as long as nothing is reported.
* **`literals_parseFile`** follows for whole files.
-/

namespace GoSource

/-- The tokens with a text of their own. -/
def keepLiterals (ts : List Scanned) : List Scanned :=
  ts.filter (·.token.isLiteral)

@[simp] theorem keepLiterals_append (ts us : List Scanned) :
    keepLiterals (ts ++ us) = keepLiterals ts ++ keepLiterals us :=
  List.filter_append ..

/-- The identifiers and literals under a node, from left to right. -/
def Tree.literals (t : Tree) (id : NodeId) : List Scanned :=
  keepLiterals ((t.preorder id).map fun i => (t.node i).atom.scanned)

namespace Tree

/-- A node's own text, and then that of its parts. -/
theorem literals_eq (t : Tree) (id : NodeId) :
    t.literals id =
      keepLiterals [(t.node id).atom.scanned] ++
        (t.present id).flatMap fun c => if c.index < id.index then t.literals c else [] := by
  unfold literals
  rw [preorder, List.map_cons, ← List.singleton_append, keepLiterals_append, List.map_flatMap]
  congr 1
  generalize t.present id = parts
  induction parts with
  | nil => rfl
  | cons c rest ih =>
      rw [List.flatMap_cons, List.flatMap_cons, keepLiterals_append, ih]
      congr 1
      split <;> rfl

end Tree

namespace Grammar

/-- Nodes made later change nothing under a node. -/
theorem literals_withNode (p : Parser) (atom : Atom) (shape : NodeShape) {id : NodeId}
    (h : id.index < p.tree.nodes.size) : (withNode p atom shape).tree.literals id = p.tree.literals id := by
  induction hi : id.index using Nat.strongRecOn generalizing id with
  | ind i ih =>
    subst hi
    have hnode : (withNode p atom shape).tree.node id = p.tree.node id := by
      rw [node_withNode, if_neg]
      rintro rfl
      exact Nat.lt_irrefl _ h
    have hpresent : (withNode p atom shape).tree.present id = p.tree.present id := by
      unfold Tree.present Tree.children
      rw [hnode]
    rw [Tree.literals_eq, Tree.literals_eq p.tree, hnode, hpresent]
    congr 1
    refine List.flatMap_congr fun c _ => ?_
    by_cases hc : c.index < id.index
    · rw [if_pos hc, if_pos hc, ih c.index hc (Nat.lt_trans hc h) rfl]
    · rw [if_neg hc, if_neg hc]

theorem held_children (xs : List Child) : held xs = xs.filterMap fun c => c := by
  induction xs with
  | nil => rfl
  | cons x xs ih =>
      cases x with
      | none => simpa [held] using ih
      | some x => simpa [held] using ih

/-- Under a new node are its own text and what is under its parts. -/
theorem literals_nextId (p : Parser) (atom : Atom) (shape : NodeShape)
    (h : ∀ c ∈ held (parts shape), c.index < p.tree.nodes.size) :
    (withNode p atom shape).tree.literals (nextId p) =
      keepLiterals [atom.scanned] ++ (held (parts shape)).flatMap p.tree.literals := by
  have hnode : (withNode p atom shape).tree.node (nextId p) = { atom, shape } := by
    rw [node_withNode, if_pos rfl]
  have hpresent : (withNode p atom shape).tree.present (nextId p) = held (parts shape) := by
    rw [held_children]
    unfold Tree.present Tree.children
    rw [hnode]
    rfl
  rw [Tree.literals_eq, hnode, hpresent]
  congr 1
  refine List.flatMap_congr fun c hc => ?_
  rw [if_pos (show c.index < (nextId p).index from h c hc), literals_withNode p atom shape (h c hc)]

/-! ### What a production has in its hands -/

/-- The identifiers and literals in a piece. -/
def pieceLiterals (t : Tree) : Piece → List Scanned
  | .node id => t.literals id
  | .token a => keepLiterals [a.scanned]

/-- The identifiers and literals in what a production has in its hands, in the order of the source. -/
def stackLiterals (t : Tree) (st : Stack) : List Scanned :=
  st.reverse.flatMap (pieceLiterals t)

@[simp] theorem stackLiterals_cons (t : Tree) (x : Piece) (st : Stack) :
    stackLiterals t (x :: st) = stackLiterals t st ++ pieceLiterals t x := by
  simp [stackLiterals]

@[simp] theorem stackLiterals_append (t : Tree) (st st' : Stack) :
    stackLiterals t (st ++ st') = stackLiterals t st' ++ stackLiterals t st := by
  simp [stackLiterals]

theorem stackLiterals_push {α : Type} [Holds α] (t : Tree) (x : α) (st : Stack) :
    stackLiterals t (push x st) = stackLiterals t st ++ (held x).flatMap t.literals := by
  simp [push, stackLiterals, List.flatMap_map, pieceLiterals]

/-- The nodes in hand exist, a leaf for the end has nothing under it, and what is in hand and what is upcoming
make up `L`. -/
structure Holding (L : List Scanned) (x : Stack × Parser) : Prop where
  made : ∀ id, .node id ∈ x.1 → id.index < x.2.tree.nodes.size
  bare : ∀ id, x.2.tree.op id = .eof → x.2.tree.literals id = []
  literals : stackLiterals x.2.tree x.1 ++ keepLiterals x.2.upcoming = L

theorem keepLiterals_looked (a : Atom) : keepLiterals (Parser.looked a) = keepLiterals [a.scanned] := by
  unfold Parser.looked
  split
  · rename_i heof
    have hliteral : a.scanned.token.isLiteral = false := by
      show a.token.isLiteral = false
      rw [heof]
      rfl
    simp [keepLiterals, hliteral]
  · rfl

/-- The first upcoming token, and those after it. -/
theorem keepLiterals_upcoming (p : Parser) :
    keepLiterals p.upcoming = keepLiterals [p.curr.scanned] ++ keepLiterals p.advance.upcoming := by
  rw [← Parser.looked_append_upcoming_advance p, keepLiterals_append, keepLiterals_looked]

theorem keepLiterals_of_not_isLiteral {a : Atom} (h : a.token.isLiteral = false) :
    keepLiterals [a.scanned] = [] :=
  List.filter_cons_of_neg (by simpa [Atom.scanned] using h)

/-- Pieces that were in hand before a node was made hold what they held. -/
theorem stackLiterals_withNode (p : Parser) (atom : Atom) (shape : NodeShape) {st : Stack}
    (h : ∀ id, .node id ∈ st → id.index < p.tree.nodes.size) :
    stackLiterals (withNode p atom shape).tree st = stackLiterals p.tree st := by
  refine List.flatMap_congr fun x hx => ?_
  cases x with
  | token a => rfl
  | node id => exact literals_withNode p atom shape (h id (List.mem_reverse.1 hx))

/-- A node that stands for the end exists. -/
theorem index_lt_of_op_eof {t : Tree} {id : NodeId} (h : t.op id = .eof) : id.index < t.nodes.size := by
  by_contra hge
  have hnode : t.node id = {} := by
    unfold Tree.node
    rw [Array.getElem?_eq_none (Nat.le_of_not_lt hge)]
    rfl
  rw [Tree.op, hnode] at h
  exact absurd h (by decide)

/-- Making a node of what is in hand: the node then stands where its parts did. -/
theorem Holding.make {L : List Scanned} {above st : Stack} {p : Parser} {atom : Atom} {shape : NodeShape}
    (between : Stack) (h : Holding L (above ++ (between ++ st), p))
    (hparts : ∀ c ∈ held (parts shape), .node c ∈ between)
    (hliterals : keepLiterals [atom.scanned] ++ (held (parts shape)).flatMap p.tree.literals =
      stackLiterals p.tree between)
    (heof : atom.token = .eof → stackLiterals p.tree between = []) :
    Holding L (above ++ .node (nextId p) :: st, withNode p atom shape) := by
  have hmade (id : NodeId) (hid : .node id ∈ above ++ (between ++ st)) : id.index < p.tree.nodes.size :=
    h.made id hid
  have hnext : (withNode p atom shape).tree.literals (nextId p) = stackLiterals p.tree between := by
    rw [literals_nextId p atom shape fun c hc => hmade c (by simp [hparts c hc]), hliterals]
  have hsize : (withNode p atom shape).tree.nodes.size = p.tree.nodes.size + 1 := by
    simp [withNode]
  refine ⟨fun id hid => ?_, fun id hop => ?_, ?_⟩
  · show id.index < (withNode p atom shape).tree.nodes.size
    rw [hsize]
    have hid : .node id ∈ above ++ .node (nextId p) :: st := hid
    simp only [List.mem_append, List.mem_cons, Piece.node.injEq] at hid
    rcases hid with hid | rfl | hid
    · exact Nat.lt_succ_of_lt (hmade id (by simp [hid]))
    · exact Nat.lt_succ_self _
    · exact Nat.lt_succ_of_lt (hmade id (by simp [hid]))
  · have hop : ((withNode p atom shape).tree.node id).op = .eof := hop
    rw [node_withNode] at hop
    show (withNode p atom shape).tree.literals id = []
    split at hop
    · rename_i hid
      rw [hid, hnext]
      exact heof hop
    · rw [literals_withNode p atom shape (index_lt_of_op_eof hop)]
      exact h.bare id hop
  · have habove := stackLiterals_withNode p atom shape fun id hid => hmade id (List.mem_append_left _ hid)
    have hst := stackLiterals_withNode p atom shape fun id (hid : .node id ∈ st) => hmade id (by simp [hid])
    show stackLiterals (withNode p atom shape).tree (above ++ .node (nextId p) :: st) ++
      keepLiterals p.upcoming = L
    rw [stackLiterals_append, stackLiterals_cons, habove, hst]
    show stackLiterals p.tree st ++ (withNode p atom shape).tree.literals (nextId p) ++
      stackLiterals p.tree above ++ keepLiterals p.upcoming = L
    rw [hnext, ← stackLiterals_append, ← stackLiterals_append]
    exact h.literals

/-- The tree stays, and so does what is in hand and upcoming together. -/
theorem Holding.of_tree_eq {L : List Scanned} {st st' : Stack} {p q : Parser} (h : Holding L (st, p))
    (htree : q.tree = p.tree) (hmade : ∀ id, .node id ∈ st' → .node id ∈ st)
    (hliterals : stackLiterals p.tree st' ++ keepLiterals q.upcoming =
      stackLiterals p.tree st ++ keepLiterals p.upcoming) : Holding L (st', q) := by
  refine ⟨fun id hid => ?_, fun id hop => ?_, ?_⟩
  · show id.index < q.tree.nodes.size
    rw [htree]
    exact h.made id (hmade id hid)
  · show q.tree.literals id = []
    rw [htree]
    exact h.bare id (htree ▸ hop)
  · show stackLiterals q.tree st' ++ keepLiterals q.upcoming = L
    rw [htree, hliterals]
    exact h.literals

/-- No step loses, doubles or moves an identifier or a literal, if nothing is reported and imports are kept. -/
theorem Move.holding {L : List Scanned} {x y : Stack × Parser} (h : Move x y) (hclean : y.2.journal.Clean)
    (himports : x.2.mode.imports = true) (hx : Holding L x) : Holding L y := by
  have hunreported : ¬ Reported x.2 := fun hreported => hreported (h.clean hclean)
  cases h with
  | uncomment => exact ⟨hx.made, hx.bare, hx.literals⟩
  | composite ok => exact ⟨hx.made, hx.bare, hx.literals⟩
  | complain => exact absurd hclean (Parser.not_clean_complain _ _)
  | pass hliteral =>
      rename_i st p
      refine hx.of_tree_eq p.tree_advance (fun _ hid => hid) ?_
      rw [keepLiterals_upcoming p, keepLiterals_of_not_isLiteral hliteral, List.nil_append]
  | lose hreported => exact absurd hreported hunreported
  | take =>
      rename_i st p
      refine hx.of_tree_eq p.tree_advance (fun _ hid => by simpa using hid) ?_
      rw [keepLiterals_upcoming p, stackLiterals_cons, List.append_assoc]
      rfl
  | peek hident =>
      rename_i st p
      refine hx.of_tree_eq p.tree_advance (fun _ hid => hid) ?_
      rw [p.upcoming_peek]
  | leaf above a hne =>
      rename_i st p
      refine Holding.make [.token a] hx (fun c hc => absurd hc (by simp [held])) ?_ ?_
      · simp [stackLiterals, pieceLiterals, held]
      · exact fun heof => absurd heof hne
  | node above atom shape hliteral hsound heof _ =>
      rename_i st p
      rw [push_eq_append] at hx
      refine Holding.make (push (parts shape) []) hx (fun c hc => by simp [push, hc]) ?_ fun htoken => ?_
      · rw [keepLiterals_of_not_isLiteral hliteral, stackLiterals_push]
        rfl
      · rw [(heof htoken).1]
        rfl
  | bad atom found d hreported _ => exact absurd hreported hunreported
  | reorder hreported _ => exact absurd hreported hunreported
  | drop above id hdrop =>
      rename_i st p
      rcases hdrop with hreported | hop | hmode
      · exact absurd hreported hunreported
      · refine hx.of_tree_eq rfl (fun i hi => ?_) ?_
        · rcases List.mem_append.1 hi with hi | hi
          · exact List.mem_append_left _ hi
          · exact List.mem_append_right _ (List.mem_cons_of_mem _ hi)
        · have hbare : pieceLiterals p.tree (.node id) = [] := hx.bare id hop
          rw [stackLiterals_append, stackLiterals_append, stackLiterals_cons, hbare, List.append_nil]
      · exact absurd (himports.symm.trans hmode) (by decide)

theorem Moves.holding {L : List Scanned} {x y : Stack × Parser} (h : Moves x y) (hclean : y.2.journal.Clean)
    (himports : x.2.mode.imports = true) (hx : Holding L x) : Holding L y := by
  induction h with
  | refl => exact hx
  | tail hmoves hstep ih =>
      refine hstep.holding hclean ?_ (ih (hstep.clean hclean))
      rw [Moves.mode_eq hmoves, himports]

end Grammar

/-! ### Files -/

/-- A journal that is closed has entries. -/
def Journal.Sane (j : Journal) : Prop :=
  j.closed = true → j.entries ≠ #[]

theorem Journal.Sane.report {j : Journal} (h : j.Sane) (d : Diagnostic SourceFault) : (j.report d).Sane := by
  unfold Journal.report
  split
  · exact h
  · dsimp only
    split
    · exact fun _ => by simp
    · exact fun _ => by simp

namespace Reader

theorem journal_take (r : Reader) :
    r.take.2.journal = r.journal ∨ ∃ d, r.take.2.journal = r.journal.report d := by
  unfold take
  dsimp only
  split
  · exact .inr ⟨_, rfl⟩
  · split <;> exact .inl rfl

theorem sane_drain {r : Reader} (h : r.journal.Sane) : r.drain.2.journal.Sane := by
  fun_induction drain r with
  | case1 r hclosed => exact h
  | case2 r hclosed hcursor rune r' htake hless runes last hdrain ih =>
      have hr' : r' = r.take.2 := by rw [htake]
      have hsane : r'.journal.Sane := by
        rw [hr']
        rcases r.journal_take with heq | ⟨d, heq⟩
        · rw [heq]
          exact h
        · rw [heq]
          exact h.report d
      have hlast := ih hsane
      rw [hdrain] at hlast
      exact hlast
  | case3 r hclosed hcursor => exact h

end Reader

namespace Scanner

theorem sane_init (s : Scanner) (file : SourceFile) (source : ByteSource) :
    (s.init file source).journal.Sane := by
  show (s.reader.init file source).readText.2.journal.Sane
  rw [Reader.readText_snd]
  refine Reader.sane_drain ?_
  intro hclosed
  exact absurd hclosed (by simp [Reader.init, Journal.openFile])

/-- All tokens that are handed out, of which the parser reads those that are no comments. -/
theorem keepLiterals_scanAll (s : Scanner) : keepLiterals s.scanAll.1 = keepLiterals s.upcoming := by
  fun_induction scanAll s with
  | case1 s item rest hpop delivered tokens s' hall ih =>
      rw [hall] at ih
      rw [upcoming_deliver hpop, keepLiterals_append, ← ih, ← List.singleton_append, keepLiterals_append]
      congr 1
      split
      · rename_i hcomment
        have hliteral : delivered.1.token.isLiteral = false := by
          show item.token.isLiteral = false
          rw [hcomment]
          rfl
        simp [keepLiterals, hliteral]
      · rfl
  | case2 s hpop token s' hend =>
      obtain ⟨rfl, rfl⟩ := Prod.mk.inj hend
      rw [upcoming_pop?_none hpop]
      rfl

end Scanner

theorem Reader.Reports.sane {r r' : Reader} (h : r.Reports r') (hr : r.journal.Sane) : r'.journal.Sane :=
  h.keeps (P := fun last => last.journal.Sane) (fun _ _ _ hlast => hlast.report _) hr

namespace Parser

theorem sane_advance {p : Parser} (h : p.journal.Sane) : p.advance.journal.Sane :=
  p.reports_advance.sane h

/-- A parser at the start of a file has the whole file before it. -/
theorem upcoming_restart (p : Parser) : p.restart.upcoming = p.scanner.upcoming := by
  have h := looked_append_upcoming_advance
    { p with tree := {}, curr := {}, ahead := none, compositeOk := true }
  exact List.append_cancel_left h

end Parser

namespace Grammar

theorem Moves.sane {x y : Stack × Parser} (h : Moves x y) (hx : x.2.journal.Sane) : y.2.journal.Sane :=
  h.reports.sane hx

theorem holding_restart (p : Parser) : Holding (keepLiterals p.restart.upcoming) ([], p.restart) := by
  refine ⟨fun id hid => absurd hid (by simp), fun id hop => ?_, rfl⟩
  have htree : p.restart.tree = {} := Parser.tree_advance _
  have hlt := index_lt_of_op_eof hop
  rw [htree] at hlt
  exact absurd hlt (Nat.not_lt_zero _)

/-- No leaf is lost, doubled or moved: if a file is parsed without a diagnostic and nothing of it is left out,
the identifiers and literals under its root are those that the scanner hands out, in the same order, each with
its kind, its text and its place. -/
theorem literals_parseFile (p : Parser) (file : SourceFile) (source : ByteSource) (mode : Mode)
    (himports : mode.imports = true) (hdecls : mode.decls = true)
    (hempty : (p.init file source mode).parseFile.2.journal.entries = #[]) :
    let (root, q) := (p.init file source mode).parseFile
    keepLiterals ((q.tree.preorder root).map fun id => (q.tree.node id).atom.scanned) =
      keepLiterals (p.scanner.init file source).scanAll.1 := by
  have hmode : (p.init file source mode).mode = mode := mode_init p file source mode
  have hrun := (fileNode_reads _ (Nat.le_refl _) ([], p.init file source mode) []
    (p.init file source mode) (.refl (Nat.lt_succ_self _))).2
  have hsane : (p.init file source mode).parseFile.2.journal.Sane :=
    hrun.moves.sane (Parser.sane_advance (p.scanner.sane_init file source))
  have hclean : (p.init file source mode).parseFile.2.journal.Clean := by
    refine ⟨?_, hempty⟩
    by_contra hclosed
    exact hsane (by simpa using hclosed) hempty
  have hended : ReadToEnd (p.init file source mode).parseFile.2 :=
    fileNode_readToEnd (ended_restart _) (by rw [hmode, hdecls])
  have hholding := hrun.moves.holding hclean (by rw [hmode, himports]) (holding_restart _)
  have hliterals := hholding.literals
  have hupcoming : (fileNode (p.init file source mode)).2.upcoming = [] := hended.2.1
  rw [Parser.upcoming_restart, ← Scanner.keepLiterals_scanAll] at hliterals
  dsimp only at hliterals
  rw [hupcoming, push_node, stackLiterals_cons] at hliterals
  exact (List.append_nil _).symm.trans hliterals

/-- A function with grouped parameters, an index, a composite literal and two assignments. -/
theorem literals_parseFile_function :
    (Parser.new {} { bytes := "func f(a, b int, c ...T) \x7b a[b], L = T\x7bc: 1\x7d, 'x' \x7d\n".toUTF8 }
      {}).parseFile.2.journal.entries = #[] ∧
    let (root, q) := (Parser.new {} { bytes := "func f(a, b int, c ...T) \x7b a[b], L = T\x7bc: 1\x7d, 'x' \x7d\n".toUTF8 }
      {}).parseFile
    keepLiterals ((q.tree.preorder root).map fun id => (q.tree.node id).atom.scanned) =
      keepLiterals (({} : Scanner).init {}
        { bytes := "func f(a, b int, c ...T) \x7b a[b], L = T\x7bc: 1\x7d, 'x' \x7d\n".toUTF8 }).scanAll.1 := by
  have hempty : (Parser.new {} { bytes := "func f(a, b int, c ...T) \x7b a[b], L = T\x7bc: 1\x7d, 'x' \x7d\n".toUTF8 }
      {}).parseFile.2.journal.entries = #[] := by
    decide +kernel
  exact ⟨hempty, literals_parseFile {} {} _ {} rfl rfl hempty⟩

end Grammar

end GoSource
