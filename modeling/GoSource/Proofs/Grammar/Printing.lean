import GoSource.Proofs.Grammar.ExpressionWords
import GoSource.Proofs.Scanner.Respelling

/-!
# Parsing what was printed

The words of an expression are read off its tree.  Written one after the other, they are parsed without a report into a
tree that is shown as the first one is.

* **`Tree.Printed`**: the words of the parts of an expression, one rule a construct.  An operand of a binary operator
  stands without parentheses, so it must bind tightly enough: on the left as tightly as the operator, on the right more
  tightly.
* **`Tree.Printed.parses`**: the productions read such words.
* **`printed_expression_parses`**: and so does the parser, from the text on.
-/

namespace GoSource

/-- The text `l` is scanned as one token of the class `c`, without a report. -/
def Scanner.ScansAs (c : LiteralClass) (l : String) : Prop :=
  let s := ({} : Scanner).init {} { bytes := l.toUTF8 }
  s.words = [(.lit c, l)] ∧ s.scanAll.2.journal.entries = #[]

instance (c : LiteralClass) (l : String) : Decidable (Scanner.ScansAs c l) :=
  inferInstanceAs (Decidable (_ ∧ _))

namespace Tree

/-- A leaf that is a name or a literal, with a text that is scanned as such. -/
structure IsAtom (t : Tree) (id : NodeId) (c : LiteralClass) (l : String) : Prop where
  leaf : t.Is id (.lit c) .leaf
  literal_eq : t.literal id = l
  scans : Scanner.ScansAs c l

/-- What is printed of a tree. -/
inductive Phrase where
  /-- An operand with its suffixes. -/
  | primary (id : NodeId)
  /-- An expression without binary operators at its top. -/
  | unary (id : NodeId)
  /-- An expression whose binary operators at its top bind at least as tightly as `level`. -/
  | expr (level : Nat) (id : NodeId)
  /-- A bound of a slice expression, if it is there. -/
  | bound (c : Child)
  /-- Expressions, at least one. -/
  | exprs (kids : List Child)
  /-- Arguments of a call, at least one, the last of which may be spread. -/
  | arguments (kids : List Child)

/-- Operators that stand before their operand. -/
def leadingOperators : List Operator :=
  [.add, .sub, .not, .xor, .and, .tilde, .mul, .arrow]

/-- The words of what is printed. -/
inductive Printed (t : Tree) : Phrase → List Word → Prop
  /-- A name or a literal. -/
  | atom {id : NodeId} {c : LiteralClass} {l : String} (h : t.IsAtom id c l) : Printed t (.primary id) [(.lit c, l)]
  /-- `( x )`. -/
  | paren {id x : NodeId} {ws : List Word} (hid : t.Is id (.op .lparen) (.unary (some x)))
      (hx : Printed t (.expr 1 x) ws) :
      Printed t (.primary id) ((.op .lparen, "") :: ws ++ [(.op .rparen, "")])
  /-- `x . y`. -/
  | selector {id x y : NodeId} {l : String} {ws : List Word}
      (hid : t.Is id (.op .period) (.binary (some x) (some y))) (hx : Printed t (.primary x) ws)
      (hy : t.IsAtom y .ident l) : Printed t (.primary id) (ws ++ [(.op .period, ""), (.lit .ident, l)])
  /-- `x [ y ]`. -/
  | index {id x y : NodeId} {ws vs : List Word} (hid : t.Is id (.tag .index) (.binary (some x) (some y)))
      (hx : Printed t (.primary x) ws) (hy : Printed t (.expr 1 y) vs) :
      Printed t (.primary id) (ws ++ (.op .lbrack, "") :: vs ++ [(.op .rbrack, "")])
  /-- `x [ z , ... ]`. -/
  | indexes {id x y z : NodeId} {kids : List Child} {ws us vs : List Word}
      (hid : t.Is id (.tag .index) (.binary (some x) (some y))) (hy : t.Is y (.tag .exprs) (.list (some z :: kids)))
      (hx : Printed t (.primary x) ws) (hz : Printed t (.expr 1 z) us) (hkids : Printed t (.exprs kids) vs) :
      Printed t (.primary id) (ws ++ (.op .lbrack, "") :: (us ++ (.op .comma, "") :: vs) ++ [(.op .rbrack, "")])
  /-- `x [ low : high ]`. -/
  | slice {id x : NodeId} {low high : Child} {ws us vs : List Word}
      (hid : t.Is id (.tag .slice) (.list [some x, low, high, none])) (hx : Printed t (.primary x) ws)
      (hlow : Printed t (.bound low) us) (hhigh : Printed t (.bound high) vs) :
      Printed t (.primary id) (ws ++ (.op .lbrack, "") :: (us ++ (.op .colon, "") :: vs) ++ [(.op .rbrack, "")])
  /-- `x [ low : y : z ]`. -/
  | fullSlice {id x y z : NodeId} {low : Child} {ws us vs ts : List Word}
      (hid : t.Is id (.tag .slice) (.list [some x, low, some y, some z])) (hx : Printed t (.primary x) ws)
      (hlow : Printed t (.bound low) us) (hy : Printed t (.expr 1 y) vs) (hz : Printed t (.expr 1 z) ts) :
      Printed t (.primary id) (ws ++ (.op .lbrack, "") ::
        (us ++ (.op .colon, "") :: (vs ++ (.op .colon, "") :: ts)) ++ [(.op .rbrack, "")])
  /-- `x ( )`. -/
  | emptyCall {id x : NodeId} {ws : List Word} (hid : t.Is id (.tag .call) (.list [some x]))
      (hx : Printed t (.primary x) ws) : Printed t (.primary id) (ws ++ [(.op .lparen, ""), (.op .rparen, "")])
  /-- `x ( y , ... )`. -/
  | call {id x : NodeId} {kids : List Child} {ws vs : List Word} (hid : t.Is id (.tag .call) (.list (some x :: kids)))
      (hx : Printed t (.primary x) ws) (hkids : Printed t (.arguments kids) vs) :
      Printed t (.primary id) (ws ++ (.op .lparen, "") :: vs ++ [(.op .rparen, "")])
  | ofPrimary {id : NodeId} {ws : List Word} (h : Printed t (.primary id) ws) : Printed t (.unary id) ws
  /-- `- x`. -/
  | unary {id x : NodeId} {o : Operator} {ws : List Word} (hid : t.Is id (.op o) (.unary (some x)))
      (ho : o ∈ leadingOperators) (hx : Printed t (.unary x) ws) : Printed t (.unary id) ((.op o, "") :: ws)
  | ofUnary {id : NodeId} {level : Nat} {ws : List Word} (h : Printed t (.unary id) ws) : Printed t (.expr level id) ws
  /-- `x + y`. -/
  | binary {id x y : NodeId} {o : Operator} {level : Nat} {ws vs : List Word}
      (hid : t.Is id (.op o) (.binary (some x) (some y))) (hpos : 1 ≤ o.precedence) (hlevel : level ≤ o.precedence)
      (hx : Printed t (.expr o.precedence x) ws) (hy : Printed t (.expr (o.precedence + 1) y) vs) :
      Printed t (.expr level id) (ws ++ (.op o, "") :: vs)
  | noBound : Printed t (.bound none) []
  | someBound {x : NodeId} {ws : List Word} (h : Printed t (.expr 1 x) ws) : Printed t (.bound (some x)) ws
  | lastExpr {x : NodeId} {ws : List Word} (h : Printed t (.expr 1 x) ws) : Printed t (.exprs [some x]) ws
  | moreExprs {x : NodeId} {kids : List Child} {ws vs : List Word} (hx : Printed t (.expr 1 x) ws)
      (hkids : Printed t (.exprs kids) vs) : Printed t (.exprs (some x :: kids)) (ws ++ (.op .comma, "") :: vs)
  | lastArgument {x : NodeId} {ws : List Word} (h : Printed t (.expr 1 x) ws) : Printed t (.arguments [some x]) ws
  /-- `x ...`. -/
  | spread {y x : NodeId} {ws : List Word} (hy : t.Is y (.op .ellipsis) (.unary (some x)))
      (hx : Printed t (.expr 1 x) ws) : Printed t (.arguments [some y]) (ws ++ [(.op .ellipsis, "")])
  | moreArguments {x : NodeId} {kids : List Child} {ws vs : List Word} (hx : Printed t (.expr 1 x) ws)
      (hkids : Printed t (.arguments kids) vs) :
      Printed t (.arguments (some x :: kids)) (ws ++ (.op .comma, "") :: vs)

/-! ### Reading the words -/

open Grammar in
/-- The productions read the words of a phrase. -/
def Parses (t : Tree) : Phrase → List Word → Prop
  | .primary id, ws => PrimaryWords t id ws
  | .unary id, ws => UnaryWords t id ws
  | .expr level id, ws => ExprWords t level id ws
  | .bound c, ws => BoundWords t c ws
  | .exprs kids, ws => ExprsWords t kids ws
  | .arguments kids, ws => ArgumentsWords t kids ws

variable {t : Tree} {phrase : Phrase} {ws : List Word}

theorem isUnary_of_leading {o : Operator} (h : o ∈ leadingOperators) : Grammar.isUnary o = true ∨ o = .arrow := by
  have hall : ∀ o ∈ leadingOperators, Grammar.isUnary o = true ∨ o = .arrow := by decide
  exact hall o h

open Grammar in
theorem Printed.parses (h : t.Printed phrase ws) : t.Parses phrase ws := by
  induction h with
  | atom h => exact primaryWords_atom h.leaf h.literal_eq
  | paren hid _ hx => exact primaryWords_paren hid hx
  | selector hid _ hy hx => exact primaryWords_selector hid hy.leaf hy.literal_eq hx
  | index hid _ _ hx hy => exact primaryWords_index hid hx hy
  | indexes hid hy _ _ _ hx hz hkids => exact primaryWords_indexes hid hy hx hz hkids
  | slice hid _ _ _ hx hlow hhigh => exact primaryWords_slice hid hx hlow hhigh
  | fullSlice hid _ _ _ _ hx hlow hy hz => exact primaryWords_fullSlice hid hx hlow hy hz
  | emptyCall hid _ hx =>
      have hcall := primaryWords_call hid hx (argumentsWords_nil t)
      rwa [List.append_assoc] at hcall
  | call hid _ _ hx hkids => exact primaryWords_call hid hx hkids
  | ofPrimary _ h => exact h.unary
  | unary hid ho _ hx => exact unaryWords_unary hid (isUnary_of_leading ho) hx
  | ofUnary _ h => exact h.expr _
  | binary hid hpos hlevel _ _ hx hy => exact exprWords_binary hid hpos hlevel hx hy
  | noBound => exact .absent
  | someBound _ h => exact .present h
  | lastExpr _ h => exact exprsWords_last h
  | moreExprs _ _ hx hkids => exact exprsWords_more hx hkids
  | lastArgument _ h => exact argumentsWords_last h.argument
  | spread hy _ hx => exact argumentsWords_last (argumentWords_spread hy hx)
  | moreArguments _ _ hx hkids => exact argumentsWords_more hx.argument hkids

end Tree

/-! ### Writing the words -/

open Lexeme

theorem Scanner.ScansAs.ne_empty {c : LiteralClass} {l : String} (h : ScansAs c l) : l ≠ "" := by
  rintro rfl
  have hwords : (({} : Scanner).init {} { bytes := "".toUTF8 }).words = [] := by decide +kernel
  rw [ScansAs, hwords] at h
  cases h.1

theorem Scanner.ScansAs.respellable {c : LiteralClass} {l : String} (h : ScansAs c l) : Respellable (.lit c, l) := by
  refine respellable_words (r := ({} : Reader).init {} { bytes := l.toUTF8 }) rfl h.2 _ ?_
  exact h.1.symm ▸ List.mem_singleton_self _

/-- Every operator is scanned as itself. -/
theorem respellable_operator (o : Operator) : Respellable (.op o, "") := by
  have hall : ∀ o ∈ Operator.all,
      let s := ({} : Scanner).init {} { bytes := o.text.toUTF8 }
      s.words = [(.op o, "")] ∧ s.scanAll.2.journal.entries = #[] := by
    decide +kernel
  obtain ⟨hwords, hsilent⟩ := hall o (mem_all o)
  refine Scanner.respellable_words (r := ({} : Reader).init {} { bytes := o.text.toUTF8 }) rfl hsilent _ ?_
  exact hwords.symm ▸ List.mem_singleton_self _

/-- Every keyword is scanned as itself, some with a semicolon after it. -/
theorem respellable_keyword (k : Keyword) : Respellable (.kw k, "") := by
  have hall : ∀ k ∈ Keyword.all,
      let s := ({} : Scanner).init {} { bytes := k.text.toUTF8 }
      (.kw k, "") ∈ s.words ∧ s.scanAll.2.journal.entries = #[] := by
    decide +kernel
  have hmem : k ∈ Keyword.all := by cases k <;> decide
  obtain ⟨hword, hsilent⟩ := hall k hmem
  exact Scanner.respellable_words (r := ({} : Reader).init {} { bytes := k.text.toUTF8 }) rfl hsilent _ hword

/-- The words of a phrase are operators and texts that are scanned as such. -/
theorem Tree.Printed.respellable {t : Tree} {phrase : Phrase} {ws : List Word} (h : t.Printed phrase ws) :
    ∀ w ∈ ws, Respellable w := by
  have hop (o : Operator) {ws : List Word} (hws : ∀ w ∈ ws, Respellable w) :
      ∀ w ∈ (.op o, "") :: ws, Respellable w :=
    List.forall_mem_cons.2 ⟨respellable_operator o, hws⟩
  have hnil : ∀ w ∈ ([] : List Word), Respellable w := by simp
  induction h with
  | atom h => exact List.forall_mem_cons.2 ⟨h.scans.respellable, hnil⟩
  | ofPrimary _ h | ofUnary _ h | someBound _ h | lastExpr _ h | lastArgument _ h => exact h
  | noBound => exact hnil
  | paren _ _ hx => exact hop _ (List.forall_mem_append.2 ⟨hx, hop _ hnil⟩)
  | selector _ _ hy hx =>
      exact List.forall_mem_append.2 ⟨hx, hop _ (List.forall_mem_cons.2 ⟨hy.scans.respellable, hnil⟩)⟩
  | emptyCall _ _ hx => exact List.forall_mem_append.2 ⟨hx, hop _ (hop _ hnil)⟩
  | spread _ _ hx => exact List.forall_mem_append.2 ⟨hx, hop _ hnil⟩
  | unary _ _ _ hx => exact hop _ hx
  | binary _ _ _ _ _ hx hy => exact List.forall_mem_append.2 ⟨hx, hop _ hy⟩
  | moreExprs _ _ hx hkids | moreArguments _ _ hx hkids => exact List.forall_mem_append.2 ⟨hx, hop _ hkids⟩
  | index _ _ _ hx hy | call _ _ _ hx hy =>
      exact List.forall_mem_append.2 ⟨List.forall_mem_append.2 ⟨hx, hop _ hy⟩, hop _ hnil⟩
  | indexes _ _ _ _ _ hx hy hz | slice _ _ _ _ hx hy hz =>
      refine List.forall_mem_append.2 ⟨List.forall_mem_append.2 ⟨hx, hop _ ?_⟩, hop _ hnil⟩
      exact List.forall_mem_append.2 ⟨hy, hop _ hz⟩
  | fullSlice _ _ _ _ _ hx hlow hy hz =>
      refine List.forall_mem_append.2 ⟨List.forall_mem_append.2 ⟨hx, hop _ ?_⟩, hop _ hnil⟩
      exact List.forall_mem_append.2 ⟨hlow, hop _ (List.forall_mem_append.2 ⟨hy, hop _ hz⟩)⟩

/-- A parser at the start of words that are written one after the other has these words before it. -/
theorem Parser.ready_respell {ws : List Word} (hws : ∀ w ∈ ws, Respellable w) (p : Parser)
    (hempty : p.journal.entries = #[]) (file : SourceFile) (mode : Mode) :
    (p.init file { bytes := (respell ws).toUTF8 } mode).Ready ws := by
  let source : ByteSource := { bytes := (respell ws).toUTF8 }
  let r := p.scanner.reader.init file source
  obtain ⟨hwords, hjournal, hitems⟩ :=
    Scanner.scan_respell hws (r := r) rfl (Rune.decodeFrom_toUTF8 (respell ws))
  have hplain : ∀ item ∈ (Scanner.start r).stream.items, item.Plain := fun item hitem => (hitems item hitem).2
  have hfaultless : (Scanner.start r).Faultless := fun item hitem => (hplain item hitem).fault_eq
  have hclean : (Scanner.start r).journal.Clean := by
    rw [← Scanner.journal_scanAll_of_faultless hfaultless, hjournal]
    exact ⟨rfl, hempty⟩
  rw [Scanner.tokens_eq, List.map_map] at hwords
  exact Parser.ready_restart (p := { p with scanner := Scanner.start r, mode }) hclean hwords hplain

open Grammar in
/-- Parsing undoes printing.  The words of an expression, written one after the other with a blank between each two of
them, are parsed without a report and up to the end of the text, into a tree that is shown as the expression is. -/
theorem printed_expression_parses {t : Tree} {root : NodeId} {ws : List Word} (h : t.Printed (.expr 1 root) ws)
    (p : Parser) (hempty : p.journal.entries = #[]) (file : SourceFile) (mode : Mode) :
    let parsed := (p.init file { bytes := (respell ws).toUTF8 } mode).parseExpression
    parsed.2.journal.entries = #[] ∧ parsed.2.curr.token = .eof ∧ parsed.2.tree.render parsed.1 = t.render root := by
  intro parsed
  let start := p.init file { bytes := (respell ws).toUTF8 } mode
  have hready : start.Ready (ws ++ []) := by
    rw [List.append_nil]
    exact Parser.ready_respell h.respellable p hempty file mode
  have hwords : ExprWords t 1 root ws := h.parses
  obtain ⟨id, q, hrun, hreaches, hecho⟩ := hwords.expr_run hready ⟨rfl, rfl⟩
  have hparsed : parsed = (id, q) := (congrFun run_expr start).trans hrun
  rw [hparsed]
  exact ⟨hreaches.ready.clean.2, hreaches.ready.eof, hecho.render_eq⟩

/-- A tree for `- a [ 1 : ] - b * f ( x ... )`. -/
def differenceTree : Tree where
  nodes := #[
    { atom := { token := .lit .ident, literal := "a" } },
    { atom := { token := .lit .int, literal := "1" } },
    { atom := { token := .tag .slice }, shape := .list [some ⟨0⟩, some ⟨1⟩, none, none] },
    { atom := { token := .op .sub }, shape := .unary (some ⟨2⟩) },
    { atom := { token := .lit .ident, literal := "b" } },
    { atom := { token := .lit .ident, literal := "f" } },
    { atom := { token := .lit .ident, literal := "x" } },
    { atom := { token := .op .ellipsis }, shape := .unary (some ⟨6⟩) },
    { atom := { token := .tag .call }, shape := .list [some ⟨5⟩, some ⟨7⟩] },
    { atom := { token := .op .mul }, shape := .binary (some ⟨4⟩) (some ⟨8⟩) },
    { atom := { token := .op .sub }, shape := .binary (some ⟨3⟩) (some ⟨9⟩) }]

/-- The operators of the tree bind in different ways, and one of its arguments is spread. -/
theorem printed_expression_parses_difference :
    let ws : List Word :=
      [(.op .sub, ""), (.lit .ident, "a"), (.op .lbrack, ""), (.lit .int, "1"), (.op .colon, ""), (.op .rbrack, ""),
        (.op .sub, ""), (.lit .ident, "b"), (.op .mul, ""), (.lit .ident, "f"), (.op .lparen, ""),
        (.lit .ident, "x"), (.op .ellipsis, ""), (.op .rparen, "")]
    let parsed := (({} : Parser).init {} { bytes := (respell ws).toUTF8 } {}).parseExpression
    differenceTree.Printed (.expr 1 ⟨10⟩) ws ∧ respell ws = "- a [ 1 : ] - b * f ( x ... )" ∧
      differenceTree.render ⟨10⟩ = "(- (- (SLICE a 1 nil nil)) (* b (CALL f (... x))))" ∧
      parsed.2.journal.entries = #[] ∧ parsed.2.curr.token = .eof ∧
      parsed.2.tree.render parsed.1 = differenceTree.render ⟨10⟩ := by
  intro ws parsed
  have hname {i : Nat} {l : String} (h : differenceTree.IsAtom ⟨i⟩ .ident l) :
      differenceTree.Printed (.primary ⟨i⟩) [(.lit .ident, l)] := .atom h
  have ha := hname (i := 0) (l := "a") ⟨⟨rfl, rfl, by decide⟩, rfl, by decide +kernel⟩
  have hb := hname (i := 4) (l := "b") ⟨⟨rfl, rfl, by decide⟩, rfl, by decide +kernel⟩
  have hf := hname (i := 5) (l := "f") ⟨⟨rfl, rfl, by decide⟩, rfl, by decide +kernel⟩
  have hx := hname (i := 6) (l := "x") ⟨⟨rfl, rfl, by decide⟩, rfl, by decide +kernel⟩
  have hone : differenceTree.Printed (.primary ⟨1⟩) [(.lit .int, "1")] :=
    .atom ⟨⟨rfl, rfl, by decide⟩, rfl, by decide +kernel⟩
  have hslice : differenceTree.Printed (.primary ⟨2⟩) _ :=
    .slice ⟨rfl, rfl, by decide⟩ ha (.someBound (.ofUnary (.ofPrimary hone))) .noBound
  have hleft : differenceTree.Printed (.expr 4 ⟨3⟩) _ :=
    .ofUnary (.unary (o := .sub) ⟨rfl, rfl, by decide⟩ (by decide) (.ofPrimary hslice))
  have hcall : differenceTree.Printed (.primary ⟨8⟩) _ :=
    .call ⟨rfl, rfl, by decide⟩ hf (.spread (y := ⟨7⟩) ⟨rfl, rfl, by decide⟩ (.ofUnary (.ofPrimary hx)))
  have hright : differenceTree.Printed (.expr 5 ⟨9⟩) _ :=
    .binary (o := .mul) ⟨rfl, rfl, by decide⟩ (by decide) (by decide) (.ofUnary (.ofPrimary hb))
      (.ofUnary (.ofPrimary hcall))
  have hprinted : differenceTree.Printed (.expr 1 ⟨10⟩) ws :=
    .binary (o := .sub) ⟨rfl, rfl, by decide⟩ (by decide) (by decide) hleft hright
  exact ⟨hprinted, by decide +kernel, by decide +kernel, printed_expression_parses hprinted {} rfl {} {}⟩

end GoSource
