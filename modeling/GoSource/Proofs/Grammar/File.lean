import GoSource.Proofs.Grammar.Closure

/-!
# Files

The items of a file one after another.  Every item consumes a token; what is no item is the leaf at the end.

* **`item?_consumes`**: an item that is not the end consumes a token.
* **`fileLoop_reads`**: a file loses nothing between its items.
* **`Parser.Settled`**: the end of the text stays; nothing comes after it.
-/

namespace GoSource.Grammar

variable {s : Stack × Parser} {n k : Nat} {w : Stack} {t : Token}

theorem grammar_self (n : Nat) : grammar.Close n grammar :=
  grammar_closed.close grammar_closed n

theorem grammar_type?_parses (n : Nat) : Parses startsType n grammar.type? grammar.type? := by
  rw [grammar_closed.type?]
  exact typeExpr?_parses (grammar_self n)

theorem grammar_unary_parses (n : Nat) : Parses startsExpr n grammar.unary grammar.unary := by
  rw [grammar_closed.unary]
  exact unaryExpr_parses (grammar_self n) (grammar_type?_parses n)

theorem grammar_binary_parses (n : Nat) {precedence : Nat} (hprec : 1 ≤ precedence) :
    Parses startsExpr n (grammar.binary precedence) (grammar.binary precedence) := by
  rw [grammar_closed.binary precedence hprec]
  exact binaryExpr_parses (grammar_self n) (grammar_unary_parses n) hprec

theorem grammar_expr_parses (n : Nat) : Parses startsExpr n grammar.expr grammar.expr :=
  grammar_binary_parses n (Nat.le_refl 1)

/-! ### Items -/

theorem strayClosing_opens (ht : t.isPlain = true) : Opens t n (strayClosing t) (strayClosing t) := by
  intro k hk s w
  have hne : t ≠ .eof := Token.ne_eof_of_isPlain ht
  refine Agree.here fun pos => (parseAtom_opens hne k hk s w).bind fun x => ?_
  refine (complain_reads pos rfl).bind fun d => Agree.get fun q => ?_
  rintro p ⟨⟨hp, hreported⟩, rfl⟩
  exact ⟨rfl, hp.step (.bad _ (some x) d hreported fun heof => absurd heof hne)⟩

/-- An import that the mode drops. -/
theorem droppedImport_opens :
    Agree (fun p => (Within s (k + 1) w p ∧ p.curr.token = .kw .import_) ∧ p.mode.imports = false)
      importDecl importDecl fun _ => Within s k w := by
  refine Agree.of_forall fun p₀ ⟨⟨hp₀, ht₀⟩, hmode⟩ => ?_
  have himport := importDecl_opens (n := k) k (Nat.le_refl k) (w, p₀) w
  refine himport.mono (by rintro p rfl; exact ⟨Within.refl hp₀.left_lt, ht₀⟩) fun x p hp => ?_
  refine (hp₀.trans hp).step (.drop [] x (.inr (.inr ?_)))
  rw [hp.moves.mode_eq]
  exact hmode

/-- What an item leads to: a token was consumed, or the item is the end of what the mode accepts. -/
def Itemized (s : Stack × Parser) (k : Nat) (w : Stack) (x : Option NodeId) (p : Parser) : Prop :=
  Within s k (push x w) p ∨ (Within s (k + 1) (push x w) p ∧ x.any (p.tree.op · = .eof) = true)

theorem Itemized.within {x : Option NodeId} {p : Parser} (h : Itemized s k w x p) :
    Within s (k + 1) (push x w) p :=
  h.elim (fun hp => hp.weaken (Nat.le_succ k)) And.left

/-- Without a semicolon in its way an item consumes a token, or is the end. -/
theorem itemBody?_itemized :
    Agree (fun p => Within s (k + 1) w p ∧ p.curr.token = t) itemBody? itemBody?
      fun x p => Itemized s k w x p ∨ (t = .op .semicolon ∧ Within s (k + 1) (push x w) p) := by
  have hend : Agree (fun p => Within s (k + 1) w p ∧ (p.curr.token = .eof ∨ p.mode.decls = false))
      (some <$> makeEof) (some <$> makeEof)
      fun x p => Itemized s k w x p ∨ (t = .op .semicolon ∧ Within s (k + 1) (push x w) p) :=
    Agree.map makeEof_reads fun x p hp => .inl (.inr ⟨hp.1, by simpa using hp.2⟩)
  have hopens {m m' : ParseM (Option NodeId)} (h : Opens t k m m') :
      Agree (fun p => Within s (k + 1) w p ∧ p.curr.token = t) m m'
        fun x p => Itemized s k w x p ∨ (t = .op .semicolon ∧ Within s (k + 1) (push x w) p) :=
    (h k (Nat.le_refl k) s w).post fun x p hp => .inl (.inl hp)
  refine Agree.get fun q => ?_
  refine Agree.pre (P := fun p => (Within s (k + 1) w p ∧ p.mode = q.mode) ∧ p.curr.token = t) ?_
    fun p hp => ⟨⟨hp.1.1, by rw [hp.2]⟩, hp.1.2⟩
  have hplain (p : Parser) (hp : (Within s (k + 1) w p ∧ p.mode = q.mode) ∧ p.curr.token = t) :
      Within s (k + 1) w p ∧ p.curr.token = t := ⟨hp.1.1, hp.2⟩
  refine Agree.tok_eq (Agree.ite (fun heof => ?eof) (fun hne => Agree.ite (fun hpackage => ?package) (fun _ =>
    Agree.ite (fun himport => Agree.ite (fun _ => ?imported) (fun himports =>
      Agree.ite (fun _ => ?dropped) (fun hdecls => ?ended)))
    (fun _ => ?other))))
  case eof => exact hend.pre fun p hp => ⟨hp.1.1, .inl (hp.2.trans heof)⟩
  case package =>
    subst hpackage
    exact (hopens packageClause_opens.some).pre hplain
  case imported =>
    subst himport
    exact (hopens importDecl_opens.some).pre hplain
  case dropped =>
    subst himport
    have hmode : q.mode.imports = false := by simpa using himports
    refine ((droppedImport_opens (s := s) (k := k) (w := w)).pre fun p hp => ⟨hplain p hp, ?_⟩).bind fun x =>
      Agree.pure fun p hp => .inl (.inl hp)
    rw [hp.1.2]
    exact hmode
  case ended =>
    refine hend.pre fun p hp => ⟨hp.1.1, .inr ?_⟩
    rw [hp.1.2]
    simpa using hdecls
  refine Agree.ite (fun hsemi => ?semicolon) (fun hsemi => Agree.ite (fun hdecls => ?ended) (fun _ =>
    Agree.ite (fun hclosing => ?closing) (fun hclosing =>
      Agree.ite (fun hdecl => ?declaration) (fun _ => ?statement))))
  case semicolon => exact Agree.pure fun p hp => .inr ⟨hsemi, hp.1.1⟩
  case ended =>
    refine hend.pre fun p hp => ⟨hp.1.1, .inr ?_⟩
    rw [hp.1.2]
    simpa using hdecls
  case closing =>
    have ht : t.isPlain = true := by
      unfold Token.isClosing at hclosing
      split at hclosing
      · rfl
      · rfl
      · rfl
      · exact absurd hclosing (by decide)
    exact (hopens (strayClosing_opens ht).some).pre hplain
  case declaration =>
    rw [run_declaration]
    exact (hopens ((declaration_parses (grammar_self k)).opens hdecl).some).pre hplain
  case statement =>
    rw [run_statement?]
    have ht : startsStmt t = true := by
      unfold startsStmt
      split
      · exact absurd rfl hsemi
      · exact absurd rfl hclosing
      · exact absurd rfl hne
      · rfl
    exact (hopens ((statement?_parses (grammar_self k) (grammar_expr_parses k)).opens ht)).pre hplain

/-- An item consumes a token, or is the end of what the mode accepts. -/
theorem item?_itemized : Agree (Within s (k + 1) w) item? item? (Itemized s k w) := by
  refine Agree.tok fun t => Agree.ite (fun ht => ?_) (fun ht => ?_)
  · subst ht
    refine (next_pass rfl).bind fun _ => ?_
    cases k with
    | zero => exact fun p hp => absurd hp.left_lt (Nat.not_lt_zero _)
    | succ k =>
        refine fun p hp => (itemBody?_itemized p ⟨hp, rfl⟩).imp_right fun hx => .inl ?_
        exact hx.elim Itemized.within And.right
  · exact itemBody?_itemized.post fun x p hp => hp.resolve_right fun h => ht h.1

/-! ### The loop over the items -/

theorem checkTopLevel_reads (item : Child) : Reads n (checkTopLevel item) (checkTopLevel item) := by
  intro k hk s w
  refine Agree.get fun q => ?_
  dsimp only
  split
  · refine ((complain_reads _ rfl).pre fun p hp => hp.1).bind fun d => ?_
    exact Agree.pure fun p hp => hp.1
  · exact Agree.pure fun p hp => hp.1

theorem fileLoop_reads : fileLoop.Reads n fileLoop where
  more_eq := rfl
  round k hk s w decls t _ := by
    refine Agree.left fun b => ?_
    refine Agree.pre (P := fun p => Within s (b + 1) (push decls w) p ∧ b ≤ k) ?_ fun p hp =>
      ⟨⟨hp.1.1.moves, by omega⟩, by have := hp.1.1.left_lt; omega⟩
    refine Agree.of_fact fun hb => item?_itemized.bind fun x => Agree.get fun q => ?_
    refine Agree.ite (fun hend => ?_) (fun hend => ?_)
    · refine Agree.pure fun p hp => ?_
      obtain ⟨hp, rfl⟩ := hp
      cases x with
      | none => exact absurd hend (by simp)
      | some id =>
          have hop : p.tree.op id = .eof := by simpa using hend
          exact (hp.within.step (.drop [] id (.inr (.inl hop)))).weaken (Nat.succ_le_succ hb)
    · refine Agree.pre (P := Within s b (push x (push decls w))) ?_ fun p hp => ?_
      · refine (checkTopLevel_reads x b (Nat.le_refl b) s _).bind fun _ => Agree.left fun j => ?_
        refine Agree.ite (fun hj => ?_) (fun _ => Agree.pure fun p hp => ?_)
        · exact fun p hp => absurd (hp.2.trans hj) (Nat.ne_of_lt hp.1.left_lt)
        · show Within s k (push (decls ++ x.toList.map some) w) p
          rw [push_append, push_map_some, push_toList]
          exact hp.1.weaken hb
      · obtain ⟨hp, rfl⟩ := hp
        exact hp.resolve_right fun h => hend h.2

/-- The whole file becomes one node. -/
theorem fileNode_reads : Reads n fileNode fileNode := by
  intro k hk s w
  refine Agree.here fun pos => (fileLoop_reads.run hk []).bind fun decls => ?_
  exact add_node rfl rfl rfl rfl

/-! ### The end of the text -/

end GoSource.Grammar

namespace GoSource

/-- Nothing comes after the end of the text: the stream is empty when its end is looked at. -/
structure Parser.Settled (p : Parser) : Prop where
  curr : p.curr.token = .eof → p.scanner.stream.items = [] ∧ ∀ a, p.ahead = some a → a.token = .eof
  ahead : ∀ a, p.ahead = some a → a.token = .eof → p.scanner.stream.items = []

theorem Scanner.items_scanPast {s : Scanner} {comments : List String}
    (h : (s.scanPast comments).1.1.token = .eof) : (s.scanPast comments).2.stream.items = [] := by
  fun_induction scanPast s comments with
  | case1 s comments item rest hpop delivered hc ih => exact ih h
  | case2 s comments item rest hpop delivered hc => exact absurd h (token_place_ne_eof hpop)
  | case3 s comments hpop token s' heq =>
      obtain ⟨rfl, rfl⟩ := Prod.mk.inj heq
      exact TokenStream.items_eq_nil_of_pop? hpop

theorem Scanner.scanPast_of_items {s : Scanner} (comments : List String) (h : s.stream.items = []) :
    (s.scanPast comments).1.1.token = .eof := by
  fun_induction scanPast s comments with
  | case1 s comments item rest hpop delivered hc ih =>
      rw [TokenStream.items_pop? hpop] at h
      exact absurd h (List.cons_ne_nil _ _)
  | case2 s comments item rest hpop delivered hc =>
      rw [TokenStream.items_pop? hpop] at h
      exact absurd h (List.cons_ne_nil _ _)
  | case3 s comments hpop token s' heq =>
      obtain ⟨rfl, rfl⟩ := Prod.mk.inj heq
      rfl

namespace Parser

theorem Settled.advance {p : Parser} (h : p.Settled) : p.advance.Settled := by
  refine ⟨fun heof => ?_, fun a ha => ?_⟩
  · refine ⟨?_, fun a ha => absurd ((ahead_advance p).symm.trans ha) nofun⟩
    cases hahead : p.ahead with
    | some a =>
        rw [advance_of_some hahead] at heof ⊢
        exact h.ahead a hahead heof
    | none =>
        rw [advance_of_none hahead] at heof ⊢
        exact Scanner.items_scanPast heof
  · exact absurd ((ahead_advance p).symm.trans ha) nofun

/-- The end of the text stays. -/
theorem Settled.token_advance {p : Parser} (h : p.Settled) (heof : p.curr.token = .eof) :
    p.advance.curr.token = .eof := by
  obtain ⟨hitems, hnext⟩ := h.curr heof
  cases hahead : p.ahead with
  | some a =>
      rw [advance_of_some hahead]
      exact hnext a hahead
  | none =>
      rw [advance_of_none hahead]
      exact Scanner.scanPast_of_items [] hitems

theorem Settled.peek {p : Parser} (h : p.Settled) : (p.advance.putBack p.curr).Settled := by
  refine ⟨fun heof => ⟨?_, ?_⟩, ?_⟩
  · exact (h.advance.curr (h.token_advance heof)).1
  · rintro a ha
    obtain rfl := Option.some.inj ha
    exact h.token_advance heof
  · rintro a ha heof
    obtain rfl := Option.some.inj ha
    exact (h.advance.curr heof).1

/-- At the end of the text nothing is upcoming. -/
theorem Settled.upcoming_eq_nil {p : Parser} (h : p.Settled) (heof : p.curr.token = .eof) :
    p.upcoming = [] := by
  obtain ⟨hitems, hnext⟩ := h.curr heof
  have hstream : p.scanner.upcoming = [] := by
    rw [Scanner.upcoming, hitems]
    rfl
  have hahead : p.ahead.elim [] looked = [] := by
    cases ha : p.ahead with
    | none => rfl
    | some a => exact if_pos (hnext a ha)
  rw [Parser.upcoming, hstream, hahead, looked, if_pos heof]
  rfl

theorem settled_restart (p : Parser) : p.restart.Settled :=
  Settled.advance ⟨fun heof => absurd heof nofun, fun _ ha => absurd ha nofun⟩

end Parser

namespace Grammar

/-- A leaf for the end of the text is made only there, if the mode accepts everything before. -/
structure Ended (p : Parser) : Prop where
  settled : p.Settled
  token_eq : p.mode.decls = true → ∀ id, p.tree.op id = .eof → p.curr.token = .eof

theorem Ended.withNode {p : Parser} (h : Ended p) (atom : Atom) (shape : NodeShape)
    (heof : p.mode.decls = true → atom.token = .eof → p.curr.token = .eof) :
    Ended (withNode p atom shape) := by
  refine ⟨⟨h.settled.curr, h.settled.ahead⟩, fun hdecls id hop => ?_⟩
  rw [Tree.op, node_withNode] at hop
  split at hop
  · exact heof hdecls hop
  · exact h.token_eq hdecls id hop

theorem Ended.advance {p : Parser} (h : Ended p) : Ended p.advance := by
  refine ⟨h.settled.advance, fun hdecls id hop => ?_⟩
  rw [p.tree_advance] at hop
  rw [p.mode_advance] at hdecls
  exact h.settled.token_advance (h.token_eq hdecls id hop)

/-- No step undoes the end of the text. -/
theorem Move.ended {x y : Stack × Parser} (h : Move x y) (hx : Ended x.2) : Ended y.2 := by
  cases h with
  | uncomment => exact ⟨⟨hx.settled.curr, hx.settled.ahead⟩, hx.token_eq⟩
  | composite ok => exact ⟨⟨hx.settled.curr, hx.settled.ahead⟩, hx.token_eq⟩
  | complain =>
      show Ended (Parser.complain _ _)
      unfold Parser.complain
      split
      · exact hx
      · exact ⟨⟨hx.settled.curr, hx.settled.ahead⟩, hx.token_eq⟩
  | pass | lose | take => exact hx.advance
  | peek hident =>
      rename_i p
      refine ⟨hx.settled.peek, fun hdecls id hop => hx.token_eq ?_ id ?_⟩
      · exact p.mode_advance ▸ hdecls
      · exact p.tree_advance ▸ hop
  | leaf above a hne => exact hx.withNode a .leaf fun _ heof => absurd heof hne
  | node above atom shape _ _ heof _ =>
      refine hx.withNode atom shape fun hdecls htoken => ?_
      rcases (heof htoken).2 with hcurr | hmode
      · exact hcurr
      · exact absurd (hdecls.symm.trans hmode) (by decide)
  | bad atom found d _ heof =>
      refine hx.withNode atom (.bad found d) fun hdecls htoken => ?_
      rcases heof htoken with hcurr | ⟨id, -, hop⟩
      · exact hcurr
      · exact hx.token_eq hdecls id hop
  | reorder | drop => exact hx

theorem Moves.ended {x y : Stack × Parser} (h : Moves x y) (hx : Ended x.2) : Ended y.2 := by
  induction h with
  | refl => exact hx
  | tail _ hstep ih => exact hstep.ended ih

theorem ended_restart (p : Parser) : Ended p.restart := by
  refine ⟨p.settled_restart, fun hdecls id hop => ?_⟩
  have htree : p.restart.tree = {} := Parser.tree_advance _
  rw [htree] at hop
  exact absurd hop (by simp [Tree.op, Tree.node, Node.op])

end Grammar

end GoSource
