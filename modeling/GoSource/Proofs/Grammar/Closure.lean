import GoSource.Proofs.Grammar.Declaration

/-!
# The cycles of the grammar

The nonterminals are closed under a bound, so that each call is on less text or of lower rank.  That the bound
never cuts anything off is the content of this module.

* **`grammar`** is the record without a bound.
* **`Rules.Closed`**: every nonterminal is its production, run on the record itself.
* **`grammar_closed`**: `grammar` is closed.
* **`Rules.Closed.same`**: any two closed records do the same; the productions have one solution.
-/

namespace GoSource.Grammar

variable {n : Nat} {g g' : Rules}

/-- The nonterminals, served in every state by the rules for that state. -/
def grammar : Rules where
  binary precedence p := (rulesAt p).binary precedence p
  unary p := (rulesAt p).unary p
  type? p := (rulesAt p).type? p
  stmt? p := (rulesAt p).stmt? p
  ifStmt p := (rulesAt p).ifStmt p
  elements p := (rulesAt p).elements p

/-- Every nonterminal is its production, run on the record itself.  Some are only asked for where they start. -/
structure Rules.Closed (g : Rules) : Prop where
  binary : ∀ precedence, 1 ≤ precedence → g.binary precedence = binaryExpr g precedence
  unary : g.unary = unaryExpr g
  type? : g.type? = typeExpr? g
  stmt? : g.stmt? = statement? g
  ifStmt : ∀ p, p.curr.token = .kw .if_ → g.ifStmt p = Grammar.ifStmt g p
  elements : ∀ p, p.curr.token = .op .lbrace → g.elements p = compositeLit g none p

/-! ### One solution -/

theorem Rules.Close.zero (g g' : Rules) : g.Close 0 g' := by
  have habsurd {k : Nat} (hk : k ≤ 0) {s : Stack × Parser} {w : Stack} {p : Parser} (hp : Within s k w p) :
      False :=
    Nat.not_lt_zero _ (Nat.lt_of_lt_of_le hp.left_lt hk)
  constructor
  · exact fun _ _ k hk s w p hp => (habsurd hk hp).elim
  · exact fun k hk s w p hp => (habsurd hk hp).elim
  · exact fun k hk s w p hp => (habsurd hk hp).elim
  · exact fun k hk s w p hp => (habsurd hk hp).elim
  · exact fun k hk s w p hp => (habsurd hk hp.1).elim
  · exact fun k hk s w p hp => (habsurd hk hp.1).elim

theorem compositeLit_opens (h : g.Close n g') :
    Opens (.op .lbrace) n (compositeLit g none) (compositeLit g' none) :=
  fun _ hk _ _ => compositeLit_reads h hk none

/-- Two closed records do the same, however much is left to read. -/
theorem Rules.Closed.close (hg : g.Closed) (hg' : g'.Closed) (n : Nat) : g.Close n g' := by
  induction n with
  | zero => exact .zero g g'
  | succ n ih =>
      have htype : Parses startsType n g.type? g'.type? := by
        rw [hg.type?, hg'.type?]
        exact typeExpr?_parses ih
      have hunary : Parses startsExpr n g.unary g'.unary := by
        rw [hg.unary, hg'.unary]
        exact unaryExpr_parses ih htype
      have hbinary (precedence : Nat) (hprec : 1 ≤ precedence) :
          Parses startsExpr n (g.binary precedence) (g'.binary precedence) := by
        rw [hg.binary _ hprec, hg'.binary _ hprec]
        exact binaryExpr_parses ih hunary hprec
      have hstmt : Parses startsStmt n g.stmt? g'.stmt? := by
        rw [hg.stmt?, hg'.stmt?]
        exact statement?_parses ih (hbinary 1 (Nat.le_refl 1))
      refine ⟨fun precedence hprec => (hbinary precedence hprec).reads, hunary.reads, htype.reads,
        hstmt.reads, ?_, ?_⟩
      · rintro k hk s w p ⟨hp, ht⟩
        rw [hg.ifStmt p ht, hg'.ifStmt p ht]
        exact (ifStmt_opens ih).reads hk s w p ⟨hp, ht⟩
      · rintro k hk s w p ⟨hp, ht⟩
        rw [hg.elements p ht, hg'.elements p ht]
        exact (compositeLit_opens ih).reads hk s w p ⟨hp, ht⟩

/-- Two records answer alike, where they are asked. -/
structure Rules.Same (g g' : Rules) : Prop where
  binary : ∀ precedence, 1 ≤ precedence → g.binary precedence = g'.binary precedence
  unary : g.unary = g'.unary
  type? : g.type? = g'.type?
  stmt? : g.stmt? = g'.stmt?
  ifStmt : ∀ p, p.curr.token = .kw .if_ → g.ifStmt p = g'.ifStmt p
  elements : ∀ p, p.curr.token = .op .lbrace → g.elements p = g'.elements p

theorem Reads.eq {α : Type} [Holds α] {m m' : ParseM α} (h : ∀ n, Reads n m m') : m = m' := by
  funext p
  exact (h (p.left + 1) (p.left + 1) (Nat.le_refl _) ([], p) [] p (.refl (Nat.lt_succ_self _))).1

theorem Rules.Closed.same (hg : g.Closed) (hg' : g'.Closed) : g.Same g' where
  binary precedence hprec := Reads.eq fun n => (hg.close hg' n).binary precedence hprec
  unary := Reads.eq fun n => (hg.close hg' n).unary
  type? := Reads.eq fun n => (hg.close hg' n).type?
  stmt? := Reads.eq fun n => (hg.close hg' n).stmt?
  ifStmt p ht := ((hg.close hg' (p.left + 1)).ifStmt (p.left + 1) (Nat.le_refl _) ([], p) [] p
    ⟨.refl (Nat.lt_succ_self _), ht⟩).1
  elements p ht := ((hg.close hg' (p.left + 1)).elements (p.left + 1) (Nat.le_refl _) ([], p) [] p
    ⟨.refl (Nat.lt_succ_self _), ht⟩).1

/-! ### The bounded record -/

/-- A nonterminal parses if in each state it is a production that parses there. -/
theorem Parses.of_left {α : Type} [Holds α] {leads : Token → Bool} {m m' : ParseM α}
    (h : ∀ p, p.left ≤ n → ∃ f f' : ParseM α, Parses leads p.left f f' ∧ m p = f p ∧ m' p = f' p) :
    Parses leads n m m' := by
  rintro k hk s w t p ⟨hp, ht⟩
  have hle : p.left ≤ k := Nat.le_of_lt_succ hp.left_lt
  obtain ⟨f, f', hf, heq, heq'⟩ := h p (Nat.le_trans hle hk)
  obtain ⟨hsame, hread⟩ := hf p.left (Nat.le_refl _) s w t p ⟨⟨hp.moves, Nat.lt_succ_self _⟩, ht⟩
  rw [heq, heq']
  refine ⟨hsame, hread.weaken ?_⟩
  split <;> omega

/-- The calls with at most `n` tokens left are served by every bound that is large enough. -/
def Served (n : Nat) : Prop :=
  ∀ m ≤ n, ∀ b b', m * 4 ≤ b → m * 4 ≤ b' → (rules b).Close m (rules b')

section Bounded

variable {b b' : Nat} {p : Parser}

theorem weight_lt (rank : Nat) (hleft : p.left ≤ n) (hb : n * 4 + rank < b) : weight rank p < b := by
  unfold weight
  omega

/-! A call below the bound is the production on what is left. -/

theorem rules_binary (h : weight binaryRank p < b) (precedence : Nat) :
    (rules b).binary precedence p = binaryExpr (rules (weight binaryRank p)) precedence p := by
  rw [rules]
  dsimp only
  rw [dif_pos h]

theorem rules_unary (h : weight unaryRank p < b) :
    (rules b).unary p = unaryExpr (rules (weight unaryRank p)) p := by
  rw [rules]
  dsimp only
  rw [dif_pos h]

theorem rules_type? (h : weight leadRank p < b) :
    (rules b).type? p = typeExpr? (rules (weight leadRank p)) p := by
  rw [rules]
  dsimp only
  rw [dif_pos h]

theorem rules_stmt? (h : weight stmtRank p < b) :
    (rules b).stmt? p = statement? (rules (weight stmtRank p)) p := by
  rw [rules]
  dsimp only
  rw [dif_pos h]

theorem rules_ifStmt (h : weight leadRank p < b) :
    (rules b).ifStmt p = ifStmt (rules (weight leadRank p)) p := by
  rw [rules]
  dsimp only
  rw [dif_pos h]

theorem rules_elements (h : weight leadRank p < b) :
    (rules b).elements p = compositeLit (rules (weight leadRank p)) none p := by
  rw [rules]
  dsimp only
  rw [dif_pos h]

/-! So it parses, if the calls with fewer tokens left are served. -/

theorem Served.weight (h : Served n) (hleft : p.left ≤ n) (rank : Nat) :
    (rules (weight rank p)).Close p.left (rules (weight rank p)) :=
  h p.left hleft _ _ (Nat.le_add_right _ _) (Nat.le_add_right _ _)

theorem Served.mono {m : Nat} (h : Served n) (hm : m ≤ n) : Served m :=
  fun j hj => h j (Nat.le_trans hj hm)

theorem rules_type?_parses (h : Served n) (hb : n * 4 + leadRank < b) (hb' : n * 4 + leadRank < b') :
    Parses startsType n (rules b).type? (rules b').type? :=
  .of_left fun _ hp => ⟨_, _, typeExpr?_parses (h.weight hp leadRank),
    rules_type? (weight_lt leadRank hp hb), rules_type? (weight_lt leadRank hp hb')⟩

theorem rules_unary_parses (h : Served n) (hb : n * 4 + unaryRank < b) (hb' : n * 4 + unaryRank < b') :
    Parses startsExpr n (rules b).unary (rules b').unary := by
  refine .of_left fun p hp => ⟨_, _, unaryExpr_parses (h.weight hp unaryRank) ?_,
    rules_unary (weight_lt unaryRank hp hb), rules_unary (weight_lt unaryRank hp hb')⟩
  exact rules_type?_parses (h.mono hp) (Nat.lt_succ_self _) (Nat.lt_succ_self _)

theorem rules_binary_parses (h : Served n) (hb : n * 4 + binaryRank < b) (hb' : n * 4 + binaryRank < b')
    {precedence : Nat} (hprec : 1 ≤ precedence) :
    Parses startsExpr n ((rules b).binary precedence) ((rules b').binary precedence) := by
  refine .of_left fun p hp => ⟨_, _, binaryExpr_parses (h.weight hp binaryRank) ?_ hprec,
    rules_binary (weight_lt binaryRank hp hb) precedence, rules_binary (weight_lt binaryRank hp hb') precedence⟩
  exact rules_unary_parses (h.mono hp) (Nat.lt_succ_self _) (Nat.lt_succ_self _)

theorem rules_stmt?_parses (h : Served n) (hb : n * 4 + stmtRank < b) (hb' : n * 4 + stmtRank < b') :
    Parses startsStmt n (rules b).stmt? (rules b').stmt? := by
  refine .of_left fun p hp => ⟨_, _, statement?_parses (h.weight hp stmtRank) ?_,
    rules_stmt? (weight_lt stmtRank hp hb), rules_stmt? (weight_lt stmtRank hp hb')⟩
  exact rules_binary_parses (h.mono hp) (Nat.lt_succ_self _) (Nat.lt_succ_self _) (Nat.le_refl 1)

/-- A nonterminal that opens with `t` reads on, if in each state it is a production that does. -/
theorem Opens.reads_of_left {α : Type} [Holds α] {t : Token} {m m' : ParseM α} {k : Nat}
    (h : ∀ p, p.left < k → ∃ f f' : ParseM α, Opens t p.left f f' ∧ m p = f p ∧ m' p = f' p)
    (s : Stack × Parser) (w : Stack) :
    Agree (fun p => Within s k w p ∧ p.curr.token = t) m m' fun x => Within s k (push x w) := by
  rintro p ⟨hp, ht⟩
  obtain ⟨f, f', hf, heq, heq'⟩ := h p hp.left_lt
  obtain ⟨hsame, hread⟩ := hf.reads (Nat.le_refl _) s w p ⟨⟨hp.moves, Nat.lt_succ_self _⟩, ht⟩
  rw [heq, heq']
  exact ⟨hsame, hread.weaken hp.left_lt⟩

theorem rules_close_succ (h : Served n) (hb : (n + 1) * 4 ≤ b) (hb' : (n + 1) * 4 ≤ b') :
    (rules b).Close (n + 1) (rules b') := by
  have hrank (rank : Nat) (hrank : rank < 4) : n * 4 + rank < b ∧ n * 4 + rank < b' := by omega
  obtain ⟨hlead, hlead'⟩ := hrank leadRank (by decide)
  obtain ⟨hunary, hunary'⟩ := hrank unaryRank (by decide)
  obtain ⟨hbinary, hbinary'⟩ := hrank binaryRank (by decide)
  obtain ⟨hstmt, hstmt'⟩ := hrank stmtRank (by decide)
  refine ⟨fun precedence hprec => (rules_binary_parses h hbinary hbinary' hprec).reads,
    (rules_unary_parses h hunary hunary').reads, (rules_type?_parses h hlead hlead').reads,
    (rules_stmt?_parses h hstmt hstmt').reads, fun k hk => ?_, fun k hk => ?_⟩
  · refine Opens.reads_of_left fun p hp => ?_
    have hleft : p.left ≤ n := Nat.le_of_lt_succ (Nat.lt_of_lt_of_le hp hk)
    exact ⟨_, _, ifStmt_opens (h.weight hleft leadRank), rules_ifStmt (weight_lt leadRank hleft hlead),
      rules_ifStmt (weight_lt leadRank hleft hlead')⟩
  · refine Opens.reads_of_left fun p hp => ?_
    have hleft : p.left ≤ n := Nat.le_of_lt_succ (Nat.lt_of_lt_of_le hp hk)
    exact ⟨_, _, compositeLit_opens (h.weight hleft leadRank), rules_elements (weight_lt leadRank hleft hlead),
      rules_elements (weight_lt leadRank hleft hlead')⟩

end Bounded

theorem served (n : Nat) : Served n := by
  induction n with
  | zero =>
      intro m hm b b' _ _
      obtain rfl := Nat.le_zero.1 hm
      exact .zero _ _
  | succ n ih =>
      intro m hm b b' hb hb'
      rcases Nat.lt_or_eq_of_le hm with hlt | rfl
      · exact ih m (Nat.le_of_lt_succ hlt) b b' hb hb'
      · exact rules_close_succ ih hb hb'

/-! ### The record without a bound -/

section Unbounded

variable {b : Nat} {p : Parser}

theorem weight_lt_stmt {rank : Nat} (hrank : rank ≤ stmtRank) : weight rank p < weight stmtRank p + 1 :=
  Nat.lt_succ_of_le (Nat.add_le_add_left hrank _)

/-! The unbounded record, too, runs the production on what is left. -/

theorem grammar_binary (precedence : Nat) :
    grammar.binary precedence p = binaryExpr (rules (weight binaryRank p)) precedence p :=
  rules_binary (weight_lt_stmt (by decide)) precedence

theorem grammar_unary : grammar.unary p = unaryExpr (rules (weight unaryRank p)) p :=
  rules_unary (weight_lt_stmt (by decide))

theorem grammar_type? : grammar.type? p = typeExpr? (rules (weight leadRank p)) p :=
  rules_type? (weight_lt_stmt (by decide))

theorem grammar_stmt? : grammar.stmt? p = statement? (rules (weight stmtRank p)) p :=
  rules_stmt? (weight_lt_stmt (by decide))

theorem grammar_ifStmt : grammar.ifStmt p = ifStmt (rules (weight leadRank p)) p :=
  rules_ifStmt (weight_lt_stmt (by decide))

theorem grammar_elements : grammar.elements p = compositeLit (rules (weight leadRank p)) none p :=
  rules_elements (weight_lt_stmt (by decide))

/-! So a call below the bound is a call of the unbounded record. -/

theorem rules_binary_eq (h : weight binaryRank p < b) (precedence : Nat) :
    (rules b).binary precedence p = grammar.binary precedence p := by
  rw [rules_binary h, grammar_binary]

theorem rules_unary_eq (h : weight unaryRank p < b) : (rules b).unary p = grammar.unary p := by
  rw [rules_unary h, grammar_unary]

theorem rules_type?_eq (h : weight leadRank p < b) : (rules b).type? p = grammar.type? p := by
  rw [rules_type? h, grammar_type?]

theorem rules_stmt?_eq (h : weight stmtRank p < b) : (rules b).stmt? p = grammar.stmt? p := by
  rw [rules_stmt? h, grammar_stmt?]

theorem rules_ifStmt_eq (h : weight leadRank p < b) : (rules b).ifStmt p = grammar.ifStmt p := by
  rw [rules_ifStmt h, grammar_ifStmt]

theorem rules_elements_eq (h : weight leadRank p < b) : (rules b).elements p = grammar.elements p := by
  rw [rules_elements h, grammar_elements]

end Unbounded

theorem Agree.congr_right {α : Type} {P : Parser → Prop} {m m' m'' : ParseM α} {Q : α → Parser → Prop}
    (h : Agree P m m' Q) (heq : ∀ p, P p → m' p = m'' p) : Agree P m m'' Q :=
  fun p hp => ⟨(h p hp).1.trans (heq p hp), (h p hp).2⟩

/-- Below the bound the two records do the same. -/
theorem rules_close_grammar {b : Nat} (hb : n * 4 ≤ b) : (rules b).Close n grammar := by
  have hclose : (rules b).Close n (rules b) := served n n (Nat.le_refl n) b b hb hb
  have hweight {k : Nat} {s : Stack × Parser} {w : Stack} {p : Parser} (hk : k ≤ n) (hp : Within s k w p)
      (rank : Nat) (hrank : rank < 4) : weight rank p < b := by
    have := hp.left_lt
    unfold weight
    omega
  constructor
  · exact fun precedence hprec k hk s w => (hclose.binary precedence hprec k hk s w).congr_right fun p hp =>
      rules_binary_eq (hweight hk hp binaryRank (by decide)) precedence
  · exact fun k hk s w => (hclose.unary k hk s w).congr_right fun p hp =>
      rules_unary_eq (hweight hk hp unaryRank (by decide))
  · exact fun k hk s w => (hclose.type? k hk s w).congr_right fun p hp =>
      rules_type?_eq (hweight hk hp leadRank (by decide))
  · exact fun k hk s w => (hclose.stmt? k hk s w).congr_right fun p hp =>
      rules_stmt?_eq (hweight hk hp stmtRank (by decide))
  · exact fun k hk s w => (hclose.ifStmt k hk s w).congr_right fun p hp =>
      rules_ifStmt_eq (hweight hk hp.1 leadRank (by decide))
  · exact fun k hk s w => (hclose.elements k hk s w).congr_right fun p hp =>
      rules_elements_eq (hweight hk hp.1 leadRank (by decide))

theorem Parses.congr_right {α : Type} [Holds α] {leads : Token → Bool} {m m' m'' : ParseM α}
    (h : Parses leads n m m') (heq : ∀ p, p.left ≤ n → m' p = m'' p) : Parses leads n m m'' :=
  fun k hk s w t => (h k hk s w t).congr_right fun p hp =>
    heq p (Nat.le_trans (Nat.le_of_lt_succ hp.1.left_lt) hk)

theorem Parses.eq {α : Type} [Holds α] {leads : Token → Bool} {m m' : ParseM α} (h : Parses leads n m m')
    {p : Parser} (hp : p.left ≤ n) : m p = m' p :=
  (h p.left hp ([], p) [] _ p ⟨.refl (Nat.lt_succ_self _), rfl⟩).1

theorem Opens.eq {α : Type} [Holds α] {t : Token} {m m' : ParseM α} (h : Opens t n m m') {p : Parser}
    (hp : p.left ≤ n) (ht : p.curr.token = t) : m p = m' p :=
  (h p.left hp ([], p) [] p ⟨.refl (Nat.lt_succ_self _), ht⟩).1

/-- The unbounded record serves its own calls. -/
theorem grammar_closed : grammar.Closed := by
  have hclose (p : Parser) (rank : Nat) : (rules (weight rank p)).Close p.left grammar :=
    rules_close_grammar (Nat.le_add_right _ _)
  have htype (p : Parser) : Parses startsType p.left (rules (weight unaryRank p)).type? grammar.type? :=
    (rules_type?_parses (served _) (Nat.lt_succ_self _) (Nat.lt_succ_self _)).congr_right fun q hq =>
      rules_type?_eq (weight_lt leadRank hq (Nat.lt_succ_self _))
  have hunary (p : Parser) : Parses startsExpr p.left (rules (weight binaryRank p)).unary grammar.unary :=
    (rules_unary_parses (served _) (Nat.lt_succ_self _) (Nat.lt_succ_self _)).congr_right fun q hq =>
      rules_unary_eq (weight_lt unaryRank hq (Nat.lt_succ_self _))
  have hexpr (p : Parser) : Parses startsExpr p.left (rules (weight stmtRank p)).expr grammar.expr :=
    (rules_binary_parses (served _) (Nat.lt_succ_self _) (Nat.lt_succ_self _) (Nat.le_refl 1)).congr_right
      fun q hq => rules_binary_eq (weight_lt binaryRank hq (Nat.lt_succ_self _)) 1
  constructor
  · intro precedence hprec
    funext p
    rw [grammar_binary]
    exact (binaryExpr_parses (hclose p binaryRank) (hunary p) hprec).eq (Nat.le_refl _)
  · funext p
    rw [grammar_unary]
    exact (unaryExpr_parses (hclose p unaryRank) (htype p)).eq (Nat.le_refl _)
  · funext p
    rw [grammar_type?]
    exact (typeExpr?_parses (hclose p leadRank)).eq (Nat.le_refl _)
  · funext p
    rw [grammar_stmt?]
    exact (statement?_parses (hclose p stmtRank) (hexpr p)).eq (Nat.le_refl _)
  · intro p ht
    rw [grammar_ifStmt]
    exact (ifStmt_opens (hclose p leadRank)).eq (Nat.le_refl _) ht
  · intro p ht
    rw [grammar_elements]
    exact (compositeLit_opens (hclose p leadRank)).eq (Nat.le_refl _) ht

/-! ### Running productions -/

theorem run_declaration : run declaration = declaration grammar := by
  funext p
  have hclose : (rulesAt p).Close p.left grammar := rules_close_grammar (by unfold weight; omega)
  exact (declaration_parses hclose).eq (Nat.le_refl _)

theorem run_statement? : run statement? = statement? grammar := by
  funext p
  have hclose : (rulesAt p).Close p.left grammar := rules_close_grammar (by unfold weight; omega)
  have hexpr : Parses startsExpr p.left (rulesAt p).expr grammar.expr := by
    have hrank : p.left * 4 + binaryRank < weight stmtRank p + 1 := weight_lt_stmt (by decide)
    refine (rules_binary_parses (served _) hrank hrank (Nat.le_refl 1)).congr_right fun q hq => ?_
    exact rules_binary_eq (weight_lt binaryRank hq hrank) 1
  exact (statement?_parses hclose hexpr).eq (Nat.le_refl _)

theorem run_expr : run Rules.expr = grammar.expr :=
  rfl

end GoSource.Grammar
