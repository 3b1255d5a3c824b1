import GoSource.Proofs.Grammar.AbreastRuns
import GoSource.Proofs.Grammar.Forest

/-!
# The grammar over the same words

The cycles of the grammar are closed for two runs over the same words.  A nonterminal that is asked for under a bound
answers like the grammar, and above the bound it reports, so that nobody stays inside; by induction on the bound it
does the same as the grammar from states abreast.

* **`bounded`**: the grammar up to a bound.
* **`grammar_near`**: the grammar does the same from states abreast.
-/

namespace GoSource.Grammar

variable {c : Course} {S : Parser → Prop} {α : Type}

/-- An action that is asked for below a bound only. -/
def below (rank bound : Nat) (m otherwise : ParseM α) : ParseM α :=
  fun p => if weight rank p < bound then m p else otherwise p

theorem below_eq {rank bound : Nat} {m otherwise : ParseM α} {p : Parser} (h : weight rank p < bound) :
    below rank bound m otherwise p = m p :=
  if_pos h

/-- The grammar up to a bound; a call above it is an error. -/
def bounded (bound : Nat) : Rules where
  binary precedence := below binaryRank bound (grammar.binary precedence) (makeBad .expectingExpr)
  unary := below unaryRank bound grammar.unary (makeBad .expectingExpr)
  type? := below leadRank bound grammar.type? (some <$> makeBad .expectingType)
  stmt? := below stmtRank bound grammar.stmt? (some <$> makeBad .expectingStmt)
  ifStmt := below leadRank bound grammar.ifStmt (makeBad .expectingStmt)
  elements := below leadRank bound grammar.elements (makeBad .expectingExpr)

theorem Agree.congr_left {P : Parser → Prop} {m m' m'' : ParseM α} {Q : α → Parser → Prop} (h : Agree P m m'' Q)
    (heq : ∀ p, P p → m' p = m p) : Agree P m' m'' Q :=
  fun p hp => ⟨(heq p hp).trans (h p hp).1, heq p hp ▸ (h p hp).2⟩

theorem Parses.congr_left [Holds α] {leads : Token → Bool} {n : Nat} {m m' m'' : ParseM α}
    (h : Parses leads n m m'') (heq : ∀ p, p.left ≤ n → m' p = m p) : Parses leads n m' m'' :=
  fun k hk s w t => (h k hk s w t).congr_left fun p hp =>
    heq p (Nat.le_trans (Nat.le_of_lt_succ hp.1.left_lt) hk)

/-- Below the bound the calls are those of the grammar. -/
theorem bounded_close {bound n : Nat} (hbound : n * 4 ≤ bound) : (bounded bound).Close n grammar := by
  have hself := grammar_self n
  have hbelow {β : Type} {k : Nat} {s : Stack × Parser} {w : Stack} {p : Parser} {m otherwise : ParseM β} (hk : k ≤ n)
      (hp : Within s k w p) (rank : Nat) (hrank : rank < 4) : below rank bound m otherwise p = m p := by
    refine below_eq ?_
    have := hp.left_lt
    unfold weight
    omega
  constructor
  · exact fun precedence hprec k hk s w => (hself.binary precedence hprec k hk s w).congr_left fun p hp =>
      hbelow hk hp binaryRank (by decide)
  · exact fun k hk s w => (hself.unary k hk s w).congr_left fun p hp => hbelow hk hp unaryRank (by decide)
  · exact fun k hk s w => (hself.type? k hk s w).congr_left fun p hp => hbelow hk hp leadRank (by decide)
  · exact fun k hk s w => (hself.stmt? k hk s w).congr_left fun p hp => hbelow hk hp stmtRank (by decide)
  · exact fun k hk s w => (hself.ifStmt k hk s w).congr_left fun p hp => hbelow hk hp.1 leadRank (by decide)
  · exact fun k hk s w => (hself.elements k hk s w).congr_left fun p hp => hbelow hk hp.1 leadRank (by decide)

/-! A production on the grammar up to what is left is the nonterminal. -/

section Productions

variable (p : Parser)

theorem bounded_weight_close (rank : Nat) : (bounded (weight rank p)).Close p.left grammar :=
  bounded_close (Nat.le_add_right _ _)

theorem typeExpr?_bounded : typeExpr? (bounded (weight leadRank p)) p = grammar.type? p := by
  rw [grammar_closed.type?]
  exact (typeExpr?_parses (bounded_weight_close p leadRank)).eq (Nat.le_refl _)

theorem unaryExpr_bounded : unaryExpr (bounded (weight unaryRank p)) p = grammar.unary p := by
  rw [grammar_closed.unary]
  refine (unaryExpr_parses (bounded_weight_close p unaryRank) ?_).eq (Nat.le_refl _)
  exact (grammar_type?_parses _).congr_left fun q hq => below_eq (weight_lt leadRank hq (Nat.lt_succ_self _))

theorem binaryExpr_bounded {precedence : Nat} (hprec : 1 ≤ precedence) :
    binaryExpr (bounded (weight binaryRank p)) precedence p = grammar.binary precedence p := by
  rw [grammar_closed.binary precedence hprec]
  refine (binaryExpr_parses (bounded_weight_close p binaryRank) ?_ hprec).eq (Nat.le_refl _)
  exact (grammar_unary_parses _).congr_left fun q hq => below_eq (weight_lt unaryRank hq (Nat.lt_succ_self _))

theorem statement?_bounded : statement? (bounded (weight stmtRank p)) p = grammar.stmt? p := by
  rw [grammar_closed.stmt?]
  refine (statement?_parses (bounded_weight_close p stmtRank) ?_).eq (Nat.le_refl _)
  exact (grammar_expr_parses _).congr_left fun q hq => below_eq (weight_lt binaryRank hq (Nat.lt_succ_self _))

variable {p}

theorem ifStmt_bounded (h : p.curr.token = .kw .if_) :
    ifStmt (bounded (weight leadRank p)) p = grammar.ifStmt p := by
  rw [grammar_closed.ifStmt p h]
  exact (ifStmt_opens (bounded_weight_close p leadRank)).eq (Nat.le_refl _) h

theorem compositeLit_bounded (h : p.curr.token = .op .lbrace) :
    compositeLit (bounded (weight leadRank p)) none p = grammar.elements p := by
  rw [grammar_closed.elements p h]
  exact (compositeLit_opens (bounded_weight_close p leadRank)).eq (Nat.le_refl _) h

end Productions

/-! ### The grammar -/

variable {rank bound : Nat} {m m' otherwise : ParseM α}

/-- An action that is in each state like one that does the same as `m'`. -/
theorem Near.pointwise [Renames α] (h : ∀ p, S p → ∃ f, Near c S f m' ∧ f p = m p) : Near c S m m' := by
  refine ⟨fun p hp hin => ?_, fun p q hp hpq hin => ?_⟩
  · obtain ⟨f, hf, heq⟩ := h p hp
    exact hf.inside p hp (heq ▸ hin)
  · obtain ⟨f, hf, heq⟩ := h p hp
    rw [← heq] at hin ⊢
    exact hf.abreast p q hp hpq hin

/-- An action under a bound, above which nobody stays inside. -/
theorem Near.of_below [Renames α] (hotherwise : Outside c S otherwise)
    (h : ∀ p, S p → weight rank p < bound → ∃ f, Near c S f m' ∧ f p = m p) :
    Near c S (below rank bound m otherwise) m' := by
  refine .pointwise fun p hp => ?_
  by_cases hlt : weight rank p < bound
  · obtain ⟨f, hf, heq⟩ := h p hp hlt
    exact ⟨f, hf, heq.trans (below_eq hlt).symm⟩
  · exact ⟨otherwise, .of_outside hotherwise, (if_neg hlt).symm⟩

theorem Takes.pointwise (h : ∀ p, S p → ∃ f, Takes c S f ∧ f p = m p) : Takes c S m := by
  intro p hp hin
  obtain ⟨f, hf, heq⟩ := h p hp
  exact hf p hp (heq ▸ hin)

theorem Takes.of_below (hotherwise : Outside c S otherwise)
    (h : ∀ p, S p → weight rank p < bound → ∃ f, Takes c S f ∧ f p = m p) :
    Takes c S (below rank bound m otherwise) := by
  refine .pointwise fun p hp => ?_
  by_cases hlt : weight rank p < bound
  · obtain ⟨f, hf, heq⟩ := h p hp hlt
    exact ⟨f, hf, heq.trans (below_eq hlt).symm⟩
  · exact ⟨otherwise, fun p hp hin => absurd hin (hotherwise p hp), (if_neg hlt).symm⟩

/-- In states abreast at the token `t` another action may answer for the second one. -/
theorem Near.congr_right [Renames α] {t : Token} {m'' : ParseM α} (h : Near c (·.curr.token = t) m m')
    (heq : ∀ q, q.curr.token = t → m'' q = m' q) : Near c (·.curr.token = t) m m'' := by
  refine ⟨h.inside, fun p q hp hpq hin => ?_⟩
  rw [heq q ((hpq.token_eq (h.inside p hp hin)).trans hp)]
  exact h.abreast p q hp hpq hin

theorem bounded_near (bound : Nat) : (bounded bound).Near c grammar := by
  induction bound using Nat.strongRecOn with
  | ind bound ih =>
    have hbad {S : Parser → Prop} (fault : SyntaxFault) : Outside c S (some <$> makeBad fault) :=
      makeBad_outside fault
    refine ⟨?_, ?_, ?_, ?_, ?_, ?_, ?_, ?_, ?_⟩
    · intro S precedence hprec
      refine .of_below (makeBad_outside _) fun p _ hlt => ⟨_, ?_, binaryExpr_bounded p hprec⟩
      rw [grammar_closed.binary precedence hprec]
      exact binaryExpr_near (ih _ hlt) precedence
    · refine .of_below (makeBad_outside _) fun p _ hlt => ⟨_, ?_, unaryExpr_bounded p⟩
      rw [grammar_closed.unary]
      exact unaryExpr_near (ih _ hlt)
    · refine .of_below (hbad _) fun p _ hlt => ⟨_, ?_, typeExpr?_bounded p⟩
      rw [grammar_closed.type?]
      exact typeExpr?_near (ih _ hlt)
    · refine .of_below (hbad _) fun p _ hlt => ⟨_, ?_, statement?_bounded p⟩
      rw [grammar_closed.stmt?]
      exact statement?_near (ih _ hlt)
    · refine .of_below (makeBad_outside _) fun p hp hlt => ⟨_, ?_, ifStmt_bounded hp⟩
      exact (ifStmt_near (ih _ hlt)).congr_right grammar_closed.ifStmt
    · refine .of_below (makeBad_outside _) fun p hp hlt => ⟨_, ?_, compositeLit_bounded hp⟩
      exact (compositeLit_near (ih _ hlt) none).congr_right grammar_closed.elements
    · exact .of_below (hbad _) fun p _ hlt => ⟨_, takes_typeExpr? (ih _ hlt), typeExpr?_bounded p⟩
    · exact .of_below (makeBad_outside _) fun p _ hlt => ⟨_, takes_unaryExpr (ih _ hlt), unaryExpr_bounded p⟩
    · exact .of_below (makeBad_outside _) fun p _ hlt =>
        ⟨_, takes_binaryExpr (ih _ hlt) 1, binaryExpr_bounded p (Nat.le_refl 1)⟩

/-- The grammar does the same from states abreast. -/
theorem grammar_near (c : Course) : grammar.Near c grammar := by
  have hbounded (rank : Nat) (p : Parser) := bounded_near (c := c) (weight rank p + 1)
  have heq {α : Type} (rank : Nat) (m otherwise : ParseM α) (p : Parser) :
      below rank (weight rank p + 1) m otherwise p = m p :=
    below_eq (Nat.lt_succ_self _)
  refine ⟨?_, ?_, ?_, ?_, ?_, ?_, ?_, ?_, ?_⟩
  · exact fun precedence hprec => .pointwise fun p _ => ⟨_, (hbounded binaryRank p).binary precedence hprec, heq ..⟩
  · exact .pointwise fun p _ => ⟨_, (hbounded unaryRank p).unary, heq ..⟩
  · exact .pointwise fun p _ => ⟨_, (hbounded leadRank p).type?, heq ..⟩
  · exact .pointwise fun p _ => ⟨_, (hbounded stmtRank p).stmt?, heq ..⟩
  · exact .pointwise fun p _ => ⟨_, (hbounded leadRank p).ifStmt, heq ..⟩
  · exact .pointwise fun p _ => ⟨_, (hbounded leadRank p).elements, heq ..⟩
  · exact .pointwise fun p _ => ⟨_, (hbounded leadRank p).takes_type?, heq ..⟩
  · exact .pointwise fun p _ => ⟨_, (hbounded unaryRank p).takes_unary, heq ..⟩
  · exact .pointwise fun p _ => ⟨_, (hbounded binaryRank p).takes_expr, heq ..⟩

end GoSource.Grammar
