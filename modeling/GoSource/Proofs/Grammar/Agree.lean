import GoSource.Grammar.Rules
import GoSource.Proofs.Grammar.Move

/-!
# Running two parsers side by side

Productions are functions of the nonterminals that they refer to.  To say that a production refers only to
calls on less text, it is run with two sets of nonterminals at once: they agree on what is behind the first
token, and so the two runs agree altogether.

* **`Agree P m m' Q`**: from a state with `P` the actions `m` and `m'` do the same, and lead to `Q`.
* **`Within s n w p`**: the state `p` comes from `s` by moves that leave the stack `w`, and fewer than `n` tokens are
  left.
* **`Reads n m m'`**: two actions agree below `n`, read on, and put what they return on the stack.
* **`Opens t n m m'`**: the same at the token `t`, which is consumed.
* **`Parses leads n m m'`**: the same at any token; those with `leads` are consumed.
-/

namespace GoSource.Grammar

variable {α β σ : Type}

/-- From every state with `P`, the two actions do the same, and that leads to `Q`. -/
def Agree (P : Parser → Prop) (m m' : ParseM α) (Q : α → Parser → Prop) : Prop :=
  ∀ p, P p → m p = m' p ∧ Q (m p).1 (m p).2

namespace Agree

variable {P : Parser → Prop} {m m' : ParseM α} {Q : α → Parser → Prop}

theorem mono {P' : Parser → Prop} {Q' : α → Parser → Prop} (h : Agree P m m' Q)
    (hP : ∀ p, P' p → P p) (hQ : ∀ x p, Q x p → Q' x p) : Agree P' m m' Q' :=
  fun p hp => ⟨(h p (hP p hp)).1, hQ _ _ (h p (hP p hp)).2⟩

theorem pre {P' : Parser → Prop} (h : Agree P m m' Q) (hP : ∀ p, P' p → P p) : Agree P' m m' Q :=
  h.mono hP fun _ _ hq => hq

theorem post {Q' : α → Parser → Prop} (h : Agree P m m' Q) (hQ : ∀ x p, Q x p → Q' x p) :
    Agree P m m' Q' :=
  h.mono (fun _ hp => hp) hQ

/-- One state at a time. -/
theorem of_forall (h : ∀ p₀, P p₀ → Agree (· = p₀) m m' Q) : Agree P m m' Q :=
  fun p hp => h p hp p rfl

/-- What is known about the state and does not depend on it. -/
theorem of_fact {φ : Prop} (h : φ → Agree P m m' Q) : Agree (fun p => P p ∧ φ) m m' Q :=
  fun p hp => h hp.2 p hp.1

theorem pure {x : α} (h : ∀ p, P p → Q x p) : Agree P (Pure.pure x) (Pure.pure x) Q :=
  fun p hp => ⟨rfl, h p hp⟩

theorem bind {f f' : α → ParseM β} {R : β → Parser → Prop} (h : Agree P m m' Q)
    (hf : ∀ x, Agree (Q x) (f x) (f' x) R) : Agree P (m >>= f) (m' >>= f') R := by
  intro p hp
  obtain ⟨heq, hq⟩ := h p hp
  obtain ⟨heq', hr⟩ := hf _ _ hq
  refine ⟨?_, hr⟩
  show f (m p).1 (m p).2 = f' (m' p).1 (m' p).2
  rw [← heq, heq']

theorem map {f : α → β} {R : β → Parser → Prop} (h : Agree P m m' Q) (hf : ∀ x p, Q x p → R (f x) p) :
    Agree P (f <$> m) (f <$> m') R := by
  intro p hp
  obtain ⟨heq, hq⟩ := h p hp
  refine ⟨?_, hf _ _ hq⟩
  show (f (m p).1, (m p).2) = (f (m' p).1, (m' p).2)
  rw [heq]

theorem ite {c : Prop} [Decidable c] {a a' b b' : ParseM α} (ha : c → Agree P a a' Q)
    (hb : ¬ c → Agree P b b' Q) : Agree P (if c then a else b) (if c then a' else b') Q := by
  by_cases hc : c
  · rw [if_pos hc, if_pos hc]
    exact ha hc
  · rw [if_neg hc, if_neg hc]
    exact hb hc

/-- A step that depends on a condition, and what follows it. -/
theorem ite_bind {c : Prop} [Decidable c] {a a' b b' : ParseM α} {f f' : α → ParseM β}
    {R : β → Parser → Prop} (ha : c → Agree P a a' Q) (hb : ¬ c → Agree P b b' Q)
    (hf : ∀ x, Agree (Q x) (f x) (f' x) R) :
    Agree P (if c then a >>= f else b >>= f) (if c then a' >>= f' else b' >>= f') R :=
  ite (fun hc => (ha hc).bind hf) fun hc => (hb hc).bind hf

/-- A step that is taken on a condition, and what follows it. -/
theorem ite_then {c : Prop} [Decidable c] {a a' : ParseM Unit} {Q : Parser → Prop} {f f' : Unit → ParseM β}
    {R : β → Parser → Prop} (ha : c → Agree P a a' fun _ => Q) (hb : ¬ c → ∀ p, P p → Q p)
    (hf : Agree Q (f ()) (f' ()) R) :
    Agree P (if c then a >>= f else f ()) (if c then a' >>= f' else f' ()) R :=
  ite (fun hc => (ha hc).bind fun _ => hf) fun hc => hf.pre (hb hc)

/-! ### Looking at the state -/

theorem get {f f' : Parser → ParseM β} {R : β → Parser → Prop}
    (h : ∀ q, Agree (fun p => P p ∧ p = q) (f q) (f' q) R) :
    Agree P (MonadState.get >>= f) (MonadState.get >>= f') R :=
  fun p hp => h p p ⟨hp, rfl⟩

theorem tok {f f' : Token → ParseM β} {R : β → Parser → Prop}
    (h : ∀ t, Agree (fun p => P p ∧ p.curr.token = t) (f t) (f' t) R) :
    Agree P (Grammar.tok >>= f) (Grammar.tok >>= f') R :=
  fun p hp => h _ p ⟨hp, rfl⟩

/-- Looking at a token that is known. -/
theorem tok_eq {t : Token} {f f' : Token → ParseM β} {R : β → Parser → Prop}
    (h : Agree (fun p => P p ∧ p.curr.token = t) (f t) (f' t) R) :
    Agree (fun p => P p ∧ p.curr.token = t) (Grammar.tok >>= f) (Grammar.tok >>= f') R := by
  rintro p ⟨hp, rfl⟩
  exact h p ⟨hp, rfl⟩

theorem left {f f' : Nat → ParseM β} {R : β → Parser → Prop}
    (h : ∀ n, Agree (fun p => P p ∧ p.left = n) (f n) (f' n) R) :
    Agree P (Grammar.left >>= f) (Grammar.left >>= f') R :=
  fun p hp => h _ p ⟨hp, rfl⟩

theorem here {f f' : Pos → ParseM β} {R : β → Parser → Prop} (h : ∀ pos, Agree P (f pos) (f' pos) R) :
    Agree P (Grammar.here >>= f) (Grammar.here >>= f') R :=
  fun p hp => h _ p hp

theorem startOf {id : NodeId} {f f' : Pos → ParseM β} {R : β → Parser → Prop}
    (h : ∀ pos, Agree P (f pos) (f' pos) R) :
    Agree P (Grammar.startOf id >>= f) (Grammar.startOf id >>= f') R :=
  fun p hp => h _ p hp

end Agree

/-! ### States under way -/

/-- The state comes from `s` by moves, the stack is `w`, and fewer than `n` tokens are left. -/
structure Within (s : Stack × Parser) (n : Nat) (w : Stack) (p : Parser) : Prop where
  moves : Moves s (w, p)
  left_lt : p.left < n

namespace Within

variable {s : Stack × Parser} {n k : Nat} {w w' : Stack} {p p' : Parser}

theorem weaken (h : Within s n w p) (hn : n ≤ k) : Within s k w p :=
  ⟨h.moves, Nat.lt_of_lt_of_le h.left_lt hn⟩

/-- A move that reads on. -/
theorem step (h : Within s n w p) (hmove : Move (w, p) (w', p')) : Within s n w' p' :=
  ⟨h.moves.tail hmove, Nat.lt_of_le_of_lt (Moves.left_le (.single hmove)) h.left_lt⟩

/-- The start of a run. -/
theorem refl (hleft : p.left < n) : Within (w, p) n w p :=
  ⟨.refl, hleft⟩

/-- A run within a run. -/
theorem trans (h : Within s n w p) (h' : Within (w, p) k w' p') : Within s k w' p' :=
  ⟨h.moves.trans h'.moves, h'.left_lt⟩

end Within

/-- Below `n` the two actions do the same, read on, and leave what they return on the stack. -/
def Reads [Holds α] (n : Nat) (m m' : ParseM α) : Prop :=
  ∀ k ≤ n, ∀ s w, Agree (Within s k w) m m' fun x => Within s k (push x w)

/-- At the token `t` the two actions do the same, consume a token, and leave what they return on the stack. -/
def Opens [Holds α] (t : Token) (n : Nat) (m m' : ParseM α) : Prop :=
  ∀ k ≤ n, ∀ s w,
    Agree (fun p => Within s (k + 1) w p ∧ p.curr.token = t) m m' fun x => Within s k (push x w)

/-- With at most `n` tokens left the two actions do the same, read on, and leave what they return on the stack.
They consume a token if the first one is such that `leads` holds. -/
def Parses [Holds α] (leads : Token → Bool) (n : Nat) (m m' : ParseM α) : Prop :=
  ∀ k ≤ n, ∀ s w t,
    Agree (fun p => Within s (k + 1) w p ∧ p.curr.token = t) m m'
      fun x => Within s (if leads t then k else k + 1) (push x w)

/-- What no move can undo still holds after an action that reads on. -/
theorem Reads.keeps [Holds α] {n k : Nat} {m m' : ParseM α} {s : Stack × Parser} {w : Stack}
    {P : Parser → Prop} (h : Reads n m m') (hk : k ≤ n)
    (hP : ∀ {x y : Stack × Parser}, Moves x y → P x.2 → P y.2) :
    Agree (fun p => Within s k w p ∧ P p) m m' fun x p => Within s k (push x w) p ∧ P p := by
  rintro p ⟨hp, hkept⟩
  obtain ⟨heq, hrun⟩ := h k hk (w, p) w p (.refl hp.left_lt)
  exact ⟨heq, hp.trans hrun, hP hrun.moves hkept⟩

theorem Reads.mono [Holds α] {n k : Nat} {m m' : ParseM α} (h : Reads n m m') (hk : k ≤ n) :
    Reads k m m' :=
  fun j hj => h j (Nat.le_trans hj hk)

theorem Opens.mono [Holds α] {t : Token} {n k : Nat} {m m' : ParseM α} (h : Opens t n m m')
    (hk : k ≤ n) : Opens t k m m' :=
  fun j hj => h j (Nat.le_trans hj hk)

/-- An action that opens with a token also reads on, where that token is known. -/
theorem Opens.reads [Holds α] {t : Token} {n k : Nat} {m m' : ParseM α} (h : Opens t n m m')
    (hk : k ≤ n + 1) (s : Stack × Parser) (w : Stack) :
    Agree (fun p => Within s k w p ∧ p.curr.token = t) m m' fun x => Within s k (push x w) := by
  cases k with
  | zero => exact fun p hp => absurd hp.1.left_lt (Nat.not_lt_zero _)
  | succ k =>
      exact (h k (Nat.le_of_succ_le_succ hk) s w).post fun x p hp => hp.weaken (Nat.le_succ k)

theorem Opens.some [Holds α] {t : Token} {n : Nat} {m m' : ParseM α} (h : Opens t n m m') :
    Opens t n (Option.some <$> m) (Option.some <$> m') :=
  fun k hk s w => Agree.map (h k hk s w) fun _ _ hp => hp

theorem Reads.some [Holds α] {n : Nat} {m m' : ParseM α} (h : Reads n m m') :
    Reads n (Option.some <$> m) (Option.some <$> m') :=
  fun k hk s w => Agree.map (h k hk s w) fun _ _ hp => hp

theorem Parses.opens [Holds α] {leads : Token → Bool} {t : Token} {n : Nat} {m m' : ParseM α}
    (h : Parses leads n m m') (ht : leads t = true) : Opens t n m m' := by
  intro k hk s w
  have hrun := h k hk s w t
  rwa [if_pos ht] at hrun

theorem Parses.reads [Holds α] {leads : Token → Bool} {n : Nat} {m m' : ParseM α}
    (h : Parses leads n m m') : Reads (n + 1) m m' := by
  intro k hk s w
  cases k with
  | zero => exact fun p hp => absurd hp.left_lt (Nat.not_lt_zero _)
  | succ k =>
      intro p hp
      obtain ⟨heq, hread⟩ := h k (Nat.le_of_succ_le_succ hk) s w _ p ⟨hp, rfl⟩
      refine ⟨heq, hread.weaken ?_⟩
      split <;> omega

/-- One case of a production that looks at the current token: the token is consumed. -/
theorem Opens.parses [Holds α] {leads : Token → Bool} {t : Token} {n k : Nat} {m m' : ParseM α}
    (h : Opens t n m m') (hk : k ≤ n) (s : Stack × Parser) (w : Stack) :
    Agree (fun p => Within s (k + 1) w p ∧ p.curr.token = t) m m'
      fun x => Within s (if leads t then k else k + 1) (push x w) := by
  refine (h k hk s w).post fun x p hp => hp.weaken ?_
  split <;> omega

/-- The other cases: the token may stay. -/
theorem Reads.parses [Holds α] {leads : Token → Bool} {t : Token} {n k : Nat} {m m' : ParseM α}
    (h : Reads (n + 1) m m') (hk : k ≤ n) (ht : leads t = false) (s : Stack × Parser) (w : Stack) :
    Agree (fun p => Within s (k + 1) w p ∧ p.curr.token = t) m m'
      fun x => Within s (if leads t then k else k + 1) (push x w) := by
  rw [ht]
  exact (h (k + 1) (Nat.succ_le_succ hk) s w).pre fun p hp => hp.1

end GoSource.Grammar
