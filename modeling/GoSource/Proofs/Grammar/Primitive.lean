import GoSource.Grammar.Parameter
import GoSource.Proofs.Grammar.Agree

/-!
# Steps that all productions share

What the actions do from which productions are put together: passing over a token, taking one, complaining,
making nodes, recovering, and looping.
-/

namespace GoSource

/-- Tokens that have no text of their own and do not end the text. -/
def Token.isPlain (t : Token) : Bool :=
  !t.isLiteral && t != .eof

/-- Tokens that tag nodes whose parts can be any. -/
def Token.isTag (t : Token) : Bool :=
  t.isPlain && t != .kw .func && t != .kw .import_ && t != .tag .importSpec

namespace Token

theorem isLiteral_of_isPlain {t : Token} (h : t.isPlain = true) : t.isLiteral = false := by
  simp only [isPlain, Bool.and_eq_true, Bool.not_eq_true'] at h
  exact h.1

theorem ne_eof_of_isPlain {t : Token} (h : t.isPlain = true) : t ≠ .eof := by
  rintro rfl
  exact absurd h (by decide)

theorem isPlain_of_isTag {t : Token} (h : t.isTag = true) : t.isPlain = true := by
  simp only [isTag, Bool.and_eq_true] at h
  exact h.1.1.1

end Token

namespace Grammar

variable {α β σ : Type} {s : Stack × Parser} {n k : Nat} {w : Stack} {t : Token}

/-! ### Tokens -/

/-- Passing over a token without a text of its own. -/
theorem next_pass (ht : t.isPlain = true) :
    Agree (fun p => Within s (k + 1) w p ∧ p.curr.token = t) next next fun _ => Within s k w := by
  rintro p ⟨hp, rfl⟩
  refine ⟨rfl, hp.moves.tail (.pass (Token.isLiteral_of_isPlain ht)), ?_⟩
  exact Nat.lt_of_lt_of_le (Parser.left_advance_lt (Token.ne_eof_of_isPlain ht))
    (Nat.le_of_lt_succ hp.left_lt)

theorem next_pass_le (ht : t.isLiteral = false) :
    Agree (fun p => Within s k w p ∧ p.curr.token = t) next next fun _ => Within s k w := by
  rintro p ⟨hp, rfl⟩
  exact ⟨rfl, hp.step (.pass ht)⟩

/-- Making an atom leaves the current token where it is. -/
theorem makeAtom_keeps (token : Token) :
    Agree (fun p => Within s k w p ∧ p.curr.token = t) (makeAtom token) (makeAtom token)
      fun a p => (Within s k w p ∧ p.curr.token = t) ∧ a.token = token := by
  rintro p ⟨hp, rfl⟩
  exact ⟨rfl, ⟨hp.step .uncomment, rfl⟩, rfl⟩

theorem makeAtom_reads (token : Token) :
    Agree (Within s k w) (makeAtom token) (makeAtom token) fun a p => Within s k w p ∧ a.token = token := by
  intro p hp
  exact ⟨rfl, hp.step .uncomment, rfl⟩

/-- A production that opens with a token: the token is made into an atom and passed over. -/
theorem Agree.lead {token : Token} {f f' : Atom → ParseM β} {Q : β → Parser → Prop} (ht : t.isPlain = true)
    (h : ∀ a, a.token = token → Agree (Within s k w) (f a) (f' a) Q) :
    Agree (fun p => Within s (k + 1) w p ∧ p.curr.token = t)
      (makeAtom token >>= fun a => next >>= fun _ => f a)
      (makeAtom token >>= fun a => next >>= fun _ => f' a) Q := by
  refine (makeAtom_keeps token).bind fun a => ?_
  refine Agree.of_fact fun ha => ?_
  exact (next_pass ht).bind fun _ => h a ha

/-- The same where it does not matter that less is left. -/
theorem Agree.lead_le {token : Token} {f f' : Atom → ParseM β} {Q : β → Parser → Prop}
    (ht : t.isLiteral = false) (h : ∀ a, a.token = token → Agree (Within s k w) (f a) (f' a) Q) :
    Agree (fun p => Within s k w p ∧ p.curr.token = t)
      (makeAtom token >>= fun a => next >>= fun _ => f a)
      (makeAtom token >>= fun a => next >>= fun _ => f' a) Q := by
  refine (makeAtom_keeps token).bind fun a => ?_
  refine Agree.of_fact fun ha => ?_
  exact (next_pass_le ht).bind fun _ => h a ha

/-- The identifier `a` was taken and can still be put back. -/
structure Taken (s : Stack × Parser) (k : Nat) (w : Stack) (a : Atom) (p : Parser) : Prop where
  /-- The token of an identifier. -/
  token_eq : a.token = .lit .ident
  /-- The state before. -/
  before : ∃ q, Within s (k + 1) w q ∧ q.curr = a ∧ p = q.advance

theorem Taken.take {a : Atom} {p : Parser} (h : Taken s k w a p) : Within s k (.token a :: w) p := by
  obtain ⟨q, hq, rfl, rfl⟩ := h.before
  refine ⟨hq.moves.tail .take, ?_⟩
  have hne : q.curr.token ≠ .eof := by rw [h.token_eq]; exact nofun
  exact Nat.lt_of_lt_of_le (Parser.left_advance_lt hne) (Nat.le_of_lt_succ hq.left_lt)

/-- Taking an identifier. -/
theorem Agree.lead_ident {f f' : Atom → ParseM β} {Q : β → Parser → Prop}
    (h : ∀ a, a.token = .lit .ident → Agree (Taken s k w a) (f a) (f' a) Q) :
    Agree (fun p => Within s (k + 1) w p ∧ p.curr.token = .lit .ident)
      (makeAtom (.lit .ident) >>= fun a => next >>= fun _ => f a)
      (makeAtom (.lit .ident) >>= fun a => next >>= fun _ => f' a) Q := by
  rintro p ⟨hp, ht⟩
  have hatom : (makeAtom (.lit .ident) p).1 = p.curr := by
    show ({ p.curr with token := .lit .ident, literal := if .lit .ident = p.curr.token then _ else _ } : Atom) = _
    rw [if_pos ht.symm, ← ht]
  refine h (makeAtom (.lit .ident) p).1 rfl _ ⟨rfl, p, hp, hatom.symm, ?_⟩
  exact p.advance_with_curr _

/-- Putting an identifier back. -/
theorem putBack_taken {a : Atom} :
    Agree (Taken s k w a) (putBack a) (putBack a)
      fun _ p => Within s (k + 1) w p ∧ p.curr.token = .lit .ident := by
  intro p hp
  obtain ⟨q, hq, rfl, rfl⟩ := hp.before
  exact ⟨rfl, hq.step (.peek hp.token_eq), hp.token_eq⟩

/-! ### Nodes -/

/-- Where the parts can be any, nothing is asked of them. -/
theorem formed_of_isTag (ht : t.isTag = true) (tree : Tree) (x : NodeShape) : Formed tree t x := by
  simp only [Token.isTag, Bool.and_eq_true, bne_iff_ne] at ht
  exact ⟨fun h => absurd h ht.1.1.2, fun h => absurd h ht.1.2, fun h => absurd h ht.2⟩

/-- Nodes on the stack become the parts of a node. -/
theorem add_under (above : Stack) {w₀ : Stack} {a : Atom} {x : NodeShape} (hatom : a.token = t)
    (ht : t.isTag = true) (hsound : isSound x = true) (hw : w₀ = above ++ push (parts x) w) :
    Agree (Within s k w₀) (add a x) (add a x) fun y => Within s k (above ++ .node y :: w) := by
  subst hatom hw
  intro p hp
  have hplain : a.token.isPlain = true := Token.isPlain_of_isTag ht
  refine ⟨rfl, hp.step (.node above a x (Token.isLiteral_of_isPlain hplain) hsound ?_ ?_)⟩
  · exact fun heof => absurd heof (Token.ne_eof_of_isPlain hplain)
  · exact formed_of_isTag ht p.tree x

theorem add_node {w₀ : Stack} {a : Atom} {x : NodeShape} (hatom : a.token = t)
    (ht : t.isTag = true) (hsound : isSound x = true) (hw : w₀ = push (parts x) w) :
    Agree (Within s k w₀) (add a x) (add a x) fun y => Within s k (.node y :: w) :=
  add_under [] hatom ht hsound hw

/-- Nodes on the stack become the parts of a node that must have certain parts. -/
theorem add_formed {w₀ : Stack} {a : Atom} {x : NodeShape} {P : Parser → Prop} (hatom : a.token = t)
    (ht : t.isPlain = true) (hsound : isSound x = true) (hw : w₀ = push (parts x) w)
    (hformed : ∀ p, P p → Formed p.tree t x) :
    Agree (fun p => Within s k w₀ p ∧ P p) (add a x) (add a x) fun y => Within s k (.node y :: w) := by
  subst hatom hw
  rintro p ⟨hp, hP⟩
  refine ⟨rfl, hp.step (.node [] a x (Token.isLiteral_of_isPlain ht) hsound ?_ (hformed p hP))⟩
  exact fun heof => absurd heof (Token.ne_eof_of_isPlain ht)

/-- Nodes on the stack become the parts of a function, of which the third is a signature. -/
theorem add_func {w₀ : Stack} {a : Atom} {x : NodeShape} {P : Parser → Prop} (hatom : a.token = .kw .func)
    (hsound : isSound x = true) (hw : w₀ = push (parts x) w)
    (hsigned : ∀ sig p, P p → (parts x)[2]? = some (some sig) → p.tree.op sig = .kw .func) :
    Agree (fun p => Within s k w₀ p ∧ P p) (add a x) (add a x) fun y => Within s k (.node y :: w) :=
  add_formed hatom rfl hsound hw fun p hP => ⟨fun _ sig => hsigned sig p hP, nofun, nofun⟩

/-- A token that was taken becomes a leaf. -/
theorem add_leaf (above : Stack) {a : Atom} (ha : a.token ≠ .eof) :
    Agree (Within s k (above ++ .token a :: w)) (add a .leaf) (add a .leaf)
      fun x => Within s k (above ++ .node x :: w) :=
  fun _ hp => ⟨rfl, hp.step (.leaf above a ha)⟩

/-! ### Complaints and bad nodes -/

/-- A complaint about what was parsed before. -/
theorem complain_reads (pos : Pos) {fault : SyntaxFault} (hfault : looksBack fault = true) :
    Agree (Within s k w) (complain pos fault) (complain pos fault)
      fun _ p => Within s k w p ∧ Reported p :=
  fun p hp => ⟨rfl, hp.step (.complain pos fault (.inr hfault)), p.not_clean_complain _⟩

/-- A complaint about the current token. -/
theorem Agree.complain_here {P : Parser → Prop} {Q : β → Parser → Prop} (fault : SyntaxFault)
    {f f' : Diagnostic SourceFault → ParseM β} (hP : ∀ p, P p → Within s k w p)
    (h : ∀ d, Agree (fun p => Within s k w p ∧ Reported p) (f d) (f' d) Q) :
    Agree P (Grammar.here >>= fun pos => complain pos fault >>= f)
      (Grammar.here >>= fun pos => complain pos fault >>= f') Q :=
  fun p hp => h _ _ ⟨(hP p hp).step (.complain p.curr.pos fault (.inl rfl)), p.not_clean_complain _⟩

theorem Reported.within {p p' : Parser} {w' : Stack} (hp : Reported p) (h : Within (w, p) k w' p') :
    Reported p' :=
  fun hclean => hp (h.moves.clean hclean)

/-- After a report nodes may be dropped. -/
theorem Within.drop {p : Parser} [Holds α] (above : Stack) (x : α) (hp : Reported p)
    (h : Within s k (above ++ push x w) p) : Within s k (above ++ w) p := by
  unfold push at h
  generalize (held x).reverse = ids at h
  induction ids with
  | nil => exact h
  | cons y rest ih => exact ih (h.step (.drop above y (.inl hp)))

theorem makeBad_keeps (fault : SyntaxFault) :
    Agree (fun p => Within s k w p ∧ p.curr.token = t) (makeBad fault) (makeBad fault)
      fun x p => Within s k (.node x :: w) p ∧ Reported p ∧ p.curr.token = t := by
  rintro p ⟨hp, rfl⟩
  have hreported : Reported (p.complain (p.diagnose p.curr.pos fault)) := p.not_clean_complain _
  have htoken : (p.complain (p.diagnose p.curr.pos fault)).curr.token = p.curr.token := by
    unfold Parser.complain
    split <;> rfl
  have hcomplained := (hp.step (.complain p.curr.pos fault (.inl rfl))).step .uncomment
  refine ⟨rfl, hcomplained.step (.bad _ none _ hreported .inl), hreported, htoken⟩

/-- A bad node for something missing. -/
theorem makeBad_reported (fault : SyntaxFault) :
    Agree (Within s k w) (makeBad fault) (makeBad fault)
      fun x p => Within s k (.node x :: w) p ∧ Reported p :=
  fun p hp =>
    have h := makeBad_keeps fault p ⟨hp, rfl⟩
    ⟨h.1, h.2.1, h.2.2.1⟩

theorem makeBad_reads (fault : SyntaxFault) : Reads n (makeBad fault) (makeBad fault) :=
  fun _ _ _ _ => (makeBad_reported fault).post fun _ _ h => h.1

/-- A bad node for the current token. -/
theorem parseBad_consumes (fault : SyntaxFault) (hne : t ≠ .eof) :
    Agree (fun p => Within s (k + 1) w p ∧ p.curr.token = t) (parseBad fault) (parseBad fault)
      fun x p => Within s k (.node x :: w) p ∧ Reported p := by
  refine (makeBad_keeps fault).bind fun x => ?_
  rintro p ⟨hp, hreported, rfl⟩
  refine ⟨rfl, ⟨hp.moves.tail (.lose hreported), ?_⟩, fun hclean => hreported ?_⟩
  · exact Nat.lt_of_lt_of_le (Parser.left_advance_lt hne) (Nat.le_of_lt_succ hp.left_lt)
  · exact Parser.clean_of_clean_advance hclean

theorem parseBad_reads (fault : SyntaxFault) : Reads n (parseBad fault) (parseBad fault) := by
  intro k _ s w
  refine (makeBad_reported fault).bind fun x => ?_
  rintro p ⟨hp, hreported⟩
  exact ⟨rfl, hp.step (.lose hreported)⟩

/-- A bad node around another node. -/
theorem wrapBad_reported (x : NodeId) (fault : SyntaxFault) :
    Agree (Within s k (.node x :: w)) (wrapBad x fault) (wrapBad x fault)
      fun y p => Within s k (.node y :: w) p ∧ Reported p := by
  refine Agree.complain_here fault (fun p hp => hp) fun d => Agree.get fun q => ?_
  rintro p ⟨⟨hp, hreported⟩, rfl⟩
  exact ⟨rfl, hp.step (.bad _ (some x) d hreported fun heof => .inr ⟨x, rfl, heof⟩), hreported⟩

/-! ### Loops -/

/-- What a round of a loop leads to: more of `I` with less to read, or the end. -/
def Turned (I : Nat → σ → Parser → Prop) (k : Nat) : Turn σ → Parser → Prop
  | .again x, p => I k x p
  | .done x, p => I (k + 1) x p

/-- A loop keeps what each round keeps, if each round that goes on consumes a token. -/
theorem Loop.run_agree {loop loop' : Loop σ} {I : Nat → σ → Parser → Prop} (hmore : loop.more = loop'.more)
    (hleft : ∀ {k x p}, I k x p → p.left < k ∧ ∀ j, p.left < j → I j x p)
    (hround : ∀ k < n, ∀ x t, loop.more t = true →
      Agree (fun p => I (k + 1) x p ∧ p.curr.token = t) (loop.round x) (loop'.round x) (Turned I k))
    (x : σ) (hk : k ≤ n) :
    Agree (I k x) (loop.run x) (loop'.run x) (I k) := by
  intro p hp
  show loop.runFrom x p = loop'.runFrom x p ∧ I k (loop.runFrom x p).1 (loop.runFrom x p).2
  induction hj : p.left using Nat.strongRecOn generalizing x p k with
  | ind j ih =>
    subst hj
    rw [Loop.runFrom, Loop.runFrom, ← hmore]
    by_cases hm : loop.more p.curr.token = true
    · have hlt : p.left < n := Nat.lt_of_lt_of_le (hleft hp).1 hk
      obtain ⟨heq, hturn⟩ := hround p.left hlt x _ hm p ⟨(hleft hp).2 _ (Nat.lt_succ_self _), rfl⟩
      rw [if_pos hm, if_pos hm, ← heq]
      dsimp only
      split
      · rename_i y p' hr
        rw [hr] at hturn
        refine ⟨rfl, (hleft hturn).2 k (Nat.lt_of_le_of_lt ?_ (hleft hp).1)⟩
        exact Nat.le_of_lt_succ (hleft hturn).1
      · rename_i y p' hr
        rw [hr] at hturn
        have hlt' : p'.left < p.left := (hleft hturn).1
        rw [if_pos hlt', if_pos hlt']
        exact ih p'.left hlt' y hk p' ((hleft hturn).2 k (Nat.lt_trans hlt' (hleft hp).1)) rfl
    · rw [if_neg hm, if_neg hm]
      exact ⟨rfl, hp⟩

/-- Below `n` the two loops do the same in each round, and a round that goes on consumes a token. -/
structure Loop.Reads [Holds σ] (n : Nat) (loop loop' : Loop σ) : Prop where
  more_eq : loop.more = loop'.more
  round : ∀ k < n, ∀ s w x t, loop.more t = true →
    Agree (fun p => Within s (k + 1) (push x w) p ∧ p.curr.token = t) (loop.round x) (loop'.round x)
      (Turned (fun k x => Within s k (push x w)) k)

theorem Loop.Reads.run [Holds σ] {loop loop' : Loop σ} (h : loop.Reads n loop') (hk : k ≤ n) (x : σ) :
    Agree (Within s k (push x w)) (loop.run x) (loop'.run x) fun y => Within s k (push y w) :=
  Loop.run_agree (I := fun k x => Within s k (push x w)) h.more_eq
    (fun hp => ⟨hp.left_lt, fun _ hj => ⟨hp.moves, hj⟩⟩) (fun k hk => h.round k hk s w) x hk

/-- If another round is due and no round stops, a token is consumed. -/
theorem Loop.Reads.run_opens [Holds σ] {loop loop' : Loop σ} (h : loop.Reads n loop') (hk : k < n) (x : σ)
    (ht : loop.more t = true) (hagain : ∀ p, ∃ y p', loop.round x p = (.again y, p')) :
    Agree (fun p => Within s (k + 1) (push x w) p ∧ p.curr.token = t) (loop.run x) (loop'.run x)
      fun y => Within s k (push y w) := by
  rintro p ⟨hp, rfl⟩
  obtain ⟨heq, hturn⟩ := h.round p.left (by have := hp.left_lt; omega) s w x _ ht p
    ⟨⟨hp.moves, Nat.lt_succ_self _⟩, rfl⟩
  obtain ⟨y, p', hround⟩ := hagain p
  rw [hround] at hturn
  have hrest : Within s k (push y w) p' := hturn.weaken (Nat.le_of_lt_succ hp.left_lt)
  have hfirst {l : Loop σ} (hmore : loop.more = l.more) (hl : l.round x p = (.again y, p')) :
      l.run x p = l.run y p' := by
    show l.runFrom x p = l.runFrom y p'
    rw [Loop.runFrom, if_pos (hmore ▸ ht), hl]
    exact if_pos hturn.left_lt
  rw [hfirst rfl hround, hfirst h.more_eq (heq ▸ hround)]
  exact h.run (Nat.le_of_lt hk) y p' hrest

/-- A round began at the token `t` with `b` tokens left.  If it consumed nothing, that token is still there. -/
structure Counted (s : Stack × Parser) (b : Nat) (t : Token) (w : Stack) (p : Parser) : Prop where
  within : Within s (b + 1) w p
  token_eq : p.left = b → p.curr.token = t

theorem Counted.less {p : Parser} {b : Nat} (h : Counted s b t w p) (hb : p.left ≠ b) : Within s b w p :=
  ⟨h.within.moves, by have := h.within.left_lt; omega⟩

/-- If nothing was consumed, a bad node consumes a token. -/
theorem parseBad_counted (fault : SyntaxFault) {b : Nat} (hne : t ≠ .eof) :
    Agree (fun p => Counted s b t w p ∧ p.left = b) (parseBad fault) (parseBad fault)
      fun x p => Within s b (.node x :: w) p ∧ Reported p :=
  (parseBad_consumes fault hne).pre fun _ hp => ⟨hp.1.within, hp.1.token_eq hp.2⟩

/-- A round that looks whether its first step consumed anything. -/
theorem Agree.counted [Holds α] {m m' : ParseM α} {f f' : Nat → α → ParseM β} {Q : β → Parser → Prop}
    (hm : Grammar.Reads n m m') (hk : k < n) (hne : t ≠ .eof)
    (hf : ∀ b ≤ k, ∀ x, Agree (Counted s b t (push x w)) (f b x) (f' b x) Q) :
    Agree (fun p => Within s (k + 1) w p ∧ p.curr.token = t)
      (Grammar.left >>= fun b => m >>= fun x => f b x)
      (Grammar.left >>= fun b => m' >>= fun x => f' b x) Q := by
  rintro p ⟨hp, rfl⟩
  have hle : p.left ≤ k := Nat.le_of_lt_succ hp.left_lt
  obtain ⟨heq, hwithin⟩ := hm (p.left + 1) (by omega) (w, p) w p (Within.refl (Nat.lt_succ_self _))
  have hkept : (m p).2.left = p.left → (m p).2.curr.token = p.curr.token := by
    intro hleft
    rcases hwithin.moves.left_lt_or_token_eq hne with hlt | htoken
    · exact absurd hleft (Nat.ne_of_lt hlt)
    · exact htoken
  obtain ⟨heq', hq⟩ := hf p.left hle (m p).1 (m p).2 ⟨hp.trans hwithin, hkept⟩
  refine ⟨?_, hq⟩
  show f p.left (m p).1 (m p).2 = f' p.left (m' p).1 (m' p).2
  rw [← heq, heq']

/-! ### Recovery -/

theorem skipLoop_reads (stop : Token → Bool) (fault : SyntaxFault) :
    (skipLoop stop fault).Reads n (skipLoop stop fault) where
  more_eq := rfl
  round k _ s w bads t ht := by
    have hne : t ≠ .eof := by
      simp only [skipLoop, Bool.and_eq_true, bne_iff_ne] at ht
      exact ht.2
    refine (parseBad_consumes fault hne).bind fun x => Agree.pure fun p hp => ?_
    show Within s k (push (bads ++ [some x]) w) p
    simpa using hp.1

theorem skipTo_reads (stop : Token → Bool) (fault : SyntaxFault) :
    Reads n (skipTo stop fault) (skipTo stop fault) :=
  fun _ hk _ _ => (skipLoop_reads stop fault).run hk []

theorem skipTo_opens {stop : Token → Bool} {fault : SyntaxFault} (ht : stop t = false) (hne : t ≠ .eof) :
    Opens t n (skipTo stop fault) (skipTo stop fault) := by
  intro k _ s w
  have hmore : (skipLoop stop fault).more t = true := by simp [skipLoop, ht, hne]
  exact (skipLoop_reads (n := k + 1) stop fault).run_opens (Nat.lt_succ_self k) [] hmore fun p => ⟨_, _, rfl⟩

/-- Passing over a token that should be there. -/
theorem expect_reads (ht : t.isLiteral = false) : Reads n (expect t) (expect t) := by
  intro k _ s w
  refine Agree.tok fun u => Agree.ite (fun hu => ?_) (fun _ => ?_)
  · exact next_pass_le (hu ▸ ht)
  · exact Agree.complain_here _ (fun p hp => hp.1) fun d => Agree.pure fun p hp => hp.1

theorem enter_reported (ht : t.isPlain = true) :
    Agree (Within s k w) (enter t) (enter t)
      fun bads p => Within s k (push bads w) p ∧ (bads = [] ∨ Reported p) := by
  refine Agree.tok fun u => Agree.ite (fun hu => ?_) (fun _ => ?_)
  · refine (next_pass_le (hu ▸ Token.isLiteral_of_isPlain ht)).bind fun _ => ?_
    exact Agree.pure fun p hp => ⟨hp, .inl rfl⟩
  · refine ((makeBad_reported _).pre fun p hp => hp.1).bind fun x => ?_
    exact Agree.pure fun p hp => ⟨hp.1, .inr hp.2⟩

theorem enter_reads (ht : t.isPlain = true) : Reads n (enter t) (enter t) :=
  fun _ _ _ _ => (enter_reported ht).post fun _ _ hp => hp.1

theorem enter_opens (ht : t.isPlain = true) : Opens t n (enter t) (enter t) := by
  intro k _ s w
  refine Agree.tok fun u => Agree.ite (fun hu => ?_) (fun hu => ?_)
  · refine ((next_pass ht).pre fun p hp => hp.1).bind fun _ => ?_
    exact Agree.pure fun p hp => hp
  · exact fun p hp => absurd (hp.2.symm.trans hp.1.2) hu

theorem leave_reads (ht : t.isLiteral = false) : Reads n (leave t) (leave t) := by
  intro k hk s w
  refine (skipTo_reads _ _ k hk s w).bind fun bads => ?_
  refine Agree.tok fun u => Agree.ite (fun hu => ?_) (fun _ => ?_)
  · exact (next_pass_le (hu ▸ ht)).bind fun _ => Agree.pure fun p hp => hp
  · refine ((makeBad_reads _ k hk s _).pre fun p hp => hp.1).bind fun x => Agree.pure fun p hp => ?_
    simpa using hp

/-- Everything may be passed over after a report. -/
theorem passLoop_reported (x : Unit) :
    Agree (fun p => Within s k w p ∧ Reported p) ((passLoop t).run x) ((passLoop t).run x)
      fun _ p => Within s k w p ∧ Reported p := by
  refine Loop.run_agree (n := k) (I := fun k _ p => Within s k w p ∧ Reported p) rfl ?_ ?_ x
    (Nat.le_refl k)
  · exact fun hp => ⟨hp.1.left_lt, fun _ hj => ⟨⟨hp.1.moves, hj⟩, hp.2⟩⟩
  · rintro k - - u hu p ⟨⟨hp, hreported⟩, rfl⟩
    have hne : p.curr.token ≠ .eof := by
      simp only [passLoop, Bool.and_eq_true, bne_iff_ne] at hu
      exact hu.2
    refine ⟨rfl, ⟨hp.moves.tail (.lose hreported), ?_⟩, fun hclean => hreported ?_⟩
    · exact Nat.lt_of_lt_of_le (Parser.left_advance_lt hne) (Nat.le_of_lt_succ hp.left_lt)
    · exact Parser.clean_of_clean_advance hclean

theorem leaveNode_reads (ht : t.isLiteral = false) (x : NodeId) :
    Agree (Within s k (.node x :: w)) (leaveNode x t) (leaveNode x t)
      fun y => Within s k (.node y :: w) := by
  refine Agree.tok fun u => Agree.ite (fun hu => ?_) (fun _ => ?_)
  · exact (next_pass_le (hu ▸ ht)).bind fun _ => Agree.pure fun p hp => hp
  · refine ((wrapBad_reported x _).pre fun p hp => hp.1).bind fun y => ?_
    refine (passLoop_reported ()).bind fun _ => ?_
    refine Agree.tok fun u => Agree.ite (fun hu => ?_) (fun _ => ?_)
    · refine ((next_pass_le (hu ▸ ht)).pre fun p hp => ⟨hp.1.1, hp.2⟩).bind fun _ => ?_
      exact Agree.pure fun p hp => hp
    · exact Agree.pure fun p hp => hp.1.1

/-! ### Leaves -/

/-- The current token becomes a leaf. -/
theorem parseAtom_opens (ht : t ≠ .eof) : Opens t n (parseAtom t) (parseAtom t) := by
  rintro k - s w p ⟨hp, rfl⟩
  refine ⟨rfl, ?_⟩
  have hatom : (makeAtom p.curr.token p).1 = p.curr := by
    show ({ p.curr with token := _, literal := if p.curr.token = p.curr.token then _ else _ } : Atom) = _
    rw [if_pos rfl]
  have htaken : Within s k (.token p.curr :: w) p.advance := by
    refine ⟨hp.moves.tail .take, ?_⟩
    exact Nat.lt_of_lt_of_le (Parser.left_advance_lt ht) (Nat.le_of_lt_succ hp.left_lt)
  have hnext : (makeAtom p.curr.token p).2.advance = p.advance := p.advance_with_curr _
  show Within s k (push (add (makeAtom p.curr.token p).1 .leaf (makeAtom p.curr.token p).2.advance).1 w)
    (add (makeAtom p.curr.token p).1 .leaf (makeAtom p.curr.token p).2.advance).2
  rw [hatom, hnext]
  exact (add_leaf [] ht _ htaken).2

theorem parseIdent_opens : Opens (.lit .ident) n parseIdent parseIdent := by
  intro k hk s w
  refine Agree.tok fun u => Agree.ite (fun hu => ?_) (fun hu => ?_)
  · exact (parseAtom_opens (t := .lit .ident) nofun k hk s w).pre fun p hp => hp.1
  · exact fun p hp => absurd (hp.2.symm.trans hp.1.2) hu

theorem parseIdent_reads : Reads n parseIdent parseIdent := by
  intro k hk s w
  refine Agree.tok fun u => Agree.ite (fun hu => ?_) (fun _ => ?_)
  · subst hu
    exact (parseAtom_opens (n := n) (t := .lit .ident) nofun).reads (Nat.le_succ_of_le hk) s w
  · exact (makeBad_reads _ k hk s w).pre fun p hp => hp.1

/-- The end of the text as a leaf, or the end of what the mode accepts. -/
theorem makeEof_reads :
    Agree (fun p => Within s k w p ∧ (p.curr.token = .eof ∨ p.mode.decls = false)) makeEof makeEof
      fun x p => Within s k (.node x :: w) p ∧ p.tree.op x = .eof := by
  rintro p ⟨hp, hend⟩
  refine ⟨rfl, (hp.step .uncomment).step (.node [] _ .leaf rfl rfl (fun _ => ⟨rfl, hend⟩) ⟨nofun, nofun, nofun⟩), ?_⟩
  show (Tree.node { nodes := p.tree.nodes.push _ } ⟨p.tree.nodes.size⟩).op = .eof
  simp [Tree.node, Node.op]

/-! ### Composite literals allowed or not -/

theorem Agree.withComposite {ok : Bool} {P : Parser → Prop} {m m' : ParseM α} {Q : α → Parser → Prop}
    (hP : ∀ p b, P p → P { p with compositeOk := b })
    (hQ : ∀ x p b, Q x p → Q x { p with compositeOk := b }) (h : Agree P m m' Q) :
    Agree P (withComposite ok m) (withComposite ok m') Q := by
  intro p hp
  obtain ⟨heq, hq⟩ := h _ (hP p ok hp)
  refine ⟨?_, hQ _ _ _ hq⟩
  exact congrArg (fun r : α × Parser => (r.1, { r.2 with compositeOk := p.compositeOk })) heq

theorem Within.composite {p : Parser} (h : Within s k w p) (ok : Bool) :
    Within s k w { p with compositeOk := ok } :=
  h.step (.composite ok)

theorem Reads.withComposite [Holds α] {ok : Bool} {m m' : ParseM α} (h : Reads n m m') :
    Reads n (withComposite ok m) (withComposite ok m') :=
  fun k hk s w =>
    Agree.withComposite (fun _ b hp => hp.composite b) (fun _ _ b hp => hp.composite b) (h k hk s w)

end Grammar

end GoSource
