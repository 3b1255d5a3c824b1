import GoSource.Proofs.Grammar.AbreastGrammar

/-!
# Types that end with the common words

Where a type ends shows only at the token behind it.  Of two runs that read a type of the same words, neither of which
reads on, both come to the same type, whatever the words behind are: at each place where a type may go on, both runs
go on or neither does.

* **`Leaves`**: words that have not been read, by a run that did not report anything.
* **`Meets`**: two actions that read at least one word and come to the same, if neither runs into what is behind.
* **`Level`**: the same for actions that may also do nothing at the end of the common words.
* **`type_meets`**: types.
-/

namespace GoSource.Grammar

variable {α β : Type} [Renames α] [Renames β] {c : Course} {n : Nat} {S : Parser → Prop}

/-- Nothing was reported, and as many words are left as there are in `rest`. -/
def Leaves (rest : List Word) (p : Parser) : Prop :=
  p.journal.Clean ∧ rest.length ≤ p.left

theorem Course.Inside.leaves {p : Parser} (h : c.Inside p) : Leaves c.rest p :=
  ⟨h.1, Nat.le_of_lt h.2⟩

/-- The other run is not at the end of the common words either. -/
theorem Abreast.inside {p q : Parser} (h : Abreast c p q) (hclean : p.journal.Clean) (hlt : c.rest'.length < q.left) :
    c.Inside p := by
  obtain ⟨i, hi, hi'⟩ := h.left_eq
  exact ⟨hclean, by omega⟩

/-- The same for the other run. -/
def Course.flip (c : Course) : Course :=
  { c with rest := c.rest', rest' := c.rest }

/-- From states abreast with at most `n` words left, of which the first one has `S`, the two actions come to the same,
if neither reads more than the common words.  The first one reads at least one word. -/
structure Meets (c : Course) (n : Nat) (S : Parser → Prop) (m m' : ParseM α) : Prop where
  eats : ∀ p, S p → Leaves c.rest (m p).2 → c.Inside p
  abreast : ∀ p q, p.left ≤ n → S p → Abreast c p q → Leaves c.rest (m p).2 → Leaves c.rest' (m' q).2 →
    (m' q).1 = rename c.image (m p).1 ∧ Abreast c (m p).2 (m' q).2

/-- From states abreast with at most `n` words left the two actions come to the same, if neither reads more than the
common words. -/
structure Level (c : Course) (n : Nat) (m m' : ParseM α) : Prop where
  back : ∀ p, Leaves c.rest (m p).2 → Leaves c.rest p
  abreast : ∀ p q, p.left ≤ n → Abreast c p q → Leaves c.rest (m p).2 → Leaves c.rest' (m' q).2 →
    (m' q).1 = rename c.image (m p).1 ∧ Abreast c (m p).2 (m' q).2

theorem Meets.level {m m' : ParseM α} (h : Meets c n Anywhere m m') : Level c n m m' :=
  ⟨fun p hp => (h.eats p trivial hp).leaves, fun p q hn => h.abreast p q hn trivial⟩

/-- An action that does nothing but make nodes. -/
def Idle (m : ParseM α) : Prop :=
  ∀ p, ∃ tree, (m p).2 = { p with tree }

omit [Renames α] in
theorem idle_build (b : Build α) : Idle (build b) :=
  fun p => ⟨(b p.tree).2, rfl⟩

theorem idle_add (a : Atom) (shape : NodeShape) : Idle (add a shape) :=
  idle_build _

omit [Renames α] in
theorem idle_pure (x : α) : Idle (pure x) :=
  fun p => ⟨p.tree, rfl⟩

namespace Idle

omit [Renames α] [Renames β]

theorem bind {m : ParseM α} {f : α → ParseM β} (h : Idle m) (hf : ∀ x, Idle (f x)) : Idle (m >>= f) := by
  intro p
  obtain ⟨t, ht⟩ := h p
  obtain ⟨t', ht'⟩ := hf (m p).1 (m p).2
  exact ⟨t', ht'.trans (by rw [ht])⟩

theorem leaves_iff {m : ParseM α} (h : Idle m) {rest : List Word} (p : Parser) :
    Leaves rest (m p).2 ↔ Leaves rest p := by
  obtain ⟨t, ht⟩ := h p
  rw [ht]
  rfl

end Idle

/-- From states abreast the two actions come to the same. -/
def Even (c : Course) (m m' : ParseM α) : Prop :=
  ∀ p q, Abreast c p q → (m' q).1 = rename c.image (m p).1 ∧ Abreast c (m p).2 (m' q).2

theorem even_build {b b' : Build α} (h : BuildNear c b b') : Even c (build b) (build b') := by
  intro p q hpq
  obtain ⟨heq, htree⟩ := h _ _ hpq.tree
  exact ⟨heq, hpq.withTree htree⟩

theorem even_add {a a' : Atom} {shape shape' : NodeShape} (ha : a.Akin a') (hshape : shape' = shape.rename c.image) :
    Even c (add a shape) (add a' shape') :=
  even_build (.add ha hshape)

theorem even_pure {x y : α} (h : y = rename c.image x) : Even c (pure x) (pure y) :=
  fun _ _ hpq => ⟨h, hpq⟩

theorem Even.bind {m m' : ParseM α} {f f' : α → ParseM β} (h : Even c m m')
    (hf : ∀ x, Even c (f x) (f' (rename c.image x))) : Even c (m >>= f) (m' >>= f') := by
  intro p q hpq
  obtain ⟨heq, hnext⟩ := h p q hpq
  show (f' (m' q).1 (m' q).2).1 = rename c.image (f (m p).1 (m p).2).1 ∧
    Abreast c (f (m p).1 (m p).2).2 (f' (m' q).1 (m' q).2).2
  rw [heq]
  exact hf _ _ _ hnext

theorem Even.some {m m' : ParseM α} (h : Even c m m') : Even c (Option.some <$> m) (Option.some <$> m') :=
  fun p q hpq => ⟨congrArg Option.some (h p q hpq).1, (h p q hpq).2⟩

/-! ### Actions that read to the end -/

/-- A run that stays inside, whatever is behind, does not go back. -/
theorem left_le_of_near {m : ParseM α} {m' : Course → ParseM α} (h : ∀ c, Near c Anywhere m (m' c))
    (p : Parser) (hclean : (m p).2.journal.Clean) : (m p).2.left ≤ p.left := by
  rcases Nat.eq_zero_or_pos (m p).2.left with hzero | hpos
  · omega
  · -- All but one of the words that are left.
    let behind : List Word := List.replicate ((m p).2.left - 1) (.eof, "")
    have hlength : behind.length = (m p).2.left - 1 := List.length_replicate
    have hinside := (h { image := id, rest := behind, rest' := [] }).inside p trivial
      ⟨hclean, by show behind.length < _; omega⟩
    have hlt : behind.length < p.left := hinside.2
    omega

namespace Meets

variable {m m' : ParseM α} {f f' : α → ParseM β}

theorem weaken {k : Nat} (h : Meets c n S m m') (hk : k ≤ n) : Meets c k S m m' :=
  ⟨h.eats, fun p q hp => h.abreast p q (Nat.le_trans hp hk)⟩

theorem mono {S' : Parser → Prop} (h : Meets c n S m m') (hS : ∀ p, S' p → S p) : Meets c n S' m m' :=
  ⟨fun p hp => h.eats p (hS p hp), fun p q hn hp => h.abreast p q hn (hS p hp)⟩

/-- Nodes are made of what was read. -/
theorem then_idle (h : Meets c n S m m') (hidle : ∀ x, Idle (f x)) (hidle' : ∀ x, Idle (f' x))
    (hf : ∀ x, Even c (f x) (f' (rename c.image x))) : Meets c n S (m >>= f) (m' >>= f') := by
  refine ⟨fun p hp hleaves => h.eats p hp (((hidle _).leaves_iff _).1 hleaves), ?_⟩
  intro p q hn hp hpq hleaves hleaves'
  obtain ⟨heq, hnext⟩ :=
    h.abreast p q hn hp hpq (((hidle _).leaves_iff _).1 hleaves) (((hidle' _).leaves_iff _).1 hleaves')
  show (f' (m' q).1 (m' q).2).1 = rename c.image (f (m p).1 (m p).2).1 ∧
    Abreast c (f (m p).1 (m p).2).2 (f' (m' q).1 (m' q).2).2
  rw [heq]
  exact hf _ _ _ hnext

theorem some (h : Meets c n S m m') : Meets c n S (Option.some <$> m) (Option.some <$> m') :=
  h.then_idle (fun _ => idle_pure _) (fun _ => idle_pure _) fun _ => even_pure rfl

/-- What may go on after it has read something. -/
theorem then_level (h : Meets c n S m m') (hfalls : ∀ p, (m p).2.journal.Clean → (m p).2.left ≤ p.left)
    (hf : ∀ x, Level c n (f x) (f' (rename c.image x)))
    (hback : ∀ x q, Leaves c.rest' (f' x q).2 → Leaves c.rest' q) : Meets c n S (m >>= f) (m' >>= f') := by
  refine ⟨fun p hp hleaves => h.eats p hp ((hf _).back _ hleaves), ?_⟩
  intro p q hn hp hpq hleaves hleaves'
  have hleft := hfalls p ((hf _).back _ hleaves).1
  obtain ⟨heq, hnext⟩ := h.abreast p q hn hp hpq ((hf _).back _ hleaves) (hback _ _ hleaves')
  replace hleaves' : Leaves c.rest' (f' (m' q).1 (m' q).2).2 := hleaves'
  show (f' (m' q).1 (m' q).2).1 = rename c.image (f (m p).1 (m p).2).1 ∧
    Abreast c (f (m p).1 (m p).2).2 (f' (m' q).1 (m' q).2).2
  rw [heq] at hleaves' ⊢
  exact (hf _).abreast _ _ (Nat.le_trans hleft hn) hnext hleaves hleaves'

theorem ite {b : Prop} [Decidable b] {l l' r r' : ParseM α} (hl : b → Meets c n S l l') (hr : ¬b → Meets c n S r r') :
    Meets c n S (if b then l else r) (if b then l' else r') := by
  by_cases hb : b
  · rw [if_pos hb, if_pos hb]
    exact hl hb
  · rw [if_neg hb, if_neg hb]
    exact hr hb

theorem startOf {x x' : NodeId} {k k' : Pos → ParseM β} (h : ∀ pos pos', Meets c n S (k pos) (k' pos')) :
    Meets c n S (Grammar.startOf x >>= k) (Grammar.startOf x' >>= k') :=
  ⟨fun p => (h (p.tree.pos x) (p.tree.pos x)).eats p,
    fun p q => (h (p.tree.pos x) (q.tree.pos x')).abreast p q⟩

theorem makeAtom {t : Token} {k k' : Atom → ParseM β} (h : ∀ a a', a.Akin a' → Meets c n Anywhere (k a) (k' a')) :
    Meets c n S (Grammar.makeAtom t >>= k) (Grammar.makeAtom t >>= k') := by
  have heats (p : Parser) (hleaves : Leaves c.rest ((Grammar.makeAtom t >>= k) p).2) : c.Inside p :=
    (h _ _ (.refl (atomOf p t))).eats (Grammar.bare p) trivial hleaves
  refine ⟨fun p _ => heats p, fun p q hn _ hpq hleaves hleaves' => ?_⟩
  exact (h _ _ (hpq.akin (heats p hleaves) t)).abreast _ _ hn trivial hpq.bare hleaves hleaves'

/-- Passing over a token other than the end, and something more. -/
theorem next {k k' : Unit → ParseM β} (hS : ∀ p, S p → p.curr.token ≠ .eof) (h : Level c n (k ()) (k' ())) :
    Meets c (n + 1) S (Grammar.next >>= k) (Grammar.next >>= k') := by
  have hlt (p : Parser) (hp : S p) : p.advance.left < p.left := Parser.left_advance_lt (hS p hp)
  have heats (p : Parser) (hp : S p) (hleaves : Leaves c.rest ((Grammar.next >>= k) p).2) : c.Inside p := by
    obtain ⟨hclean, hle⟩ := h.back p.advance hleaves
    exact ⟨Parser.clean_of_clean_advance hclean, Nat.lt_of_le_of_lt hle (hlt p hp)⟩
  refine ⟨heats, fun p q hn hp hpq hleaves hleaves' => ?_⟩
  exact h.abreast _ _ (Nat.le_of_lt_succ (Nat.lt_of_lt_of_le (hlt p hp) hn)) (hpq.advance (heats p hp hleaves)) hleaves
    hleaves'

theorem lead {t : Token} {k k' : Atom → ParseM β} (hS : ∀ p, S p → p.curr.token ≠ .eof)
    (h : ∀ a a', a.Akin a' → Level c n (k a) (k' a')) :
    Meets c (n + 1) S (Grammar.makeAtom t >>= fun a => Grammar.next >>= fun _ => k a)
      (Grammar.makeAtom t >>= fun a => Grammar.next >>= fun _ => k' a) := by
  have hnext {a a' : Atom} (ha : a.Akin a') : Meets c (n + 1) (·.curr.token ≠ .eof)
      (Grammar.next >>= fun _ => k a) (Grammar.next >>= fun _ => k' a') :=
    next (fun _ hp => hp) (h a a' ha)
  have heats (p : Parser) (hp : S p)
      (hleaves : Leaves c.rest ((Grammar.makeAtom t >>= fun a => Grammar.next >>= fun _ => k a) p).2) : c.Inside p :=
    (hnext (.refl (atomOf p t))).eats (Grammar.bare p) (hS p hp) hleaves
  refine ⟨heats, fun p q hn hp hpq hleaves hleaves' => ?_⟩
  exact (hnext (hpq.akin (heats p hp hleaves) t)).abreast _ _ hn (hS p hp) hpq.bare hleaves hleaves'

/-- Looking at a token that is known. -/
theorem tok_eq {t : Token} {k k' : Token → ParseM β} (h : Meets c n (·.curr.token = t) (k t) (k' t)) :
    Meets c n (·.curr.token = t) (tok >>= k) (tok >>= k') := by
  have heats (p : Parser) (hp : p.curr.token = t) (hleaves : Leaves c.rest ((tok >>= k) p).2) : c.Inside p := by
    subst hp
    exact h.eats p rfl hleaves
  refine ⟨heats, fun p q hn hp hpq hleaves hleaves' => ?_⟩
  have hq : q.curr.token = t := (hpq.token_eq (heats p hp hleaves)).trans hp
  replace hleaves : Leaves c.rest (k p.curr.token p).2 := hleaves
  replace hleaves' : Leaves c.rest' (k' q.curr.token q).2 := hleaves'
  show (k' q.curr.token q).1 = rename c.image (k p.curr.token p).1 ∧
    Abreast c (k p.curr.token p).2 (k' q.curr.token q).2
  rw [hp] at hleaves ⊢
  rw [hq] at hleaves' ⊢
  exact h.abreast p q hn hp hpq hleaves hleaves'

/-- A way to go on that opens with a token, where anything else is an error. -/
theorem token {t : Token} {r r' : ParseM α} (hm : Meets c n (·.curr.token = t) m m')
    (hr : ∀ p, ¬(r p).2.journal.Clean) :
    Meets c n S (tok >>= fun u => if u = t then m else r) (tok >>= fun u => if u = t then m' else r') := by
  have hrun {l r : ParseM α} {p : Parser} (hp : p.curr.token = t) :
      (tok >>= fun u => if u = t then l else r) p = l p := by
    show (if p.curr.token = t then l else r) p = _
    rw [if_pos hp]
  have htoken (p : Parser) (hclean : ((tok >>= fun u => if u = t then m else r) p).2.journal.Clean) :
      p.curr.token = t := by
    by_contra hne
    replace hclean : ((if p.curr.token = t then m else r) p).2.journal.Clean := hclean
    rw [if_neg hne] at hclean
    exact hr p hclean
  refine ⟨fun p _ hleaves => ?_, fun p q hn _ hpq hleaves hleaves' => ?_⟩
  · have hp := htoken p hleaves.1
    rw [hrun hp] at hleaves
    exact hm.eats p hp hleaves
  · have hp := htoken p hleaves.1
    rw [hrun hp] at hleaves ⊢
    have hq : q.curr.token = t := (hpq.token_eq (hm.eats p hp hleaves)).trans hp
    rw [hrun hq] at hleaves' ⊢
    exact hm.abreast p q hn hp hpq hleaves hleaves'

end Meets

/-- Something that reads at least one word after steps inside the common words. -/
theorem Near.meets {m : ParseM α} {m' : Course → ParseM α} {f f' : α → ParseM β}
    (h : ∀ c, Near c Anywhere m (m' c)) (hf : ∀ x, Meets c n Anywhere (f x) (f' (rename c.image x))) :
    Meets c n S (m >>= f) (m' c >>= f') := by
  refine ⟨fun p _ hleaves => (h c).inside p trivial ((hf _).eats _ trivial hleaves), ?_⟩
  intro p q hn _ hpq hleaves hleaves'
  have hin := (hf _).eats _ trivial hleaves
  obtain ⟨heq, hnext⟩ := (h c).abreast p q trivial hpq hin
  replace hleaves' : Leaves c.rest' (f' (m' c q).1 (m' c q).2).2 := hleaves'
  show (f' (m' c q).1 (m' c q).2).1 = rename c.image (f (m p).1 (m p).2).1 ∧
    Abreast c (f (m p).1 (m p).2).2 (f' (m' c q).1 (m' c q).2).2
  rw [heq] at hleaves' ⊢
  exact (hf _).abreast _ _ (Nat.le_trans (left_le_of_near h p hin.1) hn) trivial hnext hleaves hleaves'

/-! ### Actions that may stop at the end -/

namespace Level

variable {m m' : ParseM α} {f f' : α → ParseM β}

theorem of_idle (hidle : Idle m) (h : Even c m m') : Level c n m m' :=
  ⟨fun p => (hidle.leaves_iff p).1, fun p q _ hpq _ _ => h p q hpq⟩

theorem then_idle (h : Level c n m m') (hidle : ∀ x, Idle (f x)) (hidle' : ∀ x, Idle (f' x))
    (hf : ∀ x, Even c (f x) (f' (rename c.image x))) : Level c n (m >>= f) (m' >>= f') := by
  refine ⟨fun p hleaves => h.back p (((hidle _).leaves_iff _).1 hleaves), ?_⟩
  intro p q hn hpq hleaves hleaves'
  obtain ⟨heq, hnext⟩ :=
    h.abreast p q hn hpq (((hidle _).leaves_iff _).1 hleaves) (((hidle' _).leaves_iff _).1 hleaves')
  show (f' (m' q).1 (m' q).2).1 = rename c.image (f (m p).1 (m p).2).1 ∧
    Abreast c (f (m p).1 (m p).2).2 (f' (m' q).1 (m' q).2).2
  rw [heq]
  exact hf _ _ _ hnext

theorem here {k k' : Pos → ParseM β} (h : ∀ pos pos', Level c n (k pos) (k' pos')) :
    Level c n (Grammar.here >>= k) (Grammar.here >>= k') :=
  ⟨fun p => (h p.curr.pos p.curr.pos).back p, fun p q => (h p.curr.pos q.curr.pos).abreast p q⟩

/-- A way to go on that opens with a token, and another one.  Where only one of the runs finds the token, that run
leaves the common words. -/
theorem branch {t : Token} {r r' : ParseM α} (hm : Meets c n (·.curr.token = t) m m')
    (heats : ∀ q, q.curr.token = t → Leaves c.rest' (m' q).2 → c.rest'.length < q.left) (hr : Level c n r r') :
    Level c n (tok >>= fun u => if u = t then m else r) (tok >>= fun u => if u = t then m' else r') := by
  have hrun {l r : ParseM α} (p : Parser) :
      (tok >>= fun u => if u = t then l else r) p = if p.curr.token = t then l p else r p := by
    show (if p.curr.token = t then l else r) p = _
    split <;> rfl
  refine ⟨fun p hleaves => ?_, fun p q hn hpq hleaves hleaves' => ?_⟩
  · rw [hrun] at hleaves
    split at hleaves
    · exact (hm.eats p ‹_› hleaves).leaves
    · exact hr.back p hleaves
  · rw [hrun] at hleaves hleaves' ⊢
    rw [hrun]
    by_cases hp : p.curr.token = t
    · rw [if_pos hp] at hleaves ⊢
      have hq : q.curr.token = t := (hpq.token_eq (hm.eats p hp hleaves)).trans hp
      rw [if_pos hq] at hleaves' ⊢
      exact hm.abreast p q hn hp hpq hleaves hleaves'
    · rw [if_neg hp] at hleaves ⊢
      have hq : q.curr.token ≠ t := by
        intro hq
        rw [if_pos hq] at hleaves'
        have hin := hpq.inside (hr.back p hleaves).1 (heats q hq hleaves')
        exact hp ((hpq.token_eq hin).symm.trans hq)
      rw [if_neg hq] at hleaves' ⊢
      exact hr.abreast p q hn hpq hleaves hleaves'

end Level

/-! ### Tokens that end a production -/

/-- A token that is passed over at the end. -/
theorem next_meets {o : Operator} {x y : α} (h : y = rename c.image x) :
    Meets c n (·.curr.token = .op o) (next >>= fun _ => pure x) (next >>= fun _ => pure y) := by
  have hnext : Meets c (n + 1) (·.curr.token = .op o) (next >>= fun _ => pure x) (next >>= fun _ => pure y) :=
    .next (fun p hp => by simp [hp]) (.of_idle (idle_pure x) (even_pure h))
  exact hnext.weaken (Nat.le_succ n)

theorem not_clean_makeBad (fault : SyntaxFault) (p : Parser) : ¬(makeBad fault p).2.journal.Clean :=
  Parser.not_clean_complain p _

/-- Who had to look for the end of a node has reported that it is missing. -/
theorem leaveNode_meets (node : NodeId) (o : Operator) :
    Meets c n S (leaveNode node (.op o)) (leaveNode (c.image node) (.op o)) := by
  refine .token (next_meets rfl) fun p => ?_
  have hreported : Agree (Within ([.node node], p) (p.left + 1) [.node node])
      (wrapBad node (.expecting (.op o)) >>= fun wrapped => (passLoop (.op o)).run () >>= fun _ => tok >>= fun u =>
        if u = .op o then next >>= fun _ => pure wrapped else pure wrapped)
      (wrapBad node (.expecting (.op o)) >>= fun wrapped => (passLoop (.op o)).run () >>= fun _ => tok >>= fun u =>
        if u = .op o then next >>= fun _ => pure wrapped else pure wrapped) fun _ p => Reported p := by
    refine (wrapBad_reported node _).bind fun wrapped => (passLoop_reported ()).bind fun _ => Agree.tok fun u => ?_
    refine .ite (fun _ p hp => ⟨rfl, fun hclean => hp.1.2 ?_⟩) fun _ => .pure fun p hp => hp.1.2
    exact Parser.clean_of_clean_advance hclean
  exact (hreported p (.refl (Nat.lt_succ_self _))).2

theorem leave_meets (o : Operator) : Meets c n S (leave (.op o)) (leave (.op o)) := by
  have hend (bads : List Child) : Meets c n Anywhere
      (do
        if (← tok) = .op o then
          next
          return bads
        else return bads ++ [some (← makeBad (.expecting (.op o)))])
      (do
        if (← tok) = .op o then
          next
          return rename c.image bads
        else return rename c.image bads ++ [some (← makeBad (.expecting (.op o)))]) :=
    .token (next_meets rfl) fun p => not_clean_makeBad _ p
  exact Near.meets (fun c => skipTo_near _ _) hend

theorem parseIdent_meets : Meets c n S parseIdent parseIdent := by
  refine .token (.weaken (n := n + 1) (.lead (fun p hp => hp ▸ nofun) fun a a' ha => ?_) (Nat.le_succ n)) fun p =>
    not_clean_makeBad _ p
  exact .of_idle (idle_add _ _) (even_add ha rfl)

/-! ### Types -/

theorem qualified_meets (name : NodeId) :
    Meets c n S
      (do
        let atom := { ← makeAtom (.op .period) with pos := ← startOf name }
        next
        let selected ← parseIdent
        add atom (.binary (some name) (some selected)))
      (do
        let atom := { ← makeAtom (.op .period) with pos := ← startOf (c.image name) }
        next
        let selected ← parseIdent
        add atom (.binary (some (c.image name)) (some selected))) := by
  refine .makeAtom fun a a' ha => .startOf fun pos pos' => Near.meets (fun _ => .next) fun _ => ?_
  exact parseIdent_meets.then_idle (fun _ => idle_add _ _) (fun _ => idle_add _ _) fun _ =>
    even_add (ha.withPos pos pos') rfl

/-- A name may be qualified. -/
theorem selected_level (name : NodeId) :
    Level c n
      (do
        if (← tok) ≠ .op .period then return name
        let atom := { ← makeAtom (.op .period) with pos := ← startOf name }
        next
        let selected ← parseIdent
        add atom (.binary (some name) (some selected)))
      (do
        if (← tok) ≠ .op .period then return c.image name
        let atom := { ← makeAtom (.op .period) with pos := ← startOf (c.image name) }
        next
        let selected ← parseIdent
        add atom (.binary (some (c.image name)) (some selected))) := by
  simp only [ne_eq, ite_not]
  refine .branch (qualified_meets name) (fun q hq hleaves => ?_) (.of_idle (idle_pure _) (even_pure rfl))
  exact ((qualified_meets (c := c.flip) (n := n) (S := Anywhere) (c.image name)).eats q trivial hleaves).2

theorem typeArguments_meets (name : NodeId) :
    Meets c n S (typeArguments grammar name) (typeArguments grammar (c.image name)) := by
  refine .startOf fun pos pos' => .makeAtom fun a a' ha => Near.meets (fun _ => .next) fun _ => ?_
  refine Near.meets (fun c => typeArgumentsLoop_near (grammar_near c) []) fun args => ?_
  have hempty : (rename c.image args).isEmpty = args.isEmpty := by cases args <;> rfl
  have hend (arg : Child) : Meets c n Anywhere
      (add { a with pos } (.binary (some name) arg) >>= fun node => leaveNode node (.op .rbrack))
      (add { a' with pos := pos' } (.binary (some (c.image name)) (rename c.image arg)) >>= fun node =>
        leaveNode node (.op .rbrack)) :=
    Near.meets (fun _ => .add (ha.withPos pos pos') rfl) fun node => leaveNode_meets node _
  rw [hempty]
  refine .ite (fun _ => ?_) fun _ => ?_
  · exact Near.meets (fun _ => (makeBad_near _).some) hend
  · exact Near.meets (fun _ => argumentsPart_near pos pos' args) hend

/-- A name may have arguments. -/
theorem instantiated_level (name : NodeId) :
    Level c n
      (do if (← tok) = .op .lbrack then typeArguments grammar name else return name)
      (do if (← tok) = .op .lbrack then typeArguments grammar (c.image name) else return c.image name) := by
  refine .branch (typeArguments_meets name) (fun q hq hleaves => ?_) (.of_idle (idle_pure _) (even_pure rfl))
  exact ((typeArguments_meets (c := c.flip) (n := n) (S := Anywhere) (c.image name)).eats q trivial hleaves).2

theorem typeName_meets : Meets c n S (typeName grammar) (typeName grammar) := by
  have hqualified : Meets c n S qualifiedName qualifiedName :=
    parseIdent_meets.then_level (left_le_of_near fun _ => parseIdent_near) selected_level fun name q =>
      (selected_level (c := c.flip) (n := n) name).back q
  exact hqualified.then_level (left_le_of_near fun _ => qualifiedName_near) instantiated_level fun name q =>
    (instantiated_level (c := c.flip) (n := n) name).back q

theorem members_meets {member : ParseM NodeId} (hmember : ∀ c, Near c Anywhere member member) :
    Meets c n S (members member) (members member) := by
  refine Near.meets (fun _ => enter_near _) fun opened => ?_
  refine Near.meets (fun c => membersLoop_near _ _ (hmember c) opened) fun kids => ?_
  exact (leave_meets _).then_idle (fun _ => idle_pure _) (fun _ => idle_pure _) fun _ => even_pure (by simp)

theorem params_meets (tag : NodeTag) :
    Meets c n S (params grammar (.op .lparen) (.op .rparen) tag false)
      (params grammar (.op .lparen) (.op .rparen) tag false) := by
  refine .makeAtom fun a a' ha => Near.meets (fun _ => enter_near _) fun bads => ?_
  refine Near.meets (fun c => .withComposite true (paramsLoop_near (grammar_near c) _ _ ([], bads))) fun x => ?_
  refine (leave_meets _).then_idle (fun _ => ?_) (fun _ => ?_) fun more => ?_
  · exact (idle_build _).bind fun _ => idle_add _ _
  · exact (idle_build _).bind fun _ => idle_add _ _
  · refine (even_build (.groupParams x.1)).bind fun fields => even_add ha ?_
    simp [NodeShape.rename, rename_children]

/-! Types that end with another type. -/

section

variable (htype : Meets c n Anywhere grammar.type grammar.type)
include htype

/-- A node of the type that comes last. -/
theorem typed_meets {a a' : Atom} (ha : a.Akin a') {shape shape' : NodeId → NodeShape}
    (hshape : ∀ x, shape' (c.image x) = (shape x).rename c.image) :
    Meets c n S (grammar.type >>= fun x => add a (shape x)) (grammar.type >>= fun x => add a' (shape' x)) :=
  (htype.mono fun _ _ => trivial).then_idle (fun _ => idle_add _ _) (fun _ => idle_add _ _) fun x =>
    even_add ha (hshape x)

theorem arrayType_meets (hS : ∀ p, S p → p.curr.token ≠ .eof) :
    Meets c (n + 1) S (arrayType grammar) (arrayType grammar) := by
  refine .lead hS fun a a' ha => Meets.level ?_
  refine Near.meets (fun c => arrayLength_near (grammar_near c)) fun length => ?_
  exact Near.meets (fun _ => expect_near _) fun _ => typed_meets htype ha fun _ => rfl

theorem pointerType_meets (hS : ∀ p, S p → p.curr.token ≠ .eof) :
    Meets c (n + 1) S (makeAtom (.op .mul) >>= fun a => next >>= fun _ => grammar.type >>= fun elem =>
        some <$> add a (.unary (some elem)))
      (makeAtom (.op .mul) >>= fun a => next >>= fun _ => grammar.type >>= fun elem =>
        some <$> add a (.unary (some elem))) := by
  refine .lead hS fun a a' ha => Meets.level ?_
  exact htype.then_idle (fun _ => (idle_add _ _).bind fun _ => idle_pure _)
    (fun _ => (idle_add _ _).bind fun _ => idle_pure _) fun x => (even_add ha rfl).some

theorem mapType_meets (hS : ∀ p, S p → p.curr.token ≠ .eof) :
    Meets c (n + 1) S (mapType grammar) (mapType grammar) := by
  refine .lead hS fun a a' ha => Meets.level ?_
  refine Near.meets (fun _ => expect_near _) fun _ => Near.meets (fun c => (grammar_near c).type) fun key => ?_
  exact Near.meets (fun _ => expect_near _) fun _ => typed_meets htype ha fun _ => rfl

theorem chanType_meets (hS : ∀ p, S p → p.curr.token ≠ .eof) :
    Meets c (n + 1) S (chanType grammar) (chanType grammar) := by
  refine .lead hS fun a a' ha => Meets.level ?_
  exact Near.meets (fun _ => chanDirection_near) fun token => typed_meets htype (ha.withToken token) fun _ => rfl

theorem recvChanType_meets {a a' : Atom} (ha : a.Akin a') :
    Meets c n S (recvChanType grammar a) (recvChanType grammar a') :=
  Near.meets (fun _ => expect_near _) fun _ => typed_meets htype (ha.withToken _) fun _ => rfl

end

theorem parenType_meets (hS : ∀ p, S p → p.curr.token ≠ .eof) :
    Meets c (n + 1) S (next >>= fun _ => grammar.type >>= fun t => some <$> leaveNode t (.op .rparen))
      (next >>= fun _ => grammar.type >>= fun t => some <$> leaveNode t (.op .rparen)) :=
  .next hS (Meets.level (Near.meets (fun c => (grammar_near c).type) fun t => (leaveNode_meets t _).some))

theorem structType_meets : Meets c n S (structType grammar) (structType grammar) := by
  refine .makeAtom fun a a' ha => Near.meets (fun _ => .next) fun _ => ?_
  exact (members_meets fun c => structField_near (grammar_near c)).then_idle (fun _ => idle_add _ _)
    (fun _ => idle_add _ _) fun kids => even_add ha rfl

theorem interfaceType_meets : Meets c n S (interfaceType grammar) (interfaceType grammar) := by
  refine .makeAtom fun a a' ha => Near.meets (fun _ => .next) fun _ => ?_
  exact (members_meets fun c => interfaceElem_near (grammar_near c)).then_idle (fun _ => idle_add _ _)
    (fun _ => idle_add _ _) fun kids => even_add ha rfl

theorem results_level (htype : Level c n grammar.type? grammar.type?) :
    Level c n (results grammar) (results grammar) := by
  refine .branch (params_meets .results) (fun q hq hleaves => ?_) (.here fun pos pos' => ?_)
  · exact ((params_meets (c := c.flip) (n := n) (S := Anywhere) .results).eats q trivial hleaves).2
  · refine htype.then_idle (fun found => ?_) (fun found => ?_) fun found => ?_
    · cases found with
      | none => exact idle_add _ _
      | some t => exact (idle_build _).bind fun _ => idle_add _ _
    · cases found with
      | none => exact idle_add _ _
      | some t => exact (idle_build _).bind fun _ => idle_add _ _
    · cases found with
      | none => exact even_add (.tagAt _ _ _) rfl
      | some t => exact (even_build (.addField [] t none)).bind fun _ => even_add (.tagAt _ _ _) rfl

theorem signature_meets (htype : ∀ c, Level c n grammar.type? grammar.type?) {a a' : Atom} (ha : a.Akin a') :
    Meets c n S (signature grammar a) (signature grammar a') := by
  refine (params_meets .params).then_level (left_le_of_near fun c => params_near (grammar_near c) _ _ _ _)
    (fun x => ?_) fun x q hleaves => ?_
  · exact (results_level (htype c)).then_idle (fun _ => idle_add _ _) (fun _ => idle_add _ _) fun y => even_add ha rfl
  · have hidle (x y : NodeId) : Idle (add a' (.binary (some x) (some y))) := idle_add _ _
    exact (results_level (htype c.flip)).back q (((hidle x _).leaves_iff _).1 hleaves)

theorem funcType_meets (htype : ∀ c, Level c n grammar.type? grammar.type?) (hS : ∀ p, S p → p.curr.token ≠ .eof) :
    Meets c (n + 1) S (funcType grammar) (funcType grammar) :=
  .lead hS fun _ _ ha => (signature_meets htype ha).level

/-! ### All types -/

theorem typeExpr?_of_not_starts {p : Parser} (h : startsType p.curr.token = false) :
    typeExpr? grammar p = (none, p) := by
  rw [typeExpr?, run_bind (tok_run p)]
  generalize p.curr.token = t at h
  split
  all_goals first
    | rfl
    | cases h

/-- A type reads on; where it starts, it reads something. -/
theorem type?_reads_on (p : Parser) :
    (grammar.type? p).2.left ≤ p.left ∧ ((grammar.type? p).2.journal.Clean → p.journal.Clean) ∧
      (startsType p.curr.token = true → (grammar.type? p).2.left < p.left) := by
  have hparses := (grammar_type?_parses p.left p.left (Nat.le_refl _) ([], p) [] _ p
    ⟨.refl (Nat.lt_succ_self _), rfl⟩).2
  refine ⟨hparses.moves.left_le, hparses.moves.clean, fun hstarts => ?_⟩
  have hlt := hparses.left_lt
  rwa [if_pos hstarts] at hlt

/-- Types come to the same if they do so wherever one starts. -/
theorem type?_level_of (h : ∀ t, startsType t = true →
    Meets c n (·.curr.token = t) (typeExpr? grammar) (typeExpr? grammar)) : Level c n grammar.type? grammar.type? := by
  have hback (p : Parser) {rest : List Word} (hleaves : Leaves rest (grammar.type? p).2) : Leaves rest p :=
    ⟨(type?_reads_on p).2.1 hleaves.1, Nat.le_trans hleaves.2 (type?_reads_on p).1⟩
  refine ⟨fun p => hback p, fun p q hn hpq hleaves hleaves' => ?_⟩
  have hstarts : startsType q.curr.token = true → c.Inside p := fun hq =>
    hpq.inside (hback p hleaves).1 (Nat.lt_of_le_of_lt hleaves'.2 ((type?_reads_on q).2.2 hq))
  by_cases hp : startsType p.curr.token = true
  · rw [grammar_closed.type?] at hleaves hleaves' ⊢
    exact (h _ hp).abreast p q hn rfl hpq hleaves hleaves'
  · have hq : startsType q.curr.token ≠ true := fun hq => hp (hpq.token_eq (hstarts hq) ▸ hq)
    rw [grammar_closed.type?, typeExpr?_of_not_starts (by simpa using hq), typeExpr?_of_not_starts (by simpa using hp)]
    exact ⟨rfl, hpq⟩

/-- A type that is due was there, or something was reported. -/
theorem type?_run_of_clean {p : Parser} (h : (grammar.type p).2.journal.Clean) :
    grammar.type? p = (some (grammar.type p).1, (grammar.type p).2) := by
  rcases hrun : grammar.type? p with ⟨- | x, p'⟩
  · rw [Rules.type, run_bind hrun] at h
    dsimp only at h
    rw [run_bind (tok_run p')] at h
    have hparse : ¬(parseBad .expectingType p').2.journal.Clean := fun hclean =>
      not_clean_makeBad .expectingType p' (Parser.clean_of_clean_advance hclean)
    generalize p'.curr.token = t at h
    split at h
    all_goals first
      | exact absurd h (not_clean_makeBad _ _)
      | exact absurd h hparse
  · have htype : grammar.type p = (x, p') := run_bind hrun
    rw [htype]

theorem startsType_of_clean {p : Parser} (h : (grammar.type p).2.journal.Clean) : startsType p.curr.token = true := by
  by_contra hstarts
  have hrun := type?_run_of_clean h
  rw [grammar_closed.type?, typeExpr?_of_not_starts (by simpa using hstarts)] at hrun
  cases hrun

theorem type_meets_of (h : Level c n grammar.type? grammar.type?) : Meets c n S grammar.type grammar.type := by
  refine ⟨fun p _ hleaves => ?_, fun p q hn _ hpq hleaves hleaves' => ?_⟩
  · have hreads := type?_reads_on p
    rw [type?_run_of_clean hleaves.1] at hreads
    exact ⟨hreads.2.1 hleaves.1, Nat.lt_of_le_of_lt hleaves.2 (hreads.2.2 (startsType_of_clean hleaves.1))⟩
  · have hlevel := h.abreast p q hn hpq
    rw [type?_run_of_clean hleaves.1, type?_run_of_clean hleaves'.1] at hlevel
    obtain ⟨heq, hnext⟩ := hlevel hleaves hleaves'
    exact ⟨Option.some.inj heq, hnext⟩

theorem type?_level (n : Nat) : ∀ c, Level c n grammar.type? grammar.type? := by
  induction n with
  | zero =>
      refine fun c => type?_level_of fun t ht => ⟨fun p hp hleaves => ?_, fun p q hn hp => ?_⟩
      all_goals
        obtain ⟨-, hclean, hlt⟩ := type?_reads_on p
        rw [grammar_closed.type?] at hclean hlt
      · exact ⟨hclean hleaves.1, Nat.lt_of_le_of_lt hleaves.2 (hlt (hp ▸ ht))⟩
      · exact absurd (Nat.lt_of_lt_of_le (hlt (hp ▸ ht)) hn) (Nat.not_lt_zero _)
  | succ n ih =>
      intro c
      have htype : Meets c n Anywhere grammar.type grammar.type := type_meets_of (ih c)
      refine type?_level_of fun t ht => .tok_eq ?_
      have hne (p : Parser) (hp : p.curr.token = t) : p.curr.token ≠ .eof := by
        rintro heof
        rw [← hp, heof] at ht
        cases ht
      split
      · exact typeName_meets.some
      · exact (arrayType_meets htype hne).some
      · exact structType_meets.some
      · exact pointerType_meets htype hne
      · exact (funcType_meets ih hne).some
      · exact interfaceType_meets.some
      · exact (mapType_meets htype hne).some
      · exact (chanType_meets htype hne).some
      · exact .lead hne fun a a' ha => (recvChanType_meets htype ha).some.level
      · exact parenType_meets hne
      · have hleads : startsType t = false := by
          unfold startsType
          split <;> simp_all
        rw [hleads] at ht
        cases ht

/-- Two runs that read a type of the same words come to the same type. -/
theorem type_meets : Meets c n S grammar.type grammar.type :=
  type_meets_of (type?_level n c)

end GoSource.Grammar
