import GoSource.Proofs.Grammar.Primitive

/-!
# Nonterminals that agree, and parameter lists

Two sets of nonterminals that agree below `n` make every production agree that passes over a token first.

* **`Rules.Close n g g'`**: the nonterminals of `g` and `g'` agree when fewer than `n` tokens are left.
* **`groupParams_under`**: grouping the entries of a parameter list keeps their order.
* **`paramsBody_reads`**: so does a whole list, unless something is reported.
-/

namespace GoSource.Grammar

variable {s : Stack × Parser} {n k : Nat} {w : Stack} {t : Token}

/-- The nonterminals agree when fewer than `n` tokens are left.  Binary expressions are only asked for with an
operator that binds, an `if` statement only at its keyword, elements only at their brace. -/
structure Rules.Close (n : Nat) (g g' : Rules) : Prop where
  binary : ∀ precedence, 1 ≤ precedence → Reads n (g.binary precedence) (g'.binary precedence)
  unary : Reads n g.unary g'.unary
  type? : Reads n g.type? g'.type?
  stmt? : Reads n g.stmt? g'.stmt?
  ifStmt : ∀ k ≤ n, ∀ s w,
    Agree (fun p => Within s k w p ∧ p.curr.token = .kw .if_) g.ifStmt g'.ifStmt
      fun x => Within s k (push x w)
  elements : ∀ k ≤ n, ∀ s w,
    Agree (fun p => Within s k w p ∧ p.curr.token = .op .lbrace) g.elements g'.elements
      fun x => Within s k (push x w)

variable {g g' : Rules}

/-! ### Types and expressions -/

/-- A type or a bad node in its place reads on as far as the type does. -/
theorem type_agree {P : Parser → Prop} (h : Agree P g.type? g'.type? fun x => Within s k (push x w)) :
    Agree P g.type g'.type fun x => Within s k (push x w) := by
  refine h.bind fun x => ?_
  cases x with
  | some x => exact Agree.pure fun p hp => hp
  | none =>
      refine Agree.tok fun t => ?_
      split
      all_goals first
        | exact (makeBad_reads _ k (Nat.le_refl k) s w).pre fun p hp => hp.1
        | exact (parseBad_reads _ k (Nat.le_refl k) s w).pre fun p hp => hp.1

theorem type_reads (h : Reads n g.type? g'.type?) : Reads n g.type g'.type :=
  fun k hk s w => type_agree (h k hk s w)

theorem type_opens (h : Opens t n g.type? g'.type?) : Opens t n g.type g'.type :=
  fun k hk s w => type_agree (h k hk s w)

theorem Rules.Close.type (h : g.Close n g') : Reads n g.type g'.type :=
  type_reads h.type?

theorem Rules.Close.expr (h : g.Close n g') : Reads n g.expr g'.expr :=
  h.binary 1 (Nat.le_refl 1)

theorem exprsLoop_reads (h : Reads n g.expr g'.expr) : g.exprsLoop.Reads (n + 1) g'.exprsLoop where
  more_eq := rfl
  round k hk s w items t ht := by
    have ht : t = .op .comma := eq_of_beq ht
    refine (next_pass (ht ▸ rfl)).bind fun _ => (h k (Nat.le_of_lt_succ hk) s _).bind fun x => ?_
    refine Agree.pure fun p hp => ?_
    show Within s k (push (items ++ [some x]) w) p
    simpa using hp

/-- Expressions read on as far as the first of them does. -/
theorem exprs_agree (h : Reads n g.expr g'.expr) (hk : k ≤ n + 1) {P : Parser → Prop}
    (hfirst : Agree P g.expr g'.expr fun x => Within s k (push x w)) :
    Agree P g.exprs g'.exprs fun x => Within s k (push x w) := by
  refine hfirst.bind fun x => ?_
  exact ((exprsLoop_reads h).run hk [some x]).pre fun p hp => by simpa using hp

theorem exprs_reads (h : Reads n g.expr g'.expr) : Reads n g.exprs g'.exprs :=
  fun k hk s w => exprs_agree h (Nat.le_succ_of_le hk) (h k hk s w)

theorem atomFrom_keeps (tag : NodeTag) (first : Child) :
    Agree (fun p => Within s k w p ∧ p.curr.token = t) (atomFrom tag first) (atomFrom tag first)
      fun a p => (Within s k w p ∧ p.curr.token = t) ∧ a.token = .tag tag := by
  refine (makeAtom_keeps _).bind fun a => Agree.of_fact fun ha => ?_
  cases first with
  | some first => exact Agree.startOf fun pos => Agree.pure fun p hp => ⟨hp, ha⟩
  | none => exact Agree.pure fun p hp => ⟨hp, ha⟩

/-- A list of expressions becomes one node; the current token stays. -/
theorem listExprs_keeps (items : List Child) :
    Agree (fun p => Within s k (push items w) p ∧ p.curr.token = t) (listExprs items) (listExprs items)
      fun x p => Within s k (.node x :: w) p ∧ p.curr.token = t := by
  refine (atomFrom_keeps _ _).bind fun a => Agree.of_fact fun ha => ?_
  rintro p ⟨hp, ht⟩
  obtain ⟨heq, hadded⟩ := add_node (w := w) (x := .list items) ha rfl rfl rfl p hp
  exact ⟨heq, hadded, ht⟩

theorem wrapExprs_keeps (items : List Child) :
    Agree (fun p => Within s k (push items w) p ∧ p.curr.token = t) (wrapExprs items) (wrapExprs items)
      fun x p => Within s k (.node x :: w) p ∧ p.curr.token = t := by
  unfold wrapExprs
  split
  · exact Agree.pure fun p hp => hp
  · exact listExprs_keeps items

theorem listExprs_reads (items : List Child) :
    Agree (Within s k (push items w)) (listExprs items) (listExprs items)
      fun x => Within s k (.node x :: w) :=
  fun p hp => (listExprs_keeps items p ⟨hp, rfl⟩).imp_right And.left

theorem wrapExprs_reads (items : List Child) :
    Agree (Within s k (push items w)) (wrapExprs items) (wrapExprs items)
      fun x => Within s k (.node x :: w) :=
  fun p hp => (wrapExprs_keeps items p ⟨hp, rfl⟩).imp_right And.left

/-! ### Fields -/

theorem build_bind {α β : Type} (b : Build α) (f : α → Build β) :
    build (b >>= f) = build b >>= fun x => build (f x) :=
  rfl

/-- The type, the tag and the list of names become a field. -/
theorem addFieldNode_under (above : Stack) (nameList : Child) (typ : NodeId) (tag : Child) :
    Agree (Within s k (above ++ push tag (push typ (push nameList w))))
      (build (do
        let pos := (← get).pos (nameList.getD typ)
        Tree.add (Tree.tagAt (.tag .field) pos) (.list [nameList, some typ, tag])))
      (build (do
        let pos := (← get).pos (nameList.getD typ)
        Tree.add (Tree.tagAt (.tag .field) pos) (.list [nameList, some typ, tag])))
      fun x => Within s k (above ++ .node x :: w) := by
  intro p hp
  exact add_under above (x := .list [nameList, some typ, tag]) rfl rfl rfl (by simp) p hp

/-- Names, type and tag become a field. -/
theorem addField_under (above : Stack) (names : List NodeId) (typ : NodeId) (tag : Child) :
    Agree (Within s k (above ++ push tag (push typ (push names w))))
      (build (Tree.addField names typ tag)) (build (Tree.addField names typ tag))
      fun x => Within s k (above ++ .node x :: w) := by
  cases names with
  | nil => exact addFieldNode_under above none typ tag
  | cons first rest =>
      intro p hp
      have habove (w : Stack) :
          above ++ push tag (push typ w) = (above ++ push tag (push typ [])) ++ w := by
        rw [push_eq_append (push typ w), push_eq_append w, push_eq_append (push typ [])]
        simp
      have hnames := add_under (s := s) (k := k) (above ++ push tag (push typ [])) (w := w)
        (a := Tree.tagAt (.tag .names) (p.tree.pos first)) (x := .list ((first :: rest).map some))
        rfl rfl rfl rfl
      rw [parts_list, push_map_some, ← habove] at hnames
      have hlist := (hnames p hp).2
      dsimp only at hlist
      rw [← habove] at hlist
      exact addFieldNode_under above (some _) typ tag _ hlist

/-- The same below the nodes of something else. -/
theorem addField_below {α : Type} [Holds α] (above : Stack) (rest : α) (names : List NodeId) (typ : NodeId)
    (tag : Child) :
    Agree (Within s k (above ++ push rest (push tag (push typ (push names w)))))
      (build (Tree.addField names typ tag)) (build (Tree.addField names typ tag))
      fun x => Within s k (above ++ push rest (push x w)) := by
  have hpush (w : Stack) : above ++ push rest w = (above ++ push rest []) ++ w := by
    rw [push_eq_append, List.append_assoc]
  refine (addField_under (s := s) (k := k) (w := w) (above ++ push rest []) names typ tag).mono ?_ ?_
  · intro p hp
    rw [hpush] at hp
    exact hp
  · intro x p hp
    rw [hpush]
    exact hp

/-! ### Grouping -/

instance : Holds ParamEntry := ⟨fun e => held e.name ++ held e.typ⟩

@[simp] theorem push_entry (name typ : Child) (w : Stack) :
    push ({ name, typ } : ParamEntry) w = push typ (push name w) := by
  simp [push, held]

/-- Lone types become fields. -/
theorem typeFields_under (above : Stack) (types : List NodeId) :
    Agree (Within s k (above ++ push types w)) (build (typeFields types)) (build (typeFields types))
      fun fields => Within s k (above ++ push fields w) := by
  unfold typeFields
  induction types generalizing w with
  | nil => exact Agree.pure fun p hp => hp
  | cons t rest ih =>
      rw [List.mapM_cons, build_bind, push_cons]
      refine Agree.bind (Q := fun x => Within s k (above ++ push rest (push x w))) ?_ fun field => ?_
      · exact Agree.map (addField_below above rest [] t none) fun x p hp => hp
      · rw [build_bind]
        refine ih.bind fun fields => Agree.pure fun p hp => ?_
        rw [push_cons]
        exact hp

/-- Grouping keeps the order of names and types.  Names wait only in a list that has named entries. -/
theorem groupFrom_under (above : Stack) {named : Bool} {pending : List NodeId} (entries : List ParamEntry)
    (hpending : named = false → pending = []) :
    Agree (Within s k (above ++ push entries (push pending w)))
      (build (groupFrom named pending entries)) (build (groupFrom named pending entries))
      fun fields => Within s k (above ++ push fields w) := by
  fun_induction groupFrom named pending entries generalizing w with
  | case1 pending => exact typeFields_under above pending
  | case2 pending name typ rest ih =>
      have hfield := addField_below (s := s) (k := k) (w := w) above rest (pending ++ name.toList) typ none
      rw [push_append, push_toList] at hfield
      rw [build_bind, push_cons, push_entry]
      refine hfield.bind fun field => ?_
      rw [build_bind]
      refine (ih fun _ => rfl).bind fun fields => Agree.pure fun p hp => ?_
      rw [push_cons]
      exact hp
  | case3 pending name rest hnamed ih =>
      refine (ih fun h => absurd hnamed (by simp [h])).pre fun p hp => ?_
      rw [push_append, push_cons, push_nil]
      rw [push_cons, push_entry] at hp
      exact hp
  | case4 pending name rest hnamed ih =>
      obtain rfl := hpending (by simpa using hnamed)
      rw [build_bind, push_cons, push_entry]
      refine (addField_below above rest [] name none).bind fun field => ?_
      rw [build_bind]
      refine (ih hpending).bind fun fields => Agree.pure fun p hp => ?_
      rw [push_cons]
      exact hp
  | case5 pending rest ih =>
      rw [push_cons, push_entry]
      exact ih hpending

theorem groupParams_under (above : Stack) (entries : List ParamEntry) :
    Agree (Within s k (above ++ push entries w)) (build (groupParams entries))
      (build (groupParams entries)) fun fields => Within s k (above ++ push fields w) := by
  have hgroup := groupFrom_under (s := s) (k := k) (w := w) above entries
    (fun _ : (entries.any fun e => e.name.isSome && e.typ.isSome) = false => (rfl : ([] : List NodeId) = []))
  exact hgroup

/-! ### Entries of a list -/

theorem typeTerm_reads (h : g.Close n g') : Reads n (typeTerm g) (typeTerm g') := by
  intro k hk s w
  refine Agree.tok fun t => Agree.ite (fun ht => ?_) (fun _ => ?_)
  · subst ht
    refine Agree.lead_le rfl fun a ha => (h.type k hk s w).bind fun x => ?_
    exact add_node ha rfl rfl rfl
  · exact (h.type k hk s w).pre fun p hp => hp.1

theorem unionLoop_reads (h : g.Close n g') : (unionLoop g).Reads n (unionLoop g') where
  more_eq := rfl
  round k hk s w x t ht := by
    have ht : t = .op .or := eq_of_beq ht
    refine (makeAtom_keeps _).bind fun a => Agree.of_fact fun ha => Agree.startOf fun pos => ?_
    refine (next_pass (ht ▸ rfl)).bind fun _ => ?_
    refine (typeTerm_reads h k (Nat.le_of_lt hk) s _).bind fun y => ?_
    refine Agree.bind (add_node (w := w) ha rfl rfl rfl) fun z => ?_
    exact Agree.pure fun p hp => hp

theorem union_reads (h : g.Close n g') : Reads n (union g) (union g') := by
  intro k hk s w
  refine (typeTerm_reads h k hk s w).bind fun x => ?_
  exact (unionLoop_reads h).run hk x

theorem paramType_reads (h : g.Close n g') (typeParams : Bool) :
    Reads n (paramType g typeParams) (paramType g' typeParams) := by
  intro k hk s w
  refine Agree.tok fun t => Agree.ite (fun ht => ?_) (fun _ => Agree.ite (fun _ => ?_) (fun _ => ?_))
  · subst ht
    refine Agree.lead_le rfl fun a ha => (h.type k hk s w).bind fun x => ?_
    exact add_node ha rfl rfl rfl
  · exact (union_reads h k hk s w).pre fun p hp => hp.1
  · exact (h.type k hk s w).pre fun p hp => hp.1

/-- The length of an array becomes part of its type. -/
theorem arrayTail_reads (h : g.Close n g') (hk : k ≤ n) {atom : Atom} (hatom : atom.token = .tag .array)
    (length : Child) :
    Agree (Within s k (push length w)) (arrayTail g atom length) (arrayTail g' atom length)
      fun x => Within s k (.node x :: w) := by
  refine (expect_reads rfl k hk s _).bind fun _ => (h.type k hk s _).bind fun x => ?_
  exact add_node hatom rfl rfl (by simp)

theorem bracketLoop_reads (h : g.Close n g') : (bracketLoop g).Reads n (bracketLoop g') where
  more_eq := rfl
  round k hk s w args t ht := by
    have ht : t = .op .comma := eq_of_beq ht
    refine (next_pass (ht ▸ rfl)).bind fun _ => ?_
    refine Agree.tok fun u => Agree.ite (fun _ => ?_) (fun _ => ?_)
    · exact Agree.pure fun p hp => hp.1.weaken (Nat.le_succ k)
    · refine ((h.type k (Nat.le_of_lt hk) s _).pre fun p hp => hp.1).bind fun x => ?_
      refine Agree.pure fun p hp => ?_
      show Within s k (push (args ++ [some x]) w) p
      simpa using hp

theorem argumentsPart_reads (pos : Pos) (args : List Child) :
    Agree (Within s k (push args w)) (argumentsPart pos args) (argumentsPart pos args)
      fun x => Within s k (push x w) := by
  unfold argumentsPart
  split
  · refine Agree.pure fun p hp => ?_
    simpa using hp
  · refine Agree.map (add_node (w := w) rfl rfl rfl ?_) fun x p hp => hp
    rfl

theorem bracketArguments_reads (h : g.Close n g') :
    Reads n
      (withComposite true do
        let first ← g.expr
        (bracketLoop g).run [some first])
      (withComposite true do
        let first ← g'.expr
        (bracketLoop g').run [some first]) := by
  refine Reads.withComposite fun k hk s w => (h.expr k hk s w).bind fun first => ?_
  exact (bracketLoop_reads h).run hk [some first]

theorem bracketedParam_reads (h : g.Close n g') (hk : k ≤ n) {ident : Atom}
    (hident : ident.token = .lit .ident) :
    Agree (fun p => Within s k (.token ident :: w) p ∧ p.curr.token = .op .lbrack)
      (bracketedParam g ident) (bracketedParam g' ident) fun e => Within s k (push e w) := by
  have hne : ident.token ≠ .eof := by rw [hident]; exact nofun
  -- The name stands below what the brackets hold.
  have hname {α : Type} [Holds α] (x : α) :
      Agree (Within s k (push x (.token ident :: w))) (add ident .leaf) (add ident .leaf)
        fun name => Within s k (push x (.node name :: w)) := by
    have hleaf := add_leaf (s := s) (k := k) (w := w) (push x []) hne
    rw [← push_eq_append] at hleaf
    exact hleaf.post fun name p hp => by rwa [push_eq_append]
  refine Agree.lead_le rfl fun bracket hbracket => ?_
  refine Agree.tok fun t => Agree.ite (fun ht => ?_) (fun _ => ?_)
  · refine Agree.ite_bind (Q := fun length => Within s k (push length (.token ident :: w)))
      (fun ht => ?_) (fun _ => ?_) fun length => ?_
    · subst ht
      refine Agree.map ?_ fun x p hp => hp
      exact (parseAtom_opens (n := n) (t := .op .ellipsis) nofun).reads (Nat.le_succ_of_le hk) s _
    · exact Agree.pure fun p hp => hp.1
    · refine (hname length).bind fun name => ?_
      refine (arrayTail_reads h hk hbracket length).bind fun typ => Agree.pure fun p hp => ?_
      rw [push_entry]
      exact hp
  · refine ((bracketArguments_reads h k hk s _).pre fun p hp => hp.1).bind fun args => ?_
    refine (expect_reads rfl k hk s _).bind fun _ => (hname args).bind fun name => ?_
    refine Agree.tok fun u => Agree.ite (fun hu => ?_) (fun _ => ?_)
    · obtain ⟨only, rfl⟩ := List.length_eq_one_iff.1 hu.1
      refine ((h.type k hk s _).pre fun p hp => hp.1).bind fun elem => ?_
      refine Agree.bind (add_node (w := .node name :: w) hbracket rfl rfl (by simp)) fun typ => ?_
      refine Agree.pure fun p hp => ?_
      rw [push_entry]
      exact hp
    · refine Agree.startOf fun pos => ?_
      refine ((argumentsPart_reads pos args).pre fun p hp => hp.1).bind fun arg => ?_
      refine Agree.bind (add_node (w := w) rfl rfl rfl (by simp)) fun typ => ?_
      refine Agree.pure fun p hp => ?_
      rw [push_entry]
      exact hp

theorem paramEntry_reads (h : g.Close n g') (close : Token) (typeParams : Bool) :
    Reads n (paramEntry g close typeParams) (paramEntry g' close typeParams) := by
  intro k hk s w
  have htype {j : Nat} (hj : j ≤ n) (w : Stack) (name : Child) :
      Agree (Within s j (push name w))
        (do return { name, typ := some (← paramType g typeParams) })
        (do return { name, typ := some (← paramType g' typeParams) })
        fun e : ParamEntry => Within s j (push e w) := by
    refine (paramType_reads h typeParams j hj s _).bind fun x => Agree.pure fun p hp => ?_
    rw [push_entry]
    exact hp
  refine Agree.tok fun t => Agree.ite (fun _ => ?_) (fun ht => ?_)
  · exact (htype hk w none).pre fun p hp => hp.1
  obtain rfl : t = .lit .ident := Decidable.of_not_not ht
  cases k with
  | zero => exact fun p hp => absurd hp.1.left_lt (Nat.not_lt_zero _)
  | succ k =>
      have hk' : k ≤ n := Nat.le_of_succ_le hk
      refine Agree.lead_ident fun ident hident => ?_
      have hne : ident.token ≠ .eof := by rw [hident]; exact nofun
      refine Agree.tok fun t => Agree.ite (fun _ => ?_) (fun _ => Agree.ite (fun _ => ?_) (fun _ =>
        Agree.ite (fun ht => ?_) (fun _ => ?_)))
      · refine ((add_leaf (w := w) [] hne).pre fun p hp => hp.1.take).bind fun name => ?_
        refine Agree.pure fun p hp => ?_
        rw [push_entry]
        exact hp.weaken (Nat.le_succ k)
      · refine (putBack_taken.pre fun p hp => hp.1).bind fun _ => ?_
        exact (htype hk w none).pre fun p hp => hp.1
      · subst ht
        refine (bracketedParam_reads h hk' hident).mono (fun p hp => ⟨hp.1.take, hp.2⟩) ?_
        exact fun e p hp => hp.weaken (Nat.le_succ k)
      · refine ((add_leaf (w := w) [] hne).pre fun p hp => hp.1.take).bind fun name => ?_
        exact (htype hk' w (some name)).post fun e p hp => hp.weaken (Nat.le_succ k)

/-! ### Lists -/

/-- What a round over the entries `x.1` and the bad nodes `x.2` adds: one entry, and a bad node after a report. -/
def ParamTurn (s : Stack × Parser) (w : Stack) (k : Nat) (x : List ParamEntry × List Child) :
    Turn (List ParamEntry × List Child) → Parser → Prop
  | .again y, p => ∃ e bads, y = (x.1 ++ [e], x.2 ++ bads) ∧ Within s k (push bads (push e w)) p ∧
      (bads = [] ∨ Reported p)
  | .done y, p => ∃ e, y = (x.1 ++ [e], x.2) ∧ Within s (k + 1) (push e w) p

theorem paramsLoop_turn (h : g.Close n g') {close : Token} {typeParams : Bool} (hk : k < n)
    (x : List ParamEntry × List Child) (ht : (paramsLoop g close typeParams).more t = true) :
    Agree (fun p => Within s (k + 1) w p ∧ p.curr.token = t)
      ((paramsLoop g close typeParams).round x) ((paramsLoop g' close typeParams).round x)
      (ParamTurn s w k x) := by
  have hne : t ≠ .eof := by
    simp only [paramsLoop, Bool.and_eq_true, bne_iff_ne] at ht
    exact ht.1
  refine Agree.counted (paramEntry_reads h close typeParams) hk hne fun b hb e => ?_
  refine Agree.tok fun u => Agree.ite (fun hu => ?_) (fun _ => Agree.left fun j => ?_)
  · refine ((next_pass (hu ▸ rfl)).pre fun p hp => ⟨hp.1.within, hp.2⟩).bind fun _ => Agree.pure fun p hp => ?_
    exact ⟨e, [], by simp, hp.weaken hb, .inl rfl⟩
  refine Agree.ite (fun hj => ?_) (fun _ => Agree.pure fun p hp => ?_)
  · refine ((parseBad_counted (s := s) (w := push e w) (.expecting close) hne).pre fun p hp =>
      ⟨hp.1.1, hp.2.trans hj⟩).bind fun y => Agree.pure fun p hp => ?_
    exact ⟨e, [some y], rfl, hp.1.weaken hb, .inr hp.2⟩
  · exact ⟨e, rfl, hp.1.1.within.weaken (Nat.succ_le_succ hb)⟩

/-- What the entries of a list and the bad nodes among them leave on the stack.  The bad nodes come last; what
was read after them stands before them only after a report. -/
def Entered (s : Stack × Parser) (w : Stack) (k : Nat) (x : List ParamEntry × List Child) (p : Parser) :
    Prop :=
  Within s k (push x w) p ∧ (x.2 = [] ∨ Reported p)

/-- One more entry, and bad nodes after it. -/
theorem Entered.snoc {x : List ParamEntry × List Child} {e : ParamEntry} {bads : List Child} {p p' : Parser}
    (hp : Entered s w n x p) (h : Within (push x w, p) k (push bads (push e (push x w))) p')
    (hbads : bads = [] ∨ Reported p') : Entered s w k (x.1 ++ [e], x.2 ++ bads) p' := by
  obtain ⟨entries, found⟩ := x
  rcases hp.2 with hfound | hreported
  · obtain rfl : found = [] := hfound
    refine ⟨hp.1.trans ?_, hbads⟩
    simpa using h
  · have hreported' : Reported p' := hreported.within h
    refine ⟨(hp.1.trans h).step (.reorder hreported' ?_), .inr hreported'⟩
    simp only [push_pair, push_append, push_cons, push_nil]
    exact (push_comm_perm (push entries w) e found).append_left _

theorem paramsLoop_round (h : g.Close n g') {close : Token} {typeParams : Bool} (hk : k < n)
    (x : List ParamEntry × List Child) (ht : (paramsLoop g close typeParams).more t = true) :
    Agree (fun p => Entered s w (k + 1) x p ∧ p.curr.token = t)
      ((paramsLoop g close typeParams).round x) ((paramsLoop g' close typeParams).round x)
      (Turned (Entered s w) k) := by
  refine Agree.of_forall fun p₀ ⟨hp₀, ht₀⟩ => ?_
  refine (paramsLoop_turn (s := (push x w, p₀)) (w := push x w) h hk x ht).mono ?_ fun turn p hp => ?_
  · rintro p rfl
    exact ⟨Within.refl hp₀.1.left_lt, ht₀⟩
  · cases turn with
    | again y =>
        obtain ⟨e, bads, rfl, hwithin, hbads⟩ := hp
        exact hp₀.snoc hwithin hbads
    | done y =>
        obtain ⟨e, rfl, hwithin⟩ := hp
        have hnone : Within (push x w, p₀) (k + 1) (push ([] : List Child) (push e (push x w))) p := hwithin
        have hentered := hp₀.snoc hnone (.inl rfl)
        rwa [List.append_nil] at hentered

theorem paramsLoop_entered (h : g.Close n g') (close : Token) (typeParams : Bool) (hk : k ≤ n)
    (x : List ParamEntry × List Child) :
    Agree (Entered s w k x) ((paramsLoop g close typeParams).run x) ((paramsLoop g' close typeParams).run x)
      (Entered s w k) := by
  refine Loop.run_agree (n := n) (I := Entered s w) ?_ ?_ ?_ x hk
  · rfl
  · exact fun hp => ⟨hp.1.left_lt, fun _ hj => ⟨⟨hp.1.moves, hj⟩, hp.2⟩⟩
  · exact fun j hj y t ht => paramsLoop_round h hj y ht

/-- A list up to its closing token becomes one node. -/
theorem paramsBody_reads (h : g.Close n g') {close : Token} (hclose : close.isLiteral = false)
    (typeParams : Bool) (hk : k ≤ n) {atom : Atom} (hatom : atom.token = t) (ht : t.isTag = true)
    (bads : List Child) :
    Agree (fun p => Within s k (push bads w) p ∧ (bads = [] ∨ Reported p))
      (paramsBody g atom bads close typeParams) (paramsBody g' atom bads close typeParams)
      fun x => Within s k (.node x :: w) := by
  refine Agree.bind (Q := Entered s w k) ?_ fun (entries, bads) => ?_
  · refine Agree.withComposite (fun p b hp => ⟨hp.1.composite b, hp.2⟩)
      (fun x p b hp => ⟨hp.1.composite b, hp.2⟩) ?_
    exact paramsLoop_entered h close typeParams hk ([], bads)
  · refine ((leave_reads hclose k hk s _).pre fun p hp => hp.1).bind fun skipped => ?_
    have hgroup := groupParams_under (s := s) (k := k) (w := w) (push (bads ++ skipped) []) entries
    rw [← push_eq_append, push_append] at hgroup
    rw [push_pair]
    refine hgroup.bind fun fields => ?_
    refine add_node hatom ht rfl ?_
    rw [← push_eq_append, parts_list, push_append, push_append, push_append]

theorem params_reads (h : g.Close n g') {opening close : Token} (hopening : opening.isPlain = true)
    (hclose : close.isLiteral = false) (tag : NodeTag) (htag : (Token.tag tag).isTag = true) (typeParams : Bool) :
    Reads n (params g opening close tag typeParams) (params g' opening close tag typeParams) := by
  intro k hk s w
  refine (makeAtom_reads _).bind fun a => Agree.of_fact fun ha => ?_
  refine (enter_reported hopening).bind fun bads => ?_
  exact paramsBody_reads h hclose typeParams hk ha htag bads

theorem results_reads (h : g.Close n g') : Reads n (results g) (results g') := by
  intro k hk s w
  refine Agree.tok fun t => Agree.ite (fun _ => ?_) (fun _ => Agree.here fun pos => ?_)
  · exact (params_reads h rfl rfl .results rfl false k hk s w).pre fun p hp => hp.1
  refine ((h.type? k hk s w).pre fun p hp => hp.1).bind fun x => ?_
  cases x with
  | none => exact add_node rfl rfl rfl rfl
  | some x =>
      refine (addField_under (w := w) [] [] x none).bind fun field => ?_
      exact add_node rfl rfl rfl rfl

/-- The node is that of a signature. -/
structure IsFunc (x : NodeId) (p : Parser) : Prop where
  index_lt : x.index < p.tree.size
  op_eq : p.tree.op x = .kw .func

theorem IsFunc.moves {x : NodeId} {y z : Stack × Parser} (hmoves : Moves y z) (h : IsFunc x y.2) : IsFunc x z.2 := by
  refine ⟨Nat.lt_of_lt_of_le h.index_lt hmoves.grows.size_le, ?_⟩
  rw [Tree.op, hmoves.grows.node_eq x h.index_lt]
  exact h.op_eq

/-- Parameters and results become one node, which is a signature. -/
theorem signature_isFunc (h : g.Close n g') {atom : Atom} (hatom : atom.token = .kw .func) (hk : k ≤ n) :
    Agree (Within s k w) (signature g atom) (signature g' atom)
      fun x p => Within s k (.node x :: w) p ∧ IsFunc x p := by
  refine (params_reads h rfl rfl .params rfl false k hk s w).bind fun x => ?_
  refine (results_reads h k hk s _).bind fun y => ?_
  intro p hp
  have hadded := add_func (w := w) (x := .binary (some x) (some y)) (P := fun _ => True) hatom rfl rfl
    (fun _ _ _ hsig => by simp at hsig) p ⟨hp, trivial⟩
  refine ⟨rfl, hadded.2, ?_, ?_⟩
  · show p.tree.nodes.size < (p.tree.nodes.push _).size
    simp
  · show ((withNode p atom _).tree.node (nextId p)).op = _
    rw [node_withNode, if_pos rfl]
    exact hatom

theorem signature_reads (h : g.Close n g') {atom : Atom} (hatom : atom.token = .kw .func) :
    Reads n (signature g atom) (signature g' atom) :=
  fun _ hk _ _ => (signature_isFunc h hatom hk).post fun _ _ hp => hp.1

end GoSource.Grammar
