import GoSource.Proofs.Grammar.AbreastEnds
import GoSource.Proofs.Grammar.Restart

/-!
# Types of the same words in a file

Where a file has the same words twice as a type, its tree has the same nodes twice.  Of the nodes that were made before
one type is read, the other one has no part: it is made of new nodes only.

* **`ReadsType`**: a parser comes to a place where it reads a type of certain words.
* **`Tree.Repeats`**: nodes that are there twice in a tree.
* **`ReadsType.same`**: the nodes of types of the same words.
* **`Moves.isBad_eq_false`**: where nothing was reported, there are no bad nodes.
-/

namespace GoSource

/-- Every node of a tree with an index below `n` is there again under the name that `f` gives it. -/
def Tree.Repeats (t : Tree) (f : NodeId → NodeId) (n : Nat) : Prop :=
  ∀ id : NodeId, id.index < n → (t.node id).Akin f (t.node (f id))

namespace Tree.Repeats

variable {t : Tree} {f : NodeId → NodeId} {n : Nat} {id : NodeId} (h : t.Repeats f n) (hid : id.index < n)
include h hid

theorem op_eq : t.op (f id) = t.op id :=
  (h id hid).atom.token_eq

theorem literal_eq : t.literal (f id) = t.literal id :=
  (h id hid).atom.literal_eq

theorem isBad_eq : t.isBad (f id) = t.isBad id :=
  (h id hid).isBad_eq

theorem children_eq : t.children (f id) = (t.children id).map (·.map f) :=
  (h id hid).children_eq

theorem part?_eq (place : Nat) : t.part? (f id) place = (t.part? id place).map f := by
  rw [part?, h.children_eq hid, List.getElem?_map, part?]
  cases (t.children id)[place]? <;> rfl

theorem present_eq : t.present (f id) = (t.present id).map f := by
  rw [present, h.children_eq hid, List.filterMap_map, present, List.map_filterMap]
  rfl

end Tree.Repeats

/-- The nodes `x` and `y` are the same, but for their places in the tree and in the file. -/
def Tree.Same (t : Tree) (x y : NodeId) : Prop :=
  ∃ f n, t.Repeats f n ∧ x.index < n ∧ y = f x

/-- What was made and what was reported up to a state is still there at another one. -/
structure Parser.Precedes (p stop : Parser) : Prop where
  grows : p.tree.Grows stop.tree
  clean : stop.journal.Clean → p.journal.Clean

namespace Parser.Precedes

variable {p q stop : Parser}

theorem refl (p : Parser) : p.Precedes p :=
  ⟨.refl _, id⟩

theorem trans (h : p.Precedes q) (h' : q.Precedes stop) : p.Precedes stop :=
  ⟨h.grows.trans h'.grows, fun hclean => h.clean (h'.clean hclean)⟩

end Parser.Precedes

namespace Grammar

theorem Moves.precedes {s s' : Stack × Parser} (h : Moves s s') : s.2.Precedes s'.2 :=
  ⟨h.grows, h.clean⟩

/-- Bad nodes are made after a report only. -/
theorem Move.isBad_eq_false {s s' : Stack × Parser} (h : Move s s') (hclean : s'.2.journal.Clean)
    (hs : ∀ id, s.2.tree.isBad id = false) (id : NodeId) : s'.2.tree.isBad id = false := by
  have hmade {p : Parser} {atom : Atom} {shape : NodeShape} (hp : p.tree.isBad id = false)
      (hsound : isSound shape = true) : (withNode p atom shape).tree.isBad id = false := by
    rw [Tree.isBad, node_withNode]
    split
    · cases shape with
      | bad found d => cases hsound
      | _ => rfl
    · exact hp
  cases h with
  | uncomment | composite | reorder | drop => exact hs id
  | complain => exact absurd hclean (Parser.not_clean_complain _ _)
  | @pass st p | @lose st p | @take st p | @peek st p =>
      show p.advance.tree.isBad id = false
      rw [Parser.tree_advance]
      exact hs id
  | leaf => exact hmade (hs id) rfl
  | node _ _ _ _ hsound => exact hmade (hs id) hsound
  | bad _ _ _ hreported => exact absurd hclean hreported

theorem Moves.isBad_eq_false {s s' : Stack × Parser} (h : Moves s s') (hclean : s'.2.journal.Clean)
    (hs : s.2.tree = {}) (id : NodeId) : s'.2.tree.isBad id = false := by
  induction h generalizing id with
  | refl =>
      rw [hs]
      rfl
  | tail _ hmove ih => exact hmove.isBad_eq_false hclean (ih (hmove.clean hclean)) id

/-- From `start` on, a parser comes to the state `p`, with `st` in its hands.  There it reads the words `ws` as a type,
which becomes the node `id`, and comes to `q`.  The node is still there at `stop`. -/
structure TypeRun (start stop : Parser) (ws : List Word) (id : NodeId) (st : Stack) (p q : Parser) : Prop where
  reached : Moves ([], start) (st, p)
  compositeOk : p.compositeOk = true
  run : grammar.type p = (id, q)
  words : p.words = ws ++ q.words
  precedes : q.Precedes stop

/-- From `start` to `stop`, a parser comes to a place where it reads the words `ws` as a type, which becomes the node
`id`. -/
def ReadsType (start stop : Parser) (ws : List Word) (id : NodeId) : Prop :=
  ∃ st p q, TypeRun start stop ws id st p q

/-- A parser that comes to a type reads it. -/
theorem Moves.readsType {start p : Parser} {st : Stack} {ws : List Word} (h : Moves ([], start) (st, p))
    (hcomposite : p.compositeOk = true) (hwords : p.words = ws ++ (grammar.type p).2.words) :
    ReadsType start (grammar.type p).2 ws (grammar.type p).1 :=
  ⟨st, p, (grammar.type p).2, h, hcomposite, rfl, hwords, .refl _⟩

theorem ReadsType.precedes {start p stop : Parser} {ws : List Word} {id : NodeId} (h : ReadsType start p ws id)
    (hp : p.Precedes stop) : ReadsType start stop ws id := by
  obtain ⟨st, p', q, h⟩ := h
  exact ⟨st, p', q, h.reached, h.compositeOk, h.run, h.words, h.precedes.trans hp⟩

/-! ### Nodes in two places -/

/-- A node as it is, and any node past the end of a tree of size `n` as many places later as `k` says. -/
def later (n k : Nat) (id : NodeId) : NodeId :=
  if id.index < n then id else ⟨id.index + k⟩

/-- Where the parts keep their names, the shape does not change. -/
theorem rename_shape_eq_self {f : NodeId → NodeId} {n : Node} (h : ∀ x, some x ∈ n.children → f x = x) :
    n.shape.rename f = n.shape := by
  have hchild {c : Child} (hc : c ∈ n.children) : c.map f = c := by
    cases c with
    | none => rfl
    | some x => exact congrArg some (h x hc)
  rcases n with ⟨atom, shape⟩
  cases shape with
  | leaf => rfl
  | unary x => exact congrArg NodeShape.unary (hchild List.mem_cons_self)
  | binary x y =>
      exact congrArg₂ NodeShape.binary (hchild List.mem_cons_self)
        (hchild (List.mem_cons_of_mem _ List.mem_cons_self))
  | list kids =>
      exact congrArg NodeShape.list ((List.map_congr_left fun c hc => hchild hc).trans (List.map_id _))
  | bad found d => exact congrArg (NodeShape.bad · d) (hchild List.mem_cons_self)

/-- One tree at two times: what was made up to the first one has not changed, and nothing else has anything in
common. -/
theorem echoes_later {t t' tree : Tree} (hforest : t.Forest) (h : t.Grows tree) (h' : t'.Grows tree)
    (hle : t.size ≤ t'.size) (rest rest' : List Word) :
    Course.Echoes { image := later t.size (t'.size - t.size), rest, rest' } t t' := by
  refine ⟨fun i => ?_, fun id hid => ?_, fun id => ?_⟩
  · show later t.size (t'.size - t.size) ⟨t.size + i⟩ = _
    rw [later, if_neg (by simp)]
    congr 1
    show t.size + i + _ = _
    omega
  · show (later t.size (t'.size - t.size) id).index < t'.size
    rw [later, if_pos hid]
    omega
  · show (t.node id).Akin (later t.size (t'.size - t.size)) (t'.node (later t.size (t'.size - t.size) id))
    by_cases hid : id.index < t.size
    · have hsame : t'.node id = t.node id :=
        (h'.node_eq id (by omega)).symm.trans (h.node_eq id hid)
      rw [later, if_pos hid, hsame]
      refine ⟨.refl _, (rename_shape_eq_self fun x hx => if_pos ?_).symm⟩
      have hpart : x ∈ t.present id := List.mem_filterMap.2 ⟨some x, hx, rfl⟩
      exact Nat.lt_trans (hforest.ordered hpart) hid
    · have hempty {t : Tree} {id : NodeId} (hge : t.size ≤ id.index) : t.node id = {} := by
        rw [Tree.node, Array.getElem?_eq_none hge]
        rfl
      rw [later, if_neg hid, hempty (by omega), hempty (by show t'.size ≤ id.index + _; omega)]
      exact ⟨.refl _, rfl⟩

/-! ### Types -/

theorem grammar_type_reads (n : Nat) : Reads n grammar.type grammar.type :=
  (type_reads (grammar_type?_parses n).reads).mono (Nat.le_succ n)

variable {start stop : Parser} {ws : List Word} {x y : NodeId}

/-- The same words become the same nodes, at the second place later than at the first. -/
theorem TypeRun.same {st st' : Stack} {p q p' q' : Parser} (h : TypeRun start stop ws x st p q)
    (h' : TypeRun start stop ws y st' p' q') (hended : Ended start) (htree : start.tree = {})
    (hclean : stop.journal.Clean) (hle : p.tree.size ≤ p'.tree.size) : stop.tree.Same x y := by
  have hplanted := h.reached.planted (planted_empty htree)
  have hmade := hplanted.reads grammar_type_reads
  rw [h.run] at hmade
  have hgrows {st : Stack} {p q : Parser} {id : NodeId} (h : TypeRun start stop ws id st p q) :
      p.tree.Grows stop.tree := by
    have hmoves := Reads.moves grammar_type_reads st p
    rw [h.run] at hmoves
    exact (hmoves.precedes.trans h.precedes).grows
  let c : Course := {
    image := later p.tree.size (p'.tree.size - p.tree.size)
    rest := q.words
    rest' := q'.words }
  have habreast : Abreast c p p' :=
    ⟨⟨ws, h.words, h'.words⟩, (h.reached.ended hended).settled, (h'.reached.ended hended).settled,
      echoes_later hplanted.forest (hgrows h) (hgrows h') hle _ _, h'.compositeOk.trans h.compositeOk.symm⟩
  have hmeets := (type_meets (c := c) (n := p.left) (S := Anywhere)).abreast p p' (Nat.le_refl _) trivial habreast
  rw [h.run, h'.run] at hmeets
  obtain ⟨heq, hnext⟩ := hmeets ⟨h.precedes.clean hclean, Nat.le_of_eq (length_words q)⟩
    ⟨h'.precedes.clean hclean, Nat.le_of_eq (length_words q')⟩
  refine ⟨c.image, q.tree.size, fun id hid => ?_, hmade.made x List.mem_cons_self, heq⟩
  rw [h.precedes.grows.node_eq id hid, h'.precedes.grows.node_eq _ (hnext.tree.below id hid)]
  exact hnext.tree.node id

/-- Where nothing was reported, types of the same words are the same. -/
theorem ReadsType.same (h : ReadsType start stop ws x) (h' : ReadsType start stop ws y) (hended : Ended start)
    (htree : start.tree = {}) (hclean : stop.journal.Clean) : stop.tree.Same x y ∨ stop.tree.Same y x := by
  obtain ⟨st, p, q, h⟩ := h
  obtain ⟨st', p', q', h'⟩ := h'
  rcases Nat.le_total p.tree.size p'.tree.size with hle | hle
  · exact .inl (h.same h' hended htree hclean hle)
  · exact .inr (h'.same h hended htree hclean hle)

end Grammar

end GoSource
