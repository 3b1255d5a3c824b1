import GoSource.Proofs.Grammar.Brackets
import GoSource.Proofs.Grammar.Forward
import GoSource.Proofs.Grammar.Leaves
import GoSource.Proofs.Grammar.Twins
import Mathlib.Algebra.Order.Group.Multiset

/-!
# What becomes of tokens

A production takes atoms of tokens, holds them for a while, and makes nodes of them.  No atom becomes two nodes: it
leaves the hand of the production when a node is made of it, when it is put back, or when it is dropped.

* **`Deed`** lists the steps.  A node keeps the end and the comments of its atom; it starts where the atom does or where
  its own first part does; and what stands in the header of a statement exposes no bare literal.
* **`Mark`**: what is known about the nodes made so far.  Nodes do not change, so a mark stands for ever.
* **`Works ok N hand m Q`**: where composite literals are allowed or not, as `ok` says, and where the marks `N` stand,
  the action `m` does deeds that use up `hand`, and leads to the marks `Q`.
-/

namespace GoSource.Grammar

/-! ### Deeds -/

/-- Atoms that were taken and are not yet made into nodes. -/
abbrev Hand := Multiset Atom

/-- The atom `b` is `a`, or it was moved to where the first part of a node of this shape starts. -/
def StartsAt (t : Tree) (a b : Atom) (shape : NodeShape) : Prop :=
  b = a ∨ ∃ x, (parts shape).head?.join = some x ∧ x.index < t.size ∧ b = { a with pos := t.pos x }

/-- One step of a production, with the atoms in its hand before and after. -/
inductive Deed : Hand × Parser → Hand × Parser → Prop
  /-- The next token becomes current. -/
  | advance {hand : Hand} {p : Parser} : Deed (hand, p) (hand, p.advance)
  /-- An atom is made of the current token, and takes its comments. -/
  | take {hand : Hand} {p : Parser} (token : Token) : Deed (hand, p) (atomOf p token ::ₘ hand, bare p)
  /-- An atom without comments is made of nothing. -/
  | forge {hand : Hand} {p : Parser} {a : Atom} (h : a.comments = []) : Deed (hand, p) (a ::ₘ hand, p)
  /-- An atom is dropped. -/
  | drop {hand : Hand} {p : Parser} {a : Atom} : Deed (a ::ₘ hand, p) (hand, p)
  /-- An atom is given another tag. -/
  | retag {hand : Hand} {p : Parser} {a : Atom} (token : Token) : Deed (a ::ₘ hand, p) ({ a with token } ::ₘ hand, p)
  /-- An atom becomes the current token again. -/
  | putBack {hand : Hand} {p : Parser} {a : Atom} : Deed (a ::ₘ hand, p) (hand, p.putBack a)
  /-- Something is reported. -/
  | complain {hand : Hand} {p : Parser} (d : Diagnostic SourceFault) : Deed (hand, p) (hand, p.complain d)
  /-- Composite literals are allowed or not. -/
  | composite {hand : Hand} {p : Parser} (ok : Bool) : Deed (hand, p) (hand, { p with compositeOk := ok })
  /-- An atom becomes a node. -/
  | make {hand : Hand} {p : Parser} {a b : Atom} {shape : NodeShape}
      (hstart : StartsAt p.tree a b shape)
      (hheader : ∀ x ∈ ({ atom := b, shape } : Node).header, p.tree.Guarded x) :
      Deed (a ::ₘ hand, p) (hand, withNode p b shape)

/-- Any number of steps. -/
abbrev Deeds : Hand × Parser → Hand × Parser → Prop :=
  Relation.ReflTransGen Deed

theorem Deed.grows {x y : Hand × Parser} (h : Deed x y) : x.2.tree.Grows y.2.tree := by
  cases h with
  | advance =>
      show (_ : Parser).tree.Grows (Parser.advance _).tree
      rw [Parser.tree_advance]
      exact .refl _
  | complain d =>
      show (_ : Parser).tree.Grows (Parser.complain _ d).tree
      rw [Parser.complain_eq]
      exact .refl _
  | make => exact grows_withNode _ _ _
  | take | forge | drop | retag | putBack | composite => exact .refl _

theorem Deeds.grows {x y : Hand × Parser} (h : Deeds x y) : x.2.tree.Grows y.2.tree := by
  induction h with
  | refl => exact .refl _
  | tail _ hstep ih => exact ih.trans hstep.grows

/-! ### Marks -/

/-- What is known about nodes. -/
inductive Mark where
  /-- The node was made, and if composite literals were not allowed it exposes no bare one. -/
  | node (ok : Bool) (x : NodeId)
  /-- The node is this one. -/
  | is (x : NodeId) (n : Node)
  /-- Something that does not depend on nodes. -/
  | fact (φ : Prop)

/-- The mark is right about the nodes of a tree. -/
def Mark.Stands (t : Tree) : Mark → Prop
  | .node ok x => x.index < t.size ∧ (ok = false → t.Guarded x)
  | .is x n => t.Holds x n
  | .fact φ => φ

/-- Nodes that are made later change nothing in this. -/
theorem Mark.Stands.grows {t t' : Tree} {k : Mark} (h : k.Stands t) (hgrows : t.Grows t') : k.Stands t' := by
  cases k with
  | node ok x => exact ⟨Nat.lt_of_lt_of_le h.1 hgrows.size_le, fun hok => (h.2 hok).grows hgrows⟩
  | is x n => exact Tree.Holds.grow h hgrows
  | fact φ => exact h

/-- Whatever tree the marks `N` stand in, the marks `M` do. -/
def Entails (N M : List Mark) : Prop :=
  ∀ t : Tree, (∀ k ∈ N, k.Stands t) → ∀ k ∈ M, k.Stands t

/-- The node is among those that the marks are about.  One that is guarded counts where it need not be. -/
def Has (N : List Mark) (ok : Bool) (x : NodeId) : Prop :=
  ∃ b, (b = true → ok = true) ∧ .node b x ∈ N

/-- The marks `M` and the marks `N`. -/
def also (M N : List Mark) : List Mark :=
  M ++ N

/-- The nodes of a result. -/
def marked {α : Type} [Holds α] (ok : Bool) (x : α) : List Mark :=
  (held x).map (.node ok)

/-- What a loop has collected when it goes on or stops. -/
def collected {σ : Type} : Turn σ → σ
  | .again x => x
  | .done x => x

instance {α : Type} [Holds α] : Holds (Turn α) := ⟨fun turn => held (collected turn)⟩

section Marks

variable {α β : Type} [Holds α] [Holds β] {N M : List Mark} {ok b : Bool} {x : NodeId}

@[simp, grind =] theorem mem_held_node {y : NodeId} : x ∈ held y ↔ x = y := List.mem_singleton

@[simp, grind =] theorem mem_held_unit {y : Unit} : x ∈ held y ↔ False := List.mem_nil_iff _

@[simp, grind =] theorem mem_held_none : x ∈ held (none : Option α) ↔ False := by
  simp [held]

@[simp, grind =] theorem mem_held_some {y : α} : x ∈ held (some y) ↔ x ∈ held y := .rfl

@[simp, grind =] theorem mem_held_nil : x ∈ held ([] : List α) ↔ False := by
  simp [held]

@[simp, grind =] theorem mem_held_cons {y : α} {ys : List α} : x ∈ held (y :: ys) ↔ x ∈ held y ∨ x ∈ held ys := by
  simp [held]

@[simp, grind =] theorem mem_held_append {ys zs : List α} : x ∈ held (ys ++ zs) ↔ x ∈ held ys ∨ x ∈ held zs := by
  simp [held]

@[simp, grind =] theorem mem_held_pair {y : α} {z : β} : x ∈ held (y, z) ↔ x ∈ held y ∨ x ∈ held z := List.mem_append

@[simp, grind =] theorem mem_held_toList {y : Option α} : x ∈ held y.toList ↔ x ∈ held y := by
  cases y with
  | none => simp
  | some y => simp

@[simp, grind =] theorem mem_held_map_some {ys : List α} : x ∈ held (ys.map some) ↔ x ∈ held ys := by
  induction ys with
  | nil => simp
  | cons y ys ih => simp [ih]

@[simp, grind =] theorem mem_held_again {y : α} : x ∈ held (Turn.again y) ↔ x ∈ held y := .rfl

@[simp, grind =] theorem mem_held_done {y : α} : x ∈ held (Turn.done y) ↔ x ∈ held y := .rfl

theorem mem_held_children {items : List Child} : x ∈ held items ↔ some x ∈ items := by
  simp [held_children]

theorem mem_held_of_place {items : List Child} {place : Nat} (h : x ∈ held (items[place]?).join) : x ∈ held items := by
  cases hplace : items[place]? with
  | none => simp [hplace] at h
  | some c =>
      rw [hplace] at h
      cases c with
      | none => simp at h
      | some y =>
          obtain rfl := mem_held_node.1 h
          exact mem_held_children.2 (List.mem_of_getElem? hplace)

theorem mem_held_of_head {items : List Child} (h : x ∈ held items.head?.join) : x ∈ held items := by
  rw [List.head?_eq_getElem?] at h
  exact mem_held_of_place h

attribute [grind =] parts_leaf parts_unary parts_binary parts_list

/-- What is made where literals are not allowed may stand where they are. -/
@[grind →] theorem Has.made (h : Has N b x) : Has N true x := by
  obtain ⟨b', -, hmem⟩ := h
  exact ⟨b', fun _ => rfl, hmem⟩

theorem Has.stands {t : Tree} (h : Has N ok x) (hN : ∀ k ∈ N, k.Stands t) : (Mark.node ok x).Stands t := by
  obtain ⟨b, hb, hmem⟩ := h
  obtain ⟨hmade, hguarded⟩ := hN _ hmem
  refine ⟨hmade, fun hok => hguarded ?_⟩
  subst hok
  exact Bool.eq_false_iff.2 fun hb' => nomatch hb hb'

@[simp, grind =] theorem mem_also {k : Mark} : k ∈ also M N ↔ k ∈ M ∨ k ∈ N := List.mem_append

@[simp, grind =] theorem has_also : Has (also M N) ok x ↔ Has M ok x ∨ Has N ok x := by
  simp only [Has, mem_also, and_or_left, exists_or]

@[simp, grind =] theorem has_cons_node {y : NodeId} :
    Has (.node b y :: N) ok x ↔ ((b = true → ok = true) ∧ x = y) ∨ Has N ok x := by
  simp only [Has, List.mem_cons, Mark.node.injEq, and_or_left, exists_or]
  refine or_congr_left ⟨?_, fun h => ⟨b, h.1, rfl, h.2⟩⟩
  rintro ⟨b', hb, rfl, rfl⟩
  exact ⟨hb, rfl⟩

@[simp, grind =] theorem has_cons_is {y : NodeId} {n : Node} : Has (.is y n :: N) ok x ↔ Has N ok x := by
  simp [Has]

@[simp, grind =] theorem has_nil : Has [] ok x ↔ False := by
  simp [Has]

@[simp, grind =] theorem has_marked {y : α} : Has (marked b y) ok x ↔ (b = true → ok = true) ∧ x ∈ held y := by
  simp only [Has, marked, List.mem_map, Mark.node.injEq]
  constructor
  · rintro ⟨b', hb, z, hz, rfl, rfl⟩
    exact ⟨hb, hz⟩
  · rintro ⟨hb, hx⟩
    exact ⟨b, hb, x, hx, rfl, rfl⟩

theorem entails_marked {y : α} (h : ∀ x ∈ held y, Has N ok x) : Entails N (marked ok y) := by
  intro t hN k hk
  obtain ⟨x, hx, rfl⟩ := List.mem_map.1 hk
  exact (h x hx).stands hN

theorem entails_nil : Entails N [] :=
  fun _ _ _ hk => absurd hk List.not_mem_nil

theorem entails_fact {φ : Prop} (h : φ) : Entails N [.fact φ] := by
  intro t _ k hk
  obtain rfl := List.mem_singleton.1 hk
  exact h

theorem entails_of_subset (h : M ⊆ N) : Entails N M :=
  fun _ hN k hk => hN k (h hk)

end Marks

/-! ### What actions do -/

/-- Where composite literals are allowed or not, as `ok` says, and where the marks `N` stand, the action uses up the
atoms in its hand, and leads to the marks `Q`. -/
def Works {α : Type} (ok : Bool) (N : List Mark) (hand : Hand) (m : ParseM α) (Q : α → List Mark) : Prop :=
  ∀ p : Parser, p.compositeOk = ok → (∀ k ∈ N, k.Stands p.tree) →
    (m p).2.compositeOk = ok ∧ (∀ rest, Deeds (hand + rest, p) (rest, (m p).2)) ∧
      ∀ k ∈ Q (m p).1, k.Stands (m p).2.tree

variable {α β σ : Type} {ok b : Bool} {N N' : List Mark} {hand : Hand} {Q : α → List Mark} {R : β → List Mark}

namespace Works

variable {m : ParseM α} {f : α → ParseM β}

theorem grows (h : Works ok N hand m Q) {p : Parser} (hp : p.compositeOk = ok) (hN : ∀ k ∈ N, k.Stands p.tree) :
    p.tree.Grows (m p).2.tree :=
  ((h p hp hN).2.1 0).grows

theorem post {Q' : α → List Mark} (h : Works ok N hand m Q) (hQ : ∀ x, Entails (Q x) (Q' x)) :
    Works ok N hand m Q' := by
  intro p hp hN
  obtain ⟨hok, hdeeds, hmarks⟩ := h p hp hN
  exact ⟨hok, hdeeds, hQ _ _ hmarks⟩

/-- What the marks say that does not depend on nodes. -/
theorem of_fact {P : Prop} (hP : .fact P ∈ N) (h : P → Works ok N hand m Q) : Works ok N hand m Q :=
  fun p hp hN => h (hN _ hP) p hp hN

theorem pure {x : α} (h : Entails N (Q x)) : Works ok N 0 (Pure.pure x) Q :=
  fun p hp hN => ⟨hp, fun rest => by rw [zero_add]; exact .refl, h _ hN⟩

/-- Nodes that were there before are returned. -/
theorem give [Holds α] {x : α} (h : ∀ y ∈ held x, Has N b y) : Works ok N 0 (Pure.pure x) (marked b) :=
  pure (entails_marked h)

/-- An action that uses up some of the atoms, and what follows it. -/
theorem seq {first : Hand} (h : Works ok N first m Q) (hf : ∀ x, Works ok (also (Q x) N) hand (f x) R) :
    Works ok N (first + hand) (m >>= f) R := by
  intro p hp hN
  obtain ⟨hok, hdeeds, hmarks⟩ := h p hp hN
  have hgrows := h.grows hp hN
  obtain ⟨hok', hdeeds', hmarks'⟩ := hf (m p).1 (m p).2 hok fun k hk => by
    rcases mem_also.1 hk with hk | hk
    · exact hmarks k hk
    · exact (hN k hk).grows hgrows
  refine ⟨hok', fun rest => .trans ?_ (hdeeds' rest), hmarks'⟩
  rw [add_assoc]
  exact hdeeds (hand + rest)

theorem bind (h : Works ok N 0 m Q) (hf : ∀ x, Works ok (also (Q x) N) hand (f x) R) : Works ok N hand (m >>= f) R := by
  simpa only [zero_add] using h.seq hf

/-- An action that uses up an atom, and what follows it. -/
theorem bind_held {a : Atom} (h : Works ok N (a ::ₘ 0) m Q) (hf : ∀ x, Works ok (also (Q x) N) hand (f x) R) :
    Works ok N (a ::ₘ hand) (m >>= f) R := by
  simpa only [Multiset.cons_add, zero_add] using h.seq hf

theorem map (h : Works ok N hand m Q) (f : α → β) (hf : ∀ x, Entails (Q x) (R (f x))) :
    Works ok N hand (f <$> m) R := by
  intro p hp hN
  obtain ⟨hok, hdeeds, hmarks⟩ := h p hp hN
  exact ⟨hok, hdeeds, hf _ _ hmarks⟩

theorem some [Holds α] (h : Works ok N hand m (marked b)) : Works ok N hand (Option.some <$> m) (marked b) :=
  h

theorem ite {c : Prop} [Decidable c] {l r : ParseM α} (hl : c → Works ok N hand l Q) (hr : ¬ c → Works ok N hand r Q) :
    Works ok N hand (if c then l else r) Q := by
  by_cases hc : c
  · rw [if_pos hc]
    exact hl hc
  · rw [if_neg hc]
    exact hr hc

/-- A step that depends on a condition, and what follows it. -/
theorem ite_bind {c : Prop} [Decidable c] {l r : ParseM α} (hl : c → Works ok N 0 l Q) (hr : ¬ c → Works ok N 0 r Q)
    (hf : ∀ x, Works ok (also (Q x) N) hand (f x) R) :
    Works ok N hand (if c then l >>= f else r >>= f) R :=
  ite (fun hc => (hl hc).bind hf) fun hc => (hr hc).bind hf

/-- A step that is taken on a condition, and what follows it. -/
theorem ite_then {c : Prop} [Decidable c] {l : ParseM Unit} {k : Unit → ParseM β} (hl : Works ok N 0 l fun _ => [])
    (hk : Works ok N hand (k ()) R) : Works ok N hand (if c then l >>= k else k ()) R :=
  ite (fun _ => hl.bind fun _ => hk) fun _ => hk

/-! #### Looking at the state -/

theorem tok {f : Token → ParseM β} (h : ∀ t, Works ok N hand (f t) R) : Works ok N hand (Grammar.tok >>= f) R :=
  fun p hp hN => h _ p hp hN

theorem here {f : Pos → ParseM β} (h : ∀ pos, Works ok N hand (f pos) R) : Works ok N hand (Grammar.here >>= f) R :=
  fun p hp hN => h _ p hp hN

theorem left {f : Nat → ParseM β} (h : ∀ n, Works ok N hand (f n) R) : Works ok N hand (Grammar.left >>= f) R :=
  fun p hp hN => h _ p hp hN

theorem get {f : Parser → ParseM β} (h : ∀ q, q.compositeOk = ok → Works ok N hand (f q) R) :
    Works ok N hand (MonadState.get >>= f) R :=
  fun p hp hN => h p hp p hp hN

/-- Looking at a node. -/
theorem look {x : NodeId} {f : Parser → ParseM β} (hx : Has N true x)
    (h : ∀ q, q.compositeOk = ok → Works ok (.is x (q.tree.node x) :: N) hand (f q) R) :
    Works ok N hand (MonadState.get >>= f) R := by
  intro p hp hN
  refine h p hp p hp fun k hk => ?_
  rcases List.mem_cons.1 hk with rfl | hk
  · exact ⟨(hx.stands hN).1, rfl⟩
  · exact hN k hk

theorem startOf {x : NodeId} {f : Pos → ParseM β} (hx : Has N true x)
    (h : ∀ n, Works ok (.is x n :: N) hand (f n.atom.pos) R) : Works ok N hand (Grammar.startOf x >>= f) R := by
  intro p hp hN
  refine h (p.tree.node x) p hp fun k hk => ?_
  rcases List.mem_cons.1 hk with rfl | hk
  · exact ⟨(hx.stands hN).1, rfl⟩
  · exact hN k hk

/-! #### The hand -/

/-- A step that is no matter of nodes. -/
theorem of_deed {m : ParseM Unit} (hok : ∀ p, (m p).2.compositeOk = p.compositeOk)
    (h : ∀ p rest, Deed (hand + rest, p) (rest, (m p).2)) : Works ok N hand m fun _ => [] :=
  fun p hp _ => ⟨(hok p).trans hp, fun rest => .single (h p rest), fun _ hk => absurd hk List.not_mem_nil⟩

theorem next : Works ok N 0 Grammar.next fun _ => [] := by
  refine of_deed (fun p => ?_) fun p rest => ?_
  · show p.advance.compositeOk = _
    unfold Parser.advance
    split <;> rfl
  · rw [zero_add]
    exact .advance

theorem putBack {a : Atom} : Works ok N (a ::ₘ 0) (Grammar.putBack a) fun _ => [] :=
  of_deed (fun _ => rfl) fun p rest => by rw [Multiset.cons_add, zero_add]; exact .putBack

theorem complain {pos : Pos} {fault : SyntaxFault} : Works ok N 0 (Grammar.complain pos fault) fun _ => [] := by
  intro p hp _
  refine ⟨?_, fun rest => ?_, fun _ hk => absurd hk List.not_mem_nil⟩
  · show (p.complain _).compositeOk = ok
    rw [Parser.complain_eq]
    exact hp
  · rw [zero_add]
    exact .single (.complain _)

/-- An atom is made of the current token. -/
theorem makeAtom {token : Token} {f : Atom → ParseM β} (h : ∀ a, a.token = token → Works ok N (a ::ₘ hand) (f a) R) :
    Works ok N hand (Grammar.makeAtom token >>= f) R := by
  intro p hp hN
  obtain ⟨hok, hdeeds, hmarks⟩ := h (atomOf p token) rfl (bare p) hp hN
  refine ⟨hok, fun rest => .head (.take token) ?_, hmarks⟩
  rw [← Multiset.cons_add]
  exact hdeeds rest

/-- A production that opens with a token: the token is made into an atom and passed over. -/
theorem lead {token : Token} {f : Atom → ParseM β} (h : ∀ a, a.token = token → Works ok N (a ::ₘ hand) (f a) R) :
    Works ok N hand (Grammar.makeAtom token >>= fun a => Grammar.next >>= fun _ => f a) R :=
  makeAtom fun a ha => next.bind fun _ => h a ha

/-- An atom without comments comes from nowhere. -/
theorem forge {a : Atom} (ha : a.comments = []) (h : Works ok N (a ::ₘ hand) m Q) : Works ok N hand m Q := by
  intro p hp hN
  obtain ⟨hok, hdeeds, hmarks⟩ := h p hp hN
  refine ⟨hok, fun rest => .head (.forge ha) ?_, hmarks⟩
  rw [← Multiset.cons_add]
  exact hdeeds rest

theorem drop {a : Atom} (h : Works ok N hand m Q) : Works ok N (a ::ₘ hand) m Q := by
  intro p hp hN
  obtain ⟨hok, hdeeds, hmarks⟩ := h p hp hN
  refine ⟨hok, fun rest => .head ?_ (hdeeds rest), hmarks⟩
  rw [Multiset.cons_add]
  exact .drop

theorem retag {a : Atom} (token : Token) (h : Works ok N ({ a with token } ::ₘ hand) m Q) :
    Works ok N (a ::ₘ hand) m Q := by
  intro p hp hN
  obtain ⟨hok, hdeeds, hmarks⟩ := h p hp hN
  refine ⟨hok, fun rest => .head ?_ (hdeeds rest), hmarks⟩
  rw [Multiset.cons_add, Multiset.cons_add]
  exact .retag token

theorem swap {a a' : Atom} (h : Works ok N (a ::ₘ a' ::ₘ hand) m Q) : Works ok N (a' ::ₘ a ::ₘ hand) m Q := by
  rw [Multiset.cons_swap]
  exact h

/-- Nodes that may stand where literals are not allowed may stand where they are. -/
theorem ease [Holds α] {b' : Bool} (h : Works ok N hand m (marked b)) (hb : b = true → b' = true) :
    Works ok N hand m (marked b') :=
  h.post fun _ => entails_marked fun _ hy => has_marked.2 ⟨hb, hy⟩

theorem lax [Holds α] (h : Works ok N hand m (marked false)) : Works ok N hand m (marked b) :=
  h.ease nofun

theorem made [Holds α] (h : Works ok N hand m (marked b)) : Works ok N hand m (marked true) :=
  h.ease fun _ => rfl

end Works

/-! ### Making nodes -/

/-- A node of these parts may be made: its header exposes no bare literal, and neither does what else stands outside
of its brackets, if composite literals were not allowed there. -/
structure Sheltered (N : List Mark) (b : Bool) (token : Token) (shape : NodeShape) : Prop where
  header : ∀ x, some x ∈ headerParts token shape → Has N false x
  outer : ∀ x, some x ∈ outerParts token shape → Has N b x

theorem unbracketed_subset (token : Token) (items : List Child) : unbracketed token items ⊆ items := by
  unfold unbracketed
  split
  iterate 2 · exact List.nil_subset _
  iterate 5 · exact List.take_subset _ _
  · exact List.drop_subset _ _
  · exact List.Subset.refl _

theorem outerParts_subset (token : Token) (shape : NodeShape) : outerParts token shape ⊆ parts shape := by
  unfold outerParts
  split
  · exact List.Subset.refl _
  · exact unbracketed_subset _ _

/-- It does not matter what is in brackets if all parts may stand outside of them. -/
theorem Sheltered.of_parts {token : Token} {shape : NodeShape} (hheader : headerParts token shape = [])
    (h : ∀ x ∈ held (parts shape), Has N b x) : Sheltered N b token shape where
  header _ hx := absurd (hheader ▸ hx) List.not_mem_nil
  outer x hx := h x (mem_held_children.2 (outerParts_subset token shape hx))

/-- What stands before the block exposes no bare literal. -/
theorem Sheltered.of_header {token : Token} {shape : NodeShape} (before : List Child)
    (hheader : headerParts token shape = before) (hbefore : ∀ x ∈ held before, Has N false x)
    (h : ∀ x ∈ held (parts shape), Has N b x) : Sheltered N b token shape where
  header x hx := hbefore x (mem_held_children.2 (hheader ▸ hx))
  outer x hx := h x (mem_held_children.2 (outerParts_subset token shape hx))

/-- One part stands outside of brackets. -/
theorem Sheltered.of_outer {token : Token} {shape : NodeShape} {x : NodeId} (hheader : headerParts token shape = [])
    (houter : outerParts token shape = [some x]) (h : Has N b x) : Sheltered N b token shape where
  header _ hx := absurd (hheader ▸ hx) List.not_mem_nil
  outer y hy := by
    rw [houter, List.mem_singleton, Option.some.injEq] at hy
    exact hy ▸ h

/-- All parts stand in brackets. -/
theorem Sheltered.of_closed {token : Token} {shape : NodeShape} (hheader : headerParts token shape = [])
    (houter : outerParts token shape = []) : Sheltered N b token shape where
  header _ hx := absurd (hheader ▸ hx) List.not_mem_nil
  outer _ hx := absurd (houter ▸ hx) List.not_mem_nil

/-- The atom `b` is `a`, or `a` was moved to where this node starts. -/
def Begins (N : List Mark) (a b : Atom) (first : Child) : Prop :=
  b = a ∨ ∃ x n, first = some x ∧ .is x n ∈ N ∧ b = { a with pos := n.atom.pos }

theorem Begins.at {a : Atom} {x : NodeId} {n : Node} (h : .is x n ∈ N) :
    Begins N a { a with pos := n.atom.pos } (some x) :=
  .inr ⟨x, n, rfl, h, rfl⟩

theorem Begins.token_eq {a b : Atom} {first : Child} (h : Begins N a b first) : b.token = a.token := by
  rcases h with rfl | ⟨x, n, -, -, rfl⟩ <;> rfl

theorem Begins.retag {a b : Atom} {first : Child} (h : Begins N a b first) (token : Token) :
    Begins N { a with token } { b with token } first := by
  rcases h with rfl | ⟨x, n, hfirst, hx, rfl⟩
  · exact .inl rfl
  · exact .inr ⟨x, n, hfirst, hx, rfl⟩

theorem Begins.mono {a b : Atom} {first : Child} (h : Begins N a b first) (hN : N ⊆ N') : Begins N' a b first := by
  rcases h with rfl | ⟨x, n, hfirst, hx, rfl⟩
  · exact .inl rfl
  · exact .inr ⟨x, n, hfirst, hN hx, rfl⟩

theorem isBareLiteral_withNode {p : Parser} {a : Atom} {shape : NodeShape} :
    (withNode p a shape).tree.isBareLiteral (nextId p) =
      (decide (a.token = .tag .compositeLit) && isSound shape &&
        (parts shape).head?.join.any fun typ => ((withNode p a shape).tree.op typ).namesType) := by
  have hnode := (holds_withNode p a shape).node_eq
  have hpart : (withNode p a shape).tree.part? (nextId p) 0 = (parts shape).head?.join := by
    rw [Tree.part?, Tree.children, hnode, List.head?_eq_getElem?]
    rfl
  have hbad : (!(withNode p a shape).tree.isBad (nextId p)) = isSound shape := by
    rw [Tree.isBad, hnode]
    cases shape <;> rfl
  rw [Tree.isBareLiteral, hpart, hbad, Tree.op, hnode]
  rfl

namespace Works

variable {a a' : Atom} {token : Token} {shape : NodeShape} {first : Child}

/-- Making a node.  If it may be no bare literal, it is none. -/
theorem make (ha : a.token = token) (hbegins : Begins N a a' (parts shape).head?.join) (h : Sheltered N b token shape)
    (hbare : b = false → ∀ p : Parser, (∀ k ∈ N, k.Stands p.tree) →
      (withNode p a' shape).tree.isBareLiteral (nextId p) = false) :
    Works ok N (a ::ₘ 0) (Grammar.add a' shape) fun z => [.node b z, .is z { atom := a', shape }] := by
  have ha' : a'.token = token := hbegins.token_eq.trans ha
  subst ha'
  intro p hp hN
  have hgrows := grows_withNode p a' shape
  have hholds := holds_withNode p a' shape
  refine ⟨hp, fun rest => .single ?_, ?_⟩
  · rw [Multiset.cons_add, zero_add]
    refine .make ?_ fun x hx => ?_
    · rcases hbegins with rfl | ⟨x, n, hfirst, hx, rfl⟩
      · exact .inl rfl
      · obtain ⟨hmade, hnode⟩ := hN _ hx
        refine .inr ⟨x, hfirst, hmade, ?_⟩
        rw [Tree.pos, hnode]
    · exact ((h.header x (Node.mem_header.1 hx)).stands hN).2 rfl
  · intro k hk
    rcases List.mem_cons.1 hk with rfl | hk
    · refine ⟨hholds.index_lt, fun hb => ⟨hholds.index_lt, hbare hb p hN, fun x hx => ?_⟩⟩
      rw [show (Grammar.add a' shape p).2.tree.node (Grammar.add a' shape p).1 = _ from hholds.node_eq,
        Node.mem_outer] at hx
      exact (((h.outer x hx).stands hN).2 hb).grows hgrows
    · obtain rfl := List.mem_singleton.1 hk
      exact hholds

/-- An atom becomes a node that is no literal and has no header, and starts where its first part may do. -/
theorem add_from (ha : a.token = token) (hbegins : Begins N a a' first) (hfirst : (parts shape).head?.join = first)
    (hne : token ≠ .tag .compositeLit) (h : Sheltered N b token shape) :
    Works ok N (a ::ₘ 0) (Grammar.add a' shape) (marked b) := by
  subst hfirst
  refine (make ha hbegins h fun _ p _ => ?_).post fun _ => entails_of_subset (by simp [marked, held])
  have hne' : a'.token ≠ .tag .compositeLit := by rwa [hbegins.token_eq, ha]
  simp [isBareLiteral_withNode, hne']

/-- An atom becomes a node that is no literal. -/
theorem add_sheltered (ha : a.token = token) (hne : token ≠ .tag .compositeLit) (h : Sheltered N b token shape) :
    Works ok N (a ::ₘ 0) (Grammar.add a shape) (marked b) :=
  add_from ha (.inl rfl) rfl hne h

/-- An atom becomes a node that is no literal and has no header. -/
theorem add (ha : a.token = token) (hne : token ≠ .tag .compositeLit) (hheader : headerParts token shape = [])
    (h : ∀ x ∈ held (parts shape), Has N b x) : Works ok N (a ::ₘ 0) (Grammar.add a shape) (marked b) :=
  add_sheltered ha hne (.of_parts hheader h)

/-- An atom becomes a leaf. -/
theorem add_leaf (ha : a.token = token) :
    Works ok N (a ::ₘ 0) (Grammar.add a .leaf) fun z => [.node false z, .is z { atom := a, shape := .leaf }] :=
  make ha (.inl rfl) (.of_parts rfl (by grind)) fun _ p _ => by simp [isBareLiteral_withNode]

/-- A bad node is no literal, whatever it stands for. -/
theorem add_bad {found : Child} {d : Diagnostic SourceFault} (h : ∀ x ∈ held found, Has N b x) :
    Works ok N (a ::ₘ 0) (Grammar.add a (.bad found d)) (marked b) := by
  refine (make rfl (.inl rfl) ⟨fun x hx => ?_, fun x hx => h x ?_⟩ fun _ p _ => ?_).post fun _ =>
    entails_of_subset (by simp [marked, held])
  · exact absurd hx List.not_mem_nil
  · rw [← List.mem_singleton.1 hx]
    exact mem_held_node.2 rfl
  · simp [isBareLiteral_withNode, isSound]

/-- A literal of this type may stand here. -/
def Fits (ok : Bool) (N : List Mark) (typ : Child) : Prop :=
  ∀ x, typ = Option.some x → Has N ok x ∧ (ok = false → ∃ n, .is x n ∈ N ∧ n.op.namesType = false)

theorem Fits.mono {typ : Child} (h : Fits ok N typ) (hN : N ⊆ N') : Fits ok N' typ := by
  intro x hx
  obtain ⟨⟨b, hb, hmem⟩, hnamed⟩ := h x hx
  refine ⟨⟨b, hb, hN hmem⟩, fun hok => ?_⟩
  obtain ⟨n, hn, hop⟩ := hnamed hok
  exact ⟨n, hN hn, hop⟩

/-- An atom becomes a literal. -/
theorem add_literal {typ : Child} {elems : NodeId} (ha : a.token = .tag .compositeLit) (hbegins : Begins N a a' typ)
    (h : Fits ok N typ) : Works ok N (a ::ₘ 0) (Grammar.add a' (.binary typ (Option.some elems))) (marked ok) := by
  refine (make (b := ok) ha hbegins ⟨fun x hx => ?_, fun x hx => ?_⟩ fun hok p hN => ?_).post fun _ =>
    entails_of_subset (by simp [marked, held])
  · exact absurd hx List.not_mem_nil
  · exact (h x (List.mem_singleton.1 hx).symm).1
  · rw [isBareLiteral_withNode]
    cases htyp : typ with
    | none => simp
    | some x =>
        obtain ⟨n, hn, hop⟩ := (h x htyp).2 hok
        obtain ⟨hmade, hnode⟩ := hN _ hn
        have hop' : (withNode p a' (.binary (Option.some x) (Option.some elems))).tree.op x = n.op := by
          rw [Tree.op, (grows_withNode _ _ _).node_eq x hmade, hnode]
        simp [hop', hop]

/-- The atom of a construct that starts where this node does, if there is one. -/
theorem atomFrom {tag : NodeTag} {f : Atom → ParseM β} (hfirst : ∀ x, first = Option.some x → Has N true x)
    (h : ∀ a b M, a.token = .tag tag → Begins (also M N) a b first → Works ok (also M N) (a ::ₘ hand) (f b) R) :
    Works ok N hand (Grammar.atomFrom tag first >>= f) R := by
  unfold Grammar.atomFrom
  rw [bind_assoc]
  refine makeAtom fun a ha => ?_
  cases first with
  | none => exact h a a [] ha (.inl rfl)
  | some x =>
      rw [bind_assoc]
      refine startOf (hfirst x rfl) fun n => ?_
      exact h a { a with pos := n.atom.pos } [.is x n] ha (.at (List.mem_cons_self ..))

/-! #### Composite literals -/

/-- An action with composite literals allowed or not. -/
theorem composite {m : ParseM α} (h : Works b N hand m Q) : Works ok N hand (Grammar.withComposite b m) Q := by
  intro p hp hN
  obtain ⟨-, hdeeds, hmarks⟩ := h { p with compositeOk := b } rfl hN
  exact ⟨hp, fun rest => .head (.composite b) ((hdeeds rest).tail (.composite p.compositeOk)), hmarks⟩

end Works

/-! ### Loops -/

/-- A round if it is due. -/
def Loop.step (loop : Loop σ) (x : σ) : ParseM (Turn σ) := do
  if loop.more (← tok) then loop.round x else return .done x

theorem Loop.step_of_more {loop : Loop σ} {x : σ} {p : Parser} (h : loop.more p.curr.token = true) :
    loop.step x p = loop.round x p := by
  show (if loop.more p.curr.token then loop.round x else Pure.pure (.done x)) p = _
  rw [if_pos h]

theorem Loop.step_of_not_more {loop : Loop σ} {x : σ} {p : Parser} (h : loop.more p.curr.token ≠ true) :
    loop.step x p = (.done x, p) := by
  show (if loop.more p.curr.token then loop.round x else Pure.pure (.done x)) p = _
  rw [if_neg h]
  rfl

/-- A loop leads to what each round leads to that is due. -/
theorem Loop.run_works_due {loop : Loop σ} {I : σ → List Mark}
    (h : ∀ x, Works ok (also (I x) N) 0 (loop.step x) fun turn => I (collected turn)) {x : σ} (hx : Entails N (I x)) :
    Works ok N 0 (loop.run x) I := by
  intro p hp hN
  replace hx := hx _ hN
  show (loop.runFrom x p).2.compositeOk = ok ∧ (∀ rest, Deeds (0 + rest, p) (rest, (loop.runFrom x p).2)) ∧
    ∀ k ∈ I (loop.runFrom x p).1, k.Stands (loop.runFrom x p).2.tree
  induction hleft : p.left using Nat.strongRecOn generalizing x p with
  | ind n ih =>
    subst hleft
    have hstep := h x p hp fun k hk => (mem_also.1 hk).elim (hx k) (hN k)
    have hgrows := (h x).grows hp fun k hk => (mem_also.1 hk).elim (hx k) (hN k)
    rw [Loop.runFrom]
    split
    · next hdue =>
      rw [Loop.step_of_more hdue] at hstep hgrows
      rcases hround : loop.round x p with ⟨turn, p'⟩
      rw [hround] at hstep hgrows
      obtain ⟨hok, hdeeds, hmarks⟩ := hstep
      cases turn with
      | done y => exact ⟨hok, hdeeds, hmarks⟩
      | again y =>
          dsimp only
          split
          · next hlt =>
            obtain ⟨hok', hdeeds', hmarks'⟩ := ih p'.left hlt p' hok (fun k hk => (hN k hk).grows hgrows) hmarks rfl
            simp only [zero_add] at hdeeds hdeeds' ⊢
            exact ⟨hok', fun rest => (hdeeds rest).trans (hdeeds' rest), hmarks'⟩
          · exact ⟨hok, hdeeds, hmarks⟩
    · simp only [zero_add]
      exact ⟨hp, fun _ => .refl, hx⟩

/-- A loop leads to what each round leads to. -/
theorem Loop.run_works {loop : Loop σ} {I : σ → List Mark}
    (h : ∀ x, Works ok (also (I x) N) 0 (loop.round x) fun turn => I (collected turn)) {x : σ} (hx : Entails N (I x)) :
    Works ok N 0 (loop.run x) I := by
  refine Loop.run_works_due (fun x => .tok fun t => .ite (fun _ => h x) fun _ => .pure ?_) hx
  exact entails_of_subset (List.subset_append_left _ _)

/-- A loop collects nodes. -/
theorem Loop.run_collects [Holds σ] {loop : Loop σ}
    (h : ∀ x, Works ok (also (marked b x) N) 0 (loop.round x) (marked b)) {x : σ} (hx : ∀ y ∈ held x, Has N b y) :
    Works ok N 0 (loop.run x) (marked b) :=
  Loop.run_works (I := marked b) h (entails_marked hx)

end GoSource.Grammar
