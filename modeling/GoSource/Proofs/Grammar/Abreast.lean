import GoSource.Grammar.Declaration
import GoSource.Proofs.Grammar.Forward

/-!
# Two runs over the same words

What a production makes of a few words depends on these words alone: not on where they stand, and not on what comes
before or behind them.  To say so, the production is run in two places at once, which have some words ahead in common
and differ in everything behind them.

* **`Course`**: what a node of the one run is in the other, and the words behind what they have in common.
* **`Abreast`**: states with the same words ahead up to there.  Atoms may stand elsewhere, and nodes may have other
  indexes.
* **`Course.Inside`**: the one run has not come to the words behind, and nothing was reported.
* **`Near`**: from states abreast the two actions return the same and lead to states abreast, as long as the one run
  stays inside.  A run that leaves the common words, or goes wrong, cannot come back.
-/

namespace GoSource

/-- The same shape with other nodes. -/
def NodeShape.rename (f : NodeId → NodeId) : NodeShape → NodeShape
  | .leaf => .leaf
  | .unary x => .unary (x.map f)
  | .binary x y => .binary (x.map f) (y.map f)
  | .list kids => .list (kids.map (·.map f))
  | .bad found d => .bad (found.map f) d

/-- Atoms of the same token with the same text. -/
structure Atom.Akin (a a' : Atom) : Prop where
  token_eq : a'.token = a.token
  literal_eq : a'.literal = a.literal

theorem Atom.Akin.refl (a : Atom) : a.Akin a :=
  ⟨rfl, rfl⟩

theorem Atom.Akin.withPos {a a' : Atom} (h : a.Akin a') (pos pos' : Pos) :
    { a with pos }.Akin { a' with pos := pos' } :=
  ⟨h.token_eq, h.literal_eq⟩

theorem Atom.Akin.withToken {a a' : Atom} (h : a.Akin a') (token : Token) : { a with token }.Akin { a' with token } :=
  ⟨rfl, h.literal_eq⟩

theorem Atom.Akin.tagAt (tag : Token) (pos pos' : Pos) : (Tree.tagAt tag pos).Akin (Tree.tagAt tag pos') :=
  ⟨rfl, rfl⟩

/-- Nodes with akin atoms, and parts that are each other's names. -/
structure Node.Akin (f : NodeId → NodeId) (n n' : Node) : Prop where
  atom : n.atom.Akin n'.atom
  shape_eq : n'.shape = n.shape.rename f

namespace Node.Akin

variable {f : NodeId → NodeId} {n n' : Node}

theorem isBad_eq (h : n.Akin f n') : n'.isBad = n.isBad := by
  rw [isBad, isBad, h.shape_eq]
  cases n.shape <;> rfl

theorem children_eq (h : n.Akin f n') : n'.children = n.children.map (·.map f) := by
  rw [children, children, h.shape_eq]
  cases n.shape <;> rfl

end Node.Akin

namespace Grammar

/-! ### Results -/

/-- Results that hold nodes, which may be given other names. -/
class Renames (α : Type) where
  /-- The same result with other nodes. -/
  rename : (NodeId → NodeId) → α → α

export Renames (rename)

section Renames

variable {α β : Type} [Renames α] [Renames β] (f : NodeId → NodeId)

instance : Renames Unit := ⟨fun _ x => x⟩
instance : Renames Bool := ⟨fun _ x => x⟩
instance : Renames Token := ⟨fun _ x => x⟩
instance : Renames NodeId := ⟨fun f x => f x⟩
instance : Renames (Option α) := ⟨fun f x => x.map (rename f)⟩
instance : Renames (List α) := ⟨fun f xs => xs.map (rename f)⟩
instance : Renames (α × β) := ⟨fun f x => (rename f x.1, rename f x.2)⟩

instance : Renames (Turn α) where
  rename f
    | .again x => .again (rename f x)
    | .done x => .done (rename f x)

@[simp] theorem rename_unit (x : Unit) : rename f x = x := rfl

@[simp] theorem rename_bool (x : Bool) : rename f x = x := rfl

@[simp] theorem rename_token (x : Token) : rename f x = x := rfl

@[simp] theorem rename_node (x : NodeId) : rename f x = f x := rfl

@[simp] theorem rename_none : rename f (none : Option α) = none := rfl

@[simp] theorem rename_some (x : α) : rename f (some x) = some (rename f x) := rfl

@[simp] theorem rename_nil : rename f ([] : List α) = [] := rfl

@[simp] theorem rename_cons (x : α) (xs : List α) : rename f (x :: xs) = rename f x :: rename f xs := rfl

@[simp] theorem rename_append (xs ys : List α) : rename f (xs ++ ys) = rename f xs ++ rename f ys :=
  List.map_append

@[simp] theorem length_rename (xs : List α) : (rename f xs).length = xs.length :=
  List.length_map _

@[simp] theorem rename_pair (x : α) (y : β) : rename f (x, y) = (rename f x, rename f y) := rfl

@[simp] theorem rename_again (x : α) : rename f (Turn.again x) = .again (rename f x) := rfl

@[simp] theorem rename_done (x : α) : rename f (Turn.done x) = .done (rename f x) := rfl

theorem rename_children (xs : List Child) : rename f xs = xs.map (·.map f) := rfl

@[simp] theorem rename_map_some (xs : List NodeId) : rename f (xs.map some) = (rename f xs).map some := by
  simp [rename, Function.comp_def]

@[simp] theorem rename_toList (x : Child) : rename f x.toList = (rename f x).toList := by
  cases x <;> rfl

theorem rename_head? (xs : List Child) : (rename f xs).head?.join = rename f xs.head?.join := by
  cases xs <;> rfl

end Renames

/-! ### States abreast -/

/-- Where two runs go: what a node of the one is in the other, and the words behind those that they have in common. -/
structure Course where
  /-- The node of the second run for a node of the first. -/
  image : NodeId → NodeId
  /-- What comes behind in the first run. -/
  rest : List Word
  /-- What comes behind in the second run. -/
  rest' : List Word

/-- Trees with the same nodes under other names. -/
structure Course.Echoes (c : Course) (t t' : Tree) : Prop where
  next : ∀ i, c.image ⟨t.size + i⟩ = ⟨t'.size + i⟩
  below : ∀ id : NodeId, id.index < t.size → (c.image id).index < t'.size
  node : ∀ id, (t.node id).Akin c.image (t'.node (c.image id))

namespace Course.Echoes

variable {c : Course} {t t' : Tree}

theorem op_eq (h : c.Echoes t t') (id : NodeId) : t'.op (c.image id) = t.op id :=
  (h.node id).atom.token_eq

theorem isBad_eq (h : c.Echoes t t') (id : NodeId) : t'.isBad (c.image id) = t.isBad id :=
  (h.node id).isBad_eq

theorem part?_eq (h : c.Echoes t t') (id : NodeId) (place : Nat) :
    t'.part? (c.image id) place = (t.part? id place).map c.image := by
  have hchildren : t'.children (c.image id) = (t.children id).map (·.map c.image) := (h.node id).children_eq
  rw [Tree.part?, hchildren, List.getElem?_map, Tree.part?]
  cases (t.children id)[place]? <;> rfl

/-- Past the end of the one tree is past the end of the other. -/
theorem eq_of_image_eq (h : c.Echoes t t') {id : NodeId} (heq : c.image id = ⟨t'.size⟩) : id = ⟨t.size⟩ := by
  rcases Nat.lt_or_ge id.index t.size with hlt | hge
  · have hbelow := h.below id hlt
    rw [heq] at hbelow
    exact absurd hbelow (Nat.lt_irrefl _)
  · obtain ⟨i, hi⟩ := Nat.exists_eq_add_of_le hge
    have hnext := h.next i
    rw [← hi] at hnext
    have hindex := congrArg NodeId.index (hnext.symm.trans heq)
    dsimp only at hindex
    obtain rfl : i = 0 := by omega
    exact congrArg NodeId.mk hi

/-- A node is made in both trees. -/
theorem push (h : c.Echoes t t') {a a' : Atom} (ha : a.Akin a') (shape : NodeShape) :
    c.Echoes { nodes := t.nodes.push { atom := a, shape } }
      { nodes := t'.nodes.push { atom := a', shape := shape.rename c.image } } := by
  have hnext : c.image ⟨t.size⟩ = ⟨t'.size⟩ := h.next 0
  have hsize (t : Tree) (n : Node) : Tree.size { nodes := t.nodes.push n } = t.size + 1 := Array.size_push _
  refine ⟨fun i => ?_, fun id hid => ?_, fun id => ?_⟩
  · rw [hsize, hsize, Nat.add_assoc, Nat.add_assoc]
    exact h.next (1 + i)
  · rw [hsize] at hid ⊢
    rcases Nat.lt_succ_iff_lt_or_eq.1 hid with hlt | heq
    · exact Nat.lt_succ_of_lt (h.below id hlt)
    · obtain rfl : id = ⟨t.size⟩ := congrArg NodeId.mk heq
      rw [hnext]
      exact Nat.lt_succ_self _
  · have hid := node_withNode { tree := t } a shape id
    have hid' := node_withNode { tree := t' } a' (shape.rename c.image) (c.image id)
    unfold withNode at hid hid'
    rw [hid, hid']
    by_cases heq : id = ⟨t.size⟩
    · rw [if_pos (show id = nextId { tree := t } from heq), if_pos (heq ▸ hnext)]
      exact ⟨ha, rfl⟩
    · rw [if_neg (show ¬id = nextId { tree := t } from heq),
        if_neg (show ¬c.image id = nextId { tree := t' } from fun h' => heq (h.eq_of_image_eq h'))]
      exact h.node id

end Course.Echoes

/-- States with the same words ahead, up to those behind. -/
structure Abreast (c : Course) (p q : Parser) : Prop where
  words : ∃ ws, p.words = ws ++ c.rest ∧ q.words = ws ++ c.rest'
  settled : p.Settled
  settled' : q.Settled
  tree : c.Echoes p.tree q.tree
  compositeOk : q.compositeOk = p.compositeOk

/-- The run has not come to the words behind, and nothing was reported. -/
def Course.Inside (c : Course) (p : Parser) : Prop :=
  p.journal.Clean ∧ c.rest.length < p.left

theorem Course.Inside.of_advance {c : Course} {p : Parser} (h : c.Inside p.advance) : c.Inside p :=
  ⟨Parser.clean_of_clean_advance h.1, Nat.lt_of_lt_of_le h.2 (Moves.left_le (.single (@Move.take [] p)))⟩

@[simp] theorem compositeOk_advance (p : Parser) : p.advance.compositeOk = p.compositeOk := by
  cases hahead : p.ahead with
  | some a => rw [Parser.advance_of_some hahead]
  | none => rw [Parser.advance_of_none hahead]

theorem advance_composite (p : Parser) (ok : Bool) :
    { p with compositeOk := ok }.advance = { p.advance with compositeOk := ok } := by
  rcases p with ⟨scanner, tree, mode, curr, ahead, composite⟩
  cases ahead with
  | some a => rfl
  | none =>
      have hnone (ok : Bool) := Parser.advance_of_none
        (p := { scanner, tree, mode, curr, ahead := none, compositeOk := ok }) rfl
      rw [hnone composite]
      exact hnone ok

theorem advance_putBack {p : Parser} (h : p.ahead = none) (a : Atom) : (p.putBack a).advance = p := by
  rw [Parser.advance_of_some (p := p.putBack a) rfl]
  cases p
  cases h
  rfl

theorem length_words (p : Parser) : p.words.length = p.left := by
  rw [Parser.words, List.length_map, p.length_upcoming]

/-- The first word ahead is the current token; going on leaves the others. -/
theorem words_eq_cons {p : Parser} (hsettled : p.Settled) {w : Word} {ws : List Word} (h : p.words = w :: ws) :
    (p.curr.token, p.curr.literal) = w ∧ p.advance.words = ws ∧ p.curr.token ≠ .eof := by
  have hne : p.curr.token ≠ .eof := by
    intro heof
    rw [Parser.words, hsettled.upcoming_eq_nil heof] at h
    cases h
  rw [Parser.words, Parser.upcoming_eq_cons hne, List.map_cons] at h
  exact ⟨(List.cons.inj h).1, (List.cons.inj h).2, hne⟩

namespace Abreast

variable {c : Course} {p q : Parser}

/-- Inside, both runs look at the same word, and go on abreast. -/
theorem cons (h : Abreast c p q) (hin : c.Inside p) :
    ∃ w ws, p.words = w :: (ws ++ c.rest) ∧ q.words = w :: (ws ++ c.rest') := by
  obtain ⟨ws, hp, hq⟩ := h.words
  cases ws with
  | nil =>
      have hlt := hin.2
      rw [← length_words, hp] at hlt
      exact absurd hlt (Nat.lt_irrefl _)
  | cons w ws => exact ⟨w, ws, hp, hq⟩

theorem token_eq (h : Abreast c p q) (hin : c.Inside p) : q.curr.token = p.curr.token := by
  obtain ⟨w, ws, hp, hq⟩ := h.cons hin
  exact congrArg Prod.fst ((words_eq_cons h.settled' hq).1.trans (words_eq_cons h.settled hp).1.symm)

theorem literal_eq (h : Abreast c p q) (hin : c.Inside p) : q.curr.literal = p.curr.literal := by
  obtain ⟨w, ws, hp, hq⟩ := h.cons hin
  exact congrArg Prod.snd ((words_eq_cons h.settled' hq).1.trans (words_eq_cons h.settled hp).1.symm)

theorem advance (h : Abreast c p q) (hin : c.Inside p) : Abreast c p.advance q.advance := by
  obtain ⟨w, ws, hp, hq⟩ := h.cons hin
  refine ⟨⟨ws, (words_eq_cons h.settled hp).2.1, (words_eq_cons h.settled' hq).2.1⟩, h.settled.advance,
    h.settled'.advance, ?_, ?_⟩
  · rw [Parser.tree_advance, Parser.tree_advance]
    exact h.tree
  · rw [compositeOk_advance, compositeOk_advance]
    exact h.compositeOk

theorem putBack (h : Abreast c p q) (hp : p.ahead = none) (hq : q.ahead = none) {a a' : Atom} (ha : a.Akin a')
    (hne : a.token ≠ .eof) : Abreast c (p.putBack a) (q.putBack a') := by
  have hwords {p : Parser} (hp : p.ahead = none) {a : Atom} (hne : a.token ≠ .eof) :
      (p.putBack a).words = (a.token, a.literal) :: p.words := by
    simp [Parser.words, Parser.upcoming, Parser.putBack, hp, Parser.looked, hne, Atom.scanned, Scanned.word]
  have hsettled {p : Parser} (h : p.Settled) {a : Atom} (hne : a.token ≠ .eof) : (p.putBack a).Settled := by
    refine ⟨fun heof => absurd heof hne, fun b hb heof => ?_⟩
    obtain rfl := Option.some.inj hb
    exact (h.curr heof).1
  have hne' : a'.token ≠ .eof := ha.token_eq ▸ hne
  obtain ⟨ws, hws, hws'⟩ := h.words
  refine ⟨⟨(a.token, a.literal) :: ws, ?_, ?_⟩, hsettled h.settled hne, hsettled h.settled' hne', h.tree,
    h.compositeOk⟩
  · rw [hwords hp hne, hws]
    rfl
  · rw [hwords hq hne', hws', ha.token_eq, ha.literal_eq]
    rfl

/-- As much is left to read in the one run as in the other, but for the words behind. -/
theorem left_eq (h : Abreast c p q) : ∃ n, p.left = n + c.rest.length ∧ q.left = n + c.rest'.length := by
  obtain ⟨ws, hp, hq⟩ := h.words
  exact ⟨ws.length, by rw [← length_words, hp, List.length_append], by rw [← length_words, hq, List.length_append]⟩

/-- The atoms that they make of it are akin. -/
theorem akin (h : Abreast c p q) (hin : c.Inside p) (t : Token) : (atomOf p t).Akin (atomOf q t) := by
  refine ⟨rfl, ?_⟩
  show (if t = q.curr.token then q.curr.literal else "") = if t = p.curr.token then p.curr.literal else ""
  rw [h.token_eq hin, h.literal_eq hin]

theorem bare (h : Abreast c p q) : Abreast c (Grammar.bare p) (Grammar.bare q) :=
  ⟨h.words, ⟨h.settled.curr, h.settled.ahead⟩, ⟨h.settled'.curr, h.settled'.ahead⟩, h.tree, h.compositeOk⟩

theorem composite (h : Abreast c p q) (ok : Bool) :
    Abreast c { p with compositeOk := ok } { q with compositeOk := ok } :=
  ⟨h.words, ⟨h.settled.curr, h.settled.ahead⟩, ⟨h.settled'.curr, h.settled'.ahead⟩, h.tree, rfl⟩

theorem withTree (h : Abreast c p q) {t t' : Tree} (ht : c.Echoes t t') :
    Abreast c { p with tree := t } { q with tree := t' } :=
  ⟨h.words, ⟨h.settled.curr, h.settled.ahead⟩, ⟨h.settled'.curr, h.settled'.ahead⟩, ht, h.compositeOk⟩

end Abreast

/-! ### Actions -/

variable {α β σ : Type}

/-- Anywhere. -/
abbrev Anywhere : Parser → Prop :=
  fun _ => True

/-- From states abreast, of which the first one has `S`, the two actions return the same and lead to states abreast, if
the first one stays inside. -/
structure Near [Renames α] (c : Course) (S : Parser → Prop) (m m' : ParseM α) : Prop where
  inside : ∀ p, S p → c.Inside (m p).2 → c.Inside p
  abreast : ∀ p q, S p → Abreast c p q → c.Inside (m p).2 →
    (m' q).1 = rename c.image (m p).1 ∧ Abreast c (m p).2 (m' q).2

/-- Nobody is inside after the action. -/
def Outside (c : Course) (S : Parser → Prop) (m : ParseM α) : Prop :=
  ∀ p, S p → ¬c.Inside (m p).2

namespace Outside

variable {c : Course} {S : Parser → Prop}

theorem bind {m : ParseM α} {f : α → ParseM β} (h : Outside c S m) (hf : ∀ x p, c.Inside (f x p).2 → c.Inside p) :
    Outside c S (m >>= f) :=
  fun p hp hin => h p hp (hf _ _ hin)

theorem ite {b : Prop} [Decidable b] {l r : ParseM α} (hl : Outside c S l) (hr : Outside c S r) :
    Outside c S (if b then l else r) := by
  split
  · exact hl
  · exact hr

theorem here {k : Pos → ParseM β} (h : ∀ pos, Outside c S (k pos)) : Outside c S (Grammar.here >>= k) :=
  fun p hp hin => h p.curr.pos p hp hin

theorem left {k : Nat → ParseM β} (h : ∀ n, Outside c S (k n)) : Outside c S (Grammar.left >>= k) :=
  fun p hp hin => h p.left p hp hin

theorem complain (pos : Pos) (fault : SyntaxFault) : Outside c S (Grammar.complain pos fault) :=
  fun p _ hin => Parser.not_clean_complain p _ hin.1

end Outside

/-- What follows an item of a list, before which `n` was left to read: a comma, nothing because the item was empty, or
something else. -/
def itemEnd (k l r : α → ParseM β) (n : Nat) (x : α) : ParseM β := do
  if (← tok) = .op .comma then k x
  else if (← left) = n then l x else r x

theorem itemEnd_run (k l r : α → ParseM β) (n : Nat) (x : α) (p : Parser) :
    itemEnd k l r n x p =
      if p.curr.token = .op .comma then k x p else if p.left = n then l x p else r x p := by
  show (if p.curr.token = .op .comma then k x else _ : ParseM β) p = _
  split
  · rfl
  · show (if p.left = n then l x else r x : ParseM β) p = _
    split <;> rfl

/-- Who is inside after what follows an item was inside after the item. -/
theorem inside_itemEnd {c : Course} {k l r : α → ParseM β} (hk : ∀ x p, c.Inside (k x p).2 → c.Inside p)
    (hl : ∀ x, Outside c Anywhere (l x)) (hr : ∀ x p, c.Inside (r x p).2 → c.Inside p) {n : Nat} {x : α} {p : Parser}
    (hin : c.Inside (itemEnd k l r n x p).2) : c.Inside p := by
  rw [itemEnd_run] at hin
  split at hin
  · exact hk x p hin
  · split at hin
    · exact absurd hin (hl x p trivial)
    · exact hr x p hin

namespace Near

variable [Renames α] [Renames β] [Renames σ] {c : Course} {S : Parser → Prop} {m m' : ParseM α}
  {f f' : α → ParseM β}

theorem pure {x y : α} (h : y = rename c.image x) : Near c S (Pure.pure x) (Pure.pure y) :=
  ⟨fun _ _ hin => hin, fun _ _ _ hpq _ => ⟨h, hpq⟩⟩

theorem bind (h : Near c S m m') (hf : ∀ x, Near c Anywhere (f x) (f' (rename c.image x))) :
    Near c S (m >>= f) (m' >>= f') := by
  refine ⟨fun p hp hin => h.inside p hp ((hf _).inside _ trivial hin), fun p q hp hpq hin => ?_⟩
  obtain ⟨heq, hnext⟩ := h.abreast p q hp hpq ((hf _).inside _ trivial hin)
  show (f' (m' q).1 (m' q).2).1 = rename c.image (f (m p).1 (m p).2).1 ∧
    Abreast c (f (m p).1 (m p).2).2 (f' (m' q).1 (m' q).2).2
  rw [heq]
  exact (hf _).abreast _ _ trivial hnext hin

theorem map {f f' : α → β} (h : Near c S m m') (hf : ∀ x, f' (rename c.image x) = rename c.image (f x)) :
    Near c S (f <$> m) (f' <$> m') := by
  refine ⟨fun p hp hin => h.inside p hp hin, fun p q hp hpq hin => ?_⟩
  obtain ⟨heq, hnext⟩ := h.abreast p q hp hpq hin
  exact ⟨(congrArg f' heq).trans (hf _), hnext⟩

theorem some (h : Near c S m m') : Near c S (Option.some <$> m) (Option.some <$> m') :=
  h.map fun _ => rfl

theorem again (h : Near c S m m') : Near c S (Turn.again <$> m) (Turn.again <$> m') :=
  h.map fun _ => rfl

theorem mono {S' : Parser → Prop} (h : Near c S m m') (hS : ∀ p, S' p → S p) : Near c S' m m' :=
  ⟨fun p hp => h.inside p (hS p hp), fun p q hp => h.abreast p q (hS p hp)⟩

theorem of_outside (h : Outside c S m) : Near c S m m' :=
  ⟨fun p hp hin => absurd hin (h p hp), fun p _ hp _ hin => absurd hin (h p hp)⟩

theorem ite {b : Prop} [Decidable b] {l l' r r' : ParseM α} (hl : b → Near c S l l') (hr : ¬b → Near c S r r') :
    Near c S (if b then l else r) (if b then l' else r') := by
  by_cases hb : b
  · rw [if_pos hb, if_pos hb]
    exact hl hb
  · rw [if_neg hb, if_neg hb]
    exact hr hb

/-- A step that depends on a condition, and what follows it. -/
theorem ite_bind {b : Prop} [Decidable b] {l l' r r' : ParseM α} (hl : b → Near c S l l') (hr : ¬b → Near c S r r')
    (hf : ∀ x, Near c Anywhere (f x) (f' (rename c.image x))) :
    Near c S (if b then l >>= f else r >>= f) (if b then l' >>= f' else r' >>= f') :=
  ite (fun hb => (hl hb).bind hf) fun hb => (hr hb).bind hf

/-- A step that is taken on a condition, and what follows it. -/
theorem ite_then {b : Prop} [Decidable b] {l l' : ParseM Unit} {k k' : Unit → ParseM β} (hl : b → Near c S l l')
    (hk : Near c Anywhere (k ()) (k' ())) :
    Near c S (if b then l >>= k else k ()) (if b then l' >>= k' else k' ()) :=
  ite (fun hb => (hl hb).bind fun _ => hk) fun _ => hk.mono fun _ _ => trivial

/-! ### Looking at the state -/

theorem tok {k k' : Token → ParseM β} (h : ∀ t, Near c (fun p => S p ∧ p.curr.token = t) (k t) (k' t)) :
    Near c S (Grammar.tok >>= k) (Grammar.tok >>= k') := by
  refine ⟨fun p hp hin => (h _).inside p ⟨hp, rfl⟩ hin, fun p q hp hpq hin => ?_⟩
  have htoken := hpq.token_eq ((h p.curr.token).inside p ⟨hp, rfl⟩ hin)
  show (k' q.curr.token q).1 = _ ∧ Abreast c _ (k' q.curr.token q).2
  rw [htoken]
  exact (h _).abreast p q ⟨hp, rfl⟩ hpq hin

/-- Where the token stands says nothing about the run. -/
theorem here {k k' : Pos → ParseM β} (h : ∀ pos pos', Near c S (k pos) (k' pos')) :
    Near c S (Grammar.here >>= k) (Grammar.here >>= k') :=
  ⟨fun p hp hin => (h p.curr.pos p.curr.pos).inside p hp hin,
    fun p q hp hpq hin => (h p.curr.pos q.curr.pos).abreast p q hp hpq hin⟩

theorem startOf {x x' : NodeId} {k k' : Pos → ParseM β} (h : ∀ pos pos', Near c S (k pos) (k' pos')) :
    Near c S (Grammar.startOf x >>= k) (Grammar.startOf x' >>= k') :=
  ⟨fun p hp hin => (h (p.tree.pos x) (p.tree.pos x)).inside p hp hin,
    fun p q hp hpq hin => (h (p.tree.pos x) (q.tree.pos x')).abreast p q hp hpq hin⟩

/-- Neither does how much is left, where it only decides what is reported. -/
theorem left {k k' : Nat → ParseM β} (h : ∀ n n', Near c S (k n) (k' n')) :
    Near c S (Grammar.left >>= k) (Grammar.left >>= k') :=
  ⟨fun p hp hin => (h p.left p.left).inside p hp hin,
    fun p q hp hpq hin => (h p.left q.left).abreast p q hp hpq hin⟩

/-- What is looked at is the same in states abreast. -/
theorem look {γ : Type} {f f' : Parser → γ} {k k' : γ → ParseM β} (hf : ∀ p q, Abreast c p q → f' q = f p)
    (h : ∀ x, Near c S (k x) (k' x)) :
    Near c S (MonadState.get >>= fun p => k (f p)) (MonadState.get >>= fun p => k' (f' p)) := by
  refine ⟨fun p hp hin => (h (f p)).inside p hp hin, fun p q hp hpq hin => ?_⟩
  show (k' (f' q) q).1 = _ ∧ Abreast c _ (k' (f' q) q).2
  rw [hf p q hpq]
  exact (h (f p)).abreast p q hp hpq hin

/-! ### Steps -/

theorem next : Near c S Grammar.next Grammar.next :=
  ⟨fun _ _ hin => hin.of_advance, fun _ _ _ hpq hin => ⟨rfl, hpq.advance hin.of_advance⟩⟩

theorem makeAtom {t : Token} {k k' : Atom → ParseM β} (h : ∀ a a', a.Akin a' → Near c Anywhere (k a) (k' a')) :
    Near c S (Grammar.makeAtom t >>= k) (Grammar.makeAtom t >>= k') := by
  have hinside (p : Parser) (hin : c.Inside ((Grammar.makeAtom t >>= k) p).2) : c.Inside p :=
    (h _ _ (.refl (atomOf p t))).inside (Grammar.bare p) trivial hin
  refine ⟨fun p _ hin => hinside p hin, fun p q _ hpq hin => ?_⟩
  exact (h _ _ (hpq.akin (hinside p hin) t)).abreast _ _ trivial hpq.bare hin

/-- A production that opens with a token: the token is made into an atom and passed over. -/
theorem lead {t : Token} {k k' : Atom → ParseM β} (h : ∀ a a', a.Akin a' → Near c Anywhere (k a) (k' a')) :
    Near c S (Grammar.makeAtom t >>= fun a => Grammar.next >>= fun _ => k a)
      (Grammar.makeAtom t >>= fun a => Grammar.next >>= fun _ => k' a) :=
  makeAtom fun a a' ha => next.bind fun _ => h a a' ha

theorem add {a a' : Atom} {shape shape' : NodeShape} (ha : a.Akin a') (hshape : shape' = shape.rename c.image) :
    Near c S (Grammar.add a shape) (Grammar.add a' shape') := by
  subst hshape
  refine ⟨fun _ _ hin => hin, fun p q _ hpq _ => ⟨?_, hpq.withTree (hpq.tree.push ha shape)⟩⟩
  exact (hpq.tree.next 0).symm

theorem withComposite (ok : Bool) (h : Near c Anywhere m m') :
    Near c S (Grammar.withComposite ok m) (Grammar.withComposite ok m') := by
  refine ⟨fun p _ hin => h.inside { p with compositeOk := ok } trivial hin, fun p q _ hpq hin => ?_⟩
  obtain ⟨heq, hnext⟩ := h.abreast _ _ trivial (hpq.composite ok) hin
  refine ⟨heq, ?_⟩
  show Abreast c { (m { p with compositeOk := ok }).2 with compositeOk := p.compositeOk }
    { (m' { q with compositeOk := ok }).2 with compositeOk := q.compositeOk }
  rw [hpq.compositeOk]
  exact hnext.composite _

/-- A loop whose rounds do the same does the same. -/
theorem run (x : σ) {loop loop' : Loop σ} (hmore : loop'.more = loop.more)
    (h : ∀ x, Near c Anywhere (loop.round x) (loop'.round (rename c.image x))) :
    Near c S (loop.run x) (loop'.run (rename c.image x)) := by
  have hinside (x : σ) (p : Parser) (hin : c.Inside (loop.runFrom x p).2) : c.Inside p := by
    fun_induction Loop.runFrom loop x p with
    | case1 x p hmore y p' hround => exact (h x).inside p trivial (by rw [hround]; exact hin)
    | case2 x p hmore before y p' hround hlt ih => exact (h x).inside p trivial (by rw [hround]; exact ih hin)
    | case3 x p hmore before y p' hround hge => exact (h x).inside p trivial (by rw [hround]; exact hin)
    | case4 x p hmore => exact hin
  -- One round in both runs: it ends the same way, with as much read.
  have hturn {x : σ} {p q p' : Parser} {turn : Turn σ} (hpq : Abreast c p q) (hround : loop.round x p = (turn, p'))
      (hin : c.Inside p') : loop'.more q.curr.token = loop.more p.curr.token ∧
      ∃ q', loop'.round (rename c.image x) q = (rename c.image turn, q') ∧ Abreast c p' q' ∧
        (q'.left < q.left ↔ p'.left < p.left) := by
    have hin' : c.Inside (loop.round x p).2 := by rw [hround]; exact hin
    obtain ⟨heq, hnext⟩ := (h x).abreast p q trivial hpq hin'
    rw [hround] at heq hnext
    obtain ⟨n, hn, hn'⟩ := hpq.left_eq
    obtain ⟨k, hk, hk'⟩ := hnext.left_eq
    refine ⟨by rw [hmore, hpq.token_eq ((h x).inside p trivial hin')], _, Prod.ext heq rfl, hnext, ?_⟩
    rw [hn, hn', show p'.left = _ from hk, hk']
    omega
  refine ⟨fun p _ hin => hinside x p hin, fun p q _ hpq hin => ?_⟩
  show (loop'.runFrom (rename c.image x) q).1 = rename c.image (loop.runFrom x p).1 ∧
    Abreast c (loop.runFrom x p).2 (loop'.runFrom (rename c.image x) q).2
  replace hin : c.Inside (loop.runFrom x p).2 := hin
  clear * - hinside hturn hmore hpq hin
  fun_induction Loop.runFrom loop x p generalizing q with
  | case1 x p hdue y p' hround =>
      obtain ⟨hmore, q', hq, hnext, -⟩ := hturn hpq hround hin
      rw [Loop.runFrom, hmore, if_pos hdue, hq]
      exact ⟨rfl, hnext⟩
  | case2 x p hdue before y p' hround hlt ih =>
      obtain ⟨hmore, q', hq, hnext, hleft⟩ := hturn hpq hround (hinside y p' hin)
      rw [Loop.runFrom, hmore, if_pos hdue, hq]
      dsimp only [rename_again]
      rw [if_pos (hleft.2 hlt)]
      exact ih q' hnext hin
  | case3 x p hdue before y p' hround hge =>
      obtain ⟨hmore, q', hq, hnext, hleft⟩ := hturn hpq hround hin
      rw [Loop.runFrom, hmore, if_pos hdue, hq]
      dsimp only [rename_again]
      rw [if_neg (mt hleft.1 hge)]
      exact ⟨rfl, hnext⟩
  | case4 x p hdue =>
      rw [Loop.runFrom, hmore, hpq.token_eq hin, if_neg hdue]
      exact ⟨rfl, hpq⟩

/-- An item of a list and what follows it, where an empty item is an error. -/
theorem item {k l r : α → ParseM β} {k' l' r' : α → ParseM β} (h : Near c Anywhere m m')
    (hk : ∀ x, Near c Anywhere (k x) (k' (rename c.image x))) (hl : ∀ x, Outside c Anywhere (l x))
    (hr : ∀ x, Near c Anywhere (r x) (r' (rename c.image x))) :
    Near c S (Grammar.left >>= fun before => m >>= itemEnd k l r before)
      (Grammar.left >>= fun before => m' >>= itemEnd k' l' r' before) := by
  have hinside {n : Nat} {x : α} {p : Parser} (hin : c.Inside (itemEnd k l r n x p).2) : c.Inside p :=
    inside_itemEnd (fun x p => (hk x).inside p trivial) hl (fun x p => (hr x).inside p trivial) hin
  refine ⟨fun p _ hin => h.inside p trivial (hinside hin), fun p q _ hpq hin => ?_⟩
  obtain ⟨heq, hnext⟩ := h.abreast p q trivial hpq (hinside hin)
  have htoken := hnext.token_eq (hinside hin)
  obtain ⟨i, hi, hi'⟩ := hpq.left_eq
  obtain ⟨j, hj, hj'⟩ := hnext.left_eq
  have hleft : (m' q).2.left = q.left ↔ (m p).2.left = p.left := by omega
  replace hin : c.Inside (itemEnd k l r p.left (m p).1 (m p).2).2 := hin
  show (itemEnd k' l' r' q.left (m' q).1 (m' q).2).1 = rename c.image (itemEnd k l r p.left (m p).1 (m p).2).1 ∧
    Abreast c (itemEnd k l r p.left (m p).1 (m p).2).2 (itemEnd k' l' r' q.left (m' q).1 (m' q).2).2
  rw [itemEnd_run] at hin ⊢
  rw [itemEnd_run, heq, htoken]
  by_cases hcomma : (m p).2.curr.token = .op .comma
  · rw [if_pos hcomma] at hin ⊢
    rw [if_pos hcomma]
    exact (hk _).abreast _ _ trivial hnext hin
  · rw [if_neg hcomma] at hin ⊢
    rw [if_neg hcomma]
    by_cases hempty : (m p).2.left = p.left
    · rw [if_pos hempty] at hin
      exact absurd hin (hl _ _ trivial)
    · rw [if_neg hempty] at hin ⊢
      rw [if_neg (mt hleft.1 hempty)]
      exact (hr _).abreast _ _ trivial hnext hin

/-- An action that makes nodes in the tree. -/
theorem build {b b' : Build α} (h : ∀ t t', c.Echoes t t' →
    (b' t').1 = rename c.image (b t).1 ∧ c.Echoes (b t).2 (b' t').2) :
    Near c S (Grammar.build b) (Grammar.build b') := by
  refine ⟨fun _ _ hin => hin, fun p q _ hpq _ => ?_⟩
  obtain ⟨heq, htree⟩ := h _ _ hpq.tree
  exact ⟨heq, hpq.withTree htree⟩

end Near

/-! ### Looking ahead -/

/-- Who is inside after a loop was inside after its first round. -/
theorem inside_round {c : Course} {loop : Loop σ} {x : σ} {p : Parser} (hmore : loop.more p.curr.token = true)
    (hrun : ∀ x p, c.Inside (loop.run x p).2 → c.Inside p) (hin : c.Inside (loop.run x p).2) :
    c.Inside (loop.round x p).2 := by
  replace hin : c.Inside (loop.runFrom x p).2 := hin
  rw [Loop.runFrom, if_pos hmore] at hin
  rcases hround : loop.round x p with ⟨y | y, p'⟩
  · rw [hround] at hin
    dsimp only at hin
    split at hin
    · exact hrun y p' hin
    · exact hin
  · rw [hround] at hin
    exact hin

/-- Who is still inside after the action was inside when its first token was passed over. -/
def Takes (c : Course) (S : Parser → Prop) (m : ParseM α) : Prop :=
  ∀ p, S p → c.Inside (m p).2 → c.Inside p.advance

namespace Takes

variable {c : Course} {S : Parser → Prop} {m : ParseM α} {f : α → ParseM β}

theorem bind (h : Takes c S m) (hf : ∀ x p, c.Inside (f x p).2 → c.Inside p) : Takes c S (m >>= f) :=
  fun p hp hin => h p hp (hf _ _ hin)

theorem map (h : Takes c S m) (f : α → β) : Takes c S (f <$> m) :=
  h

theorem mono {S' : Parser → Prop} (h : Takes c S m) (hS : ∀ p, S' p → S p) : Takes c S' m :=
  fun p hp => h p (hS p hp)

theorem ite {b : Prop} [Decidable b] {l r : ParseM α} (hl : b → Takes c S l) (hr : ¬b → Takes c S r) :
    Takes c S (if b then l else r) := by
  by_cases hb : b
  · rw [if_pos hb]
    exact hl hb
  · rw [if_neg hb]
    exact hr hb

theorem lead [Renames β] {t : Token} {k k' : Atom → ParseM β}
    (h : ∀ a a', a.Akin a' → Near c Anywhere (k a) (k' a')) :
    Takes c S (Grammar.makeAtom t >>= fun a => Grammar.next >>= fun _ => k a) :=
  fun p _ hin => (h _ _ (.refl (atomOf p t))).inside p.advance trivial hin

theorem withComposite (ok : Bool) (h : Takes c S m) (hS : ∀ p, S p → S { p with compositeOk := ok }) :
    Takes c S (Grammar.withComposite ok m) := by
  intro p hp hin
  have hinside := h { p with compositeOk := ok } (hS p hp) hin
  rw [advance_composite] at hinside
  exact hinside

/-- What the first round of a loop takes, the loop does. -/
theorem run {loop : Loop σ} {x : σ} (hmore : ∀ p, S p → loop.more p.curr.token = true)
    (h : Takes c S (loop.round x)) (hrun : ∀ x p, c.Inside (loop.run x p).2 → c.Inside p) :
    Takes c S (loop.run x) :=
  fun p hp hin => h p hp (inside_round (hmore p hp) hrun hin)

/-- What an item takes, it takes with what follows it. -/
theorem item {k l r : α → ParseM β} (h : Takes c S m) (hk : ∀ x p, c.Inside (k x p).2 → c.Inside p)
    (hl : ∀ x, Outside c Anywhere (l x)) (hr : ∀ x p, c.Inside (r x p).2 → c.Inside p) :
    Takes c S (Grammar.left >>= fun before => m >>= itemEnd k l r before) :=
  fun p hp hin => h p hp (inside_itemEnd hk hl hr hin)

/-- Looking at a token that is known. -/
theorem tok_eq {t : Token} {k : Token → ParseM β} (h : Takes c (·.curr.token = t) (k t)) :
    Takes c (·.curr.token = t) (Grammar.tok >>= k) := by
  rintro p rfl hin
  exact h p rfl hin

end Takes

/-- Two ways to go on from an identifier once the token after it is known: from there, or with the identifier put
back. -/
inductive GoesOn [Renames α] (c : Course) (k k' : ParseM α) (a a' : Atom) : Prop
  | on (h : Near c Anywhere k k')
  | back {m m' : ParseM α} (hk : k = putBack a >>= fun _ => m) (hk' : k' = putBack a' >>= fun _ => m')
      (h : Near c (·.curr.token = .lit .ident) m m') (htakes : Takes c (·.curr.token = .lit .ident) m)

theorem GoesOn.ite [Renames α] {c : Course} {b : Prop} [Decidable b] {l l' r r' : ParseM α} {a a' : Atom}
    (hl : b → GoesOn c l l' a a') (hr : ¬b → GoesOn c r r' a a') :
    GoesOn c (if b then l else r) (if b then l' else r') a a' := by
  by_cases hb : b
  · rw [if_pos hb, if_pos hb]
    exact hl hb
  · rw [if_neg hb, if_neg hb]
    exact hr hb

section Peek

variable {c : Course} {S : Parser → Prop} {k k' : Atom → Token → ParseM α}

/-- Looks at the token after an identifier. -/
def peeking (k : Atom → Token → ParseM α) : ParseM α :=
  Grammar.makeAtom (.lit .ident) >>= fun a => Grammar.next >>= fun _ => Grammar.tok >>= fun t => k a t

theorem peeking_run (k : Atom → Token → ParseM α) (p : Parser) :
    peeking k p = k (atomOf p (.lit .ident)) p.advance.curr.token p.advance :=
  lead_run (.lit .ident) p

/-- Who looks at the token after an identifier and is still inside in the end was inside when it looked. -/
theorem takes_peeking [Renames α] (h : ∀ a a' t, a.Akin a' → GoesOn c (k a t) (k' a' t) a a') :
    Takes c (·.curr.token = .lit .ident) (peeking k) := by
  intro p hp hin
  rw [peeking_run] at hin
  cases h _ _ p.advance.curr.token (.refl (atomOf p (.lit .ident))) with
  | on h => exact h.inside p.advance trivial hin
  | back hk _ _ htakes =>
      rw [hk] at hin
      have hinside := htakes (p.advance.putBack _) rfl hin
      rwa [advance_putBack p.ahead_advance] at hinside

theorem near_peeking [Renames α] (hS : ∀ p, S p → p.curr.token = .lit .ident)
    (h : ∀ a a' t, a.Akin a' → GoesOn c (k a t) (k' a' t) a a') : Near c S (peeking k) (peeking k') := by
  have htakes := takes_peeking h
  refine ⟨fun p hp hin => (htakes p (hS p hp) hin).of_advance, fun p q hp hpq hin => ?_⟩
  have hnext := hpq.advance (htakes p (hS p hp) hin).of_advance
  have htoken := hnext.token_eq (htakes p (hS p hp) hin)
  have hakin := hpq.akin (htakes p (hS p hp) hin).of_advance (.lit .ident)
  rw [peeking_run] at hin ⊢
  rw [peeking_run, htoken]
  cases h _ _ p.advance.curr.token hakin with
  | on h => exact h.abreast _ _ trivial hnext hin
  | back hk hk' h _ =>
      rw [hk] at hin ⊢
      rw [hk']
      exact h.abreast _ _ rfl (hnext.putBack p.ahead_advance q.ahead_advance hakin nofun) hin

end Peek

end Grammar

end GoSource
