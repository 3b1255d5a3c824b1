import GoSource.Proofs.Grammar.Upcoming
import Mathlib.Logic.Relation
import Mathlib.Tactic.ByContra

/-!
# What productions can do

Productions go on to the next token, put one back, complain, and make nodes from nodes that were made before.
Seen from outside, a production works on a stack: tokens that were taken and not yet made into nodes, and nodes
that no other node has taken in yet, the latest on top.  A production that returns a node leaves it on top of
what it found.

* **`Move`** lists all steps of that kind.  The stack is no part of the parser; it is the order in which the
  parser will use what it has in its hands.
* A literal token is never passed over, and a node never dropped, unless something was reported before; but
  imports are dropped if the mode asks for that.  The end of the text is no token that could be made a node of,
  before it is reached.  Some parts are of a fixed kind: the third part of a function is a signature.
* `Move.upcoming_suffix`, `Move.reports`, `Move.clean`, `Move.mode_eq`, `Move.grows`: what no step can change.
-/

namespace GoSource

/-! ### Trees grow -/

/-- The nodes of `t` are nodes of `t'`. -/
structure Tree.Grows (t t' : Tree) : Prop where
  size_le : t.size ≤ t'.size
  node_eq : ∀ id : NodeId, id.index < t.size → t'.node id = t.node id

namespace Tree.Grows

variable {t t' t'' : Tree}

theorem refl (t : Tree) : t.Grows t :=
  ⟨Nat.le_refl _, fun _ _ => rfl⟩

theorem trans (h : t.Grows t') (h' : t'.Grows t'') : t.Grows t'' := by
  refine ⟨Nat.le_trans h.size_le h'.size_le, ?_⟩
  intro id hid
  rw [h'.node_eq id (Nat.lt_of_lt_of_le hid h.size_le), h.node_eq id hid]

end Tree.Grows

/-- A node with the tag `tag`, or a bad node in its place. -/
def Tree.Fits (t : Tree) (tag : Token) (id : NodeId) : Prop :=
  t.isBad id = true ∨ t.op id = tag

theorem Tree.Fits.index_lt {t : Tree} {tag : Token} {id : NodeId} (h : t.Fits tag id) (htag : tag ≠ .illegal) :
    id.index < t.size := by
  by_contra hge
  have hnode : t.node id = {} := by
    rw [node, Array.getElem?_eq_none (Nat.le_of_not_lt hge)]
    rfl
  unfold Fits isBad op at h
  rw [hnode] at h
  rcases h with hbad | hop
  · exact absurd hbad nofun
  · exact htag hop.symm

theorem Tree.Fits.grows {t t' : Tree} {tag : Token} {id : NodeId} (h : t.Fits tag id) (htag : tag ≠ .illegal)
    (hgrows : t.Grows t') : t'.Fits tag id := by
  unfold Fits isBad op
  rw [hgrows.node_eq id (h.index_lt htag)]
  exact h

namespace Grammar

/-- Something that a production has in its hands. -/
inductive Piece where
  /-- A node that is no part of another node yet. -/
  | node (id : NodeId)
  /-- A token that was taken and is not a node yet. -/
  | token (a : Atom)
  deriving DecidableEq

/-- What a production has in its hands, the latest on top. -/
abbrev Stack := List Piece

/-- Results that hold nodes. -/
class Holds (α : Type) where
  /-- The nodes, in the order of the source. -/
  held : α → List NodeId

export Holds (held)

instance : Holds Unit := ⟨fun _ => []⟩
instance : Holds NodeId := ⟨fun x => [x]⟩
instance {α : Type} [Holds α] : Holds (Option α) := ⟨fun x => x.elim [] held⟩
instance {α : Type} [Holds α] : Holds (List α) := ⟨fun xs => xs.flatMap held⟩
instance {α β : Type} [Holds α] [Holds β] : Holds (α × β) := ⟨fun x => held x.1 ++ held x.2⟩

/-- Puts the nodes of a result on top of a stack. -/
def push {α : Type} [Holds α] (x : α) (st : Stack) : Stack :=
  (held x).reverse.map .node ++ st

section Push

variable {α β : Type} [Holds α] [Holds β] (st : Stack)

@[simp] theorem push_unit (x : Unit) : push x st = st := rfl

@[simp] theorem push_node (x : NodeId) : push x st = .node x :: st := rfl

@[simp] theorem push_none : push (none : Option α) st = st := rfl

@[simp] theorem push_some (x : α) : push (some x) st = push x st := rfl

@[simp] theorem push_nil : push ([] : List α) st = st := rfl

@[simp] theorem push_pair (x : α) (y : β) : push (x, y) st = push y (push x st) := by
  simp [push, held]

@[simp] theorem push_cons (x : α) (xs : List α) : push (x :: xs) st = push xs (push x st) := by
  simp [push, held]

@[simp] theorem push_append (xs ys : List α) : push (xs ++ ys) st = push ys (push xs st) := by
  simp [push, held]

theorem push_toList (x : Option α) : push x.toList st = push x st := by
  cases x <;> simp

theorem push_map_some (xs : List α) : push (xs.map some) st = push xs st := by
  induction xs generalizing st with
  | nil => rfl
  | cons x xs ih => simp [ih]

theorem push_eq_append (x : α) : push x st = push x [] ++ st := by
  simp [push]

theorem push_comm_perm (x : α) (y : β) : (push x (push y st)).Perm (push y (push x st)) := by
  unfold push
  rw [← List.append_assoc, ← List.append_assoc]
  exact List.perm_append_comm.append_right st

end Push

/-- Something was reported, or the journal is full. -/
def Reported (p : Parser) : Prop :=
  ¬ p.journal.Clean

/-- The state after a node was made. -/
def withNode (p : Parser) (atom : Atom) (shape : NodeShape) : Parser :=
  { p with tree := { nodes := p.tree.nodes.push { atom, shape } } }

/-- The index of the next node. -/
def nextId (p : Parser) : NodeId :=
  ⟨p.tree.nodes.size⟩

/-- The nodes after one was made. -/
theorem node_withNode (p : Parser) (atom : Atom) (shape : NodeShape) (id : NodeId) :
    (withNode p atom shape).tree.node id = if id = nextId p then { atom, shape } else p.tree.node id := by
  have hindex : id = nextId p ↔ id.index = p.tree.nodes.size := by
    cases id
    simp [nextId]
  unfold Tree.node withNode
  dsimp only
  rw [Array.getElem?_push]
  by_cases h : id.index = p.tree.nodes.size
  · rw [if_pos h, if_pos (hindex.2 h)]
    rfl
  · rw [if_neg h, if_neg (mt hindex.1 h)]

theorem grows_withNode (p : Parser) (atom : Atom) (shape : NodeShape) : p.tree.Grows (withNode p atom shape).tree := by
  refine ⟨?_, fun id hid => ?_⟩
  · simp [Tree.size, withNode]
  · rw [node_withNode, if_neg]
    rintro rfl
    exact Nat.lt_irrefl _ hid

/-- The parts of a shape. -/
def parts (shape : NodeShape) : List Child :=
  ({ shape } : Node).children

@[simp] theorem parts_leaf : parts .leaf = [] := rfl

@[simp] theorem parts_unary (x : Child) : parts (.unary x) = [x] := rfl

@[simp] theorem parts_binary (x y : Child) : parts (.binary x y) = [x, y] := rfl

@[simp] theorem parts_list (xs : List Child) : parts (.list xs) = xs := rfl

/-- Whether a shape stands for something that could be parsed. -/
def isSound : NodeShape → Bool
  | .bad .. => false
  | _ => true

/-- What parts a node must have: functions have signatures in the third place, import declarations have import
specifications as parts, and these have strings in the second place; or there is a bad node instead. -/
structure Formed (t : Tree) (token : Token) (shape : NodeShape) : Prop where
  signed : token = .kw .func → ∀ sig, (parts shape)[2]? = some (some sig) → t.op sig = .kw .func
  specs : token = .kw .import_ → ∀ spec, some spec ∈ parts shape → t.Fits (.tag .importSpec) spec
  path : token = .tag .importSpec → ∀ path, (parts shape)[1]? = some (some path) → t.Fits (.lit .string) path

/-- Whether a fault is reported at a token or node that was parsed before; all others are reported at the current
token. -/
def looksBack : SyntaxFault → Bool
  | .expectingDecl => true
  | .unexpected token => token = .op .comma
  | _ => false

/-- One step of a production, with what it has in its hands before and after. -/
inductive Move : Stack × Parser → Stack × Parser → Prop
  /-- The comments of the current token move to an atom. -/
  | uncomment {st : Stack} {p : Parser} : Move (st, p) (st, { p with curr := { p.curr with comments := [] } })
  /-- Composite literals are allowed or not. -/
  | composite {st : Stack} {p : Parser} (ok : Bool) : Move (st, p) (st, { p with compositeOk := ok })
  /-- A complaint, in the words of the parser about its file. -/
  | complain {st : Stack} {p : Parser} (pos : Pos) (fault : SyntaxFault)
      (h : pos = p.curr.pos ∨ looksBack fault = true) :
      Move (st, p) (st, p.complain (p.diagnose pos fault))
  /-- A token without a text of its own is passed over. -/
  | pass {st : Stack} {p : Parser} (h : p.curr.token.isLiteral = false) : Move (st, p) (st, p.advance)
  /-- Any token is passed over, but only after a report. -/
  | lose {st : Stack} {p : Parser} (h : Reported p) : Move (st, p) (st, p.advance)
  /-- The current token is taken. -/
  | take {st : Stack} {p : Parser} : Move (st, p) (.token p.curr :: st, p.advance)
  /-- The token after the current one, which is an identifier, is looked at. -/
  | peek {st : Stack} {p : Parser} (h : p.curr.token = .lit .ident) : Move (st, p) (st, p.advance.putBack p.curr)
  /-- A token that was taken becomes a leaf. -/
  | leaf {st : Stack} {p : Parser} (above : Stack) (a : Atom) (hne : a.token ≠ .eof) :
      Move (above ++ .token a :: st, p) (above ++ .node (nextId p) :: st, withNode p a .leaf)
  /-- Nodes become the parts of a node. -/
  | node {st : Stack} {p : Parser} (above : Stack) (atom : Atom) (shape : NodeShape)
      (hliteral : atom.token.isLiteral = false) (hsound : isSound shape = true)
      (heof : atom.token = .eof → shape = .leaf ∧ (p.curr.token = .eof ∨ p.mode.decls = false))
      (hformed : Formed p.tree atom.token shape) :
      Move (above ++ push (parts shape) st, p)
        (above ++ .node (nextId p) :: st, withNode p atom shape)
  /-- A bad node in place of something missing. -/
  | bad {st : Stack} {p : Parser} (atom : Atom) (found : Child) (d : Diagnostic SourceFault)
      (h : Reported p)
      (heof : atom.token = .eof → p.curr.token = .eof ∨ ∃ x, found = some x ∧ p.tree.op x = .eof) :
      Move (push found st, p) (.node (nextId p) :: st, withNode p atom (.bad found d))
  /-- After a report the order is lost. -/
  | reorder {st st' : Stack} {p : Parser} (h : Reported p) (hperm : st.Perm st') : Move (st, p) (st', p)
  /-- A node is dropped: after a report, at the end of the text, or because imports are not asked for. -/
  | drop {st : Stack} {p : Parser} (above : Stack) (x : NodeId)
      (h : Reported p ∨ p.tree.op x = .eof ∨ p.mode.imports = false) :
      Move (above ++ .node x :: st, p) (above ++ st, p)

namespace Move

variable {s s' : Stack × Parser}

/-- A step reads on or stays where it is. -/
theorem upcoming_suffix (h : Move s s') : s'.2.upcoming <:+ s.2.upcoming := by
  cases h with
  | uncomment => exact List.suffix_rfl
  | composite => exact List.suffix_rfl
  | @complain st p pos fault =>
      have heq : (p.complain (p.diagnose pos fault)).upcoming = p.upcoming := by
        unfold Parser.complain
        split <;> rfl
      exact heq ▸ List.suffix_rfl
  | pass | lose | take => exact Parser.upcoming_advance_suffix _
  | peek => exact (Parser.upcoming_peek _).symm ▸ List.suffix_rfl
  | leaf | node | bad | reorder | drop => exact List.suffix_rfl

/-- What was reported stays reported. -/
theorem clean (h : Move s s') (hclean : s'.2.journal.Clean) : s.2.journal.Clean := by
  cases h with
  | complain => exact absurd hclean (Parser.not_clean_complain _ _)
  | pass | lose | take | peek => exact Parser.clean_of_clean_advance hclean
  | uncomment | composite | leaf | node | bad | reorder | drop => exact hclean

/-- A step does nothing to the reader but reports about its file. -/
theorem reports (h : Move s s') : s.2.scanner.reader.Reports s'.2.scanner.reader := by
  cases h with
  | complain pos fault => exact Parser.reports_complain _ pos fault
  | pass | lose | take | peek => exact Parser.reports_advance _
  | uncomment | composite | leaf | node | bad | reorder | drop => exact .refl

theorem mode_eq (h : Move s s') : s'.2.mode = s.2.mode := by
  cases h with
  | complain =>
      show (Parser.complain _ _).mode = _
      unfold Parser.complain
      split <;> rfl
  | pass | lose | take | peek => exact Parser.mode_advance _
  | uncomment | composite | leaf | node | bad | reorder | drop => rfl

/-- A step makes nodes and changes none. -/
theorem grows (h : Move s s') : s.2.tree.Grows s'.2.tree := by
  cases h with
  | leaf | node | bad => exact grows_withNode _ _ _
  | complain =>
      show (_ : Parser).tree.Grows (Parser.complain _ _).tree
      unfold Parser.complain
      split <;> exact .refl _
  | pass | lose | take | peek =>
      show (_ : Parser).tree.Grows (Parser.advance _).tree
      rw [Parser.tree_advance]
      exact .refl _
  | uncomment | composite | reorder | drop => exact .refl _

/-- A step consumes a token, or the current token stays. -/
theorem left_lt_or_token_eq (h : Move s s') (heof : s.2.curr.token ≠ .eof) :
    s'.2.left < s.2.left ∨ s'.2.curr.token = s.2.curr.token := by
  cases h with
  | pass | lose | take => exact .inl (Parser.left_advance_lt heof)
  | complain =>
      refine .inr ?_
      show (Parser.complain _ _).curr.token = _
      unfold Parser.complain
      split <;> rfl
  | uncomment | composite | peek | leaf | node | bad | reorder | drop => exact .inr rfl

end Move

/-- Any number of steps. -/
abbrev Moves : Stack × Parser → Stack × Parser → Prop :=
  Relation.ReflTransGen Move

namespace Moves

variable {s s' : Stack × Parser}

theorem upcoming_suffix (h : Moves s s') : s'.2.upcoming <:+ s.2.upcoming := by
  induction h with
  | refl => exact List.suffix_rfl
  | tail _ hstep ih => exact hstep.upcoming_suffix.trans ih

theorem clean (h : Moves s s') (hclean : s'.2.journal.Clean) : s.2.journal.Clean := by
  induction h with
  | refl => exact hclean
  | tail _ hstep ih => exact ih (hstep.clean hclean)

theorem reports (h : Moves s s') : s.2.scanner.reader.Reports s'.2.scanner.reader := by
  induction h with
  | refl => exact .refl
  | tail _ hstep ih => exact ih.trans hstep.reports

theorem mode_eq (h : Moves s s') : s'.2.mode = s.2.mode := by
  induction h with
  | refl => rfl
  | tail _ hstep ih => exact hstep.mode_eq.trans ih

theorem grows (h : Moves s s') : s.2.tree.Grows s'.2.tree := by
  induction h with
  | refl => exact .refl _
  | tail _ hstep ih => exact ih.trans hstep.grows

theorem left_le (h : Moves s s') : s'.2.left ≤ s.2.left := by
  rw [← Parser.length_upcoming, ← Parser.length_upcoming]
  exact h.upcoming_suffix.length_le

/-- As long as no token was consumed, the current token is the same. -/
theorem left_lt_or_token_eq (h : Moves s s') (heof : s.2.curr.token ≠ .eof) :
    s'.2.left < s.2.left ∨ s'.2.curr.token = s.2.curr.token := by
  induction h with
  | refl => exact .inr rfl
  | tail _ hstep ih =>
      rcases ih with hlt | heq
      · exact .inl (Nat.lt_of_le_of_lt (Moves.left_le (.single hstep)) hlt)
      · rcases hstep.left_lt_or_token_eq (heq ▸ heof) with hlt | heq'
        · exact .inl (Nat.lt_of_lt_of_le hlt (Moves.left_le ‹_›))
        · exact .inr (heq'.trans heq)

end Moves

end Grammar

end GoSource
