import GoSource.Proofs.Grammar.Leaves
import Mathlib.Data.List.Nodup
import Mathlib.Data.List.Perm.Subperm

/-!
# Trees are forests

The nodes that a parser makes form trees: a node is part of at most one other node, at one place, and of a node
that was made after it.

* **`Tree.Forest`** says so, and that the third part of a function is a signature.
* **`Planted`**: a forest, and roots of it in the hands of a production.  No step changes that.
* **`Parser.Reached`** are the states of a parser between calls, **`ParsedFile.Parsed`** the files it makes.
-/

namespace GoSource

/-! ### Forests -/

/-- Every node has one place at most, in a node that was made later. -/
structure Tree.Forest (t : Tree) : Prop where
  /-- Parts are made before the whole. -/
  ordered : ∀ {id c : NodeId}, c ∈ t.present id → c.index < id.index
  /-- No two nodes share a part. -/
  parent : ∀ {id id' c : NodeId}, c ∈ t.present id → c ∈ t.present id' → id = id'
  /-- No part stands in two places of a node. -/
  nodup : ∀ id : NodeId, (t.present id).Nodup
  /-- What comes third in a function is its signature. -/
  signed : ∀ {id sig : NodeId}, t.op id = .kw .func → t.part? id 2 = some sig → t.op sig = .kw .func

namespace Tree

variable {t : Tree} {id c : NodeId} {place : Nat}

/-- A part by its place is one of the parts. -/
theorem mem_present_of_part? (h : t.part? id place = some c) : c ∈ t.present id := by
  unfold part? at h
  rw [Option.join_eq_some_iff] at h
  rw [present, List.mem_filterMap]
  exact ⟨some c, List.mem_of_getElem? h, rfl⟩

/-- Only nodes of the tree have parts. -/
theorem index_lt_of_mem_present (h : c ∈ t.present id) : id.index < t.size := by
  by_contra hge
  have hnode : t.node id = {} := by
    rw [node, Array.getElem?_eq_none (Nat.le_of_not_lt hge)]
    rfl
  rw [present, children, hnode] at h
  simp [Node.children] at h

/-- A part is a node of the tree, made before the whole. -/
theorem Forest.index_lt (h : t.Forest) (hc : c ∈ t.present id) : c.index < t.size :=
  Nat.lt_trans (h.ordered hc) (index_lt_of_mem_present hc)

theorem Forest.index_lt_of_part? (h : t.Forest) (hc : t.part? id place = some c) : c.index < t.size :=
  h.index_lt (mem_present_of_part? hc)

theorem forest_empty : ({} : Tree).Forest := by
  have hnone (id c : NodeId) : c ∉ ({} : Tree).present id := fun h =>
    absurd (index_lt_of_mem_present h) (Nat.not_lt_zero _)
  refine ⟨fun h => absurd h (hnone _ _), fun h => absurd h (hnone _ _), fun id => ?_, fun _ h => ?_⟩
  · rw [List.eq_nil_iff_forall_not_mem.2 (hnone id)]
    exact List.nodup_nil
  · exact absurd (mem_present_of_part? h) (hnone _ _)

end Tree

namespace Grammar

/-! ### What is in hand -/

/-- The nodes on a stack, the latest first. -/
def inHand (st : Stack) : List NodeId :=
  st.flatMap fun
    | .node id => [id]
    | .token _ => []

@[simp] theorem inHand_node (id : NodeId) (st : Stack) : inHand (.node id :: st) = id :: inHand st := rfl

@[simp] theorem inHand_token (a : Atom) (st : Stack) : inHand (.token a :: st) = inHand st := rfl

@[simp] theorem inHand_append (st st' : Stack) : inHand (st ++ st') = inHand st ++ inHand st' :=
  List.flatMap_append

theorem inHand_push {α : Type} [Holds α] (x : α) (st : Stack) : inHand (push x st) = (held x).reverse ++ inHand st := by
  rw [push, inHand_append, inHand, List.flatMap_map]
  simp

/-- The nodes form a forest, and those in hand are different roots of it. -/
structure Planted (s : Stack × Parser) : Prop where
  forest : s.2.tree.Forest
  made : ∀ id ∈ inHand s.1, id.index < s.2.tree.size
  free : ∀ id ∈ inHand s.1, ∀ parent, id ∉ s.2.tree.present parent
  nodup : (inHand s.1).Nodup

/-- The parts of nodes after one was made. -/
theorem present_withNode (p : Parser) (atom : Atom) (shape : NodeShape) (id : NodeId) :
    (withNode p atom shape).tree.present id =
      if id = nextId p then held (parts shape) else p.tree.present id := by
  rw [Tree.present, Tree.children, node_withNode]
  split
  · exact (held_children (parts shape)).symm
  · rfl

theorem part?_withNode (p : Parser) (atom : Atom) (shape : NodeShape) (id : NodeId) (place : Nat) :
    (withNode p atom shape).tree.part? id place =
      if id = nextId p then ((parts shape)[place]?).join else p.tree.part? id place := by
  rw [Tree.part?, Tree.children, node_withNode]
  split
  · rfl
  · rfl

/-- A node that is made of different roots makes the forest one node larger. -/
theorem forest_withNode {p : Parser} {atom : Atom} {shape : NodeShape} (h : p.tree.Forest)
    (hmade : ∀ c ∈ held (parts shape), c.index < p.tree.size)
    (hfree : ∀ c ∈ held (parts shape), ∀ parent, c ∉ p.tree.present parent) (hnodup : (held (parts shape)).Nodup)
    (hsigned : atom.token = .kw .func → ∀ sig, (parts shape)[2]? = some (some sig) → p.tree.op sig = .kw .func) :
    (withNode p atom shape).tree.Forest where
  ordered := by
    intro id c hc
    rw [present_withNode] at hc
    split at hc
    · next hid =>
        subst hid
        exact hmade c hc
    · exact h.ordered hc
  parent := by
    intro id id' c hc hc'
    rw [present_withNode] at hc hc'
    split at hc
    · split at hc'
      · next hid hid' => exact hid.trans hid'.symm
      · exact absurd hc' (hfree c hc id')
    · split at hc'
      · exact absurd hc (hfree c hc' id)
      · exact h.parent hc hc'
  nodup := by
    intro id
    rw [present_withNode]
    split
    · exact hnodup
    · exact h.nodup id
  signed := by
    intro id sig hop hpart
    have hmade : sig.index < p.tree.size ∧ p.tree.op sig = .kw .func := by
      rw [part?_withNode] at hpart
      rw [Tree.op, node_withNode] at hop
      split at hop
      · next hid =>
          rw [if_pos hid, Option.join_eq_some_iff] at hpart
          refine ⟨hmade sig ?_, hsigned hop sig hpart⟩
          rw [held_children, List.mem_filterMap]
          exact ⟨some sig, List.mem_of_getElem? hpart, rfl⟩
      · next hid =>
          rw [if_neg hid] at hpart
          exact ⟨h.index_lt_of_part? hpart, h.signed hop hpart⟩
    rw [Tree.op, (grows_withNode p atom shape).node_eq sig hmade.1]
    exact hmade.2

section Make

variable {st above between : Stack} {p : Parser} {atom : Atom} {shape : NodeShape} {id : NodeId}

theorem Planted.nodup_split (h : Planted (above ++ (between ++ st), p)) :
    (inHand above ++ (inHand between ++ inHand st)).Nodup := by
  rw [← inHand_append, ← inHand_append]
  exact h.nodup

/-- What stays in hand when a node is made was there before, and is no part of the node: the nodes in hand are all
different. -/
theorem Planted.stays (h : Planted (above ++ (between ++ st), p)) (hid : id ∈ inHand above ∨ id ∈ inHand st) :
    id ∈ inHand (above ++ (between ++ st)) ∧ id ∉ inHand between := by
  have hnodup := h.nodup_split
  rw [List.nodup_append, List.nodup_append] at hnodup
  rw [inHand_append, inHand_append]
  rcases hid with hid | hid
  · exact ⟨List.mem_append_left _ hid, fun hmem => hnodup.2.2 id hid id (List.mem_append_left _ hmem) rfl⟩
  · exact ⟨List.mem_append_right _ (List.mem_append_right _ hid), fun hmem => hnodup.2.1.2.2 id hmem id hid rfl⟩

theorem mem_inHand_made (hid : id ∈ inHand (above ++ .node (nextId p) :: st)) :
    id = nextId p ∨ id ∈ inHand above ∨ id ∈ inHand st := by
  simp only [inHand_append, inHand_node, List.mem_append, List.mem_cons] at hid
  rcases hid with hid | hid | hid
  · exact .inr (.inl hid)
  · exact .inl hid
  · exact .inr (.inr hid)

/-- Making a node of roots in hand. -/
theorem Planted.make (above between : Stack) (h : Planted (above ++ (between ++ st), p))
    (hparts : (held (parts shape)).Perm (inHand between))
    (hsigned : atom.token = .kw .func → ∀ sig, (parts shape)[2]? = some (some sig) → p.tree.op sig = .kw .func) :
    Planted (above ++ .node (nextId p) :: st, withNode p atom shape) := by
  have hpart {c : NodeId} (hc : c ∈ held (parts shape)) : c ∈ inHand (above ++ (between ++ st)) := by
    rw [inHand_append, inHand_append]
    exact List.mem_append_right _ (List.mem_append_left _ (hparts.mem_iff.1 hc))
  have hnodup := h.nodup_split
  exact {
    forest := forest_withNode h.forest (fun c hc => h.made c (hpart hc)) (fun c hc => h.free c (hpart hc))
      (hparts.nodup_iff.2 hnodup.of_append_right.of_append_left) hsigned
    made := fun id hid => by
      rcases mem_inHand_made hid with rfl | hid
      · simp [withNode, Tree.size, nextId]
      · exact Nat.lt_of_lt_of_le (h.made id (h.stays hid).1) (grows_withNode p atom shape).size_le
    free := fun id hid parent hmem => by
      rw [present_withNode] at hmem
      rcases mem_inHand_made hid with rfl | hid
      · split at hmem
        · exact Nat.lt_irrefl _ (h.made _ (hpart hmem))
        · exact Nat.lt_irrefl _ (h.forest.index_lt hmem)
      · split at hmem
        · exact (h.stays hid).2 (hparts.mem_iff.1 hmem)
        · exact h.free id (h.stays hid).1 parent hmem
    nodup := by
      have hfresh : nextId p ∉ inHand above ++ inHand st := fun hmem =>
        Nat.lt_irrefl _ (h.made _ (h.stays (List.mem_append.1 hmem)).1)
      have hold : (inHand above ++ inHand st).Nodup :=
        hnodup.sublist ((List.Sublist.refl _).append (List.sublist_append_right _ _))
      show (inHand (above ++ .node (nextId p) :: st)).Nodup
      rw [inHand_append, inHand_node]
      exact List.nodup_middle.2 (List.nodup_cons.2 ⟨hfresh, hold⟩) }

end Make

/-- Nodes may leave the hands or change places there. -/
theorem Planted.of_subperm {st st' : Stack} {p q : Parser} (h : Planted (st, p)) (htree : q.tree = p.tree)
    (hst : (inHand st').Subperm (inHand st)) : Planted (st', q) := by
  exact {
    forest := htree ▸ h.forest
    made := fun id hid => htree ▸ h.made id (hst.subset hid)
    free := fun id hid => htree ▸ h.free id (hst.subset hid)
    nodup := by
      obtain ⟨l, hperm, hsub⟩ := hst
      exact hperm.nodup_iff.1 (h.nodup.sublist hsub) }

theorem Move.planted {x y : Stack × Parser} (h : Move x y) (hx : Planted x) : Planted y := by
  cases h with
  | uncomment | composite => exact hx.of_subperm rfl (List.Subperm.refl _)
  | complain =>
      refine hx.of_subperm ?_ (List.Subperm.refl _)
      unfold Parser.complain
      split <;> rfl
  | pass | lose | take | peek => exact hx.of_subperm (Parser.tree_advance _) (List.Subperm.refl _)
  | leaf above a _ => exact Planted.make _ [.token a] hx (.refl _) fun _ _ hsig => by simp at hsig
  | node above atom shape _ _ _ hformed =>
      rw [push_eq_append] at hx
      refine Planted.make _ (push (parts shape) []) hx ?_ hformed.signed
      rw [inHand_push]
      simp [inHand]
  | bad atom found d =>
      rw [push_eq_append] at hx
      refine Planted.make [] (push found []) hx ?_ fun _ _ hsig => ?_
      · rw [inHand_push]
        cases found with
        | none => exact .refl _
        | some c => exact .refl _
      · simp [parts, Node.children] at hsig
  | reorder _ hperm => exact hx.of_subperm rfl (hperm.symm.flatMap_right _).subperm
  | drop above id _ =>
      refine hx.of_subperm rfl ?_
      simp only [inHand_append, inHand_node]
      exact (List.Sublist.append (List.Sublist.refl _) (List.sublist_cons_self _ _)).subperm

theorem Moves.planted {x y : Stack × Parser} (h : Moves x y) (hx : Planted x) : Planted y := by
  induction h with
  | refl => exact hx
  | tail _ hstep ih => exact hstep.planted ih

theorem planted_empty {p : Parser} (h : p.tree = {}) : Planted ([], p) := by
  refine ⟨?_, ?_, ?_, List.nodup_nil⟩
  · show p.tree.Forest
    rw [h]
    exact Tree.forest_empty
  · exact fun id hid => absurd hid List.not_mem_nil
  · exact fun id hid => absurd hid List.not_mem_nil

/-- What a production that reads on returns is a root. -/
theorem Planted.reads {α : Type} [Holds α] {st : Stack} {p : Parser} {m : ParseM α} (h : Planted (st, p))
    (hreads : ∀ n, Reads n m m) : Planted (push (m p).1 st, (m p).2) :=
  (hreads (p.left + 1) _ (Nat.le_refl _) (st, p) st p (.refl (Nat.lt_succ_self _))).2.moves.planted h

theorem expr_reads (n : Nat) : Reads n (run Rules.expr) (run Rules.expr) := by
  rw [run_expr]
  exact (grammar_expr_parses n).reads.mono (Nat.le_succ n)

theorem declaration_reads (n : Nat) : Reads n (run declaration) (run declaration) := by
  rw [run_declaration]
  exact (declaration_parses (grammar_self n)).reads.mono (Nat.le_succ n)

theorem item?_reads (n : Nat) : Reads n item? item? := by
  intro k _ s w
  cases k with
  | zero => exact fun p hp => absurd hp.left_lt (Nat.not_lt_zero _)
  | succ k => exact item?_itemized.post fun x p hp => hp.within

end Grammar

/-! ### Parsers and files -/

/-- The states of a parser between the calls to it. -/
inductive Parser.Reached : Parser → Prop
  /-- Nothing was bound yet. -/
  | blank : Reached {}
  /-- A file was bound, or its parsing started over. -/
  | start (p : Parser) : Reached p.restart
  | advance {p : Parser} (h : Reached p) : Reached p.advance
  | clearJournal {p : Parser} (h : Reached p) : Reached p.clearJournal
  | parse {p : Parser} (h : Reached p) : Reached p.parse.2
  | parseFile {p : Parser} (h : Reached p) : Reached p.parseFile.2
  | parseExpression {p : Parser} (h : Reached p) : Reached p.parseExpression.2
  | parseDeclaration {p : Parser} (h : Reached p) : Reached p.parseDeclaration.2

open Grammar in
/-- Between calls the nodes form a forest. -/
theorem Parser.Reached.planted {p : Parser} (h : p.Reached) : ∃ st, Planted (st, p) := by
  induction h with
  | blank => exact ⟨[], planted_empty rfl⟩
  | start p => exact ⟨[], planted_empty (Parser.tree_advance _)⟩
  | advance _ ih =>
      obtain ⟨st, hst⟩ := ih
      exact ⟨st, hst.of_subperm (Parser.tree_advance _) (List.Subperm.refl _)⟩
  | clearJournal _ ih =>
      obtain ⟨st, hst⟩ := ih
      exact ⟨st, hst.of_subperm rfl (List.Subperm.refl _)⟩
  | parse _ ih =>
      obtain ⟨st, hst⟩ := ih
      exact ⟨_, hst.reads item?_reads⟩
  | parseFile _ ih =>
      obtain ⟨st, hst⟩ := ih
      exact ⟨_, hst.reads fun _ => fileNode_reads⟩
  | parseExpression _ ih =>
      obtain ⟨st, hst⟩ := ih
      exact ⟨_, hst.reads expr_reads⟩
  | parseDeclaration _ ih =>
      obtain ⟨st, hst⟩ := ih
      exact ⟨_, hst.reads declaration_reads⟩

/-- A file as a parser leaves it, whatever its text, its mode and its budget. -/
def ParsedFile.Parsed (file : ParsedFile) : Prop :=
  ∃ p : Parser, p.Reached ∧ file.root = p.parseFile.1 ∧ file.tree = p.parseFile.2.tree ∧ file.file = p.parseFile.2.file

theorem ParsedFile.Parsed.forest {file : ParsedFile} (h : file.Parsed) : file.tree.Forest := by
  obtain ⟨p, hp, -, htree, -⟩ := h
  obtain ⟨st, hst⟩ := hp.parseFile.planted
  rw [htree]
  exact hst.forest

/-- A text that is parsed in one go. -/
theorem ParsedFile.parsed_ofString (name text : String) : (ParsedFile.ofString name text).Parsed :=
  ⟨_, .start _, rfl, rfl, rfl⟩

end GoSource
