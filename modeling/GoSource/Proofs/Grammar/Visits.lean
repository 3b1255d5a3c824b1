import GoSource.Proofs.Grammar.Restart
import Mathlib.Logic.Relation

/-!
# Going down a tree

In a forest a recursion over the parts of nodes needs no guard: it ends, and it comes to everything under a node once.

* **`Tree.Under`**: what a node leads to.  **`Tree.placed`**: all places of the tree, each with what stands there.
* **`Tree.Recurses`**: a recursion that goes into every part of a node, with the nodes it comes to.
* **`Tree.Trails`**: a recursion that goes into the last part only.
* **`Parser.Operation`**: whatever can be asked of a parser.  **`Parser.operated_forest`**: the tree that is there
  between any two of them.
-/

namespace GoSource

namespace Tree

/-! ### Recursions -/

/-- A node is somewhere under another one, or is that node. -/
def Under (t : Tree) : NodeId → NodeId → Prop :=
  Relation.ReflTransGen fun id c => c ∈ t.present id

/-- What stands at the places of the tree, node by node; a node is in it as often as it is a part. -/
def placed (t : Tree) : List NodeId :=
  (List.range t.size).flatMap fun i => t.present ⟨i⟩

/-- A recursion without a guard ends: at a node it goes into one part after the other, and `step` makes its result of
theirs.  The nodes that it comes to are counted in order, each as often as it comes to it. -/
inductive Recurses {α : Type} (t : Tree) (step : NodeId → (NodeId → α) → α) : NodeId → α → List NodeId → Prop
  | node (id : NodeId) (result : NodeId → α) (visited : NodeId → List NodeId)
      (parts : ∀ c ∈ t.present id, Recurses t step c (result c) (visited c)) :
      Recurses t step id (step id result) (id :: (t.present id).flatMap visited)

/-- A recursion into the last part of a node ends, at a node without parts. -/
inductive Trails (t : Tree) : NodeId → Pos → List NodeId → Prop
  | last {id : NodeId} (h : t.present id = []) : Trails t id (t.node id).atom.stop [id]
  | down {id c : NodeId} {stop : Pos} {visited : List NodeId} (h : (t.present id).getLast? = some c)
      (below : Trails t c stop visited) : Trails t id stop (id :: visited)

/-- Writing a node, `down` being what its parts are written as. -/
def written (t : Tree) (id : NodeId) (down : NodeId → String) : String :=
  match (t.node id).shape with
  | .leaf => (t.node id).atom.text
  | .bad found _ => "(BAD" ++ found.elim "" (fun c => " " ++ down c) ++ ")"
  | _ =>
      "(" ++ (t.op id).text
        ++ String.join ((t.children id).map fun c => " " ++ c.elim "nil" down) ++ ")"

/-- Choosing nodes: the node itself if it is wanted, and what was chosen from its parts. -/
def chosen (t : Tree) (wanted : NodeId → Bool) (id : NodeId) (below : NodeId → List NodeId) : List NodeId :=
  (if wanted id then [id] else []) ++ (t.present id).flatMap below

variable {t : Tree} {id c : NodeId}

theorem under_iff : t.Under id c ↔ c = id ∨ ∃ d ∈ t.present id, t.Under d c := by
  rw [Under, Relation.ReflTransGen.cases_head_iff]
  exact or_congr_left eq_comm

/-! ### In a forest -/

namespace Forest

variable (h : t.Forest)

include h

/-- Parts of parts were made before. -/
theorem index_le_of_under (hunder : t.Under id c) : c.index ≤ id.index := by
  induction hunder with
  | refl => exact Nat.le_refl _
  | tail _ hpart ih => exact Nat.le_trans (Nat.le_of_lt (h.ordered hpart)) ih

theorem placed_nodup : t.placed.Nodup := by
  rw [placed, List.nodup_flatMap]
  refine ⟨fun i _ => h.nodup ⟨i⟩, List.nodup_range.imp fun hne c hc hc' => hne ?_⟩
  exact congrArg NodeId.index (h.parent hc hc')

/-- Of two nodes above a third one, one is above the other: there is one way up. -/
theorem under_total {a b : NodeId} (ha : t.Under a c) (hb : t.Under b c) : t.Under a b ∨ t.Under b a := by
  have hup : Relator.RightUnique (Function.swap fun id c => c ∈ t.present id) := fun _ _ _ hc hc' => h.parent hc hc'
  have htotal := Relation.ReflTransGen.total_of_right_unique hup ha.swap hb.swap
  exact htotal.symm.imp Relation.reflTransGen_swap.1 Relation.reflTransGen_swap.1

/-- Different parts of a node have nothing in common. -/
theorem not_under_of_ne {a b : NodeId} (ha : a ∈ t.present id) (hb : b ∈ t.present id) (hne : a ≠ b) :
    ¬ t.Under a b := by
  intro hunder
  rcases Relation.ReflTransGen.cases_tail hunder with rfl | ⟨d, hd, hpart⟩
  · exact hne rfl
  · obtain rfl := h.parent hpart hb
    exact Nat.not_lt.2 (h.index_le_of_under hd) (h.ordered ha)

/-! What the guards of the recursions say always holds. -/

theorem flatMap_guarded {α : Type} (f : NodeId → List α) :
    ((t.present id).flatMap fun c => if c.index < id.index then f c else []) = (t.present id).flatMap f :=
  List.flatMap_congr fun _ hc => if_pos (h.ordered hc)

theorem preorder_eq (id : NodeId) : t.preorder id = id :: (t.present id).flatMap t.preorder := by
  rw [preorder, h.flatMap_guarded]

theorem render_eq (id : NodeId) : t.render id = t.written id t.render := by
  have hdown {c : NodeId} (hc : some c ∈ t.children id) :
      (if c.index < id.index then t.render c else "") = t.render c :=
    if_pos (h.ordered (List.mem_filterMap.2 ⟨some c, hc, rfl⟩))
  have hjoined : ((t.children id).map fun c => " " ++ c.elim "nil" fun c => if c.index < id.index then t.render c else "")
      = (t.children id).map fun c => " " ++ c.elim "nil" t.render := by
    refine List.map_congr_left fun c hc => ?_
    cases c with
    | none => rfl
    | some c => exact congrArg (" " ++ ·) (hdown hc)
  rw [render, written]
  cases hshape : (t.node id).shape with
  | leaf => rfl
  | bad found _ =>
      cases found with
      | none => rfl
      | some c =>
          have hc : some c ∈ t.children id := by simp [children, Node.children, hshape]
          simp only [Option.elim_some, hdown hc]
  | unary | binary | list => simp only [hjoined]

theorem filter_preorder (wanted : NodeId → Bool) (id : NodeId) :
    (t.preorder id).filter wanted = t.chosen wanted id fun c => (t.preorder c).filter wanted := by
  rw [h.preorder_eq, List.filter_cons, List.filter_flatMap, chosen]
  split <;> rfl

/-! ### Each node once -/

theorem mem_preorder (id : NodeId) : c ∈ t.preorder id ↔ t.Under id c := by
  induction hindex : id.index using Nat.strongRecOn generalizing id with
  | ind n ih =>
    subst hindex
    rw [h.preorder_eq, List.mem_cons, List.mem_flatMap, under_iff]
    refine or_congr_right (exists_congr fun d => and_congr_right fun hd => ?_)
    exact ih _ (h.ordered hd) d rfl

theorem preorder_nodup (id : NodeId) : (t.preorder id).Nodup := by
  induction hindex : id.index using Nat.strongRecOn generalizing id with
  | ind n ih =>
    subst hindex
    rw [h.preorder_eq, List.nodup_cons, List.nodup_flatMap]
    refine ⟨fun hmem => ?_, fun d hd => ih _ (h.ordered hd) d rfl, (h.nodup id).imp_of_mem fun ha hb hne c hc hc' => ?_⟩
    · obtain ⟨d, hd, hunder⟩ := List.mem_flatMap.1 hmem
      exact Nat.not_lt.2 (h.index_le_of_under ((h.mem_preorder d).1 hunder)) (h.ordered hd)
    · rcases h.under_total ((h.mem_preorder _).1 hc) ((h.mem_preorder _).1 hc') with hab | hba
      · exact h.not_under_of_ne ha hb hne hab
      · exact h.not_under_of_ne hb ha hne.symm hba

/-- A function that satisfies the equation of a recursion is its result, and the recursion comes to the nodes that the
traversal lists. -/
theorem recurses {α : Type} {step : NodeId → (NodeId → α) → α} {f : NodeId → α} (hf : ∀ id, f id = step id f)
    (id : NodeId) : t.Recurses step id (f id) (t.preorder id) := by
  induction hindex : id.index using Nat.strongRecOn generalizing id with
  | ind n ih =>
    subst hindex
    rw [hf, h.preorder_eq]
    exact .node id f t.preorder fun c hc => ih _ (h.ordered hc) c rfl

/-- The end of a node is found by going to the last part, and to the last part of that, with no node twice. -/
theorem trails (id : NodeId) : ∃ visited, t.Trails id (t.stop id) visited ∧ visited.Sublist (t.preorder id) := by
  induction hindex : id.index using Nat.strongRecOn generalizing id with
  | ind n ih =>
    subst hindex
    rw [stop, h.preorder_eq]
    split
    · rename_i last hlast
      have hpart := List.mem_of_getLast? hlast
      obtain ⟨visited, htrails, hsub⟩ := ih _ (h.ordered hpart) last rfl
      rw [if_pos (h.ordered hpart)]
      have hbelow : (t.preorder last).Sublist ((t.present id).flatMap t.preorder) :=
        List.sublist_flatten_of_mem (List.mem_map_of_mem hpart)
      exact ⟨id :: visited, .down hlast htrails, (hsub.trans hbelow).cons_cons id⟩
    · rename_i hnone
      exact ⟨[id], .last (List.getLast?_eq_none_iff.1 hnone), .cons_cons id (List.nil_sublist _)⟩

end Forest

end Tree

/-! ### Between operations -/

namespace Parser

/-- What can be asked of a parser. -/
inductive Operation where
  /-- Binds a file and its bytes. -/
  | init (file : SourceFile) (source : ByteSource) (mode : Mode)
  /-- Starts the file over under another budget. -/
  | setBudget (budget : Nat)
  /-- Forgets all diagnostics. -/
  | clearJournal
  /-- Reads on. -/
  | call (call : Call)

/-- What an operation leaves behind. -/
def Operation.run (p : Parser) : Operation → Parser
  | .init file source mode => p.init file source mode
  | .setBudget budget => p.setBudget budget
  | .clearJournal => p.clearJournal
  | .call c => c.run p

/-- What a sequence of operations leaves behind. -/
def operated (p : Parser) (operations : List Operation) : Parser :=
  operations.foldl Operation.run p

theorem reached_run {p : Parser} (h : p.Reached) (operation : Operation) : (operation.run p).Reached := by
  cases operation with
  | init file source mode => exact .start _
  | setBudget budget => exact .start _
  | clearJournal => exact h.clearJournal
  | call c =>
      cases c with
      | parse => exact h.parse
      | parseFile => exact h.parseFile
      | parseExpression => exact h.parseExpression
      | parseDeclaration => exact h.parseDeclaration
      | skip => exact h.advance

theorem reached_operated {p : Parser} (h : p.Reached) (operations : List Operation) :
    (p.operated operations).Reached := by
  induction operations generalizing p with
  | nil => exact h
  | cons operation operations ih => exact ih (reached_run h operation)

/-- The nodes of a parser form a forest, whatever was asked of it and whatever bytes it was given.  Parts have smaller
indexes than the node they are part of, and no node stands in two places, neither of one node nor of two.  So
everything that goes down from a node without looking whether it was there before comes to an end: writing the node,
and choosing from what is under it the nodes of some kind or the bad ones, come to all that is under the node and to
nothing twice, and looking for its end follows the last parts, with nothing twice either. -/
theorem operated_forest (operations : List Operation) :
    let t := (({} : Parser).operated operations).tree
    (∀ id c, c ∈ t.present id → c.index < id.index) ∧ t.placed.Nodup ∧
    ∀ id, ((t.preorder id).Nodup ∧ ∀ c, c ∈ t.preorder id ↔ t.Under id c) ∧
      t.Recurses t.written id (t.render id) (t.preorder id) ∧
      (∀ op, t.Recurses (t.chosen (t.op · = op)) id (t.findAll id op) (t.preorder id)) ∧
      t.Recurses (t.chosen t.isBad) id (t.findBad id) (t.preorder id) ∧
      ∃ visited, t.Trails id (t.stop id) visited ∧ visited.Nodup ∧ ∀ c ∈ visited, t.Under id c := by
  intro t
  obtain ⟨st, hplanted⟩ := (reached_operated .blank operations).planted
  have h : t.Forest := hplanted.forest
  refine ⟨fun id c => h.ordered, h.placed_nodup, fun id => ⟨⟨h.preorder_nodup id, fun c => h.mem_preorder id⟩,
    h.recurses h.render_eq id, fun op => h.recurses (h.filter_preorder _) id, h.recurses (h.filter_preorder _) id, ?_⟩⟩
  obtain ⟨visited, htrails, hsub⟩ := h.trails id
  exact ⟨visited, htrails, (h.preorder_nodup id).sublist hsub, fun c hc => (h.mem_preorder id).1 (hsub.subset hc)⟩

end Parser

end GoSource
