import GoSource.Proofs.Grammar.TypeWords
import Mathlib.Data.List.Forall2
import Mathlib.Data.Option.Defs

/-!
# Nodes that are shown alike

What is shown of a node depends on its tag and on what is shown of its parts.  So it stays as it is while the tree
grows, and two nodes of one tag whose parts are shown alike are shown alike, whatever trees they are in.

* **`Tree.Is`**: a node with a given tag and shape.
* **`Tree.Is.render_eq`**: what is shown of a node with parts.
* **`Tree.Echoes`**: a node that is shown as a node of another tree is.
-/

namespace GoSource

open Grammar (parts withNode nextId)

/-- Whether a shape is shown as a tag with its parts. -/
def NodeShape.isComposite : NodeShape → Bool
  | .unary _ | .binary .. | .list _ => true
  | .leaf | .bad .. => false

namespace Tree

/-- The node `id` has the tag `token` and the shape `shape`, and its parts were made before it. -/
structure Is (t : Tree) (id : NodeId) (token : Token) (shape : NodeShape) : Prop where
  op_eq : t.op id = token
  shape_eq : (t.node id).shape = shape
  parts_lt : ∀ c ∈ parts shape, ∀ x ∈ c, x.index < id.index

variable {t t' : Tree} {id id' : NodeId} {token : Token} {shape shape' : NodeShape}

/-- What is shown of a part, which may be absent. -/
def renderPart (t : Tree) (c : Child) : String :=
  c.elim "nil" t.render

/-- What is shown of a node with parts: its tag and its parts. -/
theorem Is.render_eq (h : t.Is id token shape) (hcomposite : shape.isComposite = true) :
    t.render id = "(" ++ token.text ++ String.join ((parts shape).map fun c => " " ++ t.renderPart c) ++ ")" := by
  have hparts : ∀ c ∈ parts shape,
      " " ++ c.elim "nil" (fun x => if x.index < id.index then t.render x else "") = " " ++ t.renderPart c := by
    intro c hc
    cases c with
    | none => rfl
    | some x =>
        show " " ++ (if x.index < id.index then t.render x else "") = _
        rw [if_pos (h.parts_lt _ hc x rfl)]
        rfl
  have hchildren : t.children id = parts shape := by
    rw [children, Node.children, h.shape_eq]
    rfl
  rw [← List.map_congr_left hparts, ← hchildren, ← h.op_eq, render, h.shape_eq]
  cases shape with
  | leaf | bad => cases hcomposite
  | unary | binary | list => rfl

/-- What is shown of a node stays while the tree grows. -/
theorem Grows.render_eq (hgrows : t.Grows t') {id : NodeId} (hid : id.index < t.size) :
    t'.render id = t.render id := by
  have hnode := hgrows.node_eq id hid
  -- Only nodes that were made before `id` are looked at.
  have hdown : (fun x : NodeId => if x.index < id.index then t'.render x else "") =
      fun x => if x.index < id.index then t.render x else "" := by
    funext x
    split
    · rename_i hlt
      exact hgrows.render_eq (Nat.lt_trans hlt hid)
    · rfl
  rw [render, render, hdown, op, op, children, children, hnode]
termination_by id.index

/-- The node `id'` of `t'` is shown as the node `id` of `t` is. -/
structure Echoes (t : Tree) (id : NodeId) (t' : Tree) (id' : NodeId) : Prop where
  index_lt : id'.index < t'.size
  render_eq : t'.render id' = t.render id

/-- A part that is shown as a part of another tree is, or that is absent as that is. -/
abbrev EchoesPart (t t' : Tree) : Child → Child → Prop :=
  Option.Rel fun x x' => t.Echoes x t' x'

/-- Parts that are shown, one by one, as parts of another tree are. -/
abbrev EchoesParts (t t' : Tree) : List Child → List Child → Prop :=
  List.Forall₂ (t.EchoesPart t')

theorem Echoes.grow {t'' : Tree} (h : t.Echoes id t' id') (hgrows : t'.Grows t'') : t.Echoes id t'' id' :=
  ⟨Nat.lt_of_lt_of_le h.index_lt hgrows.size_le, (hgrows.render_eq h.index_lt).trans h.render_eq⟩

theorem EchoesPart.grow {t'' : Tree} {c c' : Child} (h : t.EchoesPart t' c c') (hgrows : t'.Grows t'') :
    t.EchoesPart t'' c c' := by
  cases h with
  | none => exact .none
  | some hx => exact .some (hx.grow hgrows)

theorem EchoesParts.grow {t'' : Tree} {cs cs' : List Child} (h : t.EchoesParts t' cs cs') (hgrows : t'.Grows t'') :
    t.EchoesParts t'' cs cs' :=
  h.imp fun _ _ hc => hc.grow hgrows

theorem EchoesParts.index_lt {cs cs' : List Child} (h : t.EchoesParts t' cs cs') :
    ∀ c ∈ cs', ∀ x ∈ c, x.index < t'.size := by
  induction h with
  | nil => simp
  | cons hc _ ih =>
      refine List.forall_mem_cons.2 ⟨fun x hx => ?_, ih⟩
      cases hc with
      | none => cases hx
      | some hecho =>
          obtain rfl := Option.some.inj hx
          exact hecho.index_lt

theorem EchoesParts.map_renderPart {cs cs' : List Child} (h : t.EchoesParts t' cs cs') :
    cs'.map (fun c => " " ++ t'.renderPart c) = cs.map fun c => " " ++ t.renderPart c := by
  induction h with
  | nil => rfl
  | cons hc _ ih =>
      rw [List.map_cons, List.map_cons, ih]
      cases hc with
      | none => rfl
      | some hx => simp only [renderPart, Option.elim_some, hx.render_eq]

/-- Nodes of one tag whose parts are shown alike. -/
theorem Is.echoes (h : t.Is id token shape) (h' : t'.Is id' token shape') (hcomposite : shape.isComposite = true)
    (hcomposite' : shape'.isComposite = true) (hlt : id'.index < t'.size)
    (hparts : t.EchoesParts t' (parts shape) (parts shape')) : t.Echoes id t' id' := by
  refine ⟨hlt, ?_⟩
  rw [h.render_eq hcomposite, h'.render_eq hcomposite', hparts.map_renderPart]

/-- Leaves with one text. -/
theorem echoes_leaf {w : Word} (h : t.Is id w.1 .leaf) (hliteral : t.literal id = w.2)
    (h' : Grammar.IsLeaf w t' id') : t.Echoes id t' id' := by
  obtain ⟨atom, hholds, rfl⟩ := h'
  refine ⟨hholds.index_lt, ?_⟩
  have htoken : (t.node id).atom.token = atom.token := h.op_eq
  have htext : (t.node id).atom.literal = atom.literal := hliteral
  rw [render, render, hholds.node_eq, h.shape_eq]
  show atom.text = (t.node id).atom.text
  rw [Atom.text, Atom.text, htoken, htext]

end Tree

namespace Grammar

open GoSource.Tree

variable {t : Tree} {id : NodeId} {token : Token} {shape shape' : NodeShape} {q : Parser}

/-- A new node. -/
theorem is_withNode {atom : Atom} (hatom : atom.token = token)
    (hparts : ∀ c ∈ parts shape, ∀ x ∈ c, x.index < q.tree.size) :
    (withNode q atom shape).tree.Is (nextId q) token shape := by
  have hnode := (holds_withNode q atom shape).node_eq
  refine ⟨?_, ?_, hparts⟩
  · rw [op, hnode]
    exact hatom
  · rw [hnode]

/-- A new node whose parts are shown as those of another tree are. -/
theorem echoes_withNode {atom : Atom} (h : t.Is id token shape) (hcomposite : shape.isComposite = true)
    (hcomposite' : shape'.isComposite = true) (hatom : atom.token = token)
    (hparts : t.EchoesParts q.tree (parts shape) (parts shape')) :
    t.Echoes id (withNode q atom shape').tree (nextId q) := by
  exact h.echoes (is_withNode hatom hparts.index_lt) hcomposite hcomposite' (holds_withNode q atom shape').index_lt
    (hparts.grow (grows_withNode q atom shape'))

end Grammar

end GoSource
