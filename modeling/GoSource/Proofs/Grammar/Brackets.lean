import GoSource.Proofs.Grammar.Move

/-!
# What stands in brackets

The braces of a composite literal and those of a block look the same.  In the header of a statement a brace after a
type name opens the block, so a literal of such a type may stand there in brackets only.

* **`Node.outer`**: the parts of a node that no brackets separate from it, **`Tree.Exposes`** what can be reached
  through them.
* **`Tree.isBareLiteral`**: composite literals whose type is a name, possibly qualified or instantiated.
* **`Node.header`**: what stands between the keyword of a statement and its block.
* **`Tree.Guarded`**: nodes that expose no bare literal, as a tree that is still growing can tell.
-/

namespace GoSource

/-- Whether types with this tag are named. -/
def Token.namesType : Token → Bool
  | .lit .ident | .op .period | .tag .index => true
  | _ => false

/-- The parts that stand outside of the brackets of a construct: all but an expression in parentheses, the operands of
an index or slice expression, the arguments of a call, the elements of a literal, the length of an array, parameters
and the body of a function literal. -/
def unbracketed (token : Token) (parts : List Child) : List Child :=
  match token with
  | .op .lparen | .tag .params => []
  | .tag .index | .tag .slice | .tag .call | .tag .compositeLit | .tag .lambda => parts.take 1
  | .tag .array => parts.drop 1
  | _ => parts

/-- How many parts of a statement stand before its block. -/
def headerLength : Token → Nat
  | .kw .if_ | .kw .range | .kw .switch | .tag .typeSwitch => 2
  | .kw .for_ => 3
  | _ => 0

/-- The parts that no brackets separate from a node of this shape.  A bad node adds no brackets to what it stands
for. -/
def outerParts (token : Token) (shape : NodeShape) : List Child :=
  match shape with
  | .bad found _ => [found]
  | shape => unbracketed token (Grammar.parts shape)

/-- The parts of a statement that stand before its block: an initial statement and a condition, three clauses, a range
clause and its operand, or an initial statement and a tag. -/
def headerParts (token : Token) (shape : NodeShape) : List Child :=
  match shape with
  | .list parts => parts.take (headerLength token)
  | _ => []

namespace Node

/-- The parts of a node that no brackets separate from it. -/
def outer (n : Node) : List NodeId :=
  (outerParts n.op n.shape).filterMap id

/-- The parts of a node that stand in a header. -/
def header (n : Node) : List NodeId :=
  (headerParts n.op n.shape).filterMap id

theorem mem_outer {n : Node} {x : NodeId} : x ∈ n.outer ↔ some x ∈ outerParts n.op n.shape := by
  simp [outer]

theorem mem_header {n : Node} {x : NodeId} : x ∈ n.header ↔ some x ∈ headerParts n.op n.shape := by
  simp [header]

end Node

namespace Tree

variable {t t' : Tree} {x y : NodeId}

theorem node_empty (id : NodeId) : ({} : Tree).node id = {} := by
  rw [node, Array.getElem?_eq_none (Nat.zero_le _)]
  rfl

/-- From the node, the other one can be reached without passing through brackets. -/
inductive Exposes (t : Tree) : NodeId → NodeId → Prop
  | self (x : NodeId) : t.Exposes x x
  | part {x y z : NodeId} (hpart : y ∈ (t.node x).outer) (h : t.Exposes y z) : t.Exposes x z

/-- Whether the node is a composite literal of a named type. -/
def isBareLiteral (t : Tree) (x : NodeId) : Bool :=
  t.op x = .tag .compositeLit && !t.isBad x && (t.part? x 0).any fun typ => (t.op typ).namesType

/-- The node was made, and it exposes no bare literal. -/
inductive Guarded (t : Tree) : NodeId → Prop
  | intro {x : NodeId} (made : x.index < t.size) (bare : t.isBareLiteral x = false)
      (parts : ∀ y ∈ (t.node x).outer, t.Guarded y) : t.Guarded x

namespace Guarded

theorem made (h : t.Guarded x) : x.index < t.size := by
  cases h with
  | intro made => exact made

theorem not_bare (h : t.Guarded x) (hxy : t.Exposes x y) : t.isBareLiteral y = false := by
  induction hxy with
  | self x =>
      cases h with
      | intro _ bare _ => exact bare
  | part hpart _ ih =>
      cases h with
      | intro _ _ parts => exact ih (parts _ hpart)

/-- The type of a literal stands outside of its braces. -/
theorem type_mem_outer {typ : NodeId} (hop : t.op x = .tag .compositeLit) (hbad : t.isBad x = false)
    (htype : t.part? x 0 = some typ) : typ ∈ (t.node x).outer := by
  unfold op at hop
  unfold part? children Node.children at htype
  unfold isBad Node.isBad at hbad
  rw [Node.mem_outer, hop]
  rcases hshape : (t.node x).shape with _ | a | ⟨a, b⟩ | kids | ⟨found, d⟩ <;> rw [hshape] at htype hbad
  · simp at htype
  · simpa [outerParts, Grammar.parts, Node.children, unbracketed, eq_comm] using htype
  · simpa [outerParts, Grammar.parts, Node.children, unbracketed, eq_comm] using htype
  · cases kids with
    | nil => simp at htype
    | cons first rest => simpa [outerParts, Grammar.parts, Node.children, unbracketed, eq_comm] using htype
  · simp at hbad

/-- Nodes that are made later change nothing in this. -/
theorem grows (h : t.Guarded x) (hgrows : t.Grows t') : t'.Guarded x := by
  induction h with
  | @intro x made bare parts ih =>
      have hnode : t'.node x = t.node x := hgrows.node_eq x made
      refine ⟨Nat.lt_of_lt_of_le made hgrows.size_le, ?_, fun y hy => ih y (hnode ▸ hy)⟩
      have hop : t'.op x = t.op x := congrArg Node.op hnode
      have hbad : t'.isBad x = t.isBad x := congrArg Node.isBad hnode
      have hpart : t'.part? x 0 = t.part? x 0 := by
        unfold part? children
        rw [hnode]
      rw [← bare, isBareLiteral, isBareLiteral, hop, hbad, hpart]
      -- Only the tag of the type is not the node's own matter, and the type is one of the guarded parts.
      by_cases hliteral : t.op x = .tag .compositeLit ∧ t.isBad x = false
      · cases htype : t.part? x 0 with
        | none => rfl
        | some typ =>
            have hmade := (parts typ (type_mem_outer hliteral.1 hliteral.2 htype)).made
            have htag : t'.op typ = t.op typ := congrArg Node.op (hgrows.node_eq typ hmade)
            rw [Option.any_some, Option.any_some, htag]
      · have hfalse : (decide (t.op x = .tag .compositeLit) && !t.isBad x) = false := by
          rw [not_and_or] at hliteral
          rcases hliteral with hliteral | hliteral
          · simp [hliteral]
          · simp [hliteral]
        rw [hfalse, Bool.false_and, Bool.false_and]

end Guarded

end Tree

end GoSource
