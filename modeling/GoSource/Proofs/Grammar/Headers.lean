import GoSource.Proofs.Grammar.DeedRuns

/-!
# Headers of statements

A brace after a type name opens the block of a statement while its header is read, so a literal of a named type stands
in a header in brackets only.  The rule hangs on one flag, which is set and reset all over the grammar; but a node is
made once, and what it stands for can be judged when it is made.

* **`Tree.Bracketed`**: no header exposes a bare literal.  No deed changes that.
* **`Parser.headers_bracketed`**: so it is whatever was asked of a parser.
-/

namespace GoSource

/-- What stands in the headers of statements exposes no bare literal. -/
def Tree.Bracketed (t : Tree) : Prop :=
  ∀ id : NodeId, ∀ x ∈ (t.node id).header, t.Guarded x

theorem Tree.bracketed_empty : ({} : Tree).Bracketed := by
  intro id x hx
  rw [Tree.node_empty] at hx
  exact absurd hx List.not_mem_nil

namespace Grammar

/-- A step makes at most one node, and judges its header. -/
theorem Deed.bracketed {x y : Hand × Parser} (h : Deed x y) (hx : x.2.tree.Bracketed) : y.2.tree.Bracketed := by
  cases h with
  | advance => exact (Parser.tree_advance _).symm ▸ hx
  | complain d =>
      show (Parser.complain _ d).tree.Bracketed
      rw [Parser.complain_eq]
      exact hx
  | @make hand p a b shape _ hheader =>
      intro id x hx'
      have hgrows := grows_withNode p b shape
      rw [node_withNode] at hx'
      split at hx'
      · exact (hheader x hx').grows hgrows
      · exact (hx id x hx').grows hgrows
  | take | forge | drop | retag | putBack | composite => exact hx

theorem Deeds.bracketed {x y : Hand × Parser} (h : Deeds x y) (hx : x.2.tree.Bracketed) : y.2.tree.Bracketed := by
  induction h with
  | refl => exact hx
  | tail _ hstep ih => exact hstep.bracketed ih

end Grammar

namespace Parser

theorem bracketed_operated (operations : List Operation) : (({} : Parser).operated operations).tree.Bracketed :=
  operated_induction (I := fun _ p => p.tree.Bracketed) Tree.bracketed_empty (fun _ _ => Tree.bracketed_empty)
    (fun h => h) (fun hdeeds h => hdeeds.bracketed h) operations

/-- No bare literal in a header.  Whatever was asked of a parser and whatever texts it was given: what stands before the
block of an `if`, a `for` or a `switch` leads to a composite literal of a named type only through brackets. -/
theorem headers_bracketed (operations : List Operation) {id part literal : NodeId} :
    let t := (({} : Parser).operated operations).tree
    part ∈ (t.node id).header → t.Exposes part literal → t.isBareLiteral literal = false :=
  fun hpart hexposes => (bracketed_operated operations id part hpart).not_bare hexposes

/-- The condition `x == (T{})`: what is compared stands in parentheses, and in these there is a bare literal. -/
theorem headers_bracketed_condition :
    let t := (({} : Parser).operated
      [.init {} { bytes := "func f() \x7bif x == (T\x7b\x7d) \x7b\x7d\x7d".toUTF8 } {}, .call .parseDeclaration]).tree
    (⟨9⟩ ∈ (t.node ⟨11⟩).header ∧ t.Exposes ⟨9⟩ ⟨8⟩ ∧ t.isBareLiteral ⟨8⟩ = false) ∧
      t.part? ⟨8⟩ 0 = some ⟨7⟩ ∧ t.isBareLiteral ⟨7⟩ = true := by
  intro t
  have h : (⟨9⟩ ∈ (t.node ⟨11⟩).header ∧ ⟨8⟩ ∈ (t.node ⟨9⟩).outer) ∧ t.part? ⟨8⟩ 0 = some ⟨7⟩ ∧
      t.isBareLiteral ⟨7⟩ = true := by decide +kernel
  obtain ⟨⟨hpart, houter⟩, hliteral⟩ := h
  have hexposes : t.Exposes ⟨9⟩ ⟨8⟩ := .part houter (.self _)
  exact ⟨⟨hpart, hexposes, headers_bracketed _ hpart hexposes⟩, hliteral⟩

end Parser

end GoSource
