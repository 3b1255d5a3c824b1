import GoSource.Proofs.Grammar.Rendering
import GoSource.Proofs.Grammar.SignatureWords

/-!
# What is shown of new nodes

To say what a text is parsed into it is enough to say what is shown of it.  As a property of nodes this is kept while
the tree grows, and of a new node it follows from what is shown of its parts.

* **`shownNode`**: how a tag with its parts is shown.
* **`Shows s`**: the nodes that are shown as `s`.
* **`shows_withNode`**: a new node.  `isLeaf_shows`, `isBinary_shows` and `isList_shows` do the same for nodes of which
  something else is known.
-/

namespace GoSource

open Grammar (NodeProp Stable IsLeaf IsUnary IsBinary IsList Nodes parts withNode nextId)

/-- How a tag with its parts is shown. -/
def shownNode (token : Token) (shown : List String) : String :=
  "(" ++ token.text ++ String.join (shown.map (" " ++ ·)) ++ ")"

/-- The node is shown as `s`. -/
def Shows (s : String) : NodeProp := fun t id =>
  id.index < t.size ∧ t.render id = s

/-- The part is shown as `s`; an absent one is shown as `nil`. -/
def ShowsPart (t : Tree) (c : Child) (s : String) : Prop :=
  (∀ x ∈ c, x.index < t.size) ∧ t.renderPart c = s

/-- The parts are shown, one by one, as `ss`. -/
abbrev ShowsParts (t : Tree) : List Child → List String → Prop :=
  List.Forall₂ (ShowsPart t)

variable {t t' : Tree} {id : NodeId} {cs : List Child} {token : Token} {shape : NodeShape} {s u : String}
  {ss : List String} {P Q : NodeProp}

theorem stable_shows (s : String) : Stable (Shows s) where
  index_lt h := h.1
  grow h hgrows := ⟨Nat.lt_of_lt_of_le h.1 hgrows.size_le, (hgrows.render_eq h.1).trans h.2⟩

theorem Shows.part (h : Shows s t id) : ShowsPart t (some id) s :=
  ⟨fun _ hx => Option.some.inj hx ▸ h.1, h.2⟩

theorem showsPart_none (t : Tree) : ShowsPart t none "nil" :=
  ⟨by simp, rfl⟩

theorem Tree.Echoes.shows {id' : NodeId} (h : t.Echoes id t' id') : Shows (t.render id) t' id' :=
  ⟨h.index_lt, h.render_eq⟩

namespace ShowsParts

theorem index_lt (h : ShowsParts t cs ss) : ∀ c ∈ cs, ∀ x ∈ c, x.index < t.size := by
  induction h with
  | nil => simp
  | cons hc _ ih => exact List.forall_mem_cons.2 ⟨hc.1, ih⟩

theorem map_renderPart (h : ShowsParts t cs ss) : cs.map t.renderPart = ss := by
  induction h with
  | nil => rfl
  | cons hc _ ih => rw [List.map_cons, hc.2, ih]

theorem grow (h : ShowsParts t cs ss) (hgrows : t.Grows t') : ShowsParts t' cs ss := by
  refine h.imp fun c s hc => ?_
  cases c with
  | none => exact ⟨by simp, hc.2⟩
  | some x => exact ((stable_shows s).grow ⟨hc.1 x rfl, hc.2⟩ hgrows).part

end ShowsParts

/-! ### Nodes with parts -/

theorem Tree.Is.shows (h : t.Is id token shape) (hlt : id.index < t.size) (hcomposite : shape.isComposite = true)
    (hparts : (parts shape).map t.renderPart = ss) : Shows (shownNode token ss) t id := by
  refine ⟨hlt, ?_⟩
  rw [h.render_eq hcomposite, shownNode, ← hparts, List.map_map]
  rfl

theorem Tree.Holds.is {atom : Atom} (h : t.Holds id { atom, shape })
    (hlt : ∀ c ∈ parts shape, ∀ x ∈ c, x.index < id.index) : t.Is id atom.token shape :=
  ⟨h.op_eq, by rw [h.node_eq], hlt⟩

/-- A new node is shown by its tag and its parts. -/
theorem shows_withNode {q : Parser} {atom : Atom} (hatom : atom.token = token) (hcomposite : shape.isComposite = true)
    (hparts : ShowsParts q.tree (parts shape) ss) :
    Shows (shownNode token ss) (withNode q atom shape).tree (nextId q) :=
  (Grammar.is_withNode hatom hparts.index_lt).shows (Grammar.holds_withNode q atom shape).index_lt hcomposite
    (hparts.grow (Grammar.grows_withNode q atom shape)).map_renderPart

/-- A leaf is shown by its text. -/
theorem isLeaf_shows {token : Token} {l : String} (h : IsLeaf (token, l) t id) (hne : l ≠ "") : Shows l t id := by
  obtain ⟨atom, hholds, hword⟩ := h
  refine ⟨hholds.index_lt, ?_⟩
  have hliteral : atom.literal = l := congrArg Prod.snd hword
  rw [Tree.render, hholds.node_eq]
  show atom.text = l
  rw [Atom.text, hliteral, if_neg (by simpa using hne)]

theorem isUnary_shows (h : IsUnary token P t id) (hs : ∀ x, P t x → Shows s t x) : Shows (shownNode token [s]) t id := by
  obtain ⟨atom, x, hholds, rfl, hlt, hx⟩ := h
  refine (hholds.is ?_).shows hholds.index_lt rfl (ShowsParts.map_renderPart (.cons (hs x hx).part .nil))
  rw [Grammar.parts_unary, List.forall_mem_singleton]
  rintro _ ⟨rfl⟩
  exact hlt

theorem isBinary_shows (h : IsBinary token P Q t id) (hs : ∀ x, P t x → Shows s t x) (hu : ∀ y, Q t y → Shows u t y) :
    Shows (shownNode token [s, u]) t id := by
  obtain ⟨atom, x, y, hholds, rfl, hxlt, hylt, hx, hy⟩ := h
  have hparts : ShowsParts t [some x, some y] [s, u] := .cons (hs x hx).part (.cons (hu y hy).part .nil)
  refine (hholds.is ?_).shows hholds.index_lt rfl hparts.map_renderPart
  rw [Grammar.parts_binary, List.forall_mem_cons, List.forall_mem_singleton]
  constructor
  · rintro _ ⟨rfl⟩
    exact hxlt
  · rintro _ ⟨rfl⟩
    exact hylt

theorem isList_shows {Ps : List NodeProp} (h : IsList token Ps t id)
    (hs : List.Forall₂ (fun P s => ∀ x, P t x → Shows s t x) Ps ss) : Shows (shownNode token ss) t id := by
  obtain ⟨atom, kids, hholds, rfl, hlt, hnodes⟩ := h
  have hparts : ShowsParts t (kids.map some) ss := by
    clear hholds hlt
    induction hnodes generalizing ss with
    | nil =>
        cases hs
        exact .nil
    | cons hx _ ih =>
        cases hs with
        | cons hs hrest => exact .cons (hs _ hx).part (ih hrest)
  refine (hholds.is ?_).shows hholds.index_lt rfl hparts.map_renderPart
  rw [Grammar.parts_list, List.forall_mem_map]
  rintro kid hkid _ ⟨rfl⟩
  exact hlt kid hkid

end GoSource
