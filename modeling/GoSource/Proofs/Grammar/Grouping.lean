import GoSource.Grammar.Parameter
import GoSource.Proofs.Grammar.Move

/-!
# Fields of parameter lists

Lone identifiers wait for the next type, or for the end of the list.  They come to stand before that type, so nothing
changes its place.

* **`Tree.IsField`**: a node that was made as a field.  It has a type, and its names are in a list.
* **`MakesFields`**: an action that makes fields of certain nodes, in their order.
* **`groupFrom_makesFields`**: the entries of a list, behind the identifiers that wait.
* **`groupParams_keeps_parts`**: whole lists.
-/

namespace GoSource

/-- What an entry of a parameter list holds: its name, and its type. -/
def ParamEntry.parts (e : ParamEntry) : List NodeId :=
  e.name.toList ++ e.typ.toList

namespace Tree

/-- The names of a field. -/
def fieldNames (t : Tree) (field : NodeId) : List NodeId :=
  (t.part? field 0).elim [] t.present

/-- The names of a field, and its type. -/
def fieldParts (t : Tree) (field : NodeId) : List NodeId :=
  t.fieldNames field ++ (t.part? field 1).toList

/-- A field of a parameter list: a list of names or none, a type, and no tag. -/
structure IsField (t : Tree) (x : NodeId) : Prop where
  made : x.index < t.size
  op_eq : t.op x = .tag .field
  typed : ∃ names typ, t.children x = [names, some typ, none]
  named : ∀ names, t.part? x 0 = some names →
    names.index < t.size ∧ t.op names = .tag .names ∧ t.present names ≠ []

variable {t t' : Tree} {x : NodeId}

theorem Grows.part?_eq (h : t.Grows t') (hx : x.index < t.size) (place : Nat) : t'.part? x place = t.part? x place := by
  rw [part?, children, h.node_eq x hx]
  rfl

theorem Grows.present_eq (h : t.Grows t') (hx : x.index < t.size) : t'.present x = t.present x := by
  rw [present, children, h.node_eq x hx]
  rfl

namespace IsField

theorem grows (h : t.IsField x) (hgrows : t.Grows t') : t'.IsField x := by
  refine ⟨Nat.lt_of_lt_of_le h.made hgrows.size_le, ?_, ?_, fun names hnames => ?_⟩
  · rw [op, hgrows.node_eq x h.made]
    exact h.op_eq
  · rw [children, hgrows.node_eq x h.made]
    exact h.typed
  · rw [hgrows.part?_eq h.made] at hnames
    obtain ⟨hmade, hop, hne⟩ := h.named names hnames
    rw [op, hgrows.node_eq names hmade, hgrows.present_eq hmade]
    exact ⟨Nat.lt_of_lt_of_le hmade hgrows.size_le, hop, hne⟩

/-- What is in a field stays in it. -/
theorem fieldParts_eq (h : t.IsField x) (hgrows : t.Grows t') : t'.fieldParts x = t.fieldParts x := by
  rw [fieldParts, fieldParts, fieldNames, fieldNames, hgrows.part?_eq h.made, hgrows.part?_eq h.made]
  cases hnames : t.part? x 0 with
  | none => rfl
  | some names =>
      show t'.present names ++ _ = t.present names ++ _
      rw [hgrows.present_eq (h.named names hnames).1]

end IsField

/-! ### Making a field -/

theorem grows_add (atom : Atom) (shape : NodeShape) (t : Tree) : t.Grows (add atom shape t).2 := by
  refine ⟨?_, fun id hid => ?_⟩
  · simp [size, add]
  · have hid : id.index < t.nodes.size := hid
    rw [node, node, add, Array.getElem?_push_lt hid, Array.getElem?_eq_getElem hid]

theorem node_add (atom : Atom) (shape : NodeShape) (t : Tree) :
    (add atom shape t).2.node (add atom shape t).1 = { atom, shape } := by
  simp [node, add]

end Tree

namespace Grammar

open GoSource.Tree

/-- A type becomes a field, with a list of names that was made before, or without names. -/
theorem fieldNode_isField (nameList : Child) (typ : NodeId) (pos : Pos) (t : Tree)
    (hnames : ∀ names, nameList = some names → names.index < t.size ∧ t.op names = .tag .names ∧ t.present names ≠ []) :
    let (x, t') := Tree.add (tagAt (.tag .field) pos) (.list [nameList, some typ, none]) t
    t.Grows t' ∧ t'.IsField x ∧ t'.part? x 0 = nameList ∧ t'.fieldParts x = nameList.elim [] t.present ++ [typ] := by
  have hgrows := grows_add (tagAt (.tag .field) pos) (.list [nameList, some typ, none]) t
  have hnode := node_add (tagAt (.tag .field) pos) (.list [nameList, some typ, none]) t
  have hmade : (Tree.add (tagAt (.tag .field) pos) (.list [nameList, some typ, none]) t).1.index <
      (Tree.add (tagAt (.tag .field) pos) (.list [nameList, some typ, none]) t).2.size := by
    simp [Tree.add, size]
  rcases hadd : Tree.add (tagAt (.tag .field) pos) (.list [nameList, some typ, none]) t with ⟨x, t'⟩
  rw [hadd] at hgrows hnode hmade
  have hchildren : t'.children x = [nameList, some typ, none] := by
    rw [children, hnode]
    rfl
  have hfirst : t'.part? x 0 = nameList := by
    rw [part?, hchildren]
    rfl
  have hsecond : t'.part? x 1 = some typ := by
    rw [part?, hchildren]
    rfl
  refine ⟨hgrows, ⟨hmade, ?_, ⟨nameList, typ, hchildren⟩, fun names hlist => ?_⟩, hfirst, ?_⟩
  · rw [op, hnode]
    rfl
  · obtain ⟨hold, hop, hne⟩ := hnames names (hfirst.symm.trans hlist)
    rw [op, hgrows.node_eq names hold, hgrows.present_eq hold]
    exact ⟨Nat.lt_of_lt_of_le hold hgrows.size_le, hop, hne⟩
  · rw [fieldParts, fieldNames, hfirst, hsecond]
    cases nameList with
    | none => rfl
    | some names =>
        show t'.present names ++ [typ] = t.present names ++ [typ]
        rw [hgrows.present_eq (hnames names rfl).1]

/-- Names and a type become a field that has the one and the other. -/
theorem addField_isField (names : List NodeId) (typ : NodeId) (t : Tree) :
    let (x, t') := addField names typ none t
    t.Grows t' ∧ t'.IsField x ∧ (names = [] → t'.part? x 0 = none) ∧ t'.fieldParts x = names ++ [typ] := by
  cases names with
  | nil =>
      obtain ⟨hgrows, hfield, hfirst, hparts⟩ := fieldNode_isField none typ (t.pos typ) t fun _ h => by cases h
      exact ⟨hgrows, hfield, fun _ => hfirst, hparts⟩
  | cons first rest =>
      have hgrows := grows_add (tagAt (.tag .names) (t.pos first)) (.list ((first :: rest).map some)) t
      have hnode := node_add (tagAt (.tag .names) (t.pos first)) (.list ((first :: rest).map some)) t
      have hmade : (Tree.add (tagAt (.tag .names) (t.pos first)) (.list ((first :: rest).map some)) t).1.index <
          (Tree.add (tagAt (.tag .names) (t.pos first)) (.list ((first :: rest).map some)) t).2.size := by
        simp [Tree.add, size]
      rcases hadd : Tree.add (tagAt (.tag .names) (t.pos first)) (.list ((first :: rest).map some)) t with ⟨list, t₁⟩
      rw [hadd] at hgrows hnode hmade
      have hpresent : t₁.present list = first :: rest := by
        rw [present, children, hnode]
        exact (List.filterMap_map ..).trans (List.filterMap_some ..)
      have hop : t₁.op list = .tag .names := by
        rw [op, hnode]
        rfl
      obtain ⟨hgrows', hfield, -, hparts⟩ := fieldNode_isField (some list) typ (t₁.pos list) t₁ (by
        rintro names ⟨⟩
        exact ⟨hmade, hop, by simp [hpresent]⟩)
      have hrun : addField (first :: rest) typ none t =
          Tree.add (tagAt (.tag .field) (t₁.pos list)) (.list [some list, some typ, none]) t₁ := by
        show (let (list, t₁) := Tree.add (tagAt (.tag .names) (t.pos first)) (.list ((first :: rest).map some)) t
          Tree.add (tagAt (.tag .field) (t₁.pos list)) (.list [some list, some typ, none]) t₁) = _
        rw [hadd]
      rw [hrun]
      refine ⟨hgrows.trans hgrows', hfield, fun h => absurd h (List.cons_ne_nil first rest), hparts.trans ?_⟩
      rw [Option.elim_some, hpresent]

/-- The action makes fields of the nodes `parts`, which keep their order; without names if `lone` holds. -/
def MakesFields (parts : List NodeId) (lone : Prop) (b : Build (List Child)) : Prop :=
  ∀ t, ∃ fields : List NodeId, (b t).1 = fields.map some ∧ t.Grows (b t).2 ∧ (∀ x ∈ fields, (b t).2.IsField x) ∧
    fields.flatMap (b t).2.fieldParts = parts ∧ (lone → ∀ x ∈ fields, (b t).2.part? x 0 = none)

variable {parts pending : List NodeId} {lone : Prop} {b : Build (List Child)} {named : Bool}

theorem MakesFields.nil : MakesFields [] lone (pure []) :=
  fun t => ⟨[], rfl, .refl t, nofun, rfl, fun _ => nofun⟩

/-- One more field in front. -/
theorem MakesFields.cons (names : List NodeId) (typ : NodeId) (h : MakesFields parts lone b)
    (hnames : lone → names = []) :
    MakesFields (names ++ typ :: parts) lone (do
      let field ← addField names typ none
      return some field :: (← b)) := by
  intro t
  have hfirst := addField_isField names typ t
  rcases hadd : addField names typ none t with ⟨x, t₁⟩
  rw [hadd] at hfirst
  obtain ⟨hgrows, hfield, hbare, hparts⟩ := hfirst
  obtain ⟨fields, hfields, hgrows', hothers, hrest, hlone⟩ := h t₁
  have hrun : (do
      let field ← addField names typ none
      return some field :: (← b)) t = (some x :: (b t₁).1, (b t₁).2) := by
    show (let (field, t₁) := addField names typ none t
      (some field :: (b t₁).1, (b t₁).2)) = _
    rw [hadd]
  rw [hrun]
  refine ⟨x :: fields, by rw [hfields, List.map_cons], hgrows.trans hgrows', ?_, ?_, fun hl => ?_⟩
  · exact List.forall_mem_cons.2 ⟨hfield.grows hgrows', hothers⟩
  · rw [List.flatMap_cons, hrest, hfield.fieldParts_eq hgrows', hparts, List.append_assoc, List.singleton_append]
  · refine List.forall_mem_cons.2 ⟨?_, hlone hl⟩
    rw [hgrows'.part?_eq hfield.made]
    exact hbare (hnames hl)

/-- Lone types. -/
theorem typeFields_makesFields (types : List NodeId) : MakesFields types lone (typeFields types) := by
  induction types with
  | nil => exact .nil
  | cons typ rest ih =>
      have hstep : typeFields (typ :: rest) = (do
          let field ← addField [] typ none
          return some field :: (← typeFields rest)) := by
        rw [typeFields, List.mapM_cons]
        rfl
      rw [hstep]
      exact ih.cons [] typ fun _ => rfl

/-- The entries of a list, behind the identifiers that wait for a type.  In a list without named entries none waits. -/
theorem groupFrom_makesFields (entries : List ParamEntry) (hpending : named = false → pending = [])
    (hlone : lone → named = false ∧ ∀ e ∈ entries, e.name = none ∨ e.typ = none) :
    MakesFields (pending ++ entries.flatMap ParamEntry.parts) lone (groupFrom named pending entries) := by
  fun_induction groupFrom named pending entries with
  | case1 pending =>
      rw [List.flatMap_nil, List.append_nil]
      exact typeFields_makesFields pending
  | case2 pending name typ rest ih =>
      have hrest := ih (fun _ => rfl) fun hl =>
        ⟨(hlone hl).1, fun e he => (hlone hl).2 e (List.mem_cons_of_mem _ he)⟩
      refine Eq.mp ?_ (hrest.cons (pending ++ name.toList) typ fun hl => ?_)
      · rw [List.flatMap_cons, ParamEntry.parts]
        simp
      · obtain ⟨hnamed, hentries⟩ := hlone hl
        have hname : name = none := (hentries _ List.mem_cons_self).resolve_right nofun
        rw [hpending hnamed, hname]
        rfl
  | case3 pending name rest hnamed ih =>
      refine Eq.mp ?_ (ih (fun h => absurd hnamed (by simp [h])) fun hl => absurd hnamed (by simp [(hlone hl).1]))
      rw [List.flatMap_cons, ParamEntry.parts]
      simp
  | case4 pending name rest hnamed ih =>
      obtain rfl := hpending (by simpa using hnamed)
      have hrest := ih hpending fun hl =>
        ⟨(hlone hl).1, fun e he => (hlone hl).2 e (List.mem_cons_of_mem _ he)⟩
      exact hrest.cons [] name fun _ => rfl
  | case5 pending rest ih =>
      exact ih hpending fun hl => ⟨(hlone hl).1, fun e he => (hlone hl).2 e (List.mem_cons_of_mem _ he)⟩

/-- The fields of a parameter list have the names and types of its entries, all of them and in their order, and every
field has a type.  Where no entry has both a name and a type, no field has names.  Nodes that were there before stay as
they are. -/
theorem groupParams_keeps_parts (entries : List ParamEntry) (t : Tree) :
    ∃ fields : List NodeId, (groupParams entries t).1 = fields.map some ∧
      (∀ x ∈ fields, (groupParams entries t).2.IsField x) ∧
      fields.flatMap (groupParams entries t).2.fieldParts = entries.flatMap ParamEntry.parts ∧
      ((∀ e ∈ entries, e.name = none ∨ e.typ = none) → ∀ x ∈ fields, (groupParams entries t).2.part? x 0 = none) ∧
      t.Grows (groupParams entries t).2 := by
  have hmakes : MakesFields ([] ++ entries.flatMap ParamEntry.parts) (∀ e ∈ entries, e.name = none ∨ e.typ = none)
      (groupParams entries) := by
    refine groupFrom_makesFields entries (fun _ => rfl) fun hlone => ⟨?_, hlone⟩
    refine List.any_eq_false.2 fun e he => ?_
    rcases hlone e he with hname | htyp
    · simp [hname]
    · simp [htyp]
  obtain ⟨fields, hfields, hgrows, hall, hparts, hbare⟩ := hmakes t
  exact ⟨fields, hfields, hall, hparts, hbare, hgrows⟩

/-- Two names of one type, a type without a name, and an identifier with no type behind it. -/
example :
    let entries : List ParamEntry :=
      [{ name := some ⟨0⟩ }, { name := some ⟨1⟩, typ := some ⟨2⟩ }, { typ := some ⟨3⟩ }, { name := some ⟨4⟩ }]
    let t : Tree := { nodes := Array.replicate 5 {} }
    (groupParams entries t).1 = [some ⟨6⟩, some ⟨7⟩, some ⟨8⟩] ∧
      [⟨6⟩, ⟨7⟩, ⟨8⟩].map (groupParams entries t).2.fieldParts = [[⟨0⟩, ⟨1⟩, ⟨2⟩], [⟨3⟩], [⟨4⟩]] := by
  decide +kernel

end Grammar

end GoSource
