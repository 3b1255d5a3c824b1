import GoSource.Package.Resolve
import GoSource.Proofs.Grammar.SignatureWords
import GoSource.Proofs.Package.Universe

/-!
# What type expressions denote

A node that is a type expression denotes a type of the table, and asking for it changes nothing, once the table
holds that type.

* **`Hosts`**: a package over the table in which the predeclared names have their meaning.
* **`Denotes`**: the node denotes the type, in every file and package that hosts the table.
* One lemma a form of type expression: from what the parts denote to what the whole does.
-/

namespace GoSource

variable {α β : Type} {file : ParsedFile} {pkg pkg' : Package}

/-! ### Steps of resolution -/

namespace ResolveM

/-- Running one action after another. -/
theorem run_bind {m : ResolveM α} {f : α → ResolveM β} {x : α} (h : m file pkg = (.ok x, pkg')) :
    (m >>= f) file pkg = f x file pkg' := by
  show ExceptT.bindCont (fun x => f x file) (m file pkg).1 (m file pkg).2 = f x file pkg'
  rw [h]
  rfl

theorem run_map {m : ResolveM α} {f : α → β} {x : α} (h : m file pkg = (.ok x, pkg')) :
    (f <$> m) file pkg = (.ok (f x), pkg') := by
  rw [map_eq_pure_bind, run_bind h]
  rfl

theorem tree_run (file : ParsedFile) (pkg : Package) : tree file pkg = (.ok file.tree, pkg) := rfl

theorem types_run (file : ParsedFile) (pkg : Package) : types file pkg = (.ok pkg.types, pkg) := rfl

theorem get_run (file : ParsedFile) (pkg : Package) : (get : ResolveM Package) file pkg = (.ok pkg, pkg) := rfl

theorem part_run {id c : NodeId} {place : Nat} (h : file.tree.part? id place = some c) :
    part id place file pkg = (.ok c, pkg) := by
  rw [part, run_bind (tree_run file pkg), h]
  rfl

theorem onTypes_run {action : TypeM α} {x : α} (h : action pkg.types = (.ok x, pkg.types)) :
    onTypes action file pkg = (.ok (.ok x), pkg) := by
  show (Except.ok (action pkg.types).1, { pkg with types := (action pkg.types).2 }) = _
  rw [h]

/-- An operation that finds its type in the table. -/
theorem build_run {action : TypeM α} {x : α} (h : action pkg.types = (.ok x, pkg.types)) :
    build action file pkg = (.ok x, pkg) := by
  rw [build, run_bind (onTypes_run h)]
  rfl

theorem buildAt_run {action : TypeM α} {x : α} (node : NodeId) (h : action pkg.types = (.ok x, pkg.types)) :
    buildAt node action file pkg = (.ok x, pkg) := by
  rw [buildAt, run_bind (onTypes_run h)]
  rfl

end ResolveM

/-! ### Nodes of a tree that grew -/

namespace Tree

variable {tree tree' : Tree} {id : NodeId} {n : Node}

theorem Holds.literal_eq (h : tree.Holds id n) : tree.literal id = n.atom.literal := by
  rw [literal, h.node_eq]

theorem Holds.isBad_eq (h : tree.Holds id n) : tree.isBad id = n.isBad := by
  rw [isBad, h.node_eq]

theorem Holds.part?_eq (h : tree.Holds id n) (place : Nat) : tree.part? id place = (n.children[place]?).join := by
  rw [part?, children, h.node_eq]

theorem Holds.children_eq (h : tree.Holds id n) : tree.children id = n.children := by
  rw [children, h.node_eq]

end Tree

open TypeTable ResolveM
open Grammar (NodeProp Stable IsLeaf IsUnary IsBinary IsSlice IsList IsTypeField IsSignature IsMethod Nodes)

/-! ### Denotation -/

/-- A package over the table, with the predeclared types in scope. -/
structure Hosts (tt : TypeTable) (error : TypeId) (pkg : Package) : Prop where
  types_eq : pkg.types = tt
  basic_eq : ∀ k ∈ predeclaredKinds, pkg.declared? k.name = none ∧
    pkg.predeclared? k.name = some (.predeclaredType k.name (basic k))
  error_eq : pkg.declared? "error" = none ∧ pkg.predeclared? "error" = some (.predeclaredType "error" error)

/-- What can be found in the table can be found in the package. -/
theorem Hosts.found {tt : TypeTable} {error : TypeId} {action : TypeM α} {x : α} (h : Hosts tt error pkg)
    (hfound : action tt = (.ok x, tt)) : action pkg.types = (.ok x, pkg.types) := by
  rw [h.types_eq]
  exact hfound

/-- The node denotes the type `t`, and asking for it changes nothing. -/
structure Denotes (tt : TypeTable) (error t : TypeId) (tree : Tree) (id : NodeId) : Prop where
  index_lt : id.index < tree.size
  op_ne : tree.op id ≠ .op .ellipsis
  type_eq : ∀ file pkg bound, tree.Grows file.tree → Hosts tt error pkg →
    pkg.weight file.tree.size id.rank < bound → (meanings bound).type id file pkg = (.ok t, pkg)

variable {tt : TypeTable} {error e k t : TypeId} {tree : Tree} {id : NodeId}

theorem stable_denotes (tt : TypeTable) (error t : TypeId) : Stable (Denotes tt error t) where
  index_lt h := h.index_lt
  grow h hgrows := by
    refine ⟨Nat.lt_of_lt_of_le h.index_lt hgrows.size_le, ?_, ?_⟩
    · rw [Tree.op, hgrows.node_eq _ h.index_lt]
      exact h.op_ne
    · exact fun file pkg bound hfile => h.type_eq file pkg bound (hgrows.trans hfile)

/-- A question below the bound is answered by the rule for types. -/
theorem meanings_type_run {bound : Nat} (h : pkg.weight file.tree.size id.rank < bound) :
    (meanings bound).type id file pkg =
      (meanings (pkg.weight file.tree.size id.rank)).typeExpr id file pkg := by
  rw [meanings]
  exact dif_pos h

theorem weight_lt {x : NodeId} (h : x.index < id.index) :
    pkg.weight file.tree.size x.rank < pkg.weight file.tree.size id.rank := by
  unfold Package.weight NodeId.rank
  omega

/-- A node denotes what the rule for its tag answers. -/
theorem denotes_of_typeExpr {n : Node} (hholds : tree.Holds id n) (hop : n.atom.token ≠ .op .ellipsis)
    (h : ∀ file pkg, tree.Grows file.tree → Hosts tt error pkg →
      (meanings (pkg.weight file.tree.size id.rank)).typeExpr id file pkg = (.ok t, pkg)) :
    Denotes tt error t tree id := by
  refine ⟨hholds.index_lt, ?_, ?_⟩
  · rw [hholds.op_eq]
    exact hop
  · intro file pkg bound hgrows hpkg hbound
    rw [meanings_type_run hbound]
    exact h file pkg hgrows hpkg

/-- A name denotes the predeclared type of that name. -/
theorem denotes_name {name : String} (h : IsLeaf (.lit .ident, name) tree id) (hblank : name ≠ "_")
    (hname : ∀ pkg, Hosts tt error pkg → pkg.declared? name = none ∧
      pkg.predeclared? name = some (.predeclaredType name t)) : Denotes tt error t tree id := by
  obtain ⟨atom, hholds, hword⟩ := h
  obtain ⟨htoken, hliteral⟩ := Prod.mk.inj hword
  refine denotes_of_typeExpr hholds (by rw [htoken]; decide) ?_
  intro file pkg hgrows hpkg
  have hholds := hholds.grow hgrows
  obtain ⟨hdeclared, hpredeclared⟩ := hname pkg hpkg
  have hobject (m : Meanings) : m.object id file pkg = (.ok (.predeclaredType name t), pkg) := by
    rw [Meanings.object, run_bind (tree_run file pkg), hholds.literal_eq, hliteral]
    dsimp only
    rw [if_neg (by simpa using hblank)]
    rw [run_bind (get_run file pkg), hdeclared]
    refine (run_bind (get_run file pkg)).trans ?_
    rw [hpredeclared]
    rfl
  rw [Meanings.typeExpr, run_bind (tree_run file pkg), hholds.isBad_eq, hholds.op_eq, htoken]
  show Meanings.typeName _ id file pkg = _
  rw [Meanings.typeName, run_bind (hobject _)]
  rfl

/-! ### Types with parts -/

/-- The type that a part denotes. -/
theorem component_run (place : Nat) {x : NodeId} (hx : Denotes tt error e tree x) (hlt : x.index < id.index)
    (hvalid : tt.isInvalid e = false) (hgrows : tree.Grows file.tree) (hpkg : Hosts tt error pkg)
    (hpart : file.tree.part? id place = some x) :
    (meanings (pkg.weight file.tree.size id.rank)).component id place file pkg = (.ok (some e), pkg) := by
  rw [Meanings.component, run_bind (part_run hpart),
    run_bind (hx.type_eq file pkg _ hgrows hpkg (weight_lt hlt)), run_bind (types_run file pkg), hpkg.types_eq, hvalid]
  rfl

theorem denotes_pointer (h : IsUnary (.op .mul) (Denotes tt error e) tree id) (hvalid : tt.isInvalid e = false)
    (hfound : newPointer e tt = (.ok t, tt)) : Denotes tt error t tree id := by
  obtain ⟨atom, x, hholds, htoken, hlt, hx⟩ := h
  refine denotes_of_typeExpr hholds (by rw [htoken]; decide) ?_
  intro file pkg hgrows hpkg
  have hholds := hholds.grow hgrows
  have helem := component_run 0 hx hlt hvalid hgrows hpkg (hholds.part?_eq 0)
  rw [Meanings.typeExpr, run_bind (tree_run file pkg), hholds.isBad_eq, hholds.op_eq, htoken]
  refine run_map (x := some t) ?_
  rw [Meanings.pointerType?, run_bind helem]
  exact run_map (build_run (hpkg.found hfound))

/-- The tag of a channel type. -/
def ChanDir.tag : ChanDir → NodeTag
  | .both => .bothDir
  | .send => .sendDir
  | .recv => .recvDir

theorem denotes_chan {d : ChanDir} (h : IsUnary (.tag d.tag) (Denotes tt error e) tree id)
    (hvalid : tt.isInvalid e = false) (hfound : newChan e d tt = (.ok t, tt)) : Denotes tt error t tree id := by
  obtain ⟨atom, x, hholds, htoken, hlt, hx⟩ := h
  refine denotes_of_typeExpr hholds (by rw [htoken]; simp) ?_
  intro file pkg hgrows hpkg
  have hholds := hholds.grow hgrows
  have helem := component_run 0 hx hlt hvalid hgrows hpkg (hholds.part?_eq 0)
  have hchan : (meanings (pkg.weight file.tree.size id.rank)).chanType? id d file pkg = (.ok (some t), pkg) := by
    rw [Meanings.chanType?, run_bind helem]
    exact run_map (build_run (hpkg.found hfound))
  rw [Meanings.typeExpr, run_bind (tree_run file pkg), hholds.isBad_eq, hholds.op_eq, htoken]
  cases d with
  | both => exact run_map hchan
  | send => exact run_map hchan
  | recv => exact run_map hchan

theorem denotes_map (h : IsBinary (.kw .map) (Denotes tt error k) (Denotes tt error e) tree id)
    (hkey : tt.isInvalid k = false) (hvalid : tt.isInvalid e = false) (hfound : newMap k e tt = (.ok t, tt)) :
    Denotes tt error t tree id := by
  obtain ⟨atom, x, y, hholds, htoken, hlt, hlt', hx, hy⟩ := h
  refine denotes_of_typeExpr hholds (by rw [htoken]; decide) ?_
  intro file pkg hgrows hpkg
  have hholds := hholds.grow hgrows
  have hkey := component_run 0 hx hlt hkey hgrows hpkg (hholds.part?_eq 0)
  have helem := component_run 1 hy hlt' hvalid hgrows hpkg (hholds.part?_eq 1)
  rw [Meanings.typeExpr, run_bind (tree_run file pkg), hholds.isBad_eq, hholds.op_eq, htoken]
  refine run_map (x := some t) ?_
  rw [Meanings.mapType?, run_bind hkey, run_bind helem]
  exact run_map (build_run (hpkg.found hfound))

theorem denotes_slice (h : IsSlice (Denotes tt error e) tree id) (hvalid : tt.isInvalid e = false)
    (hfound : newSlice e tt = (.ok t, tt)) : Denotes tt error t tree id := by
  obtain ⟨atom, x, hholds, htoken, hlt, hx⟩ := h
  refine denotes_of_typeExpr hholds (by rw [htoken]; decide) ?_
  intro file pkg hgrows hpkg
  have hholds := hholds.grow hgrows
  have helem := component_run 1 hx hlt hvalid hgrows hpkg (hholds.part?_eq 1)
  rw [Meanings.typeExpr, run_bind (tree_run file pkg), hholds.isBad_eq, hholds.op_eq, htoken]
  refine run_map (x := some t) ?_
  rw [Meanings.arrayType?, run_bind helem, run_bind (tree_run file pkg), hholds.part?_eq]
  refine (run_bind (x := none) rfl).trans ?_
  exact run_map (build_run (hpkg.found hfound))

theorem denotes_array {n : Nat} (h : IsBinary (.tag .array) (IsLeaf (.lit .int, n.repr)) (Denotes tt error e) tree id)
    (hvalid : tt.isInvalid e = false) (hn : n < Literal.wordLimit) (hfound : newArray e n tt = (.ok t, tt)) :
    Denotes tt error t tree id := by
  obtain ⟨atom, x, y, hholds, htoken, hlt, hlt', ⟨latom, hleaf, hword⟩, hy⟩ := h
  obtain ⟨hint, hliteral⟩ := Prod.mk.inj hword
  refine denotes_of_typeExpr hholds (by rw [htoken]; decide) ?_
  intro file pkg hgrows hpkg
  have hholds := hholds.grow hgrows
  have hleaf := hleaf.grow hgrows
  have helem := component_run 1 hy hlt' hvalid hgrows hpkg (hholds.part?_eq 1)
  have hlength (m : Meanings) : m.arrayLength x file pkg = (.ok n, pkg) := by
    have htext : m.lengthLiteral x file pkg = (.ok n.repr, pkg) := by
      rw [Meanings.lengthLiteral, run_bind (tree_run file pkg), hleaf.op_eq, hleaf.literal_eq, hint, hliteral]
      rfl
    rw [Meanings.arrayLength, run_bind htext, Literal.integerValue?_repr hn]
    rfl
  rw [Meanings.typeExpr, run_bind (tree_run file pkg), hholds.isBad_eq, hholds.op_eq, htoken]
  refine run_map (x := some t) ?_
  rw [Meanings.arrayType?, run_bind helem, run_bind (tree_run file pkg), hholds.part?_eq]
  refine (run_bind (run_map (hlength _))).trans ?_
  exact run_map (buildAt_run id (hpkg.found hfound))

/-! ### Functions -/

/-- The field declares one parameter of the type `t`; `variadic` if it takes the rest of the arguments. -/
def FieldDenotes (tt : TypeTable) (error t : TypeId) (variadic : Bool) : NodeProp := fun tree id =>
  ∃ atom kids, tree.Holds id { atom, shape := .list kids } ∧ ∀ file pkg bound final, tree.Grows file.tree →
    Hosts tt error pkg → pkg.weight file.tree.size id.rank ≤ bound → (variadic = true → final = true) →
    (meanings bound).fieldTypes final id file pkg = (.ok ([t], variadic), pkg)

theorem fieldDenotes_plain (h : IsTypeField (Denotes tt error t) tree id) : FieldDenotes tt error t false tree id := by
  obtain ⟨atom, x, hholds, hlt, hx⟩ := h
  refine ⟨atom, _, hholds, ?_⟩
  intro file pkg bound final hgrows hpkg hbound _
  have hholds := hholds.grow hgrows
  have hop : file.tree.op x ≠ .op .ellipsis := by
    rw [Tree.op, hgrows.node_eq x hx.index_lt]
    exact hx.op_ne
  have htype := hx.type_eq file pkg bound hgrows hpkg (Nat.lt_of_lt_of_le (weight_lt hlt) hbound)
  rw [Meanings.fieldTypes, run_bind (tree_run file pkg)]
  dsimp only
  rw [run_bind (part_run (hholds.part?_eq 1)), if_neg hop, run_bind htype, hholds.part?_eq]
  rfl

theorem fieldDenotes_variadic (h : IsTypeField (IsUnary (.op .ellipsis) (Denotes tt error e)) tree id)
    (hvalid : tt.isInvalid e = false) (hfound : newSlice e tt = (.ok t, tt)) :
    FieldDenotes tt error t true tree id := by
  obtain ⟨atom, x, hholds, hlt, xatom, y, hellipsis, htoken, hlt', hy⟩ := h
  refine ⟨atom, _, hholds, ?_⟩
  intro file pkg bound final hgrows hpkg hbound hfinal
  have hholds := hholds.grow hgrows
  have hellipsis := hellipsis.grow hgrows
  have hop : file.tree.op x = .op .ellipsis := by
    rw [hellipsis.op_eq]
    exact htoken
  have htype := hy.type_eq file pkg bound hgrows hpkg
    (Nat.lt_of_lt_of_le (weight_lt (Nat.lt_trans hlt' hlt)) hbound)
  rw [Meanings.fieldTypes, run_bind (tree_run file pkg)]
  dsimp only
  rw [run_bind (part_run (hholds.part?_eq 1)), if_pos hop, hfinal rfl, hholds.part?_eq,
    if_neg (by simp [Node.children]), run_bind (part_run (hellipsis.part?_eq 0)), run_bind htype,
    run_bind (types_run file pkg), hpkg.types_eq, if_neg (by rw [hvalid]; decide),
    run_bind (build_run (hpkg.found hfound))]
  rfl

/-- The fields of a parameter list: all plain, or the last one variadic. -/
def fieldProps (tt : TypeTable) (error : TypeId) (variadic : Bool) : List TypeId → List NodeProp
  | [] => []
  | [t] => [FieldDenotes tt error t variadic]
  | t :: ts => FieldDenotes tt error t false :: fieldProps tt error variadic ts

/-- The types of a list of fields, of which only the last may be variadic. -/
theorem fieldListTypes_run {fields : List NodeId} {ts : List TypeId} {variadic mayBeVariadic : Bool} {bound : Nat}
    (h : Nodes tree fields (fieldProps tt error variadic ts)) (hgrows : tree.Grows file.tree)
    (hpkg : Hosts tt error pkg) (hbound : ∀ field ∈ fields, pkg.weight file.tree.size field.rank ≤ bound)
    (hmay : variadic = true → mayBeVariadic = true) (hne : variadic = true → ts ≠ []) :
    (meanings bound).fieldListTypes mayBeVariadic fields file pkg = (.ok (ts, variadic), pkg) := by
  induction ts generalizing fields with
  | nil =>
      cases h
      cases variadic with
      | false => rfl
      | true => exact absurd rfl (hne rfl)
  | cons t ts ih =>
      cases ts with
      | nil =>
          obtain ⟨field, fields, ⟨-, -, -, hfield⟩, hnil, rfl⟩ := List.forall₂_cons_right_iff.1 h
          cases hnil
          have htypes := hfield file pkg bound (mayBeVariadic && true) hgrows hpkg (hbound field (by simp)) (by
            intro hv
            rw [hmay hv]
            rfl)
          rw [Meanings.fieldListTypes]
          refine (run_bind htypes).trans ?_
          refine (run_bind (x := ([], false)) rfl).trans ?_
          dsimp only
          rw [Bool.or_false]
          rfl
      | cons t' ts =>
          obtain ⟨field, fields, ⟨-, -, -, hfield⟩, hrest, rfl⟩ := List.forall₂_cons_right_iff.1 h
          have htypes := hfield file pkg bound (mayBeVariadic && fields.isEmpty) hgrows hpkg (hbound field (by simp))
            (by simp)
          have hothers := ih hrest (fun f hf => hbound f (List.mem_cons_of_mem _ hf)) (by simp)
          rw [Meanings.fieldListTypes]
          refine (run_bind htypes).trans ?_
          refine (run_bind hothers).trans ?_
          dsimp only
          rw [Bool.false_or]
          rfl

/-- Every property of a list of nodes comes from one of its members. -/
theorem exists_of_nodes {ns : List NodeId} {Ps : List NodeProp} {n : NodeId} (h : Nodes tree ns Ps) (hn : n ∈ ns) :
    ∃ P ∈ Ps, P tree n := by
  induction h with
  | nil => cases hn
  | cons hhead _ ih =>
      rcases List.mem_cons.1 hn with rfl | hn
      · exact ⟨_, List.mem_cons_self, hhead⟩
      · obtain ⟨P, hP, hPn⟩ := ih hn
        exact ⟨P, List.mem_cons_of_mem _ hP, hPn⟩

theorem mem_fieldProps {ts : List TypeId} {variadic : Bool} {P : NodeProp} (h : P ∈ fieldProps tt error variadic ts) :
    ∃ t v, P = FieldDenotes tt error t v := by
  induction ts with
  | nil => cases h
  | cons t ts ih =>
      cases ts with
      | nil => exact ⟨t, variadic, List.mem_singleton.1 h⟩
      | cons t' ts =>
          rcases List.mem_cons.1 h with rfl | h
          · exact ⟨t, false, rfl⟩
          · exact ih h

/-- No field is bad. -/
theorem isBad_of_fieldProps {fields : List NodeId} {ts : List TypeId} {variadic : Bool}
    (h : Nodes tree fields (fieldProps tt error variadic ts)) (hgrows : tree.Grows file.tree) :
    ∀ field ∈ fields, file.tree.isBad field = false := by
  intro field hfield
  obtain ⟨P, hP, hPfield⟩ := exists_of_nodes h hfield
  obtain ⟨t, v, rfl⟩ := mem_fieldProps hP
  obtain ⟨atom, kids, hholds, -⟩ := hPfield
  rw [(hholds.grow hgrows).isBad_eq]
  rfl

/-- The parts of a list node of which none is bad. -/
theorem sound_of_list {list : NodeId} {atom : Atom} {kids : List NodeId}
    (hholds : file.tree.Holds list { atom, shape := .list (kids.map some) })
    (hgood : ∀ kid ∈ kids, file.tree.isBad kid = false) :
    (file.tree.present list).filter (!file.tree.isBad ·) = kids := by
  have hpresent : file.tree.present list = kids := by
    rw [Tree.present, hholds.children_eq]
    show (kids.map some).filterMap id = kids
    rw [List.filterMap_map]
    exact List.filterMap_some
  rw [hpresent, List.filter_eq_self]
  intro kid hkid
  rw [hgood kid hkid]
  rfl

/-- A part of a signature. -/
theorem signaturePart_run (mayBeVariadic : Bool) {list : NodeId} {tag : NodeTag} {ts : List TypeId} {variadic : Bool}
    {bound : Nat} (h : IsList (.tag tag) (fieldProps tt error variadic ts) tree list)
    (hgrows : tree.Grows file.tree) (hpkg : Hosts tt error pkg)
    (hbound : pkg.weight file.tree.size list.rank ≤ bound) (hmay : variadic = true → mayBeVariadic = true)
    (hne : variadic = true → ts ≠ []) :
    (meanings bound).signaturePart mayBeVariadic (some list) file pkg = (.ok (ts, variadic), pkg) := by
  obtain ⟨atom, kids, hholds, htoken, hlt, hkids⟩ := h
  rw [Meanings.signaturePart, run_bind (tree_run file pkg)]
  show Meanings.fieldListTypes _ _ ((file.tree.present list).filter (!file.tree.isBad ·)) file pkg = _
  rw [sound_of_list (hholds.grow hgrows) (isBad_of_fieldProps hkids hgrows)]
  refine fieldListTypes_run hkids hgrows hpkg ?_ hmay hne
  intro field hfield
  exact Nat.le_of_lt (Nat.lt_of_lt_of_le (weight_lt (hlt field hfield)) hbound)

/-- The node is a signature whose function type is `t`. -/
structure DenotesSignature (tt : TypeTable) (error t : TypeId) (tree : Tree) (id : NodeId) : Prop where
  index_lt : id.index < tree.size
  signature_eq : ∀ file pkg bound, tree.Grows file.tree → Hosts tt error pkg →
    pkg.weight file.tree.size id.rank ≤ bound → (meanings bound).signature? id file pkg = (.ok (some t), pkg)

theorem denotesSignature {token : Token} {ps rs : List TypeId} {v : Bool}
    (h : IsBinary token (IsList (.tag .params) (fieldProps tt error v ps))
      (IsList (.tag .results) (fieldProps tt error false rs)) tree id)
    (hv : v = true → ps ≠ []) (hvalid : ∀ part ∈ ps ++ rs, tt.isInvalid part = false)
    (hfound : newFunc ps rs v tt = (.ok t, tt)) : DenotesSignature tt error t tree id := by
  obtain ⟨atom, x, y, hholds, htoken, hlt, hlt', hx, hy⟩ := h
  refine ⟨hholds.index_lt, ?_⟩
  intro file pkg bound hgrows hpkg hbound
  have hholds := hholds.grow hgrows
  have hparams := signaturePart_run true hx hgrows hpkg
    (Nat.le_of_lt (Nat.lt_of_lt_of_le (weight_lt hlt) hbound)) (fun _ => rfl) hv
  have hresults := signaturePart_run false hy hgrows hpkg
    (Nat.le_of_lt (Nat.lt_of_lt_of_le (weight_lt hlt') hbound)) (by simp) (by simp)
  have hany : (ps ++ rs).any pkg.types.isInvalid = false := by
    rw [hpkg.types_eq, List.any_eq_false]
    intro part hpart
    rw [hvalid part hpart]
    decide
  rw [Meanings.signature?, run_bind (tree_run file pkg), hholds.part?_eq, hholds.part?_eq]
  refine (run_bind hparams).trans ?_
  refine (run_bind hresults).trans ?_
  refine (run_bind (types_run file pkg)).trans ?_
  rw [if_neg (by rw [hany]; decide)]
  exact run_map (buildAt_run id (hpkg.found hfound))

theorem denotes_func {ps rs : List TypeId} {v : Bool}
    (h : IsBinary (.kw .func) (IsList (.tag .params) (fieldProps tt error v ps))
      (IsList (.tag .results) (fieldProps tt error false rs)) tree id)
    (hv : v = true → ps ≠ []) (hvalid : ∀ part ∈ ps ++ rs, tt.isInvalid part = false)
    (hfound : newFunc ps rs v tt = (.ok t, tt)) : Denotes tt error t tree id := by
  have hsignature := denotesSignature h hv hvalid hfound
  obtain ⟨atom, x, y, hholds, htoken, -⟩ := h
  refine denotes_of_typeExpr hholds (by rw [htoken]; decide) ?_
  intro file pkg hgrows hpkg
  have hrun := hsignature.signature_eq file pkg _ hgrows hpkg (Nat.le_refl _)
  have hholds := hholds.grow hgrows
  rw [Meanings.typeExpr, run_bind (tree_run file pkg), hholds.isBad_eq, hholds.op_eq, htoken]
  exact run_map hrun

/-! ### Interfaces -/

theorem stable_denotesSignature (tt : TypeTable) (error t : TypeId) : Stable (DenotesSignature tt error t) where
  index_lt h := h.index_lt
  grow h hgrows := by
    refine ⟨Nat.lt_of_lt_of_le h.index_lt hgrows.size_le, ?_⟩
    exact fun file pkg bound hfile => h.signature_eq file pkg bound (hgrows.trans hfile)

/-- The properties of the members of an interface with the methods `ms`. -/
def methodProps (tt : TypeTable) (error : TypeId) (ms : List Method) : List NodeProp :=
  ms.map fun m => IsMethod m.name (DenotesSignature tt error m.typ)

theorem methodPath_eq {m : Method} (h : m.Exported) (pkg : Package) : pkg.methodPath m.name = m.pkgPath := by
  obtain ⟨hpath, c, cs, hname, hupper, -⟩ := h
  rw [Package.methodPath, hname, String.toList_ofList, List.head?_cons, Option.any_some, hupper, hpath]
  rfl

/-- A method of an interface. -/
theorem member?_run {field : NodeId} {m : Method} {bound : Nat}
    (h : IsMethod m.name (DenotesSignature tt error m.typ) tree field) (hexported : m.Exported)
    (hgrows : tree.Grows file.tree) (hpkg : Hosts tt error pkg)
    (hbound : pkg.weight file.tree.size field.rank ≤ bound) :
    (meanings bound).member? field file pkg = (.ok (some (.method m)), pkg) := by
  obtain ⟨atom, atom', names, x, y, hholds, hnames, ⟨latom, hleaf, hword⟩, hlt, hx⟩ := h
  have hholds := hholds.grow hgrows
  have hnames := hnames.grow hgrows
  have hliteral : file.tree.literal y = m.name := by
    rw [(hleaf.grow hgrows).literal_eq]
    exact congrArg Prod.snd hword
  have hsignature := hx.signature_eq file pkg bound hgrows hpkg
    (Nat.le_of_lt (Nat.lt_of_lt_of_le (weight_lt hlt) hbound))
  rw [Meanings.member?, run_bind (tree_run file pkg), run_bind (part_run (hholds.part?_eq 1)), hholds.part?_eq]
  refine (run_bind (part_run (hnames.part?_eq 0))).trans ?_
  refine (run_bind hsignature).trans ?_
  refine (run_bind (get_run file pkg)).trans ?_
  rw [hliteral, methodPath_eq hexported]
  rfl

/-- The methods of an interface. -/
theorem members?_run {fields : List NodeId} {ms : List Method} {bound : Nat}
    (h : Nodes tree fields (methodProps tt error ms)) (hexported : ∀ m ∈ ms, m.Exported)
    (hgrows : tree.Grows file.tree) (hpkg : Hosts tt error pkg)
    (hbound : ∀ field ∈ fields, pkg.weight file.tree.size field.rank ≤ bound) :
    (meanings bound).members? fields file pkg = (.ok (some (ms.map .method)), pkg) := by
  induction ms generalizing fields with
  | nil =>
      cases h
      rfl
  | cons m ms ih =>
      obtain ⟨field, fields, hfield, hrest, rfl⟩ := List.forall₂_cons_right_iff.1 h
      have hmember := member?_run hfield (hexported m List.mem_cons_self) hgrows hpkg
        (hbound field List.mem_cons_self)
      have hothers := ih hrest (fun m hm => hexported m (List.mem_cons_of_mem _ hm))
        (fun f hf => hbound f (List.mem_cons_of_mem _ hf))
      rw [Meanings.members?, run_bind hmember]
      refine (run_bind hothers).trans ?_
      rfl

theorem denotes_interface {ms : List Method} (h : IsList (.kw .interface) (methodProps tt error ms) tree id)
    (hexported : ∀ m ∈ ms, m.Exported) (hfound : newInterface [] ms tt = (.ok t, tt)) :
    Denotes tt error t tree id := by
  obtain ⟨atom, kids, hholds, htoken, hlt, hkids⟩ := h
  refine denotes_of_typeExpr hholds (by rw [htoken]; decide) ?_
  intro file pkg hgrows hpkg
  have hholds := hholds.grow hgrows
  have hgood : ∀ kid ∈ kids, file.tree.isBad kid = false := by
    intro kid hkid
    obtain ⟨P, hP, hPkid⟩ := exists_of_nodes hkids hkid
    obtain ⟨m, -, rfl⟩ := List.mem_map.1 hP
    obtain ⟨katom, katom', names, x, y, hkid, -⟩ := hPkid
    rw [(hkid.grow hgrows).isBad_eq]
    rfl
  have hmembers := members?_run hkids hexported hgrows hpkg fun kid hkid => Nat.le_of_lt (weight_lt (hlt kid hkid))
  have hembedded (f : Meanings.Member → Option TypeId) (hf : ∀ m, f (.method m) = none) :
      (ms.map .method).filterMap f = [] := by
    simp [hf]
  have hmethods (f : Meanings.Member → Option Method) (hf : ∀ m, f (.method m) = some m) :
      (ms.map .method).filterMap f = ms := by
    rw [List.filterMap_map, show f ∘ Meanings.Member.method = some from funext hf, List.filterMap_some]
  rw [Meanings.typeExpr, run_bind (tree_run file pkg), hholds.isBad_eq, hholds.op_eq, htoken]
  refine run_map (x := some t) ?_
  rw [Meanings.interfaceType?, run_bind (tree_run file pkg), sound_of_list hholds hgood, run_bind hmembers]
  dsimp only
  rw [hembedded _ fun _ => rfl, hmethods _ fun _ => rfl]
  exact run_map (buildAt_run id (hpkg.found hfound))

end GoSource
