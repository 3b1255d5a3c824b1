import GoSource.Proofs.Package.Expresses
import GoSource.Proofs.Typing.Forms

/-!
# What a file says

What the names of a file mean can be told without resolving it: the rules here say it of the text alone, with what was
there before.  Whatever else a package holds, and in whichever order its declarations stand, they say the same.

* **`Sense`**: a type apart from its handle.  **`Stands`**: the senses of the types in a table.
* **`States`**: the literal that a constant comes down to.
* **`Says`**: the senses of type expressions, values and names, by one layer of rules for each.
* **`States.unique`**, **`Says.unique`**: a file says one thing only.
-/

namespace GoSource

open TypeTable

/-! ### Senses -/

/-- What a type is, whatever handle it has. -/
inductive Sense where
  /-- The type that a declaration of the file makes. -/
  | declared (entry : Entry)
  /-- A declared type that was there before. -/
  | given (t : TypeId)
  /-- A type that is built of others. -/
  | built (form : Shape) (parts : List Sense)

namespace Sense

def basic (k : Kind) : Sense :=
  .built (.basic k) []

def func (params results : List Sense) (variadic : Bool) : Sense :=
  .built (.func (params.map fun _ => TypeTable.invalid) (results.map fun _ => TypeTable.invalid) variadic)
    (params ++ results)

/-- An interface, by the forms of its methods and the senses of their types. -/
def interface (methods : List (Method × Sense)) : Sense :=
  .built (.interface (methods.map Prod.fst)) (methods.map Prod.snd)

/-- What a variable becomes that is initialized with a value of a type of this sense. -/
def default : Sense → Sense
  | .built (.basic k) [] => basic ((defaultKind? k).getD k)
  | S => S

theorem interface_injective : Function.Injective interface := by
  intro ps qs h
  obtain ⟨hforms, hparts⟩ := Sense.built.inj h
  have hzip (ms : List (Method × Sense)) : (ms.map Prod.fst).zip (ms.map Prod.snd) = ms :=
    (List.zip_of_prod rfl rfl).symm
  rw [← hzip ps, ← hzip qs, Shape.interface.inj hforms, hparts]

end Sense

/-! ### Merging -/

/-- Adds a method to methods in order, the greatest first, unless it is there already. -/
def appendSense (sorted : List (Method × Sense)) (m : Method × Sense) : List (Method × Sense) :=
  match sorted with
  | last :: _ => if last.1.sameName m.1 then sorted else m :: sorted
  | [] => [m]

/-- The methods of an interface, in order and each once. -/
def mergeSenses (methods : List (Method × Sense)) : List (Method × Sense) :=
  ((methods.mergeSort fun m n => m.1.le n.1).foldl appendSense []).reverse

/-! ### Settings -/

/-- What the names in a file are looked up in. -/
structure Setting where
  /-- The names that the file declares at the top level. -/
  names : String → Option Entry
  /-- The package before anything is declared in it. -/
  ground : Package

/-- A declared type that has a name of its own in the ground. -/
def Setting.Gives (c : Setting) (t : TypeId) : Prop :=
  (c.ground.types.shape t).isDeclared = true ∧ ∃ obj ∈ c.ground.outer, obj.role = .type ∧ obj.typ = some t

/-- A type stands for a sense, where `owns` says which types the declarations of the file make. -/
inductive Stands (c : Setting) (tt : TypeTable) (owns : Entry → TypeId → Prop) : TypeId → Sense → Prop
  | declared {t : TypeId} {entry : Entry} (h : owns entry t) : Stands c tt owns t (.declared entry)
  | given {t : TypeId} (h : c.Gives t) : Stands c tt owns t (.given t)
  | built {D : TypeId → Sense → Prop} {t : TypeId} {s : Shape} {parts : List Sense} (hs : tt.shape t = s)
      (hbuilt : s.isDeclared = false) (hvalid : s ≠ .basic .invalid) (hspreads : tt.Spreads s)
      (hparts : List.Forall₂ D s.components parts) (hD : ∀ x S, D x S → Stands c tt owns x S) :
      Stands c tt owns t (.built s.form parts)

/-- A type of the ground stands for a sense before anything is declared. -/
abbrev Setting.Stands (c : Setting) : TypeId → Sense → Prop :=
  GoSource.Stands c c.ground.types fun _ _ => False

/-! ### Constants -/

/-- The node `x` is the initializer of the name of `entry`. -/
inductive Initializes (file : ParsedFile) (entry : Entry) (x : NodeId) : Prop
  | intro {names values : NodeId} {i : Nat} (hnames : file.tree.part? entry.spec 0 = some names)
      (hvalues : file.tree.part? entry.spec 2 = some values)
      (hname : (file.tree.present names)[i]? = some entry.name)
      (hvalue : (file.tree.present values)[i]? = some x) : Initializes file entry x

/-- The literal that a constant expression comes down to. -/
inductive States (file : ParsedFile) (c : Setting) : NodeId → String → Prop
  | literal {id : NodeId} (hop : (literalKind? (file.tree.op id)).isSome) : States file c id (file.tree.literal id)
  | paren {id x : NodeId} {s : String} (hop : file.tree.op id = .op .lparen) (hpart : file.tree.part? id 0 = some x)
      (hx : States file c x s) : States file c id s
  | declared {id x : NodeId} {entry : Entry} {s : String} (hop : file.tree.op id = .lit .ident)
      (hname : c.names (file.tree.literal id) = some entry) (hrole : entry.role = .constant)
      (hvalue : Initializes file entry x) (hx : States file c x s) : States file c id s
  | predeclared {id : NodeId} {obj : Object} {v : ConstValue} (hop : file.tree.op id = .lit .ident)
      (hname : c.names (file.tree.literal id) = none)
      (hobj : c.ground.predeclared? (file.tree.literal id) = some obj) (hv : obj.value = some v) :
      States file c id v.literal

/-! ### Rules -/

/-- What can be asked about a file: the sense of a type expression, of the type of a value, of the type that a name
has, and of what a declared type stands for. -/
inductive Question where
  | type (id : NodeId)
  | value (id : NodeId)
  | name (entry : Entry)
  | meaning (entry : Entry)

section Rules

variable (file : ParsedFile) (c : Setting) (D : Question → Sense → Prop)

/-- The type of what a name stands for, which plays a role. -/
inductive NameSense (name : String) : Role → Sense → Prop
  | declared {entry : Entry} {S : Sense} (hname : c.names name = some entry) (hS : D (.name entry) S) :
      NameSense name entry.role S
  | predeclared {obj : Object} {t : TypeId} {S : Sense} (hname : c.names name = none)
      (hobj : c.ground.predeclared? name = some obj) (ht : obj.typ = some t) (hS : c.Stands t S) :
      NameSense name obj.role S

/-- The types of the parameters that a field declares, and whether it is variadic. -/
inductive FieldSense : NodeId → List Sense × Bool → Prop
  | plain {field typ : NodeId} {Ss : List Sense} (htyp : file.tree.part? field 1 = some typ)
      (hop : file.tree.op typ ≠ .op .ellipsis) (hlength : Ss.length = file.tree.fieldCount field)
      (hSs : ∀ S ∈ Ss, D (.type typ) S) : FieldSense field (Ss, false)
  | variadic {field typ elem : NodeId} {S : Sense} (htyp : file.tree.part? field 1 = some typ)
      (hop : file.tree.op typ = .op .ellipsis) (helem : file.tree.part? typ 0 = some elem) (hS : D (.type elem) S) :
      FieldSense field ([.built (.slice TypeTable.invalid) [S]], true)

/-- The type of a signature. -/
inductive SignatureSense : NodeId → Sense → Prop
  | intro {id : NodeId} {params results : List (List Sense × Bool)}
      (hparams : List.Forall₂ (FieldSense file D) (file.tree.fields (file.tree.part? id 0)) params)
      (hresults : List.Forall₂ (FieldSense file D) (file.tree.fields (file.tree.part? id 1)) results) :
      SignatureSense id
        (.func (params.flatMap Prod.fst) (results.flatMap Prod.fst) (params.any Prod.snd))

/-- What a type of a certain sense stands for. -/
inductive Underlies : Sense → Sense → Prop
  | built (form : Shape) (parts : List Sense) : Underlies (.built form parts) (.built form parts)
  | declared {entry : Entry} {S : Sense} (hS : D (.meaning entry) S) : Underlies (.declared entry) S
  | given {t u : TypeId} {S : Sense} (ht : c.Gives t) (hu : c.ground.types.underlying? t = some u)
      (hS : c.Stands u S) : Underlies (.given t) S

/-- A member of an interface: a method, or the methods of an embedded interface. -/
inductive MemberSense : NodeId → (Method × Sense) ⊕ List (Method × Sense) → Prop
  | method {field typ names name : NodeId} {S : Sense} (htyp : file.tree.part? field 1 = some typ)
      (hnames : file.tree.part? field 0 = some names) (hname : file.tree.part? names 0 = some name)
      (hS : SignatureSense file D typ S) :
      MemberSense field (.inl ({ name := file.tree.literal name, pkgPath := c.ground.methodPath (file.tree.literal name)
                                 typ := TypeTable.invalid }, S))
  | embedded {field typ : NodeId} {S : Sense} {methods : List (Method × Sense)}
      (htyp : file.tree.part? field 1 = some typ) (hnames : file.tree.part? field 0 = none) (hS : D (.type typ) S)
      (hmethods : Underlies c D S (.interface methods)) : MemberSense field (.inr methods)

/-- What type expressions express. -/
inductive TypeSense : NodeId → Sense → Prop
  | name {id : NodeId} {S : Sense} (hop : file.tree.op id = .lit .ident)
      (hS : NameSense c D (file.tree.literal id) .type S) : TypeSense id S
  | paren {id x : NodeId} {S : Sense} (hop : file.tree.op id = .op .lparen) (hpart : file.tree.part? id 0 = some x)
      (hS : D (.type x) S) : TypeSense id S
  | pointer {id x : NodeId} {S : Sense} (hop : file.tree.op id = .op .mul) (hpart : file.tree.part? id 0 = some x)
      (hS : D (.type x) S) : TypeSense id (.built (.pointer TypeTable.invalid) [S])
  | slice {id x : NodeId} {S : Sense} (hop : file.tree.op id = .tag .array) (hlength : file.tree.part? id 0 = none)
      (hpart : file.tree.part? id 1 = some x) (hS : D (.type x) S) :
      TypeSense id (.built (.slice TypeTable.invalid) [S])
  | array {id x length : NodeId} {S : Sense} {s : String} {n : Nat} (hop : file.tree.op id = .tag .array)
      (hlength : file.tree.part? id 0 = some length) (hs : States file c length s)
      (hn : Literal.integerValue? s = some n) (hpart : file.tree.part? id 1 = some x) (hS : D (.type x) S) :
      TypeSense id (.built (.array TypeTable.invalid n) [S])
  | map {id x y : NodeId} {K S : Sense} (hop : file.tree.op id = .kw .map) (hkey : file.tree.part? id 0 = some x)
      (hK : D (.type x) K) (helem : file.tree.part? id 1 = some y) (hS : D (.type y) S) :
      TypeSense id (.built (.map TypeTable.invalid TypeTable.invalid) [K, S])
  | chan {id x : NodeId} {S : Sense} {dir : ChanDir} (hop : chanDir? (file.tree.op id) = some dir)
      (hpart : file.tree.part? id 0 = some x) (hS : D (.type x) S) :
      TypeSense id (.built (.chan TypeTable.invalid dir) [S])
  | func {id : NodeId} {S : Sense} (hop : file.tree.op id = .kw .func) (hS : SignatureSense file D id S) :
      TypeSense id S
  | interface {id : NodeId} {members : List ((Method × Sense) ⊕ List (Method × Sense))}
      (hop : file.tree.op id = .kw .interface)
      (hmembers : List.Forall₂ (MemberSense file c D) (file.tree.fields (some id)) members) :
      TypeSense id
        (.interface (mergeSenses (members.filterMap Sum.getLeft? ++ (members.filterMap Sum.getRight?).flatten)))

/-- The types of values that need no calculation. -/
inductive ValueSense : NodeId → Sense → Prop
  | literal {id : NodeId} {k : Kind} (hop : literalKind? (file.tree.op id) = some k) : ValueSense id (.basic k)
  | name {id : NodeId} {role : Role} {S : Sense} (hop : file.tree.op id = .lit .ident)
      (hS : NameSense c D (file.tree.literal id) role S)
      (hrole : role = .constant ∨ role = .variable ∨ role = .function) : ValueSense id S
  | paren {id x : NodeId} {S : Sense} (hop : file.tree.op id = .op .lparen) (hpart : file.tree.part? id 0 = some x)
      (hS : D (.value x) S) : ValueSense id S

/-- The types that names have: a type has itself. -/
inductive EntitySense (entry : Entry) : Sense → Prop
  | declared (hrole : entry.role = .type) (hop : file.tree.op entry.spec = .kw .type) :
      EntitySense entry (.declared entry)
  | synonym {y : NodeId} {S : Sense} (hrole : entry.role = .type) (hop : file.tree.op entry.spec ≠ .kw .type)
      (htype : file.tree.part? entry.spec 1 = some y) (hS : D (.type y) S) : EntitySense entry S
  | typed {y : NodeId} {S : Sense} (hrole : entry.role = .constant ∨ entry.role = .variable)
      (htype : file.tree.part? entry.spec 1 = some y) (hS : D (.type y) S) : EntitySense entry S
  | constant {x : NodeId} {S : Sense} (hrole : entry.role = .constant)
      (htype : file.tree.part? entry.spec 1 = none) (hvalue : Initializes file entry x) (hS : D (.value x) S) :
      EntitySense entry S
  | initialized {x : NodeId} {S : Sense} (hrole : entry.role = .variable)
      (htype : file.tree.part? entry.spec 1 = none) (hvalue : Initializes file entry x) (hS : D (.value x) S) :
      EntitySense entry S.default
  | function {y : NodeId} {S : Sense} (hrole : entry.role = .function) (htype : file.tree.part? entry.spec 2 = some y)
      (hS : D (.type y) S) : EntitySense entry S

/-- What is said in answer to a question, if `D` answers those that it leads to. -/
inductive Rule : Question → Sense → Prop
  | type {id : NodeId} {S : Sense} (h : TypeSense file c D id S) : Rule (.type id) S
  | value {id : NodeId} {S : Sense} (h : ValueSense file c D id S) : Rule (.value id) S
  | name {entry : Entry} {S : Sense} (h : EntitySense file D entry S) : Rule (.name entry) S
  | meaning {entry : Entry} {y : NodeId} {S U : Sense} (htype : file.tree.part? entry.spec 1 = some y)
      (hS : D (.type y) S) (hU : Underlies c D S U) : Rule (.meaning entry) U

end Rules

/-- What a file says in answer to a question, by rules all the way down. -/
inductive Says (file : ParsedFile) (c : Setting) : Question → Sense → Prop
  | of_rule {D : Question → Sense → Prop} {q : Question} {S : Sense} (hrule : Rule file c D q S)
      (hD : ∀ r T, D r T → Says file c r T) : Says file c q S

theorem Rule.said {file : ParsedFile} {c : Setting} {q : Question} {S : Sense} (h : Rule file c (Says file c) q S) :
    Says file c q S :=
  .of_rule h fun _ _ hr => hr

/-! ### One answer -/

variable {file : ParsedFile} {c : Setting} {D D' : Question → Sense → Prop} {id : NodeId} {t : TypeId} {S T : Sense}
  {entry : Entry}

/-- What is related to a list and what is related to its image are the same, if they are so entry by entry. -/
theorem forall₂_unique {α β γ : Type} {R : α → γ → Prop} {R' : β → γ → Prop} {f : α → β} {xs : List α} {as bs : List γ}
    (h : List.Forall₂ R xs as) (h' : List.Forall₂ R' (xs.map f) bs)
    (hsame : ∀ x ∈ xs, ∀ a b, R x a → R' (f x) b → a = b) : as = bs := by
  induction h generalizing bs with
  | nil =>
      cases h'
      rfl
  | cons hx _ ih =>
      cases h' with
      | cons hx' hrest =>
          rw [hsame _ List.mem_cons_self _ _ hx hx', ih hrest fun y hy => hsame y (List.mem_cons_of_mem _ hy)]

/-- A type of the ground has one sense. -/
theorem Setting.Stands.unique (hS : c.Stands t S) (hT : c.Stands t T) : S = T := by
  induction hS generalizing T with
  | declared h => cases h
  | given h =>
      cases hT with
      | declared h => cases h
      | given => rfl
      | built hs hbuilt =>
          have hdeclared := h.1
          rw [hs, hbuilt] at hdeclared
          cases hdeclared
  | built hs hbuilt _ _ hparts _ ih =>
      cases hT with
      | declared h => cases h
      | given h =>
          have hdeclared := h.1
          rw [hs, hbuilt] at hdeclared
          cases hdeclared
      | built hs' _ _ _ hparts' hD' =>
          cases hs.symm.trans hs'
          rw [← List.map_id (Shape.components _)] at hparts'
          rw [forall₂_unique hparts hparts' fun x _ S T hS hT => ih x S hS (hD' x T hT)]

theorem Initializes.unique {x y : NodeId} (hforest : file.tree.Forest) (h : Initializes file entry x)
    (h' : Initializes file entry y) : x = y := by
  obtain ⟨hnames, hvalues, hname, hvalue⟩ := h
  obtain ⟨hnames', hvalues', hname', hvalue'⟩ := h'
  cases hnames.symm.trans hnames'
  cases hvalues.symm.trans hvalues'
  obtain ⟨hi, hname⟩ := List.getElem?_eq_some_iff.1 hname
  obtain ⟨hj, hname'⟩ := List.getElem?_eq_some_iff.1 hname'
  cases (List.Nodup.getElem_inj_iff (hforest.nodup _)).1 (hname.trans hname'.symm)
  exact Option.some.inj (hvalue.symm.trans hvalue')

/-- A constant comes down to one literal. -/
theorem States.unique {s s' : String} (hforest : file.tree.Forest) (h : States file c id s) (h' : States file c id s') :
    s = s' := by
  have hident : literalKind? (.lit .ident) = none := rfl
  have hlparen : literalKind? (.op .lparen) = none := rfl
  induction h generalizing s' with
  | literal hop =>
      cases h' with
      | literal => rfl
      | paren hop' => simp [hop', hlparen] at hop
      | declared hop' => simp [hop', hident] at hop
      | predeclared hop' => simp [hop', hident] at hop
  | paren hop hpart _ ih =>
      cases h' with
      | literal hop' => simp [hop, hlparen] at hop'
      | paren _ hpart' hx =>
          cases hpart.symm.trans hpart'
          exact ih hx
      | declared hop' => cases hop.symm.trans hop'
      | predeclared hop' => cases hop.symm.trans hop'
  | declared hop hname _ hvalue _ ih =>
      cases h' with
      | literal hop' => simp [hop, hident] at hop'
      | paren hop' => cases hop.symm.trans hop'
      | declared _ hname' _ hvalue' hx =>
          cases hname.symm.trans hname'
          cases hvalue.unique hforest hvalue'
          exact ih hx
      | predeclared _ hname' => cases hname.symm.trans hname'
  | predeclared hop hname hobj hv =>
      cases h' with
      | literal hop' => simp [hop, hident] at hop'
      | paren hop' => cases hop.symm.trans hop'
      | declared _ hname' => cases hname.symm.trans hname'
      | predeclared _ _ hobj' hv' =>
          cases hobj.symm.trans hobj'
          cases hv.symm.trans hv'
          rfl

/-! ### One layer -/

/-- Questions are answered alike. -/
def Unanimous (D D' : Question → Sense → Prop) : Prop :=
  ∀ q S T, D q S → D' q T → S = T

section

variable (hsame : Unanimous D D')
include hsame

theorem NameSense.unique {name : String} {role role' : Role} (hS : NameSense c D name role S)
    (hT : NameSense c D' name role' T) : S = T := by
  cases hS with
  | declared hname hS =>
      cases hT with
      | declared hname' hT =>
          cases hname.symm.trans hname'
          exact hsame _ _ _ hS hT
      | predeclared hname' => cases hname.symm.trans hname'
  | predeclared hname hobj ht hS =>
      cases hT with
      | declared hname' => cases hname.symm.trans hname'
      | predeclared _ hobj' ht' hT =>
          cases hobj.symm.trans hobj'
          cases ht.symm.trans ht'
          exact hS.unique hT

theorem FieldSense.unique {x y : List Sense × Bool} (hx : FieldSense file D id x) (hy : FieldSense file D' id y) :
    x = y := by
  cases hx with
  | plain htyp hop hlength hSs =>
      cases hy with
      | plain htyp' _ hlength' hTs =>
          cases htyp.symm.trans htyp'
          congr 1
          refine List.ext_getElem (hlength.trans hlength'.symm) fun i hi hi' => ?_
          exact hsame _ _ _ (hSs _ (List.getElem_mem hi)) (hTs _ (List.getElem_mem hi'))
      | variadic htyp' hop' =>
          cases htyp.symm.trans htyp'
          exact absurd hop' hop
  | variadic htyp hop helem hS =>
      cases hy with
      | plain htyp' hop' =>
          cases htyp.symm.trans htyp'
          exact absurd hop hop'
      | variadic htyp' _ helem' hT =>
          cases htyp.symm.trans htyp'
          cases helem.symm.trans helem'
          rw [hsame _ _ _ hS hT]

theorem fieldsSense_unique {fields : List NodeId} {xs ys : List (List Sense × Bool)}
    (hxs : List.Forall₂ (FieldSense file D) fields xs) (hys : List.Forall₂ (FieldSense file D') fields ys) :
    xs = ys := by
  rw [← List.map_id fields] at hys
  exact forall₂_unique hxs hys fun _ _ _ _ hx hy => hx.unique hsame hy

theorem SignatureSense.unique (hS : SignatureSense file D id S) (hT : SignatureSense file D' id T) : S = T := by
  cases hS with
  | intro hparams hresults =>
      cases hT with
      | intro hparams' hresults' =>
          rw [fieldsSense_unique hsame hparams hparams', fieldsSense_unique hsame hresults hresults']

theorem Underlies.unique {U V : Sense} (hU : Underlies c D S U) (hV : Underlies c D' S V) : U = V := by
  cases hU with
  | built =>
      cases hV
      rfl
  | declared hU =>
      cases hV with
      | declared hV => exact hsame _ _ _ hU hV
  | given _ hu hU =>
      cases hV with
      | given _ hu' hV =>
          cases hu.symm.trans hu'
          exact hU.unique hV

theorem MemberSense.unique {x y : (Method × Sense) ⊕ List (Method × Sense)} (hx : MemberSense file c D id x)
    (hy : MemberSense file c D' id y) : x = y := by
  cases hx with
  | method htyp hnames hname hS =>
      cases hy with
      | method htyp' hnames' hname' hT =>
          cases htyp.symm.trans htyp'
          cases hnames.symm.trans hnames'
          cases hname.symm.trans hname'
          rw [hS.unique hsame hT]
      | embedded _ hnames' => cases hnames.symm.trans hnames'
  | embedded htyp hnames hS hU =>
      cases hy with
      | method _ hnames' => cases hnames.symm.trans hnames'
      | embedded htyp' _ hT hV =>
          cases htyp.symm.trans htyp'
          cases hsame _ _ _ hS hT
          rw [Sense.interface_injective (hU.unique hsame hV)]

theorem TypeSense.unique (hforest : file.tree.Forest) (hS : TypeSense file c D id S) (hT : TypeSense file c D' id T) :
    S = T := by
  have hpart {place : Nat} {x y : NodeId} {S T : Sense} (hx : file.tree.part? id place = some x)
      (hy : file.tree.part? id place = some y) (hS : D (.type x) S) (hT : D' (.type y) T) : S = T := by
    cases hx.symm.trans hy
    exact hsame _ _ _ hS hT
  have hchan {dir : ChanDir} {token : Token} (hop : chanDir? (file.tree.op id) = some dir)
      (hop' : file.tree.op id = token) : chanDir? token = some dir := hop' ▸ hop
  cases hS with
  | name hop hS =>
      cases hT with
      | name _ hT => exact hS.unique hsame hT
      | chan hop' => cases hchan hop' hop
      | _ hop' => cases hop.symm.trans hop'
  | paren hop hx hS =>
      cases hT with
      | paren _ hy hT => exact hpart hx hy hS hT
      | chan hop' => cases hchan hop' hop
      | _ hop' => cases hop.symm.trans hop'
  | pointer hop hx hS =>
      cases hT with
      | pointer _ hy hT => rw [hpart hx hy hS hT]
      | chan hop' => cases hchan hop' hop
      | _ hop' => cases hop.symm.trans hop'
  | slice hop hlength hx hS =>
      cases hT with
      | slice _ _ hy hT => rw [hpart hx hy hS hT]
      | array _ hlength' => cases hlength.symm.trans hlength'
      | chan hop' => cases hchan hop' hop
      | _ hop' => cases hop.symm.trans hop'
  | array hop hlength hs hn hx hS =>
      cases hT with
      | slice _ hlength' => cases hlength.symm.trans hlength'
      | array _ hlength' hs' hn' hy hT =>
          cases hlength.symm.trans hlength'
          cases hs.unique hforest hs'
          cases hn.symm.trans hn'
          rw [hpart hx hy hS hT]
      | chan hop' => cases hchan hop' hop
      | _ hop' => cases hop.symm.trans hop'
  | map hop hkey hK helem hS =>
      cases hT with
      | map _ hkey' hK' helem' hT => rw [hpart hkey hkey' hK hK', hpart helem helem' hS hT]
      | chan hop' => cases hchan hop' hop
      | _ hop' => cases hop.symm.trans hop'
  | chan hop hx hS =>
      cases hT with
      | chan hop' hy hT =>
          cases hop.symm.trans hop'
          rw [hpart hx hy hS hT]
      | _ hop' => cases hchan hop hop'
  | func hop hS =>
      cases hT with
      | func _ hT => exact hS.unique hsame hT
      | chan hop' => cases hchan hop' hop
      | _ hop' => cases hop.symm.trans hop'
  | interface hop hmembers =>
      cases hT with
      | interface _ hmembers' =>
          rw [← List.map_id (file.tree.fields (some id))] at hmembers'
          rw [forall₂_unique hmembers hmembers' fun _ _ _ _ hx hy => hx.unique hsame hy]
      | chan hop' => cases hchan hop' hop
      | _ hop' => cases hop.symm.trans hop'

theorem ValueSense.unique (hS : ValueSense file c D id S) (hT : ValueSense file c D' id T) : S = T := by
  have hliteral {k : Kind} {token : Token} (hop : literalKind? (file.tree.op id) = some k)
      (hop' : file.tree.op id = token) : literalKind? token = some k := hop' ▸ hop
  cases hS with
  | literal hop =>
      cases hT with
      | literal hop' =>
          cases hop.symm.trans hop'
          rfl
      | _ hop' => cases hliteral hop hop'
  | name hop hS =>
      cases hT with
      | literal hop' => cases hliteral hop' hop
      | name _ hT => exact hS.unique hsame hT
      | paren hop' => cases hop.symm.trans hop'
  | paren hop hx hS =>
      cases hT with
      | literal hop' => cases hliteral hop' hop
      | name hop' => cases hop.symm.trans hop'
      | paren _ hy hT =>
          cases hx.symm.trans hy
          exact hsame _ _ _ hS hT

theorem EntitySense.unique (hforest : file.tree.Forest) (hS : EntitySense file D entry S)
    (hT : EntitySense file D' entry T) : S = T := by
  have htyped {place : Nat} {x y : NodeId} {S T : Sense} (hx : file.tree.part? entry.spec place = some x)
      (hy : file.tree.part? entry.spec place = some y) (hS : D (.type x) S) (hT : D' (.type y) T) : S = T := by
    cases hx.symm.trans hy
    exact hsame _ _ _ hS hT
  have hvalued {x y : NodeId} {S T : Sense} (hx : Initializes file entry x) (hy : Initializes file entry y)
      (hS : D (.value x) S) (hT : D' (.value y) T) : S = T := by
    cases hx.unique hforest hy
    exact hsame _ _ _ hS hT
  cases hS with
  | declared hrole hop =>
      cases hT with
      | declared => rfl
      | synonym _ hop' => exact absurd hop hop'
      | _ hrole' => simp [hrole] at hrole'
  | synonym hrole hop hx hS =>
      cases hT with
      | declared _ hop' => exact absurd hop' hop
      | synonym _ _ hy hT => exact htyped hx hy hS hT
      | _ hrole' => simp [hrole] at hrole'
  | typed hrole hx hS =>
      cases hT with
      | typed _ hy hT => exact htyped hx hy hS hT
      | constant _ hnone => cases hx.symm.trans hnone
      | initialized _ hnone => cases hx.symm.trans hnone
      | _ hrole' => simp [hrole'] at hrole
  | constant hrole hnone hx hS =>
      cases hT with
      | typed _ hy => cases hnone.symm.trans hy
      | constant _ _ hy hT => exact hvalued hx hy hS hT
      | _ hrole' => simp [hrole] at hrole'
  | initialized hrole hnone hx hS =>
      cases hT with
      | typed _ hy => cases hnone.symm.trans hy
      | initialized _ _ hy hT => rw [hvalued hx hy hS hT]
      | _ hrole' => simp [hrole] at hrole'
  | function hrole hx hS =>
      cases hT with
      | function _ hy hT => exact htyped hx hy hS hT
      | _ hrole' => simp [hrole] at hrole'

theorem Rule.unique (hforest : file.tree.Forest) {q : Question} (hS : Rule file c D q S) (hT : Rule file c D' q T) :
    S = T := by
  cases hS with
  | type hS =>
      cases hT with
      | type hT => exact hS.unique hsame hforest hT
  | value hS =>
      cases hT with
      | value hT => exact hS.unique hsame hT
  | name hS =>
      cases hT with
      | name hT => exact hS.unique hsame hforest hT
  | meaning hx hS hU =>
      cases hT with
      | meaning hy hT hV =>
          cases hx.symm.trans hy
          cases hsame _ _ _ hS hT
          exact hU.unique hsame hV

end

/-- A file says one thing only in answer to a question. -/
theorem Says.unique {q : Question} (hforest : file.tree.Forest) (hS : Says file c q S) (hT : Says file c q T) :
    S = T := by
  induction hS generalizing T with
  | of_rule hrule _ ih =>
      cases hT with
      | of_rule hrule' hD' =>
          exact hrule.unique (fun r S T hS hT => ih r S hS (hD' r T hT)) hforest hrule'

end GoSource
