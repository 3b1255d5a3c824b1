import GoSource.Proofs.Package.Answering

/-!
# The rules say what the file says

In a sane package, what the rules of resolution express stands for what the file says there.  The entities of names are
explained, so one layer of rules can be taken at a time.

* **`Package.Sane.name_sense`**, **`Package.Sane.states_name`**: what names stand for.
* **`TypeRule.signifies`**: a type expression signifies what it expresses, if its parts do.
* **`HasType`**, **`Evaluates`**: the answers for values and for constant expressions.
-/

namespace GoSource

open TypeTable

variable {file : ParsedFile} {start : TypeTable} {pkg : Package} {id : NodeId} {t u : TypeId}
  {S : Sense}

/-- What a list corresponds to entry by entry, if there is something for each entry. -/
theorem forall₂_exists {α β γ : Type} {P : α → β → Prop} {Q : α → γ → Prop} {R : β → γ → Prop} {as : List α}
    {bs : List β} (h : List.Forall₂ P as bs) (hP : ∀ a, ∀ b ∈ bs, P a b → ∃ c, Q a c ∧ R b c) :
    ∃ cs, List.Forall₂ Q as cs ∧ List.Forall₂ R bs cs := by
  induction h with
  | nil => exact ⟨[], .nil, .nil⟩
  | cons hfirst _ ih =>
      obtain ⟨c, hq, hr⟩ := hP _ _ List.mem_cons_self hfirst
      obtain ⟨cs, hqs, hrs⟩ := ih fun a b hb => hP a b (List.mem_cons_of_mem _ hb)
      exact ⟨c :: cs, .cons hq hqs, .cons hr hrs⟩

/-- What is embedded stands for an interface. -/
theorem interface_of_embedded {tt : TypeTable} {ms : List Method} (h : tt.embeddedMethods t = .ok ms) :
    ∃ u, tt.underlying? t = some u ∧ tt.shape u = .interface ms := by
  rw [embeddedMethods, underlyingShape?] at h
  cases hu : tt.underlying? t with
  | none =>
      rw [hu] at h
      cases h
  | some u =>
      rw [hu, Option.map_some] at h
      cases hs : tt.shape u with
      | interface =>
          rw [hs] at h
          cases h
          exact ⟨u, rfl, hs⟩
      | _ =>
          rw [hs] at h
          cases h

theorem embedded_of_inherited {tt : TypeTable} {embedded : List TypeId} {inherited : List (List Method)}
    (h : embedded.mapM tt.embeddedMethods = .ok inherited) (ht : t ∈ embedded) :
    ∃ ms, tt.embeddedMethods t = .ok ms := by
  induction embedded generalizing inherited with
  | nil => cases ht
  | cons x embedded ih =>
      rw [List.mapM_cons, bind_eq_ok] at h
      obtain ⟨ms, hms, h⟩ := h
      obtain ⟨others, hothers, -⟩ := bind_eq_ok.1 h
      obtain rfl | ht := List.mem_cons.1 ht
      · exact ⟨ms, hms⟩
      · exact ih hothers ht

namespace Package.Sane

variable {name : String} {obj : Object} (h : pkg.Sane file start)
include h

theorem extends_start : Extends start pkg.types :=
  (h.begins.grows h.origin).toExtends

/-- What was there before stands for what it did. -/
theorem stands_ground (hS : (pkg.setting start).Stands t S) : pkg.Stands file start t S :=
  hS.later h.extends_start nofun

theorem ne_invalid {s : Shape} (hs : pkg.types.shape t = s) (hvalid : s ≠ .basic .invalid) : t ≠ TypeTable.invalid := by
  rintro rfl
  exact hvalid (hs.symm.trans h.regular.shape_invalid)

theorem ne_invalid_of_valid (hvalid : pkg.types.isInvalid t = false) :
    t ≠ TypeTable.invalid := by
  rintro rfl
  rw [h.regular.isInvalid_invalid] at hvalid
  cases hvalid

theorem isDeclared_of_coins (entry : Entry) (t : TypeId) (hcoins : pkg.Coins file entry t) :
    (pkg.types.shape t).isDeclared = true := by
  obtain ⟨-, _, _, hs⟩ := h.coined hcoins
  rw [hs]
  rfl

/-- A name has the type that the file says. -/
theorem name_sense (hobj : pkg.lookup name = some obj) (hrole : obj.role ≠ .builtin) (ht : obj.typ = some t)
    (hvalid : t ≠ TypeTable.invalid) :
    ∃ S, NameSense (pkg.setting start) (Says file (pkg.setting start)) name obj.role S ∧ pkg.Stands file start t S := by
  rw [lookup] at hobj
  cases hname : pkg.declared? name with
  | some entry =>
      rw [hname] at hobj
      have hformed := h.formed entry (h.toOrderly.declared name entry hname) obj hobj
      obtain ⟨S, hS, hstands⟩ := hformed.explained.sense t ht hvalid
      rw [hformed.role_eq]
      exact ⟨S, .declared hname hS, hstands⟩
  | none =>
      rw [hname] at hobj
      obtain ⟨S, hS, -⟩ := h.grounded.sense obj (List.mem_of_find?_eq_some hobj) hrole t ht
      exact ⟨S, .predeclared hname hobj ht hS, h.stands_ground hS⟩

/-- A constant has the literal that the file says. -/
theorem states_name {v : ConstValue} (hop : file.tree.op id = .lit .ident)
    (hobj : pkg.lookup (file.tree.literal id) = some obj) (hrole : obj.role = .constant) (hv : obj.value = some v) :
    States file (pkg.setting start) id v.literal := by
  rw [lookup] at hobj
  cases hname : pkg.declared? (file.tree.literal id) with
  | some entry =>
      rw [hname] at hobj
      have hformed := h.formed entry (h.toOrderly.declared _ entry hname) obj hobj
      obtain ⟨x, hx, hstates⟩ := hformed.explained.value v hv
      exact .declared hop hname (hformed.role_eq.symm.trans hrole) hx hstates
  | none =>
      rw [hname] at hobj
      exact .predeclared hop hname hobj hv

end Package.Sane

/-! ### Rules -/

section

variable (h : pkg.Sane file start)
include h

/-- The length of an array is that of a constant. -/
theorem Counts.states {n : Nat} (hn : Counts file pkg id n) :
    ∃ s, States file (pkg.setting start) id s ∧ Literal.integerValue? s = some n := by
  cases hn with
  | literal hop hn => exact ⟨_, .literal (by rw [hop]; rfl), hn⟩
  | constant hop hobj hrole hv hn => exact ⟨_, h.states_name hop hobj hrole hv, hn⟩

omit h in
/-- Types stand for what others do, entry by entry. -/
theorem stands_params {xs : List (List TypeId × Bool)} {ys : List (List Sense × Bool)}
    (hxs : List.Forall₂ (fun x y => List.Forall₂ (pkg.Stands file start) x.1 y.1 ∧ x.2 = y.2) xs ys) :
    List.Forall₂ (pkg.Stands file start) (xs.flatMap Prod.fst) (ys.flatMap Prod.fst) ∧
      xs.any Prod.snd = ys.any Prod.snd := by
  induction hxs with
  | nil => exact ⟨.nil, rfl⟩
  | cons hfirst _ ih =>
      simp only [List.flatMap_cons, List.any_cons, hfirst.2, ih.2, and_true]
      exact List.rel_append hfirst.1 ih.1

omit h in
theorem FieldRule.sense {x : List TypeId × Bool} (hx : FieldRule file pkg (Signifies file start pkg) id x) :
    ∃ y, FieldSense file (Says file (pkg.setting start)) id y ∧
      List.Forall₂ (pkg.Stands file start) x.1 y.1 ∧ x.2 = y.2 := by
  cases hx with
  | @plain typ ts htyp hop hlength hts =>
      have hall : List.Forall₂ (fun t t' => t = t') ts ts := List.forall₂_same.2 fun _ _ => rfl
      obtain ⟨Ss, hSs, hstands⟩ := forall₂_exists (Q := fun _ S => Says file (pkg.setting start) (.type typ) S)
        (R := pkg.Stands file start) hall fun _ t ht _ => (hts t ht).sense
      have hsays (S : Sense) (hS : S ∈ Ss) : Says file (pkg.setting start) (.type typ) S := by
        obtain ⟨i, hi, rfl⟩ := List.mem_iff_getElem.1 hS
        exact (List.forall₂_iff_get.1 hSs).2 i (hSs.length_eq ▸ hi) hi
      exact ⟨(Ss, false), .plain htyp hop (hSs.length_eq.symm.trans hlength) hsays, hstands, rfl⟩
  | variadic htyp hop helem he hs =>
      obtain ⟨S, hS, hstands⟩ := he.sense
      exact ⟨_, .variadic htyp hop helem hS, .cons (.of_shape hs rfl (by simp) nofun (.cons hstands .nil)) .nil, rfl⟩

omit h in
/-- A variadic function ends in a slice if only its last field is variadic. -/
theorem FieldRule.spreads {D : NodeId → TypeId → Prop} {fields : List NodeId} {xs : List (List TypeId × Bool)}
    (hxs : List.Forall₂ (FieldRule file pkg D) fields xs) (hlast : ∀ x ∈ xs.dropLast, x.2 = false) (rs : List TypeId) :
    pkg.types.Spreads (.func (xs.flatMap Prod.fst) rs (xs.any Prod.snd)) := by
  induction hxs with
  | nil => rintro ps rs' ⟨⟩
  | @cons field x fields xs hfirst hrest ih =>
      cases hrest with
      | nil =>
          cases hfirst with
          | plain => rintro ps rs' ⟨⟩
          | @variadic _ _ e t _ _ _ _ hslice =>
              rintro ps rs' ⟨⟩
              exact ⟨t, e, rfl, hslice⟩
      | @cons field' y fields ys _ _ =>
          intro ps rs' hs
          obtain ⟨rfl, -, hany⟩ := Shape.func.inj hs
          rw [List.dropLast_cons_cons] at hlast
          rw [List.any_cons, hlast x List.mem_cons_self, Bool.false_or] at hany
          obtain ⟨p, e, hp, hslice⟩ := ih (fun z hz => hlast z (List.mem_cons_of_mem _ hz)) _ rs (by rw [hany])
          exact ⟨p, e, by rw [List.flatMap_cons, List.getLast?_append, hp, Option.some_or], hslice⟩

/-- A signature is of a type that ends in a slice if it is variadic. -/
structure SignatureSignifies (file : ParsedFile) (start : TypeTable) (pkg : Package) (id : NodeId) (t : TypeId) :
    Prop where
  rule : SignatureRule file pkg (Signifies file start pkg) id t
  spreads : pkg.types.Spreads (pkg.types.shape t)

omit h in
theorem SignatureSignifies.sense (ht : SignatureSignifies file start pkg id t) :
    ∃ S, SignatureSense file (Says file (pkg.setting start)) id S ∧ pkg.Stands file start t S := by
  obtain ⟨hrule, hspreads⟩ := ht
  cases hrule with
  | intro hparams hresults hs =>
      obtain ⟨ps, hps, hparams⟩ := forall₂_exists hparams fun _ _ _ hx => hx.sense
      obtain ⟨rs, hrs, hresults⟩ := forall₂_exists hresults fun _ _ _ hx => hx.sense
      obtain ⟨hparams, hvariadic⟩ := stands_params hparams
      obtain ⟨hresults, -⟩ := stands_params hresults
      refine ⟨_, .intro hps hrs, ?_⟩
      rw [hs, hvariadic] at hspreads
      exact .func (hvariadic ▸ hs) hspreads hparams hresults

/-- A member of an interface. -/
structure MemberSignifies (file : ParsedFile) (start : TypeTable) (pkg : Package) (id : NodeId)
    (member : Meanings.Member) : Prop where
  rule : MemberRule file pkg (Signifies file start pkg) id member
  spreads : ∀ m, member = .method m → pkg.types.Spreads (pkg.types.shape m.typ)

/-- A member of an interface brings the methods that the file says. -/
def BringsMethods (file : ParsedFile) (start : TypeTable) (pkg : Package) :
    Meanings.Member → (Method × Sense) ⊕ List (Method × Sense) → Prop
  | .method m, .inl p => StandsMethod (pkg.setting start) pkg.types (pkg.Coins file) m p
  | .embedded t, .inr ps => ∀ ms, pkg.types.embeddedMethods t = .ok ms →
      List.Forall₂ (StandsMethod (pkg.setting start) pkg.types (pkg.Coins file)) ms ps
  | _, _ => False

theorem MemberSignifies.sense {member : Meanings.Member} (hmember : MemberSignifies file start pkg id member)
    (hembedded : ∀ t, member = .embedded t → ∃ ms, pkg.types.embeddedMethods t = .ok ms) :
    ∃ y, MemberSense file (pkg.setting start) (Says file (pkg.setting start)) id y ∧
      BringsMethods file start pkg member y := by
  obtain ⟨hrule, hspreads⟩ := hmember
  cases hrule with
  | method htyp hnames hname ht =>
      obtain ⟨S, hS, hstands⟩ := SignatureSignifies.sense ⟨ht, hspreads _ rfl⟩
      exact ⟨_, .method htyp hnames hname hS, rfl, hstands⟩
  | @embedded typ t htyp hnames ht =>
      obtain ⟨ms, hms⟩ := hembedded t rfl
      obtain ⟨S, hS, hstands⟩ := ht.sense
      obtain ⟨u, hu, hs⟩ := interface_of_embedded hms
      obtain ⟨U, hU, hunder⟩ := h.underlies hstands hu (h.ne_invalid hs (by simp))
      obtain ⟨ps, rfl, hps⟩ := hunder.of_interface h.extends_start h.isDeclared_of_coins hs
      refine ⟨.inr ps, .embedded htyp hnames hS hU, fun ms' hms' => ?_⟩
      cases hms.symm.trans hms'
      exact hps

omit h in
theorem stands_members {members : List Meanings.Member} {ys : List ((Method × Sense) ⊕ List (Method × Sense))}
    (hys : List.Forall₂ (BringsMethods file start pkg) members ys) :
    List.Forall₂ (StandsMethod (pkg.setting start) pkg.types (pkg.Coins file)) (methodsOf members)
        (ys.filterMap Sum.getLeft?) ∧
      List.Forall₂ (fun t ps => ∀ ms, pkg.types.embeddedMethods t = .ok ms →
        List.Forall₂ (StandsMethod (pkg.setting start) pkg.types (pkg.Coins file)) ms ps) (embeddedOf members)
        (ys.filterMap Sum.getRight?) := by
  induction hys with
  | nil => exact ⟨.nil, .nil⟩
  | @cons member y _ _ hfirst _ ih =>
      cases member with
      | method m =>
          cases y with
          | inl p => exact ⟨.cons hfirst ih.1, ih.2⟩
          | inr ps => exact hfirst.elim
      | embedded t =>
          cases y with
          | inl p => exact hfirst.elim
          | inr ps => exact ⟨ih.1, .cons hfirst ih.2⟩

/-- A type expression that contains no signature signifies what it expresses, if its parts do. -/
theorem TypeRule.signifies (ht : TypeRule file pkg (Signifies file start pkg) id t) (hvalid : t ≠ TypeTable.invalid)
    (hfunc : file.tree.op id ≠ .kw .func) (hinterface : file.tree.op id ≠ .kw .interface) :
    Signifies file start pkg id t := by
  refine ⟨(ht.later (.refl pkg) fun _ _ h => h.expressed).expresses, ?_⟩
  have hsaid {S : Sense} (hS : TypeSense file (pkg.setting start) (Says file (pkg.setting start)) id S)
      (hstands : pkg.Stands file start t S) :
      ∃ S, Says file (pkg.setting start) (.type id) S ∧ pkg.Stands file start t S :=
    ⟨S, (Rule.type hS).said, hstands⟩
  cases ht with
  | name hop hobj hrole ht =>
      obtain ⟨S, hS, hstands⟩ := h.name_sense hobj (by simp [hrole]) ht hvalid
      exact hsaid (.name hop (hrole ▸ hS)) hstands
  | paren hop hpart ht =>
      obtain ⟨S, hS, hstands⟩ := ht.sense
      exact hsaid (.paren hop hpart hS) hstands
  | pointer hop hpart he hs =>
      obtain ⟨S, hS, hstands⟩ := he.sense
      exact hsaid (.pointer hop hpart hS) (.of_shape hs rfl (by simp) nofun (.cons hstands .nil))
  | slice hop hlength hpart he hs =>
      obtain ⟨S, hS, hstands⟩ := he.sense
      exact hsaid (.slice hop hlength hpart hS) (.of_shape hs rfl (by simp) nofun (.cons hstands .nil))
  | array hop hlength hn hpart he hs =>
      obtain ⟨S, hS, hstands⟩ := he.sense
      obtain ⟨s, hstates, hn⟩ := hn.states h
      exact hsaid (.array hop hlength hstates hn hpart hS) (.of_shape hs rfl (by simp) nofun (.cons hstands .nil))
  | map hop hkey hk helem he hs =>
      obtain ⟨K, hK, hkstands⟩ := hk.sense
      obtain ⟨S, hS, hstands⟩ := he.sense
      exact hsaid (.map hop hkey hK helem hS)
        (.of_shape hs rfl (by simp) nofun (.cons hkstands (.cons hstands .nil)))
  | chan hop hpart he hs =>
      obtain ⟨S, hS, hstands⟩ := he.sense
      exact hsaid (.chan hop hpart hS) (.of_shape hs rfl (by simp) nofun (.cons hstands .nil))
  | func hop => exact absurd hop hfunc
  | interface hop => exact absurd hop hinterface

omit h in
/-- A function type signifies what its signature does. -/
theorem signifies_func (hop : file.tree.op id = .kw .func) (ht : SignatureSignifies file start pkg id t) :
    Signifies file start pkg id t := by
  obtain ⟨S, hS, hstands⟩ := ht.sense
  exact ⟨(TypeRule.func hop (ht.rule.later (.refl pkg) fun _ _ h => h.expressed)).expresses, S,
    (Rule.type (.func hop hS)).said, hstands⟩

/-- An interface signifies what its members do. -/
theorem signifies_interface {members : List Meanings.Member} {ms : List Method}
    (hop : file.tree.op id = .kw .interface)
    (hmembers : List.Forall₂ (MemberSignifies file start pkg) (file.tree.fields (some id)) members)
    (hmerge : pkg.types.mergeMethods (embeddedOf members) (methodsOf members) = .ok ms)
    (hs : pkg.types.shape t = .interface ms) : Signifies file start pkg id t := by
  obtain ⟨inherited, -, hinherited, -⟩ := mergeMethods_eq_ok.1 hmerge
  obtain ⟨ys, hys, hbrings⟩ := forall₂_exists hmembers fun _ member hmem hmember =>
    hmember.sense h fun t ht => embedded_of_inherited hinherited (List.mem_filterMap.2 ⟨member, hmem, by rw [ht]⟩)
  obtain ⟨hdirect, hembedded⟩ := stands_members hbrings
  refine ⟨(TypeRule.interface hop (hmembers.imp fun _ _ hmember => ?_) hmerge hs).expresses, _,
    (Rule.type (.interface hop hys)).said, .interface hs (forall₂_mergeMethods hdirect hembedded hmerge)⟩
  exact hmember.rule.later (.refl pkg) fun _ _ h => h.expressed

end

/-! ### Rules at later times -/

section

variable {pkg' : Package} (hretains : Retains file pkg pkg')
include hretains

theorem SignatureSignifies.later (h : SignatureSignifies file start pkg id t) :
    SignatureSignifies file start pkg' id t := by
  refine ⟨h.rule.later hretains fun _ _ hx => hx.later hretains, ?_⟩
  obtain ⟨hrule, hspreads⟩ := h
  cases hrule with
  | intro _ _ hs =>
      rw [hs] at hspreads
      rw [shape_later hretains hs rfl (by simp)]
      exact hspreads.later hretains.extends_types

theorem MemberSignifies.later {member : Meanings.Member} (h : MemberSignifies file start pkg id member) :
    MemberSignifies file start pkg' id member := by
  refine ⟨h.rule.later hretains fun _ _ hx => hx.later hretains, ?_⟩
  obtain ⟨hrule, hspreads⟩ := h
  cases hrule with
  | method _ _ _ ht =>
      rintro m ⟨⟩
      exact (SignatureSignifies.later hretains ⟨ht, hspreads _ rfl⟩).spreads
  | embedded => exact nofun

end

/-! ### Values -/

/-- The answer to the question of which type a value is: a type that stands for what the file says, or the invalid
type. -/
structure HasType (file : ParsedFile) (start : TypeTable) (id : NodeId) (t : TypeId) (pkg : Package) : Prop where
  knows : pkg.types.Knows t
  sense : t ≠ TypeTable.invalid → ∃ S, Says file (pkg.setting start) (.value id) S ∧ pkg.Stands file start t S

/-- The value and the type of a constant expression. -/
structure Evaluates (file : ParsedFile) (start : TypeTable) (id : NodeId) (x : ConstValue × TypeId) (pkg : Package) :
    Prop where
  suits : pkg.types.Suits x.1 x.2
  typed : HasType file start id x.2 pkg
  states : States file (pkg.setting start) id x.1.literal

section

variable (h : pkg.Sane file start)
include h

/-- A literal is of the type of its kind. -/
theorem evaluates_literal {k : Kind} (hop : literalKind? (file.tree.op id) = some k) :
    Evaluates file start id ({ kind := k, literal := file.tree.literal id }, basic k) pkg := by
  have hbasic := Meanings.isBasic_of_literalKind? hop
  have hsuits := h.sound.suits_basic hbasic (file.tree.literal id)
  exact ⟨hsuits, ⟨hsuits.knows, fun _ => ⟨.basic k, (Rule.value (.literal hop)).said, h.sound.stands_basic hbasic⟩⟩,
    .literal (Option.isSome_of_mem hop)⟩

/-- A name that is used as a value is of the type that it has. -/
theorem hasType_name {obj : Object} (hop : file.tree.op id = .lit .ident)
    (hobj : pkg.lookup (file.tree.literal id) = some obj)
    (hrole : obj.role = .constant ∨ obj.role = .variable ∨ obj.role = .function) (ht : obj.typ = some t)
    (hknown : pkg.types.Knows t) : HasType file start id t pkg := by
  refine ⟨hknown, fun hvalid => ?_⟩
  have hbuiltin : obj.role ≠ .builtin := by
    intro hbuiltin
    rw [hbuiltin] at hrole
    simp at hrole
  obtain ⟨S, hS, hstands⟩ := h.name_sense hobj hbuiltin ht hvalid
  exact ⟨S, (Rule.value (.name hop hS hrole)).said, hstands⟩

end

theorem HasType.paren {x : NodeId} (hop : file.tree.op id = .op .lparen) (hpart : file.tree.part? id 0 = some x)
    (h : HasType file start x t pkg) : HasType file start id t pkg := by
  refine ⟨h.knows, fun hvalid => ?_⟩
  obtain ⟨S, hS, hstands⟩ := h.sense hvalid
  exact ⟨S, (Rule.value (.paren hop hpart hS)).said, hstands⟩

theorem Evaluates.paren {x : NodeId} {v : ConstValue × TypeId} (hop : file.tree.op id = .op .lparen)
    (hpart : file.tree.part? id 0 = some x) (h : Evaluates file start x v pkg) : Evaluates file start id v pkg :=
  ⟨h.suits, h.typed.paren hop hpart, .paren hop hpart h.states⟩

/-! ### Default types -/

/-- Only basic types have a default. -/
theorem Shape.basic_of_defaultKind? {s : Shape} (hs : (defaultKind? s.kind).isSome) : ∃ k, s = .basic k := by
  cases s with
  | basic k => exact ⟨k, rfl⟩
  | _ => cases hs

/-- What stands for a basic type is one. -/
theorem eq_basic_of_stands (h : pkg.Sane file start) {k : Kind} (hs : pkg.types.shape t = .basic k)
    (hS : pkg.Stands file start t S) : S = .basic k := by
  cases hS with
  | declared hcoins =>
      have hdeclared := h.isDeclared_of_coins _ t hcoins
      rw [hs] at hdeclared
      cases hdeclared
  | given hgiven =>
      cases hground : start.shape t with
      | named =>
          obtain ⟨_, _, hs', -⟩ := h.extends_start.named_eq hground
          cases hs'.symm.trans hs
      | _ =>
          have hdeclared := hgiven.1
          rw [show (pkg.setting start).ground.types = start from rfl, hground] at hdeclared
          cases hdeclared
  | built hs' _ _ _ hparts =>
      cases hs'.symm.trans hs
      cases hparts
      rfl

/-- A declared type is its own default. -/
theorem defaultKind?_of_declared (h : pkg.Sane file start) (hS : pkg.Stands file start t S)
    (hdeclared : ∀ form parts, S ≠ .built form parts) : defaultKind? (pkg.types.kind t) = none := by
  cases hu : pkg.types.underlying? t with
  | none =>
      rw [h.sound.kind_eq_underlying, underlyingShape?, hu]
      rfl
  | some u =>
      have hkind : pkg.types.kind t = (pkg.types.shape u).kind := by
        rw [h.sound.kind_eq_underlying, underlyingShape?, hu]
        rfl
      by_contra hsome
      have hsome := Option.isSome_iff_ne_none.2 hsome
      obtain ⟨k, hk⟩ := Shape.basic_of_defaultKind? (hkind ▸ hsome)
      have hvalid : u ≠ TypeTable.invalid := by
        rintro rfl
        rw [hkind, h.regular.shape_invalid] at hsome
        cases hsome
      obtain ⟨U, hunder, hU⟩ := h.underlies hS hu hvalid
      have htyped : U.IsTyped := by
        cases hunder with
        | built => exact absurd rfl (hdeclared _ _)
        | declared hU => exact hU.typed h.grounded trivial
        | given hgiven hu hU =>
            obtain ⟨u', U', hu', hU', htyped⟩ := h.grounded.meaning _ hgiven
            cases hu.symm.trans hu'
            rwa [hU.unique hU']
      rw [hkind, hk, Shape.kind, htyped k (eq_basic_of_stands h hk hU)] at hsome
      cases hsome

/-- The default type of what stands for something stands for the default of that. -/
theorem stands_default (h : pkg.Sane file start) (hS : pkg.Stands file start t S) :
    pkg.Stands file start ((defaultKind? (pkg.types.kind t)).elim t TypeTable.basic) S.default := by
  cases S with
  | declared | given =>
      rw [defaultKind?_of_declared h hS nofun]
      exact hS
  | built form parts =>
      have hstands := hS
      cases hS with
      | @built _ _ s _ hs hbuilt _ _ hparts =>
          have hkind : pkg.types.kind t = s.kind := by
            rw [h.sound.kind_eq_kindOf, kindOf_of_built (hs ▸ hbuilt), hs]
          rw [hkind]
          cases hdefault : defaultKind? s.kind with
          | none =>
              rw [Sense.default_eq]
              · exact hstands
              · intro k heq
                rw [← hdefault, ← Shape.kind_form, (Sense.built.inj heq).1]
                rfl
          | some k' =>
              obtain ⟨k, rfl⟩ := Shape.basic_of_defaultKind? (Option.isSome_of_mem hdefault)
              cases hparts
              show pkg.Stands file start (TypeTable.basic k') (.basic ((defaultKind? (Shape.basic k).kind).getD k))
              rw [hdefault]
              exact h.sound.stands_basic (Meanings.isBasic_of_defaultKind? hdefault)

end GoSource
