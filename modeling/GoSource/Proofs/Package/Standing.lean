import GoSource.Proofs.Package.Senses

/-!
# What types stand for

A type stands for its sense at all later times.  Types with senses in common are put together alike.

* **`Stands.later`**: a sense is kept.
* **`forall₂_mergeMethods`**: the methods of an interface and their senses are merged alike.
* **`Setting.Grounded`**: what has to be known about the names that need no declaration.
* **`Says.typed`**: what a file says of types is not said of untyped constants.
-/

namespace GoSource

open TypeTable

variable {file : ParsedFile} {c : Setting} {tt tt' : TypeTable} {owns owns' : Entry → TypeId → Prop} {t u : TypeId}
  {S : Sense}

/-! ### Later -/

/-- A type keeps its sense. -/
theorem Stands.later (h : Stands c tt owns t S) (hext : Extends tt tt') (howns : ∀ e t, owns e t → owns' e t) :
    Stands c tt' owns' t S := by
  induction h with
  | declared h => exact .declared (howns _ _ h)
  | given h => exact .given h
  | built hs hbuilt hvalid hspreads hparts _ ih =>
      exact .built (hext.shape_of_built hs hbuilt hvalid) hbuilt hvalid (hspreads.later hext) hparts ih

/-- A type that is built, and is no function, stands for what its parts do. -/
theorem Stands.of_shape {s : Shape} {parts : List Sense} (hs : tt.shape t = s) (hbuilt : s.isDeclared = false)
    (hvalid : s ≠ .basic .invalid) (hfunc : s.kind ≠ .func)
    (hparts : List.Forall₂ (Stands c tt owns) s.components parts) :
    Stands c tt owns t (.built s.form parts) :=
  .built hs hbuilt hvalid (fun _ _ h => absurd (h ▸ rfl) hfunc) hparts fun _ _ h => h

/-- So does a function. -/
theorem Stands.func {ps rs : List TypeId} {variadic : Bool} {params results : List Sense}
    (hs : tt.shape t = .func ps rs variadic) (hspreads : tt.Spreads (.func ps rs variadic))
    (hps : List.Forall₂ (Stands c tt owns) ps params) (hrs : List.Forall₂ (Stands c tt owns) rs results) :
    Stands c tt owns t (.func params results variadic) := by
  have h : Stands c tt owns t (.built (Shape.func ps rs variadic).form (params ++ results)) :=
    .built hs rfl (by simp) hspreads (List.rel_append hps hrs) fun _ _ h => h
  rw [Shape.form, Shape.renamed, Shape.form_eq_const hps.length_eq, Shape.form_eq_const hrs.length_eq] at h
  exact h

/-- A basic type stands for itself. -/
theorem TypeTable.Sound.stands_basic (h : tt.Sound) {k : Kind} (hk : k.isBasic = true) :
    Stands c tt owns (basic k) (.basic k) := by
  refine .of_shape (h.basics k hk) rfl ?_ ?_ .nil
  · rintro ⟨⟩
    cases hk
  · rintro hfunc
    rw [show (Shape.basic k).kind = k from rfl] at hfunc
    rw [hfunc] at hk
    cases hk

/-! ### Methods -/

/-- A method, and its form with the sense of its type. -/
def StandsMethod (c : Setting) (tt : TypeTable) (owns : Entry → TypeId → Prop) (m : Method) (p : Method × Sense) :
    Prop :=
  p.1 = m.form ∧ Stands c tt owns m.typ p.2

/-- Lists that correspond are sorted alike. -/
theorem forall₂_mergeSort {α β : Type} {R : α → β → Prop} {xs : List α} {ys : List β} {le : α → α → Bool}
    {le' : β → β → Bool} (h : List.Forall₂ R xs ys) (hle : ∀ x y x' y', R x y → R x' y' → le x x' = le' y y') :
    List.Forall₂ R (xs.mergeSort le) (ys.mergeSort le') := by
  have hzip : ∀ z ∈ xs.zip ys, R z.1 z.2 := fun z hz => (List.forall₂_iff_zip.1 h).2 hz
  have hfst : (xs.zip ys).map Prod.fst = xs := List.map_fst_zip (Nat.le_of_eq h.length_eq)
  have hsnd : (xs.zip ys).map Prod.snd = ys := List.map_snd_zip (Nat.le_of_eq h.length_eq.symm)
  have hsort : ((xs.zip ys).mergeSort fun z w => le z.1 w.1).map Prod.fst = xs.mergeSort le := by
    conv_rhs => rw [← hfst]
    exact List.map_mergeSort fun _ _ _ _ => rfl
  have hsort' : ((xs.zip ys).mergeSort fun z w => le z.1 w.1).map Prod.snd = ys.mergeSort le' := by
    conv_rhs => rw [← hsnd]
    exact List.map_mergeSort fun z hz w hw => hle _ _ _ _ (hzip z hz) (hzip w hw)
  rw [← hsort, ← hsort', List.forall₂_map_left_iff, List.forall₂_map_right_iff]
  exact List.forall₂_same.2 fun z hz => hzip z (List.mem_mergeSort.1 hz)

theorem forall₂_appendMethods {acc ms merged : List Method} {accSense ps : List (Method × Sense)}
    (hacc : List.Forall₂ (StandsMethod c tt owns) acc accSense) (hms : List.Forall₂ (StandsMethod c tt owns) ms ps)
    (h : ms.foldlM appendMethod acc = .ok merged) :
    List.Forall₂ (StandsMethod c tt owns) merged (ps.foldl appendSense accSense) := by
  induction hms generalizing acc accSense with
  | nil =>
      cases h
      exact hacc
  | @cons m p ms ps hm _ ih =>
      rw [List.foldlM_cons, bind_eq_ok] at h
      obtain ⟨next, hnext, h⟩ := h
      refine ih ?_ h
      cases hacc with
      | nil =>
          cases hnext
          exact .cons hm .nil
      | @cons last q rest rest' hlast hrest =>
          have hname : q.1.sameName p.1 = last.sameName m := by
            rw [hlast.1, hm.1]
            rfl
          rw [appendSense, hname]
          rw [appendMethod] at hnext
          cases hsame : last.sameName m with
          | false =>
              rw [hsame] at hnext
              cases hnext
              exact .cons hm (.cons hlast hrest)
          | true =>
              rw [hsame] at hnext
              simp only [Bool.not_true, Bool.false_eq_true, if_false] at hnext
              split at hnext
              · cases hnext
                exact .cons hlast hrest
              · cases hnext

/-- Methods and their senses are merged alike. -/
theorem forall₂_mergeMethods {direct ms : List Method} {embedded : List TypeId} {ps : List (Method × Sense)}
    {pss : List (List (Method × Sense))} (hdirect : List.Forall₂ (StandsMethod c tt owns) direct ps)
    (hembedded : List.Forall₂ (fun t ps => ∀ ms, tt.embeddedMethods t = .ok ms →
      List.Forall₂ (StandsMethod c tt owns) ms ps) embedded pss)
    (h : tt.mergeMethods embedded direct = .ok ms) :
    List.Forall₂ (StandsMethod c tt owns) ms (mergeSenses (ps ++ pss.flatten)) := by
  obtain ⟨inherited, merged, hinherited, -, hmerged, -, rfl⟩ := mergeMethods_eq_ok.1 h
  have hflatten : List.Forall₂ (StandsMethod c tt owns) inherited.flatten pss.flatten := by
    clear hmerged h
    induction hembedded generalizing inherited with
    | nil =>
        cases hinherited
        exact .nil
    | cons hfirst _ ih =>
        rw [List.mapM_cons, bind_eq_ok] at hinherited
        obtain ⟨ms, hms, hrest⟩ := hinherited
        obtain ⟨others, hothers, hrest⟩ := bind_eq_ok.1 hrest
        cases hrest
        exact List.rel_append (hfirst ms hms) (ih others hothers)
  refine List.rel_reverse (forall₂_appendMethods .nil (forall₂_mergeSort (List.rel_append hdirect hflatten) ?_) hmerged)
  rintro m p n q ⟨hp, -⟩ ⟨hq, -⟩
  rw [hp, hq]
  rfl

/-- Methods that stand for what others do: their forms, and the senses of their types. -/
theorem forms_of_methods {ms : List Method} {ps : List (Method × Sense)}
    (h : List.Forall₂ (StandsMethod c tt owns) ms ps) :
    ps.map Prod.fst = ms.map Method.form ∧
      List.Forall₂ (Stands c tt owns) (ms.map Method.typ) (ps.map Prod.snd) := by
  refine ⟨?_, ?_⟩
  · rw [← List.forall₂_eq_eq_eq, List.forall₂_map_left_iff, List.forall₂_map_right_iff]
    exact h.flip.imp fun _ _ hm => hm.1
  · rw [List.forall₂_map_left_iff, List.forall₂_map_right_iff]
    exact h.imp fun _ _ hm => hm.2

/-- An interface stands for what its methods do. -/
theorem Stands.interface {ms : List Method} {ps : List (Method × Sense)} (hs : tt.shape t = .interface ms)
    (h : List.Forall₂ (StandsMethod c tt owns) ms ps) : Stands c tt owns t (.interface ps) := by
  obtain ⟨hforms, htypes⟩ := forms_of_methods h
  rw [Sense.interface, hforms]
  exact .of_shape hs rfl (by simp) nofun htypes

theorem methods_of_forms {ms : List Method} {parts : List Sense}
    (h : List.Forall₂ (Stands c tt owns) (ms.map Method.typ) parts) :
    List.Forall₂ (StandsMethod c tt owns) ms ((ms.map Method.form).zip parts) := by
  rw [List.forall₂_map_left_iff] at h
  induction h with
  | nil => exact .nil
  | cons hfirst _ ih => exact .cons ⟨rfl, hfirst⟩ ih

/-- What an interface stands for is an interface. -/
theorem Stands.of_interface {ms : List Method} (hc : Extends c.ground.types tt)
    (howns : ∀ e t, owns e t → (tt.shape t).isDeclared = true) (hs : tt.shape t = .interface ms)
    (h : Stands c tt owns t S) :
    ∃ ps, S = .interface ps ∧ List.Forall₂ (StandsMethod c tt owns) ms ps := by
  cases h with
  | declared h =>
      have hdeclared := howns _ _ h
      rw [hs] at hdeclared
      cases hdeclared
  | given h =>
      cases hground : c.ground.types.shape t with
      | named =>
          obtain ⟨_, _, hs', -⟩ := hc.named_eq hground
          cases hs'.symm.trans hs
      | _ =>
          have hdeclared := h.1
          rw [hground] at hdeclared
          cases hdeclared
  | @built _ _ _ parts hs' _ _ _ hparts hD =>
      cases hs'.symm.trans hs
      have hlength : (ms.map Method.form).length = parts.length := by
        simpa [Shape.components] using hparts.length_eq
      have hfst : ((ms.map Method.form).zip parts).map Prod.fst = ms.map Method.form :=
        List.map_fst_zip (Nat.le_of_eq hlength)
      have hsnd : ((ms.map Method.form).zip parts).map Prod.snd = parts := List.map_snd_zip (Nat.le_of_eq hlength.symm)
      refine ⟨(ms.map Method.form).zip parts, ?_, methods_of_forms (hparts.imp hD)⟩
      rw [Sense.interface, hfst, hsnd]
      rfl

/-! ### Grounds -/

/-- A sense of types that values can have when nothing is said: not one of an untyped constant. -/
def Sense.IsTyped (S : Sense) : Prop :=
  ∀ k, S = .basic k → defaultKind? k = none

theorem Sense.default_eq (h : S.IsTyped) : S.default = S := by
  unfold default
  split
  · next k =>
      rw [h k rfl]
      rfl
  · rfl

/-- The names that need no declaration stand for types with a sense, and declared types among them for something. -/
structure Setting.Grounded (c : Setting) : Prop where
  sense : ∀ obj ∈ c.ground.outer, obj.role ≠ .builtin → ∀ t, obj.typ = some t →
    ∃ S, c.Stands t S ∧ (obj.role = .type → S.IsTyped)
  meaning : ∀ t, c.Gives t → ∃ u U, c.ground.types.underlying? t = some u ∧ c.Stands u U ∧ U.IsTyped

/-- What stands for something does so where the same types are given. -/
theorem Stands.of_gives {c' : Setting} (h : Stands c tt owns t S) (hgives : ∀ t, c.Gives t → c'.Gives t) :
    Stands c' tt owns t S := by
  induction h with
  | declared h => exact .declared h
  | given h => exact .given (hgives _ h)
  | built hs hbuilt hvalid hspreads hparts _ ih => exact .built hs hbuilt hvalid hspreads hparts ih

namespace Setting.Grounded

variable {c' : Setting} (h : c.Grounded) (houter : c'.ground.outer = c.ground.outer)
include h houter

/-- A ground goes on to be one if its declared types stand for what they did. -/
theorem transfer (hext : Extends c.ground.types c'.ground.types)
    (hgiven : ∀ t, c'.Gives t → c.Gives t ∧
      ∀ u, c.ground.types.underlying? t = some u → c'.ground.types.underlying? t = some u) : c'.Grounded := by
  have hgives (t : TypeId) (ht : c.Gives t) : c'.Gives t := by
    obtain ⟨hdeclared, hobj⟩ := ht
    refine ⟨?_, houter ▸ hobj⟩
    cases hs : c.ground.types.shape t with
    | named =>
        obtain ⟨_, _, hs', -⟩ := hext.named_eq hs
        rw [hs']
        rfl
    | _ =>
        rw [hs] at hdeclared
        cases hdeclared
  have hstands (t : TypeId) (S : Sense) (hS : c.Stands t S) : c'.Stands t S :=
    (hS.later hext fun _ _ h => h).of_gives hgives
  refine ⟨fun obj hobj hrole t ht => ?_, fun t ht => ?_⟩
  · obtain ⟨S, hS, htyped⟩ := h.sense obj (houter ▸ hobj) hrole t ht
    exact ⟨S, hstands t S hS, htyped⟩
  · obtain ⟨hbefore, hunderlying⟩ := hgiven t ht
    obtain ⟨u, U, hu, hU, htyped⟩ := h.meaning t hbefore
    exact ⟨u, U, hunderlying u hu, hstands u U hU, htyped⟩

/-- It does not matter what is declared in a file, and under which path. -/
theorem congr (htypes : c'.ground.types = c.ground.types) : c'.Grounded := by
  refine h.transfer houter (htypes ▸ .refl _) fun t ht => ⟨?_, fun u hu => htypes ▸ hu⟩
  rw [Gives, htypes, houter] at ht
  exact ht

/-- A ground goes on to be one when there are more types. -/
theorem grows (hgrows : Grows c.ground.types c'.ground.types)
    (hknown : ∀ obj ∈ c.ground.outer, ∀ t, obj.typ = some t → c.ground.types.Knows t) : c'.Grounded := by
  refine h.transfer houter hgrows.toExtends fun t ht => ?_
  obtain ⟨hdeclared, obj, hobj, hrole, htyp⟩ := ht
  have hobj : obj ∈ c.ground.outer := houter ▸ hobj
  have hknows := hknown obj hobj t htyp
  refine ⟨⟨?_, obj, hobj, hrole, htyp⟩, fun u hu => hgrows.underlying?_eq hknows hu⟩
  by_contra hbuilt
  rw [hgrows.shape_eq hknows (by simpa using hbuilt)] at hdeclared
  exact hbuilt hdeclared

end Setting.Grounded

/-- Questions about types. -/
def Question.IsOfType : Question → Prop
  | .type _ | .meaning _ => True
  | .name entry => entry.role = .type
  | .value _ => False

/-- What a file says of types it does not say of untyped constants. -/
theorem Says.typed {q : Question} (hc : c.Grounded) (h : Says file c q S) (hq : q.IsOfType) : S.IsTyped := by
  induction h with
  | of_rule hrule _ ih =>
      cases hrule with
      | type hS =>
          cases hS with
          | name hop hS =>
              generalize hrole : Role.type = role at hS
              cases hS with
              | declared _ hS => exact ih _ _ hS hrole.symm
              | predeclared _ hobj ht hS =>
                  have hmem := List.mem_of_find?_eq_some hobj
                  obtain ⟨T, hT, htyped⟩ := hc.sense _ hmem (by simp [← hrole]) _ ht
                  rw [hS.unique hT]
                  exact htyped hrole.symm
          | paren _ _ hS => exact ih _ _ hS trivial
          | func _ hS =>
              cases hS
              rintro k ⟨⟩
          | _ => rintro k ⟨⟩
      | value => exact hq.elim
      | name hS =>
          cases hS with
          | declared => rintro k ⟨⟩
          | synonym _ _ _ hS => exact ih _ _ hS trivial
          | typed _ _ hS => exact ih _ _ hS trivial
          | constant hrole => cases hrole.symm.trans hq
          | initialized hrole => cases hrole.symm.trans hq
          | function _ _ hS => exact ih _ _ hS trivial
      | meaning _ hS hU =>
          cases hU with
          | built => exact ih _ _ hS trivial
          | declared hU => exact ih _ _ hU trivial
          | given ht hu hU =>
              obtain ⟨u, U, hu', hU', htyped⟩ := hc.meaning _ ht
              cases hu.symm.trans hu'
              rw [hU.unique hU']
              exact htyped

end GoSource
