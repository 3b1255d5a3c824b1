import GoSource.Proofs.Typing.Descriptors

/-!
# Completion says nothing wrong

While a type is completed, other types are entered, left half-finished and entered again.  All of this only ever
adds to what is known.

* **`Refines`**: what a completion may do to a table: layouts stay faithful, finished types and types that are being
  completed further out are left alone, marks are restored, and fingerprints stay known.
* **`Yields`**, **`Grants`**: an operation refines the table, and answers in a certain way.
* **`grants_reference`**, **`layout_array`**: the layouts of shapes from those of their parts.
* **`completeWithin_refines`**: completion refines the table.
-/

namespace GoSource.TypeTable

variable {α β : Type} {tt tt' tt'' : TypeTable} {s : Shape} {t u : TypeId} {l : Layout}

/-! ### Refinement -/

/-- What completing types may do to a table. -/
structure Refines (tt tt' : TypeTable) : Prop extends Relaid tt tt' where
  faithful : tt'.Faithful
  /-- A type that is finished, or being completed further out, is left alone. -/
  settled_eq : ∀ {t}, tt.isSettled t = true → tt'.info t = tt.info t
  /-- Marks that are set are taken back. -/
  completing_eq : ∀ t, (tt'.info t).completing = (tt.info t).completing
  /-- What is known about fingerprints stays known. -/
  hashed : ∀ {t}, tt.Hashed t → tt'.Hashed t

namespace Refines

theorem refl (h : tt.Faithful) : Refines tt tt :=
  ⟨composes_relaid.refl tt, h, fun _ => rfl, fun _ => rfl, id⟩

theorem trans (h : Refines tt tt') (h' : Refines tt' tt'') : Refines tt tt'' := by
  refine ⟨composes_relaid.trans h.toRelaid h'.toRelaid, h'.faithful, ?_, ?_, h'.hashed ∘ h.hashed⟩
  · intro t ht
    have hinfo := h.settled_eq ht
    have ht' : tt'.isSettled t = true := by
      rw [isSettled, layout, hinfo]
      exact ht
    rw [h'.settled_eq ht', hinfo]
  · intro t
    rw [h'.completing_eq, h.completing_eq]

/-- A finished layout does not change. -/
theorem layout_eq (h : Refines tt tt') (hcomplete : (tt.layout t).isComplete = true) : tt'.layout t = tt.layout t := by
  rw [layout, h.settled_eq (by rw [isSettled, hcomplete]; rfl)]
  rfl

theorem complete (h : Refines tt tt') (hcomplete : (tt.layout t).isComplete = true) :
    (tt'.layout t).isComplete = true := by
  rw [h.layout_eq hcomplete]
  exact hcomplete

theorem carries (h : Refines tt tt') : Carries tt tt' :=
  ⟨h.extends, h.complete, h.hashed⟩

theorem fingerprint_eq (h : Refines tt tt') (hsound : tt.Sound) (ht : tt.Knows t) :
    tt'.fingerprint t = tt.fingerprint t :=
  h.extends.fingerprint_eq hsound h.faithful.toSound ht

theorem digest_eq (h : Refines tt tt') (hsound : tt.Sound) (hknown : ∀ part ∈ s.components, tt.Knows part) :
    s.digest tt'.fingerprint = s.digest tt.fingerprint :=
  h.extends.digest_eq hsound h.faithful.toSound hknown

end Refines

/-! ### Operations that refine -/

/-- From a faithful table, the operation refines the table and answers as said. -/
def Yields (tt : TypeTable) (m : TableM α) (Q : α → TypeTable → Prop) : Prop :=
  tt.Faithful → Refines tt (m tt).2 ∧ Q (m tt).1 (m tt).2

/-- From a faithful table, the operation refines the table, and answers as said if it is granted. -/
def Grants (tt : TypeTable) (m : TypeM α) (Q : α → TypeTable → Prop) : Prop :=
  Yields tt m.run fun outcome tt' => ∀ x, outcome = .ok x → Q x tt'

theorem Yields.of_eq {m m' : TableM α} {Q : α → TypeTable → Prop} (h : m tt = m' tt) (hm : Yields tt m' Q) :
    Yields tt m Q := by
  intro hfaithful
  rw [h]
  exact hm hfaithful

theorem yields_pure {x : α} {Q : α → TypeTable → Prop} (h : tt.Faithful → Q x tt) : Yields tt (pure x) Q :=
  fun hfaithful => ⟨.refl hfaithful, h hfaithful⟩

theorem yields_bind {m : TableM α} {f : α → TableM β} {Q : α → TypeTable → Prop} {Q' : β → TypeTable → Prop}
    (hm : Yields tt m Q) (hf : ∀ x tt', Refines tt tt' → Q x tt' → Yields tt' (f x) Q') : Yields tt (m >>= f) Q' := by
  intro hfaithful
  obtain ⟨hrefines, hx⟩ := hm hfaithful
  obtain ⟨hrefines', hy⟩ := hf _ _ hrefines hx hrefines.faithful
  exact ⟨hrefines.trans hrefines', hy⟩

theorem grants_pure {x : α} {Q : α → TypeTable → Prop} (h : tt.Faithful → Q x tt) : Grants tt (pure x) Q := by
  refine yields_pure fun hfaithful y hy => ?_
  cases hy
  exact h hfaithful

theorem grants_lift {m : TableM α} {Q : α → TypeTable → Prop} (hm : Yields tt m Q) :
    Grants tt (liftM m : TypeM α) Q := by
  refine yields_bind hm fun x tt' _ hx => yields_pure fun _ y hy => ?_
  cases hy
  exact hx

theorem grants_bind {m : TypeM α} {f : α → TypeM β} {Q : α → TypeTable → Prop} {Q' : β → TypeTable → Prop}
    (hm : Grants tt m Q) (hf : ∀ x tt', Refines tt tt' → Q x tt' → Grants tt' (f x) Q') : Grants tt (m >>= f) Q' := by
  rw [Grants, ExceptT.run_bind]
  refine yields_bind hm fun outcome tt' hrefines hx => ?_
  cases outcome with
  | error fault =>
      refine yields_pure fun _ y hy => ?_
      cases hy
  | ok x => exact hf x tt' hrefines (hx x rfl)

theorem Grants.mono {m : TypeM α} {Q Q' : α → TypeTable → Prop} (hm : Grants tt m Q)
    (hQ : ∀ x tt', Refines tt tt' → Q x tt' → Q' x tt') : Grants tt m Q' := by
  intro hfaithful
  obtain ⟨hrefines, hx⟩ := hm hfaithful
  exact ⟨hrefines, fun x hout => hQ x _ hrefines (hx x hout)⟩

theorem grants_mapM {f : α → TypeM β} {Q : α → β → TypeTable → Prop} {xs : List α}
    (hstable : ∀ {x y tt tt'}, Refines tt tt' → Q x y tt → Q x y tt')
    (hf : ∀ x ∈ xs, ∀ tt', Refines tt tt' → Grants tt' (f x) (Q x)) (hfaithful : tt.Faithful) :
    Grants tt (xs.mapM f) fun ys tt' => List.Forall₂ (fun x y => Q x y tt') xs ys := by
  induction xs generalizing tt with
  | nil => exact grants_pure fun _ => .nil
  | cons x xs ih =>
      rw [List.mapM_cons]
      refine grants_bind (hf x List.mem_cons_self tt (.refl hfaithful)) fun y tt₁ hrefines₁ hy => ?_
      refine grants_bind (ih (fun z hz tt₂ hrefines₂ => ?_) hrefines₁.faithful) fun ys tt₂ hrefines₂ hys => ?_
      · exact hf z (List.mem_cons_of_mem x hz) tt₂ (hrefines₁.trans hrefines₂)
      · exact grants_pure fun _ => .cons (hstable hrefines₂ hy) hys

/-! ### Layouts of shapes -/

/-- Asks for a part of a type: completes it, and reads its layout. -/
def ask (complete : TypeId → TableM Unit) (part : TypeId) : TableM Layout := do
  complete part
  return (← get).layout part

section Layouts

variable {complete : TypeId → TableM Unit} {sure : TypeId → Prop} {target : Target}

/-- Completing one type after the other only refines the table. -/
def Refining (complete : TypeId → TableM Unit) : Prop :=
  ∀ part tt, tt.Faithful → Refines tt (complete part tt).2

/-- From `tt` on, completing a type that is sure to have a fingerprint gives it one. -/
def Ensures (tt : TypeTable) (complete : TypeId → TableM Unit) (sure : TypeId → Prop) : Prop :=
  ∀ part, sure part → ∀ tt', Refines tt tt' → (complete part tt').2.Hashed part

theorem ensures_none (tt : TypeTable) (complete : TypeId → TableM Unit) : Ensures tt complete fun _ => False :=
  fun _ hfalse => hfalse.elim

theorem yields_ask {part : TypeId} (hcomplete : Refining complete) (hsure : Ensures tt complete sure)
    (hfaithful : tt.Faithful) (hpart : tt.Knows part) (hrefines : Refines tt tt') :
    Yields tt' (ask complete part) fun l tt'' =>
      Fingerprint.Tracks sure tt''.Hashed l.hash (tt.fingerprint part) [part] := by
  intro hfaithful'
  have hrefines' := hcomplete part tt' hfaithful'
  have hlater := hrefines.trans hrefines'
  refine ⟨hrefines', ?_, ?_, ?_⟩
  · intro hhash
    have heq := (hlater.faithful.supported part).hash_eq hhash
    rw [← hlater.faithful.fingerprint_eq, hlater.fingerprint_eq hfaithful.toSound hpart] at heq
    exact heq
  · intro hhash part' hpart'
    rw [List.mem_singleton] at hpart'
    subst hpart'
    exact hhash
  · intro hall
    exact hsure part (hall part (List.mem_singleton_self part)) tt' hrefines

/-- The digest of methods follows that of the structure, and stops where it becomes unknown. -/
theorem yields_methods {ms : List Method} (hcomplete : Refining complete) (hsure : Ensures tt complete sure)
    (hfaithful : tt.Faithful) (hknown : ∀ m ∈ ms, tt.Knows m.typ) (hrefines : Refines tt tt')
    {h g : Fingerprint} {parts : List TypeId} (htracks : Fingerprint.Tracks sure tt'.Hashed h g parts) :
    Yields tt' (h.methods (ask complete) ms) fun h' tt'' =>
      Fingerprint.Tracks sure tt''.Hashed h' (g.ofMethods tt.fingerprint ms) (parts ++ ms.map Method.typ) := by
  induction ms generalizing tt' h g parts with
  | nil =>
      refine yields_pure fun _ => ?_
      rw [List.map_nil, List.append_nil]
      exact htracks
  | cons m ms ih =>
      refine yields_bind (yields_ask hcomplete hsure hfaithful (hknown m List.mem_cons_self) hrefines)
        fun l tt'' hrefines' hl => ?_
      have hnext := (((htracks.mono fun _ => hrefines'.hashed).string m.pkgPath).string m.name).mix hl
      dsimp only
      split
      · next hunknown =>
          refine yields_pure fun _ => ⟨fun hhash => ?_, fun hhash => ?_, fun hall => ?_⟩
          · rw [hhash] at hunknown
            cases hunknown
          · rw [hhash] at hunknown
            cases hunknown
          · refine hnext.known_of_sure fun part hpart => hall part ?_
            rw [List.map_cons, List.mem_append, List.mem_cons, ← or_assoc]
            exact .inl (by simpa using hpart)
      · have hrest := ih (fun m' hm' => hknown m' (List.mem_cons_of_mem m hm')) (hrefines.trans hrefines') hnext
        rw [List.append_assoc, List.singleton_append] at hrest
        exact hrest

/-- The layout of a shape whose size does not depend on its parts: only the fingerprint has to be found. -/
theorem grants_reference {size align : Nat} {traits : Traits} (hcomplete : Refining complete)
    (hsure : Ensures tt complete sure) (hfaithful : tt.Faithful) (hknown : ∀ part ∈ s.components, tt.Knows part)
    (hs : s.reference? target = some (size, align, traits)) :
    Grants tt (s.layout target (ask complete)) fun l tt' =>
      ∃ h, l = .reference s.kind size align h traits ∧
        Fingerprint.Tracks sure tt'.Hashed h (s.digest tt.fingerprint) s.components := by
  have hask {part : TypeId} (hpart : part ∈ s.components) {tt' : TypeTable} (hrefines : Refines tt tt') :=
    grants_lift (yields_ask hcomplete hsure hfaithful (hknown part hpart) hrefines)
  cases s with
  | basic | array | named => cases hs
  | slice e =>
      cases hs
      refine grants_bind (hask (by simp [Shape.components]) (.refl hfaithful)) fun l tt' _ hl => ?_
      exact grants_pure fun _ => ⟨_, rfl, hl.byte _⟩
  | pointer e =>
      cases hs
      refine grants_bind (hask (by simp [Shape.components]) (.refl hfaithful)) fun l tt' _ hl => ?_
      exact grants_pure fun _ => ⟨_, rfl, hl.byte _⟩
  | chan e dir =>
      cases hs
      refine grants_bind (hask (by simp [Shape.components]) (.refl hfaithful)) fun l tt' _ hl => ?_
      exact grants_pure fun _ => ⟨_, rfl, (hl.byte _).byte _⟩
  | map k e =>
      cases hs
      refine grants_bind (hask (by simp [Shape.components]) (.refl hfaithful)) fun lk tt₁ hrefines₁ hk => ?_
      refine grants_bind (hask (by simp [Shape.components]) hrefines₁) fun le tt₂ hrefines₂ he => ?_
      refine grants_pure fun _ => ⟨_, rfl, ?_⟩
      exact ((Fingerprint.Tracks.of_known (by simp)).mix (hk.mono fun _ => hrefines₂.hashed)).mix he
  | func ps rs v =>
      cases hs
      refine grants_bind (grants_mapM ?_ (fun part hpart tt' hrefines => hask hpart hrefines) hfaithful)
        fun ls tt' _ hls => ?_
      · exact fun hrefines hl => hl.mono fun _ => hrefines.hashed
      · refine grants_pure fun _ => ⟨_, rfl, ?_⟩
        exact (Fingerprint.Tracks.of_known (by simp)).foldl_mix (List.forall₂_map_right_iff.2 hls)
  | interface ms =>
      cases hs
      refine grants_bind (grants_lift (yields_methods hcomplete hsure hfaithful ?_ (.refl hfaithful)
        (Fingerprint.Tracks.of_known (by simp)))) fun h tt' _ hh => ?_
      · exact fun m hm => hknown m.typ (List.mem_map_of_mem hm)
      · exact grants_pure fun _ => ⟨h, rfl, hh⟩
  | builtin name i o v =>
      cases hs
      exact grants_pure fun _ => ⟨_, rfl, .of_known (by simp)⟩

/-- An array is laid out by its element. -/
theorem layout_array {e : TypeId} {n : Nat} (hn : n ≤ target.maxSize) :
    (Shape.array e n).layout target (ask complete) tt =
      (((complete e tt).2.layout e).array target n, (complete e tt).2) := by
  have hask : (liftM (ask complete e) : TypeM Layout) tt =
      (.ok ((complete e tt).2.layout e), (complete e tt).2) := rfl
  rw [Shape.layout, if_neg (Nat.not_lt.2 hn)]
  refine (run_granted hask).trans ?_
  cases ((complete e tt).2.layout e).array target n with
  | ok l => rfl
  | error fault => rfl

/-! ### Supported layouts -/

/-- The layout of a shape of fixed size is supported if its fingerprint is. -/
theorem supported_reference {size align : Nat} {traits : Traits} {h : Fingerprint}
    (hs : s.reference? tt.target = some (size, align, traits))
    (htracks : Fingerprint.Tracks sure tt.Hashed h (s.digest tt.fingerprint) s.components) :
    tt.Supported s (.reference s.kind size align h traits) where
  hash_eq := htracks.eq_of_known
  size_eq hsize := ⟨_, .reference hs, hsize⟩
  described hcomplete := by
    have hknown : h.isUnknown = false := by simpa [Layout.isComplete, Layout.reference] using hcomplete
    rw [htracks.eq_of_known hknown]
    exact .reference hs
  contained _ u hu := by
    cases s with
    | array | named => cases hs
    | _ => cases hu
  grounded := htracks.hashed_of_known
  finished _ _ hhash := by
    show (!h.isUnknown) = true
    rw [show h.isUnknown = false from hhash]
    rfl

theorem supported_basic (tt : TypeTable) (k : Kind) : tt.Supported (.basic k) (k.layout tt.target) := by
  by_cases hk : k = .invalid
  · subst hk
    have hlayout : Kind.invalid.layout tt.target = {} := rfl
    rw [hlayout]
    exact ⟨by simp, by simp, by simp [Layout.isComplete], by simp [Layout.isComplete], by simp, by simp⟩
  · have hdescribed : tt.Describes (.basic k) (k.layout tt.target) := by
      have hbasic : tt.Describes (.basic k) _ := .basic hk
      rw [Shape.digest, if_neg hk] at hbasic
      rw [Kind.layout, if_neg hk]
      exact hbasic
    refine ⟨fun _ => hdescribed.hash_eq, fun hsize => ⟨_, hdescribed, hsize⟩, fun _ => hdescribed,
      fun _ u hu => (List.not_mem_nil hu).elim, fun _ part hpart => (List.not_mem_nil hpart).elim, fun _ _ _ => ?_⟩
    rw [Kind.layout, if_neg hk]
    rfl

/-- An array of elements of known size that may be laid out fits into the address space. -/
theorem mul_le_maxSize {elem : Layout} {n size : Nat} (hn : n ≤ elem.maxLength target) (hsize : elem.size = some size) :
    n * size ≤ target.maxSize := by
  simp only [Layout.maxLength, hsize] at hn
  split at hn
  · next hzero =>
      rw [hzero, Nat.mul_zero]
      exact Nat.zero_le _
  · exact (Nat.mul_le_mul_right size hn).trans (Nat.div_mul_le_self _ _)

theorem array_eq_ok {elem : Layout} {n : Nat} :
    elem.array target n = .ok l ↔ n ≤ elem.maxLength target ∧
      l = { size := elem.size.map (n * ·), align := elem.align, hash := (elem.hash.byte 0x5d).word64 n, kind := .array
            traits := { complete := elem.traits.complete, comparable := elem.traits.comparable
                        incomparable := elem.traits.incomparable
                        needsPadding := n = 0 || elem.size == some 0 } } := by
  rw [Layout.array]
  split
  · next hn =>
      constructor
      · intro h
        cases h
      · rintro ⟨hle, -⟩
        exact absurd hle (Nat.not_le.2 hn)
  · next hn =>
      constructor
      · intro h
        cases h
        exact ⟨Nat.not_lt.1 hn, rfl⟩
      · rintro ⟨-, rfl⟩
        rfl

/-- The layout of an array is supported by that of its element. -/
theorem Faithful.supported_array {e : TypeId} {n : Nat} (h : tt.Faithful)
    (harray : (tt.layout e).array tt.target n = .ok l) : tt.Supported (.array e n) l := by
  obtain ⟨hn, rfl⟩ := array_eq_ok.1 harray
  have helem := h.supported e
  have hhash (hknown : (((tt.layout e).hash.byte 0x5d).word64 n).isUnknown = false) : tt.Hashed e := by
    rw [Fingerprint.isUnknown_word64, Fingerprint.isUnknown_byte] at hknown
    exact hknown
  constructor
  case hash_eq =>
    intro hknown
    show ((tt.layout e).hash.byte 0x5d).word64 n = ((tt.fingerprint e).byte 0x5d).word64 n
    rw [helem.hash_eq (hhash hknown), h.fingerprint_eq]
  case size_eq =>
    intro size hsize
    obtain ⟨m, hm, rfl⟩ := Option.map_eq_some_iff.1 hsize
    obtain ⟨d, hd, hdsize⟩ := helem.size_eq hm
    exact ⟨_, .array hd hdsize (mul_le_maxSize hn hm), rfl⟩
  case described =>
    intro hcomplete
    have hd := helem.described hcomplete
    obtain ⟨m, -, hm, -⟩ := hd.size_le
    have hdescribed := Describes.array hd hm (mul_le_maxSize hn hm)
    have hdigest : (Shape.array e n).digest tt.fingerprint = ((tt.layout e).hash.byte 0x5d).word64 n := by
      rw [hd.hash_eq, ← h.fingerprint_eq]
      rfl
    rw [hdigest] at hdescribed
    rw [hm]
    exact hdescribed
  case contained =>
    intro hcomplete u hu
    rw [Shape.byValue, List.mem_singleton] at hu
    subst hu
    exact hcomplete
  case grounded =>
    intro hknown part hpart
    rw [Shape.components, List.mem_singleton] at hpart
    subst hpart
    exact hhash hknown
  case finished =>
    intro _ hempty
    cases hempty

theorem isComplete_withHash (l : Layout) (h : Fingerprint) :
    ({ l with hash := h } : Layout).isComplete = l.isComplete := rfl

/-- The layout of a declared type is supported by that of what it stands for. -/
theorem Faithful.supported_named {pkgPath name : String} {ms : List Method} (h : tt.Faithful)
    (hs : tt.shape t = .named pkgPath name (some u) ms) :
    tt.Supported (tt.shape t) { tt.layout u with hash := (tt.layout t).hash } := by
  have hu := h.supported u
  rw [hs, (h.vouched t).named_hash hs]
  constructor
  case hash_eq =>
    intro _
    rw [Shape.digest]
  case size_eq =>
    intro size hsize
    obtain ⟨d, hd, hdsize⟩ := hu.size_eq hsize
    exact ⟨_, .named hd, hdsize⟩
  case described =>
    intro hcomplete
    rw [isComplete_withHash] at hcomplete
    exact .named (hu.described hcomplete)
  case contained =>
    intro hcomplete v hv
    rw [isComplete_withHash] at hcomplete
    rw [Shape.byValue, List.mem_singleton] at hv
    subst hv
    exact hcomplete
  case grounded =>
    intro _ part hpart
    cases hpart
  case finished =>
    intro hbuilt
    cases hbuilt

/-- The layout of a built shape is supported, and its fingerprint is known if those of the parts are sure to be. -/
theorem grants_layout (hcomplete : Refining complete) (hsure : Ensures tt complete sure) (hfaithful : tt.Faithful)
    (hbuilt : s.isDeclared = false) (hknown : ∀ part ∈ s.components, tt.Knows part) :
    Grants tt (s.layout tt.target (ask complete)) fun l tt' =>
      tt'.Supported s l ∧
        (s ≠ .basic .invalid → (∀ part ∈ s.components, sure part) → l.hash.isUnknown = false) := by
  cases hs : s.reference? tt.target with
  | some storage =>
      obtain ⟨size, align, traits⟩ := storage
      refine (grants_reference hcomplete hsure hfaithful hknown hs).mono ?_
      rintro l tt' hrefines ⟨h, rfl, htracks⟩
      refine ⟨?_, fun _ hall => htracks.known_of_sure hall⟩
      rw [← hrefines.digest_eq hfaithful.toSound hknown] at htracks
      rw [← hrefines.target_eq] at hs
      exact supported_reference hs htracks
  | none =>
      cases s with
      | basic k =>
          refine grants_pure fun _ => ⟨supported_basic tt k, fun hvalid _ => ?_⟩
          have hk : k ≠ .invalid := fun hk => hvalid (congrArg Shape.basic hk)
          simp [Kind.layout, hk]
      | array e n =>
          intro _
          by_cases hn : n ≤ tt.target.maxSize
          · have hrefines := hcomplete e tt hfaithful
            rw [ExceptT.run, layout_array hn]
            refine ⟨hrefines, fun l hl => ⟨?_, fun _ hall => ?_⟩⟩
            · refine hrefines.faithful.supported_array ?_
              rw [hrefines.target_eq]
              exact hl
            · obtain ⟨-, rfl⟩ := array_eq_ok.1 hl
              have hhashed := hsure e (hall e (List.mem_singleton_self e)) tt (.refl hfaithful)
              rw [Fingerprint.isUnknown_word64, Fingerprint.isUnknown_byte]
              exact hhashed
          · have hthrow : (Shape.array e n).layout tt.target (ask complete) tt =
                (.error (.arrayTooLarge n tt.target.maxSize), tt) := by
              rw [Shape.layout, if_pos (Nat.not_le.1 hn)]
              rfl
            rw [ExceptT.run, hthrow]
            refine ⟨.refl hfaithful, fun l hl => ?_⟩
            cases hl
      | named => cases hbuilt
      | _ => cases hs

/-! ### Completion -/

theorem yields_forM (hcomplete : Refining complete) (parts : List TypeId) :
    Yields tt (parts.forM complete) fun _ _ => True := by
  induction parts generalizing tt with
  | nil => exact yields_pure fun _ => trivial
  | cons part parts ih =>
      exact yields_bind (Q := fun _ _ => True) (fun h => ⟨hcomplete part tt h, trivial⟩) fun _ _ _ _ => ih

theorem computeLayout_asks (hbuilt : (tt.shape t).isDeclared = false) :
    computeLayout complete t tt = (do
      (tt.shape t).components.forM complete
      let outcome ← ((tt.shape t).layout tt.target (ask complete)).run
      pure outcome.toOption : TableM (Option Layout)) tt :=
  computeLayout_built hbuilt

/-- What is computed for a type is supported, and has a fingerprint if the parts are sure to have one. -/
theorem yields_computeLayout (hcomplete : Refining complete) (hsure : Ensures tt complete sure)
    (hfaithful : tt.Faithful) (t : TypeId) :
    Yields tt (computeLayout complete t) fun outcome tt' => ∀ l, outcome = some l →
      tt'.Supported (tt.shape t) l ∧
        (∀ pkgPath name u ms, tt.shape t = .named pkgPath name (some u) ms → l.hash = .ofName pkgPath name) ∧
        (tt.shape t ≠ .basic .invalid → (∀ part ∈ (tt.shape t).components, sure part) → l.hash.isUnknown = false) := by
  cases hdeclared : (tt.shape t).isDeclared with
  | false =>
      refine .of_eq (computeLayout_asks hdeclared) (yields_bind (yields_forM hcomplete _) fun _ tt₁ hrefines₁ _ => ?_)
      have hsure₁ : Ensures tt₁ complete sure := fun part hpart tt₂ hrefines₂ =>
        hsure part hpart tt₂ (hrefines₁.trans hrefines₂)
      have hknown₁ : ∀ part ∈ (tt.shape t).components, tt₁.Knows part := fun part hpart =>
        hrefines₁.extends.knows (hfaithful.knows_components t part hpart)
      have hlayout := grants_layout hcomplete hsure₁ hrefines₁.faithful hdeclared hknown₁
      rw [hrefines₁.target_eq] at hlayout
      refine yields_bind hlayout fun outcome tt₂ _ hanswer => yields_pure fun _ l hl => ?_
      obtain ⟨hsupported, hhash⟩ := hanswer l (eq_ok_of_toOption hl)
      refine ⟨hsupported, ?_, hhash⟩
      intro pkgPath name u ms hs
      rw [hs] at hdeclared
      cases hdeclared
  | true =>
      cases hs : tt.shape t with
      | named pkgPath name bound ms =>
          cases bound with
          | none =>
              refine .of_eq (computeLayout_unbound hs) (yields_pure fun _ l hl => ?_)
              cases hl
          | some u =>
              have hrefines := hcomplete u tt hfaithful
              have hs' := (hrefines.shape_eq t).trans hs
              have hhash := (hrefines.faithful.vouched t).named_hash hs'
              intro _
              rw [computeLayout_bound hs]
              refine ⟨hrefines, fun l hl => ?_⟩
              cases hl
              refine ⟨?_, ?_, ?_⟩
              · rw [← hs']
                exact hrefines.faithful.supported_named hs'
              · rintro _ _ _ _ ⟨⟩
                exact hhash
              · intro _ _
                rw [hhash]
                exact Fingerprint.isUnknown_ofName _ _
      | _ =>
          rw [hs] at hdeclared
          cases hdeclared

end Layouts

/-- A supported layout is recorded for a type that is not finished. -/
theorem Faithful.record {f : TypeInfo → TypeInfo} (h : tt.Faithful) (hshape : ∀ info, (f info).shape = info.shape)
    (hsound' : (tt.update t f).Sound) (hincomplete : (tt.layout t).isComplete = false)
    (hsupported : tt.Supported (tt.shape t) (f (tt.info t)).layout)
    (hnamed : ∀ pkgPath name u ms, tt.shape t = .named pkgPath name (some u) ms →
      (f (tt.info t)).layout.hash = .ofName pkgPath name)
    (hhashed : tt.Hashed t → (f (tt.info t)).layout.hash.isUnknown = false) :
    Carries tt (tt.update t f) ∧ (tt.update t f).Faithful := by
  have hshapes (s : TypeId) : (tt.update t f).shape s = tt.shape s := by
    rw [shape_update]
    split
    · next hs => rw [hshape, hs.1, shape]
    · rfl
  have hother {s : TypeId} (hs : ¬(s = t ∧ tt.Knows t)) : (tt.update t f).layout s = tt.layout s := by
    rw [layout, info_update, if_neg hs]
    rfl
  have hself (ht : tt.Knows t) : (tt.update t f).layout t = (f (tt.info t)).layout := by
    rw [layout, info_update, if_pos ⟨rfl, ht⟩]
  have hcarries : Carries tt (tt.update t f) := by
    refine ⟨extends_of_shape_eq rfl (by simp [update]) hshapes, ?_, ?_⟩
    · intro s hs
      have hne : s ≠ t := by
        rintro rfl
        rw [hincomplete] at hs
        cases hs
      rw [hother fun heq => hne heq.1]
      exact hs
    · intro s hs
      by_cases heq : s = t ∧ tt.Knows t
      · obtain ⟨rfl, ht⟩ := heq
        rw [Hashed, hself ht]
        exact hhashed hs
      · rw [Hashed, hother heq]
        exact hs
  refine ⟨hcarries, h.carry hcarries hsound' fun s => ?_⟩
  by_cases heq : s = t ∧ tt.Knows t
  · obtain ⟨rfl, ht⟩ := heq
    refine .inr ⟨?_, ?_⟩
    · rw [hself ht]
      exact hsupported.carry hcarries h.toSound hsound' (h.knows_components s) (.inl (hshapes s))
    · intro pkgPath name u ms hs
      rw [hself ht]
      exact hnamed pkgPath name u ms ((hshapes s).symm.trans hs)
  · exact .inl ⟨.inl (hshapes s), hother heq⟩

theorem size_marked (tt : TypeTable) (t : TypeId) : (tt.marked t).types.size = tt.types.size := by
  simp [marked, update]

theorem relaid_marked (tt : TypeTable) (t : TypeId) : Relaid tt (tt.marked t) :=
  relaid_update (fun _ => rfl) fun hkinded => hkinded.kind_eq t

theorem layout_marked (tt : TypeTable) (t s : TypeId) : (tt.marked t).layout s = tt.layout s := by
  rw [layout, marked, info_update]
  split
  · next h => rw [h.1, layout]
  · rfl

/-- Marking a type changes no layout. -/
theorem Faithful.marked (h : tt.Faithful) (t : TypeId) : (tt.marked t).Faithful := by
  have hrelaid := relaid_marked tt t
  have hcarries : Carries tt (tt.marked t) := by
    refine ⟨hrelaid.extends, ?_, ?_⟩
    · intro s hs
      rw [layout_marked]
      exact hs
    · intro s hs
      rw [Hashed, layout_marked]
      exact hs
  exact h.carry hcarries (hrelaid.sound h.toSound) fun s => .inl ⟨.inl (hrelaid.shape_eq s), layout_marked tt t s⟩

theorem info_marked_of_ne {s : TypeId} (hne : s ≠ t) : (tt.marked t).info s = tt.info s := by
  rw [marked, info_update, if_neg fun h => hne h.1]

/-- The type that is being completed is not touched by what is completed meanwhile. -/
theorem Refines.layout_marked (h : Refines (tt.marked t) tt') : tt'.layout t = tt.layout t := by
  by_cases ht : tt.Knows t
  · have hmarked : (tt.marked t).isSettled t = true := by
      rw [isSettled, marked, info_update, if_pos ⟨rfl, ht⟩, Bool.or_true]
    rw [layout, h.settled_eq hmarked]
    exact TypeTable.layout_marked tt t t
  · have ht' : ¬tt'.Knows t := by
      rw [Knows, h.size_eq, size_marked]
      exact ht
    rw [layout, layout, info_of_not_knows ht, info_of_not_knows ht']

/-- Completing a type, once what it is made of can be completed. -/
theorem Faithful.complete_step {complete : TypeId → TableM Unit} (hcomplete : Refining complete) (h : tt.Faithful)
    (hsettled : tt.isSettled t = false)
    {outcome : Option Layout} (hcomputed : computeLayout complete t (tt.marked t) = (outcome, tt'))
    {f : TypeInfo → TypeInfo}
    (hf : f = fun info => { info with layout := outcome.getD info.layout, completing := false })
    (hsound' : (tt'.update t f).Sound) :
    Carries tt' (tt'.update t f) ∧ (tt'.update t f).Faithful := by
  have hincomplete : (tt.layout t).isComplete = false := by
    rw [isSettled, Bool.or_eq_false_iff] at hsettled
    exact hsettled.1
  -- A part that has a fingerprint keeps it, so the type keeps its own.
  have hsure : Ensures (tt.marked t) complete (tt.marked t).Hashed := fun part hpart tt'' hrefines =>
    (hcomplete part tt'' hrefines.faithful).hashed (hrefines.hashed hpart)
  obtain ⟨hrefines, hanswer⟩ := yields_computeLayout hcomplete hsure (h.marked t) t (h.marked t)
  rw [hcomputed] at hrefines hanswer
  have hself : tt'.layout t = (tt.marked t).layout t := hrefines.layout_marked.trans (layout_marked tt t t).symm
  subst hf
  refine hrefines.faithful.record (fun _ => rfl) hsound' ?_ ?_ ?_ ?_
  · rw [hrefines.layout_marked]
    exact hincomplete
  · cases outcome with
    | none => exact hrefines.faithful.supported t
    | some l =>
        rw [hrefines.shape_eq]
        exact (hanswer l rfl).1
  · intro pkgPath name u ms hs
    cases outcome with
    | none => exact (hrefines.faithful.vouched t).named_hash hs
    | some l => exact (hanswer l rfl).2.1 pkgPath name u ms ((hrefines.shape_eq t).symm.trans hs)
  · intro hhashed
    cases outcome with
    | none => exact hhashed
    | some l =>
        rw [Hashed, hself] at hhashed
        have hsupported := (h.marked t).supported t
        refine (hanswer l rfl).2.2 ?_ (hsupported.grounded hhashed)
        intro hs
        have heq := hsupported.hash_eq hhashed
        rw [heq, hs] at hhashed
        cases hhashed

/-- Completion refines the table. -/
theorem completeWithin_refines (room : Nat) : Refining (completeWithin room) := by
  induction room with
  | zero => exact fun t tt h => .refl h
  | succ room ih =>
      intro t tt h
      cases hsettled : tt.isSettled t with
      | true =>
          rw [completeWithin_settled hsettled]
          exact .refl h
      | false =>
          -- The type is marked while parts are completed, so nothing inside can reach it; afterwards its layout is
          -- recorded and the mark taken back.
          have hrelaid := leads_completeWithin (room + 1) t tt
          have hyields := yields_computeLayout ih (ensures_none _ _) (h.marked t) t
          have hrefines := (hyields (h.marked t)).1
          rw [completeWithin_unsettled hsettled] at hrelaid ⊢
          obtain ⟨hcarries, hfaithful⟩ := h.complete_step ih hsettled rfl rfl (hrelaid.sound h.toSound)
          have hmark : (tt.info t).completing = false := by
            rw [isSettled, Bool.or_eq_false_iff] at hsettled
            exact hsettled.2
          refine ⟨hrelaid, hfaithful, ?_, ?_, ?_⟩
          · intro s hs
            have hne : s ≠ t := by
              rintro rfl
              rw [hsettled] at hs
              cases hs
            have hs' : (tt.marked t).isSettled s = true := by
              rw [isSettled, layout, info_marked_of_ne hne]
              exact hs
            rw [info_update, if_neg fun heq => hne heq.1, hrefines.settled_eq hs', info_marked_of_ne hne]
          · intro s
            rw [info_update]
            split
            · next heq => rw [heq.1, hmark]
            · next hne =>
                rw [hrefines.completing_eq, marked, info_update]
                split
                · next heq =>
                    refine absurd ⟨heq.1, ?_⟩ hne
                    rw [Knows, hrefines.size_eq, size_marked]
                    exact heq.2
                · rfl
          · intro s hs
            refine hcarries.hashed (hrefines.hashed ?_)
            rw [Hashed, layout_marked]
            exact hs

end GoSource.TypeTable
