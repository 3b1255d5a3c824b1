import GoSource.Proofs.Typing.Fingerprints

/-!
# Layouts by structure

What the layout of a type has to be, by how the type is built and without regard to when it is asked for.

* **`Describes`**: the layout that a shape has in the end.  It is fixed by the shape (`Describes.unique`), fits into
  the address space and is either comparable or not.
* **`Supported`**: a layout that may not be finished, but says nothing wrong.
* **`Faithful`**: a table in which all layouts are supported.
-/

namespace GoSource

/-- Size, alignment and traits of the shapes whose size does not depend on their parts. -/
def Shape.reference? (target : Target) : Shape → Option (Nat × Nat × Traits)
  | .slice _ => some (3 * target.pointerSize, target.pointerSize, { incomparable := true })
  | .pointer _ | .chan .. => some (target.pointerSize, target.pointerSize, { comparable := true })
  | .map .. => some (target.pointerSize, target.pointerSize, { incomparable := true })
  | .func _ _ variadic | .builtin _ _ _ variadic =>
      some (target.pointerSize, target.pointerSize, { incomparable := true, variadic })
  | .interface _ => some (2 * target.pointerSize, target.pointerSize, { comparable := true })
  | .basic _ | .array .. | .named .. => none

/-- The types that a type contains by value: the element of an array, and what a declared type stands for. -/
def Shape.byValue : Shape → List TypeId
  | .array elem _ => [elem]
  | .named _ _ (some u) _ => [u]
  | _ => []

namespace TypeTable

/-- The layout of a shape by its structure. -/
inductive Describes (tt : TypeTable) : Shape → Layout → Prop where
  | basic {k : Kind} (hk : k ≠ .invalid) :
      Describes tt (.basic k)
        { size := some (k.storage tt.target).1, align := some (k.storage tt.target).2
          hash := (Shape.basic k).digest tt.fingerprint, kind := k
          traits := { complete := true, comparable := k ≠ .untypedNil, incomparable := k = .untypedNil } }
  | array {elem : TypeId} {n size : Nat} {l : Layout} (helem : Describes tt (tt.shape elem) l)
      (hsize : l.size = some size) (hfits : n * size ≤ tt.target.maxSize) :
      Describes tt (.array elem n)
        { size := some (n * size), align := l.align
          hash := (Shape.array elem n).digest tt.fingerprint, kind := .array
          traits := { l.traits with needsPadding := n = 0 || size = 0, variadic := false } }
  | reference {s : Shape} {size align : Nat} {traits : Traits}
      (hs : s.reference? tt.target = some (size, align, traits)) :
      Describes tt s
        { size := some size, align := some align, hash := s.digest tt.fingerprint, kind := s.kind
          traits := { traits with complete := !(s.digest tt.fingerprint).isUnknown } }
  | named {pkgPath name : String} {u : TypeId} {ms : List Method} {l : Layout} (hu : Describes tt (tt.shape u) l) :
      Describes tt (.named pkgPath name (some u) ms) { l with hash := Fingerprint.ofName pkgPath name }

variable {tt tt' : TypeTable} {s : Shape} {t : TypeId} {l l' : Layout}

theorem le_maxSize_reference {target : Target} {size align : Nat} {traits : Traits}
    (hs : s.reference? target = some (size, align, traits)) :
    size ≤ target.maxSize ∧ traits.comparable = !traits.incomparable := by
  have hptr : 3 * target.pointerSize ≤ target.maxSize := by
    cases target <;> decide
  cases s with
  | basic | array | named => cases hs
  | _ =>
      cases hs
      exact ⟨by omega, rfl⟩

theorem le_maxSize_storage (target : Target) (k : Kind) : (k.storage target).1 ≤ target.maxSize := by
  cases target <;> cases k <;> decide

namespace Describes

/-- Size and alignment are known, and the size fits into the address space. -/
theorem size_le (h : tt.Describes s l) :
    ∃ size align, l.size = some size ∧ l.align = some align ∧ size ≤ tt.target.maxSize := by
  induction h with
  | basic => exact ⟨_, _, rfl, rfl, le_maxSize_storage _ _⟩
  | array _ _ hfits ih =>
      obtain ⟨-, align, -, halign, -⟩ := ih
      exact ⟨_, align, rfl, halign, hfits⟩
  | reference hs => exact ⟨_, _, rfl, rfl, (le_maxSize_reference hs).1⟩
  | named _ ih => exact ih

theorem valid (h : tt.Describes s l) : s ≠ .basic .invalid := by
  rintro rfl
  cases h with
  | basic hk => exact hk rfl
  | reference hs => cases hs

theorem hash_eq (h : tt.Describes s l) : l.hash = s.digest tt.fingerprint := by
  cases h with
  | basic | array | reference => rfl
  | named => rw [Shape.digest]

/-- A type is either comparable or not. -/
theorem comparable_eq (h : tt.Describes s l) : l.traits.comparable = !l.traits.incomparable := by
  induction h with
  | basic => simp
  | array _ _ _ ih => exact ih
  | reference hs => exact (le_maxSize_reference hs).2
  | named _ ih => exact ih

/-- A finished layout has a fingerprint. -/
theorem known_of_complete (hsound : tt.Sound) (h : tt.Describes s l) (hcomplete : l.traits.complete = true) :
    l.hash.isUnknown = false := by
  induction h with
  | basic hk => simp [Shape.digest, hk]
  | array helem _ _ ih =>
      have hknown := ih hcomplete
      rw [helem.hash_eq, ← hsound.fingerprint_eq] at hknown
      simp [Shape.digest, hknown]
  | reference => simpa using hcomplete
  | named => simp

/-- The layout is fixed by the shape. -/
theorem unique (h : tt.Describes s l) (h' : tt.Describes s l') : l = l' := by
  induction h generalizing l' with
  | basic hk =>
      cases h' with
      | basic => rfl
      | reference hs => cases hs
  | array helem hsize _ ih =>
      cases h' with
      | array helem' hsize' =>
          obtain rfl := ih helem'
          obtain rfl := Option.some.inj (hsize.symm.trans hsize')
          rfl
      | reference hs => cases hs
  | reference hs =>
      cases h' with
      | basic | array | named => cases hs
      | reference hs' =>
          cases hs.symm.trans hs'
          rfl
  | named _ ih =>
      cases h' with
      | named hu' => rw [ih hu']
      | reference hs => cases hs

end Describes

/-! ### Later tables -/

/-- Shapes that differ at most in the methods of a declared type. -/
def Alike (s s' : Shape) : Prop :=
  s' = s ∨ ∃ pkgPath name bound ms ms', s = .named pkgPath name bound ms ∧ s' = .named pkgPath name bound ms'

theorem Alike.refl (s : Shape) : Alike s s :=
  .inl rfl

theorem Alike.components_eq {s' : Shape} (h : Alike s s') : s'.components = s.components := by
  obtain rfl | ⟨_, _, _, _, _, rfl, rfl⟩ := h
  · rfl
  · rfl

theorem Alike.isDeclared_eq {s' : Shape} (h : Alike s s') : s'.isDeclared = s.isDeclared := by
  obtain rfl | ⟨_, _, _, _, _, rfl, rfl⟩ := h
  · rfl
  · rfl

theorem Alike.byValue_eq {s' : Shape} (h : Alike s s') : s'.byValue = s.byValue := by
  obtain rfl | ⟨_, _, bound, _, _, rfl, rfl⟩ := h
  · rfl
  · cases bound with
    | none => rfl
    | some u => rfl

theorem Alike.digest_eq {s' : Shape} (h : Alike s s') (of : TypeId → Fingerprint) : s'.digest of = s.digest of := by
  obtain rfl | ⟨_, _, _, _, _, rfl, rfl⟩ := h
  · rfl
  · rfl

/-- Later operations leave a described type alike. -/
theorem Describes.alike (h : tt.Describes (tt.shape t) l) (hext : Extends tt tt') :
    Alike (tt.shape t) (tt'.shape t) := by
  cases hs : tt.shape t with
  | named pkgPath name bound ms =>
      rw [hs] at h
      cases h with
      | named hu =>
          obtain ⟨ms', hs'⟩ := hext.bound_eq hs
          exact .inr ⟨pkgPath, name, some _, ms, ms', rfl, hs'⟩
      | reference hs => cases hs
  | _ => exact .inl (hext.shape_of_built hs rfl (hs ▸ h.valid))

/-- What is described stays described, by the same layout, for shapes whose parts the table knows. -/
theorem Describes.extends (h : tt.Describes s l) (hext : Extends tt tt') (hsound : tt.Sound) (hsound' : tt'.Sound)
    (hknown : ∀ part ∈ s.components, tt.Knows part) {s' : Shape} (halike : Alike s s') : tt'.Describes s' l := by
  induction h generalizing s' with
  | basic hk =>
      obtain rfl | ⟨_, _, _, _, _, ⟨⟩, -⟩ := halike
      rw [← hext.target_eq]
      exact .basic hk
  | @array elem n size l helem hsize hfits ih =>
      obtain rfl | ⟨_, _, _, _, _, ⟨⟩, -⟩ := halike
      have helem' := ih (hsound.knows_components elem) (helem.alike hext)
      rw [← hext.digest_eq hsound hsound' hknown]
      rw [← hext.target_eq] at hfits
      exact .array helem' hsize hfits
  | reference hs =>
      obtain rfl | ⟨_, _, _, _, _, rfl, -⟩ := halike
      · rw [← hext.digest_eq hsound hsound' hknown]
        rw [← hext.target_eq] at hs
        exact .reference hs
      · cases hs
  | @named pkgPath name u ms l hu ih =>
      have hu' : tt'.Describes (tt'.shape u) l := ih (hsound.knows_components u) (hu.alike hext)
      obtain rfl | ⟨_, _, _, _, ms', heq, rfl⟩ := halike
      · exact .named hu'
      · cases heq
        exact .named hu'

/-! ### Layouts that may not be finished -/

/-- A type whose fingerprint is known. -/
def Hashed (tt : TypeTable) (t : TypeId) : Prop :=
  (tt.layout t).hash.isUnknown = false

/-- A layout of a shape that says nothing wrong, whether it is finished or not. -/
structure Supported (tt : TypeTable) (s : Shape) (l : Layout) : Prop where
  /-- A known fingerprint is that of the structure. -/
  hash_eq : l.hash.isUnknown = false → l.hash = s.digest tt.fingerprint
  /-- A known size is that of the structure. -/
  size_eq : ∀ {size}, l.size = some size → ∃ d, tt.Describes s d ∧ d.size = some size
  /-- A finished layout is that of the structure. -/
  described : l.isComplete = true → tt.Describes s l
  /-- What a finished type contains is finished. -/
  contained : l.isComplete = true → ∀ u ∈ s.byValue, (tt.layout u).isComplete = true
  /-- A known fingerprint comes from known fingerprints. -/
  grounded : l.hash.isUnknown = false → ∀ part ∈ s.components, tt.Hashed part
  /-- A built type that contains nothing is finished as soon as its fingerprint is known. -/
  finished : s.isDeclared = false → s.byValue = [] → l.hash.isUnknown = false → l.isComplete = true

/-- The layout of a type is supported, and a declared type that stands for something has its fingerprint. -/
structure Vouched (tt : TypeTable) (t : TypeId) : Prop where
  supported : tt.Supported (tt.shape t) (tt.layout t)
  named_hash : ∀ {pkgPath name u ms}, tt.shape t = .named pkgPath name (some u) ms →
    (tt.layout t).hash = .ofName pkgPath name

/-- A table whose layouts say nothing wrong. -/
structure Faithful (tt : TypeTable) : Prop extends tt.Sound where
  vouched : ∀ t, tt.Vouched t

theorem Faithful.supported (h : tt.Faithful) (t : TypeId) : tt.Supported (tt.shape t) (tt.layout t) :=
  (h.vouched t).supported

/-- A finished type has a fingerprint. -/
theorem Faithful.hashed_of_complete (h : tt.Faithful) (hcomplete : (tt.layout t).isComplete = true) : tt.Hashed t :=
  ((h.supported t).described hcomplete).known_of_complete h.toSound hcomplete

/-- A later table, in which finished layouts and known fingerprints are kept. -/
structure Carries (tt tt' : TypeTable) : Prop extends Extends tt tt' where
  complete : ∀ {t}, (tt.layout t).isComplete = true → (tt'.layout t).isComplete = true
  hashed : ∀ {t}, tt.Hashed t → tt'.Hashed t

theorem Carries.trans {tt'' : TypeTable} (h : Carries tt tt') (h' : Carries tt' tt'') : Carries tt tt'' :=
  ⟨h.toExtends.trans h'.toExtends, h'.complete ∘ h.complete, h'.hashed ∘ h.hashed⟩

theorem Supported.carry {s' : Shape} (h : tt.Supported s l) (hcarry : Carries tt tt') (hsound : tt.Sound)
    (hsound' : tt'.Sound) (hknown : ∀ part ∈ s.components, tt.Knows part) (halike : Alike s s') :
    tt'.Supported s' l where
  hash_eq hhash := by
    rw [halike.digest_eq, hcarry.digest_eq hsound hsound' hknown]
    exact h.hash_eq hhash
  size_eq hsize := by
    obtain ⟨d, hd, hdsize⟩ := h.size_eq hsize
    exact ⟨d, hd.extends hcarry.toExtends hsound hsound' hknown halike, hdsize⟩
  described hcomplete := (h.described hcomplete).extends hcarry.toExtends hsound hsound' hknown halike
  contained hcomplete u hu := hcarry.complete (h.contained hcomplete u (halike.byValue_eq ▸ hu))
  grounded hhash part hpart := hcarry.hashed (h.grounded hhash part (halike.components_eq ▸ hpart))
  finished hbuilt hempty := h.finished (halike.isDeclared_eq ▸ hbuilt) (halike.byValue_eq ▸ hempty)

/-- A table stays faithful if each type is as it was, or vouched for anew. -/
theorem Faithful.carry (h : tt.Faithful) (hcarry : Carries tt tt') (hsound' : tt'.Sound)
    (hvouched : ∀ t, (Alike (tt.shape t) (tt'.shape t) ∧ tt'.layout t = tt.layout t) ∨ tt'.Vouched t) :
    tt'.Faithful := by
  refine ⟨hsound', fun t => ?_⟩
  obtain ⟨halike, hlayout⟩ | hnew := hvouched t
  · refine ⟨?_, ?_⟩
    · rw [hlayout]
      exact (h.supported t).carry hcarry h.toSound hsound' (h.knows_components t) halike
    · intro pkgPath name u ms hs
      rw [hlayout]
      obtain heq | ⟨_, _, _, _, _, heq, heq'⟩ := halike
      · exact (h.vouched t).named_hash (heq.symm.trans hs)
      · cases heq'.symm.trans hs
        exact (h.vouched t).named_hash heq
  · exact hnew

end TypeTable

end GoSource
