import GoSource.Proofs.Package.Standing

/-!
# What type expressions signify

The types that resolution comes across are those that type expressions express, and they stand for what the file says.

* **`Package.setting`**: what the names of a file are looked up in while it is resolved.  **`Package.StartsFrom`**: what
  was there before.
* **`Package.Stands`**: what the types of a package stand for.
* **`Signifies`**: a type that a type expression expresses, and that stands for what the file says there.
* **`Answers`**: the answers of resolution.  An invalid one means that something is wrong with the file.
* **`Package.Explained`**: what is known about an entity is what the file says.
-/

namespace GoSource

open TypeTable

variable {file : ParsedFile} {start : TypeTable} {pkg pkg' : Package} {id : NodeId} {t : TypeId} {S : Sense}
  {entry : Entry} {obj : Object}

/-- What the names of a file are looked up in, if `start` are the types that were there before. -/
def Package.setting (start : TypeTable) (pkg : Package) : Setting :=
  { names := pkg.declared?, ground := { types := start, outer := pkg.outer, path := pkg.path } }

/-- The types of a package have come from `start`, and its predeclared names stand for something there. -/
structure Package.StartsFrom (start : TypeTable) (pkg : Package) : Prop where
  origin : start.Sound
  begins : Reaches start pkg.types
  grounded : (pkg.setting start).Grounded

theorem Package.StartsFrom.later (h : pkg.StartsFrom start) (houter : pkg'.outer = pkg.outer)
    (hreaches : Reaches pkg.types pkg'.types) : pkg'.StartsFrom start :=
  ⟨h.origin, h.begins.trans hreaches, h.grounded.congr houter rfl⟩

/-- A declared type that was there before keeps its name. -/
theorem Package.StartsFrom.given (h : pkg.StartsFrom start) (ht : (pkg.setting start).Gives t) :
    start.Knows t ∧ ∃ pkgPath name bound ms bound' ms', start.shape t = .named pkgPath name bound ms ∧
      pkg.types.shape t = .named pkgPath name bound' ms' := by
  cases hs : start.shape t with
  | named =>
      obtain ⟨bound', ms', hs', -⟩ := (h.begins.grows h.origin).named_eq hs
      exact ⟨knows_of_shape_ne (by simp [hs]), _, _, _, _, bound', ms', rfl, hs'⟩
  | _ =>
      have hdeclared : (start.shape t).isDeclared = true := ht.1
      rw [hs] at hdeclared
      cases hdeclared

/-- The declaration of the entry makes the type. -/
structure Package.Coins (file : ParsedFile) (pkg : Package) (entry : Entry) (t : TypeId) : Prop where
  fits : entry.Fits file
  role_eq : entry.role = .type
  op_eq : file.tree.op entry.spec = .kw .type
  typ_eq : (pkg.objects.get? entry.name).bind Object.typ = some t

/-- What the types of a package stand for. -/
abbrev Package.Stands (file : ParsedFile) (start : TypeTable) (pkg : Package) : TypeId → Sense → Prop :=
  GoSource.Stands (pkg.setting start) pkg.types (pkg.Coins file)

/-- The type expression `id` expresses the type `t`, and that stands for what the file says. -/
structure Signifies (file : ParsedFile) (start : TypeTable) (pkg : Package) (id : NodeId) (t : TypeId) : Prop where
  expressed : Expresses file pkg id t
  sense : ∃ S, Says file (pkg.setting start) (.type id) S ∧ pkg.Stands file start t S

/-! ### Later -/

namespace Retains

variable (h : Retains file pkg pkg')
include h

theorem setting_eq (start : TypeTable) : pkg'.setting start = pkg.setting start := by
  have hnames : pkg'.declared? = pkg.declared? := by
    funext name
    rw [Package.declared?, Package.declared?, h.scope_eq]
  rw [Package.setting, Package.setting, hnames, h.outer_eq, h.path_eq]

theorem coins (hcoins : pkg.Coins file entry t) : pkg'.Coins file entry t := by
  obtain ⟨hfits, hrole, hop, htyp⟩ := hcoins
  obtain ⟨obj, hobj, ht⟩ := Option.bind_eq_some_iff.1 htyp
  obtain ⟨obj', hobj', hgains⟩ := h.objects entry hfits obj hobj
  exact ⟨hfits, hrole, hop, Option.bind_eq_some_iff.2 ⟨obj', hobj', hgains.typ t ht⟩⟩

theorem stands (hS : pkg.Stands file start t S) : pkg'.Stands file start t S := by
  rw [Package.Stands, h.setting_eq]
  exact hS.later h.extends_types fun _ _ => h.coins

/-- What was said and stood for is so for good. -/
theorem sensible {q : Question} (hS : ∃ S, Says file (pkg.setting start) q S ∧ pkg.Stands file start t S) :
    ∃ S, Says file (pkg'.setting start) q S ∧ pkg'.Stands file start t S := by
  obtain ⟨S, hsays, hstands⟩ := hS
  exact ⟨S, h.setting_eq start ▸ hsays, h.stands hstands⟩

end Retains

theorem Signifies.later (hretains : Retains file pkg pkg') (h : Signifies file start pkg id t) :
    Signifies file start pkg' id t :=
  ⟨h.expressed.later hretains, hretains.sensible h.sense⟩

theorem Signifies.backed (h : Signifies file start pkg id t) : Backed file pkg t :=
  h.expressed.backed

/-! ### Answers -/

/-- The answer to the question what a type expression denotes: the type that it signifies, or the invalid type. -/
structure Answers (file : ParsedFile) (start : TypeTable) (id : NodeId) (t : TypeId) (pkg : Package) : Prop where
  backed : Backed file pkg t
  signifies : t ≠ TypeTable.invalid → Signifies file start pkg id t

theorem Answers.later (hretains : Retains file pkg pkg') (h : Answers file start id t pkg) :
    Answers file start id t pkg' :=
  ⟨h.backed.later hretains, fun hvalid => (h.signifies hvalid).later hretains⟩

theorem Signifies.answers (h : Signifies file start pkg id t) : Answers file start id t pkg :=
  ⟨h.backed, fun _ => h⟩

theorem answers_invalid (hflawed : pkg.Flawed file) : Answers file start id TypeTable.invalid pkg :=
  ⟨.invalid rfl hflawed, fun h => absurd rfl h⟩

/-! ### Entities -/

namespace Package

/-- What is known about an entity is what the file says of its name. -/
structure Explained (file : ParsedFile) (start : TypeTable) (pkg : Package) (entry : Entry) (obj : Object) : Prop where
  /-- A declared type is new. -/
  own : entry.role = .type → file.tree.op entry.spec = .kw .type → ∃ t, obj.typ = some t ∧ ¬ start.Knows t ∧
    ∃ bound ms, pkg.types.shape t = .named pkg.path (file.tree.literal entry.name) bound ms
  /-- An alias stands for nothing until its declaration has ended. -/
  unset : entry.role = .type → file.tree.op entry.spec ≠ .kw .type → pkg.Open entry.spec → obj.typ = none
  sense : ∀ t, obj.typ = some t → t ≠ TypeTable.invalid →
    ∃ S, Says file (pkg.setting start) (.name entry) S ∧ pkg.Stands file start t S
  meaning : entry.role = .type → file.tree.op entry.spec = .kw .type → ∀ t u, obj.typ = some t →
    pkg.types.underlying? t = some u → u ≠ TypeTable.invalid →
      ∃ S, Says file (pkg.setting start) (.meaning entry) S ∧ pkg.Stands file start u S
  value : ∀ v, obj.value = some v → ∃ x, Initializes file entry x ∧ States file (pkg.setting start) x v.literal

/-- What is known about an entity that is left alone. -/
theorem Explained.later (h : pkg.Explained file start entry obj) (hretains : Retains file pkg pkg')
    (hopen : pkg'.Open entry.spec → pkg.Open entry.spec)
    (hunderlying : entry.role = .type → file.tree.op entry.spec = .kw .type → ∀ t, obj.typ = some t →
      pkg'.types.underlying? t = pkg.types.underlying? t) : pkg'.Explained file start entry obj := by
  refine ⟨fun hrole hop => ?_, fun hrole hop hspec => h.unset hrole hop (hopen hspec),
    fun t ht hvalid => hretains.sensible (h.sense t ht hvalid), fun hrole hop t u ht hu hvalid => ?_, fun v hv => ?_⟩
  · obtain ⟨t, ht, hnew, bound, ms, hs⟩ := h.own hrole hop
    obtain ⟨bound', ms', hs', -⟩ := hretains.extends_types.named_eq hs
    exact ⟨t, ht, hnew, bound', ms', hretains.path_eq ▸ hs'⟩
  · rw [hunderlying hrole hop t ht] at hu
    exact hretains.sensible (h.meaning hrole hop t u ht hu hvalid)
  · rw [hretains.setting_eq]
    exact h.value v hv

end Package

end GoSource
