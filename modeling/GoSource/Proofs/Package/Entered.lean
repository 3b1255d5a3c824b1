import GoSource.Proofs.Package.Given
import GoSource.Proofs.Package.Order

/-!
# Names that are entered

Collecting the names of a file takes nothing away: no fault, no entity, and no name.  So whatever is declared after it,
a name in a declaration of values is entered, or a fault was found.

* **`Package.Entered`**: there is an entity for a name, which can be found by it.
* **`Entered.kept`**: what keeps a name entered.
* **`entered_collected`**: the names in declarations of values.
-/

namespace GoSource

variable {file : ParsedFile} {pkg : Package} {entry : Entry} {decl spec name : NodeId} {role : Role}
  {decls : List NodeId}

/-- What one member of a list brings about, and the others keep. -/
theorem foldl_visits {α β : Type} {I : β → Prop} {f : β → α → β} {xs : List α} {x : α} (hx : x ∈ xs)
    (hvisit : ∀ b, I (f b x)) (hkeep : ∀ b, ∀ y ∈ xs, I b → I (f b y)) (b : β) : I (xs.foldl f b) := by
  obtain ⟨before, after, rfl⟩ := List.append_of_mem hx
  rw [List.foldl_append, List.foldl_cons]
  exact List.foldlRecOn after f (hvisit _) fun b hb y hy =>
    hkeep b y (List.mem_append_right _ (List.mem_cons_of_mem _ hy)) hb

/-- The names in a declaration of values fit the file. -/
theorem Entry.Fits.of_mem_namesIn (hdecl : decl ∈ file.decls)
    (hop : file.tree.op decl = .kw .const ∧ role = .constant ∨ file.tree.op decl = .kw .var ∧ role = .variable)
    (hspec : spec ∈ file.tree.present decl) (hname : name ∈ file.namesIn spec) :
    ({ name, spec, role } : Entry).Fits file := by
  rw [ParsedFile.namesIn] at hname
  cases hnames : file.tree.part? spec 0 with
  | none =>
      rw [hnames] at hname
      cases hname
  | some names =>
      rw [hnames] at hname
      exact .value hdecl hop hspec hnames hname

namespace Package

/-- The name of `entry` stands for an entity and can be found, unless it is `_`; or a fault was found. -/
def Entered (file : ParsedFile) (entry : Entry) (pkg : Package) : Prop :=
  pkg.faults ≠ #[] ∨ (pkg.objects.get? entry.name).isSome ∧
    (file.tree.literal entry.name = "_" ∨ pkg.declared? (file.tree.literal entry.name) = some entry)

/-! ### What is kept -/

/-- A condition on the faults and the entities that reports and new entities keep. -/
theorem collects_of_parts {I : Package → Prop}
    (hsame : ∀ pkg pkg' : Package, pkg'.faults = pkg.faults → pkg'.objects = pkg.objects → I pkg → I pkg')
    (hreport : ∀ pkg node cause, I pkg → I (pkg.report file node cause))
    (hinsert : ∀ pkg : Package, ∀ id obj, I pkg → I { pkg with objects := pkg.objects.insert id obj }) :
    Collects file I := by
  have henter {pkg : Package} (anonymous : Bool) (entry : Entry) (obj : Object) (h : I pkg) :
      I (pkg.enter anonymous entry obj) :=
    hsame { pkg with objects := pkg.objects.insert entry.name obj } _ rfl rfl (hinsert pkg entry.name obj h)
  refine ⟨fun node _ h => hreport _ node _ h, fun anonymous _ _ _ _ _ h => henter anonymous _ _ h, ?_⟩
  intro pkg role spec node _ h
  have hrest {pkg : Package} (h : I pkg) (typ : Option TypeId) (anonymous : Bool) :
      I (if !anonymous && pkg.isTaken (file.tree.literal node) then
          pkg.report file node (.redeclared (file.tree.literal node))
        else (pkg.enter anonymous { name := node, spec, role }
          { name := file.tree.literal node, role, typ, decl := some spec }).schedule { name := node, spec, role }) := by
    split
    · exact hreport _ _ _ h
    · rw [schedule]
      split
      · exact henter _ _ _ h
      · exact hsame (pkg.enter anonymous { name := node, spec, role } _) _ rfl rfl (henter _ _ _ h)
  rw [declare]
  split
  · exact h
  · dsimp only
    by_cases htype : role = .type ∧ file.tree.op spec = .kw .type
    · rw [if_pos htype]
      exact hrest (hsame pkg (pkg.newType (file.tree.literal node)).2 rfl rfl h) _ _
    · rw [if_neg htype]
      exact hrest h _ _

theorem collects_faulty : Collects file fun pkg => pkg.faults ≠ #[] :=
  collects_of_parts (fun _ _ hfaults _ h => hfaults ▸ h) (fun _ _ _ _ => Array.push_ne_empty) fun _ _ _ h => h

theorem collects_present (id : NodeId) : Collects file fun pkg => (pkg.objects.get? id).isSome := by
  refine collects_of_parts (fun _ _ _ hobjects h => hobjects ▸ h) (fun _ _ _ h => h) fun pkg id' obj h => ?_
  show ((pkg.objects.insert id' obj).get? id).isSome = true
  by_cases hid : id = id'
  · rw [hid, NodeMap.get?_insert_self]
    rfl
  · rwa [NodeMap.get?_insert_of_ne _ _ hid]

/-- What takes no fault, no entity and no name away keeps a name entered. -/
theorem Entered.kept {f : Package → Package} (h : pkg.Entered file entry)
    (hfaulty : pkg.faults ≠ #[] → (f pkg).faults ≠ #[])
    (hpresent : (pkg.objects.get? entry.name).isSome → ((f pkg).objects.get? entry.name).isSome)
    (hadds : Adds (file.tree.literal entry.name) f) : (f pkg).Entered file entry := by
  obtain ⟨added, hadded⟩ := hadds
  refine h.imp hfaulty fun ⟨hobj, hname⟩ => ⟨hpresent hobj, hname.imp_right fun hentry => ?_⟩
  rw [hadded, hentry, Option.some_or]

/-! ### Declarations of values -/

theorem objects_schedule (pkg : Package) (entry : Entry) : (pkg.schedule entry).objects = pkg.objects := by
  rw [schedule]
  split
  · rfl
  · rfl

/-- A name that is declared is entered. -/
theorem declare_entered (hsound : file.tree.isBad name = false) (hrole : role = .constant ∨ role = .variable) :
    (pkg.declare file role spec name).Entered file { name, spec, role } := by
  have htype : ¬ (role = .type ∧ file.tree.op spec = .kw .type) := by
    rintro ⟨rfl, -⟩
    simp at hrole
  have hfunction : decide (role = .function) = false := by
    obtain rfl | rfl := hrole <;> rfl
  rw [declare, if_neg (by simp [hsound])]
  dsimp only
  rw [if_neg htype, hfunction, Bool.false_and, Bool.or_false]
  dsimp only
  split
  · exact .inl Array.push_ne_empty
  · refine .inr ⟨?_, ?_⟩
    · rw [objects_schedule]
      show ((pkg.objects.insert name _).get? name).isSome = true
      rw [NodeMap.get?_insert_self]
      rfl
    · by_cases hblank : file.tree.literal name = "_"
      · exact .inl hblank
      · refine .inr ?_
        rw [declared?, scope_schedule, enter, if_neg (by simpa using hblank)]
        exact List.lookup_cons_self

theorem declareValues_entered (htag : file.tree.op spec = .tag .valueSpec) (hname : name ∈ file.namesIn spec)
    (hsound : file.tree.isBad name = false) (hrole : role = .constant ∨ role = .variable)
    (hfits : ∀ name ∈ file.namesIn spec, ({ name, spec, role } : Entry).Fits file) :
    (pkg.declareValues file role spec).Entered file { name, spec, role } := by
  rw [ParsedFile.namesIn] at hname hfits
  rw [declareValues, if_neg (by simp [htag])]
  cases hnames : file.tree.part? spec 0 with
  | none =>
      rw [hnames] at hname
      cases hname
  | some names =>
      rw [hnames] at hname hfits
      refine foldl_visits hname (fun pkg => declare_entered hsound hrole) (fun pkg other hother h => ?_) pkg
      exact h.kept (f := fun pkg => pkg.declare file role spec other) (collects_faulty.declare (hfits other hother))
        ((collects_present name).declare (hfits other hother)) (adds_declare role spec other)

/-- The names in declarations of values are entered, if they could be read. -/
theorem entered_collected (hdecls : ∀ decl ∈ decls, decl ∈ file.decls) (hdecl : decl ∈ decls)
    (hop : file.tree.op decl = .kw .const ∧ role = .constant ∨ file.tree.op decl = .kw .var ∧ role = .variable)
    (hspec : spec ∈ file.tree.present decl) (htag : file.tree.op spec = .tag .valueSpec)
    (hname : name ∈ file.namesIn spec) (hsound : ∀ id, file.tree.isBad id = false) :
    (pkg.collected file decls).Entered file { name, spec, role } := by
  have hrole : role = .constant ∨ role = .variable := hop.imp And.right And.right
  have hfits : ∀ name ∈ file.namesIn spec, ({ name, spec, role } : Entry).Fits file :=
    fun _ => .of_mem_namesIn (hdecls decl hdecl) hop hspec
  have hmember : spec ∈ sound file.tree decl := List.mem_filter.2 ⟨hspec, by simp [hsound]⟩
  -- The other specifications of the declaration, and the other declarations, keep what was entered.
  have hgroup (pkg : Package) : ((sound file.tree decl).foldl (declareValues file role) pkg).Entered file
      { name, spec, role } := by
    refine foldl_visits hmember (fun pkg => declareValues_entered htag hname (hsound name) hrole hfits)
      (fun pkg other hother h => ?_) pkg
    have hother := (List.mem_filter.1 hother).1
    exact h.kept (f := fun pkg => pkg.declareValues file role other)
      (fun h => collects_faulty.declareValues h (hdecls decl hdecl) hop hother)
      (fun h => (collects_present name).declareValues h (hdecls decl hdecl) hop hother) (adds_declareValues role other)
  refine foldl_visits hdecl (fun pkg => ?_) (fun pkg other hother h => ?_) _
  · have hmethod : isMethod file.tree decl = false := by
      obtain ⟨hop, -⟩ | ⟨hop, -⟩ := hop <;> simp [isMethod, hop]
    rw [collect, if_neg (by simp [hsound, hmethod])]
    obtain ⟨hop, rfl⟩ | ⟨hop, rfl⟩ := hop
    · rw [hop]
      exact hgroup pkg
    · rw [hop]
      exact hgroup pkg
  · exact h.kept (f := fun pkg => pkg.collect file other) (fun h => collects_faulty.collect h (hdecls other hother))
      (fun h => (collects_present name).collect h (hdecls other hother)) (adds_collect other)

end Package

end GoSource
