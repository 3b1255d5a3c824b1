import GoSource.Proofs.Grammar.Visits
import GoSource.Proofs.Package.Descent
import GoSource.Proofs.Package.Variable
import GoSource.Proofs.Typing.Refusals

/-!
# The work on declarations

Resolution works on a declaration from its beginning to its end, and in between on other declarations that it
needs.  Seen from outside it builds types, gives names their types, and begins and ends declarations.

* **`Entry.Fits`**: where the name and the declaration of an entry stand in the file.
* **`Work`**: a piece of work, with the declarations that were begun and ended in it and the faults found.
* **`Package.Orderly`**: all that is known is in the table, and a type that is not ended yet is unbound.  Work keeps
  a package orderly.
* **`Work.history`**: a declaration is begun at most once, and is ended when it has been begun.
-/

namespace GoSource

open TypeTable

/-! ### Annotations -/

namespace NodeMap

variable {α : Type}

theorem get?_modify_of_ne (m : NodeMap α) {id id' : NodeId} (f : α → α) (h : id' ≠ id) :
    (m.modify id f).get? id' = m.get? id' := by
  have hindex : id.index ≠ id'.index := fun heq => h (by cases id; cases id'; cases heq; rfl)
  rw [get?, get?, modify]
  simp only [Array.getElem?_modify, if_neg hindex]

theorem get?_insert_of_ne (m : NodeMap α) {id id' : NodeId} (value : α) (h : id' ≠ id) :
    (m.insert id value).get? id' = m.get? id' := by
  have hindex : id.index ≠ id'.index := fun heq => h (by cases id; cases id'; cases heq; rfl)
  rw [get?, get?, insert]
  simp only [Array.getElem?_setIfInBounds, if_neg hindex]
  by_cases hlt : id'.index < m.slots.size
  · rw [Array.getElem?_append_left hlt]
  · rw [Array.getElem?_append_right (Nat.le_of_not_lt hlt), Array.getElem?_eq_none (Nat.le_of_not_lt hlt),
      Array.getElem?_replicate]
    split
    · rfl
    · rfl

end NodeMap

/-! ### Entries in a file -/

/-- The role of the names in a declaration that begins with a token. -/
def Token.role? : Token → Option Role
  | .kw .type => some .type
  | .kw .const => some .constant
  | .kw .var => some .variable
  | .kw .import_ => some .package
  | _ => none

/-- Where an entry stands: its declaration in the file, and its name in the declaration. -/
inductive Entry.Fits (file : ParsedFile) : Entry → Prop
  | type {decl spec name : NodeId} (hdecl : decl ∈ file.decls) (hop : file.tree.op decl = .kw .type)
      (hspec : spec ∈ file.tree.present decl) (hname : file.tree.part? spec 0 = some name) :
      Fits file { name, spec, role := .type }
  | value {decl spec names name : NodeId} {role : Role} (hdecl : decl ∈ file.decls)
      (hop : file.tree.op decl = .kw .const ∧ role = .constant ∨ file.tree.op decl = .kw .var ∧ role = .variable)
      (hspec : spec ∈ file.tree.present decl) (hnames : file.tree.part? spec 0 = some names)
      (hname : name ∈ file.tree.present names) :
      Fits file { name, spec, role }
  | function {spec name : NodeId} (hspec : spec ∈ file.decls) (hop : file.tree.op spec = .kw .func)
      (hfree : Package.isMethod file.tree spec = false) (hname : file.tree.part? spec 1 = some name) :
      Fits file { name, spec, role := .function }
  | import_ {decl spec name : NodeId} (hdecl : decl ∈ file.decls) (hop : file.tree.op decl = .kw .import_)
      (hspec : spec ∈ file.tree.present decl) (hname : name ∈ file.tree.present spec) :
      Fits file { name, spec, role := .package }

namespace Entry.Fits

variable {file : ParsedFile} {entry entry' : Entry}

/-- What is directly in the file is not inside something that is. -/
theorem not_nested (hforest : file.tree.Forest) {decl x : NodeId} (hdecl : decl ∈ file.decls)
    (hx : x ∈ file.decls) : x ∉ file.tree.present decl := by
  intro hmem
  have hroot : decl = file.root := hforest.parent hmem hx
  have hlt := hforest.ordered hdecl
  rw [hroot] at hlt
  exact Nat.lt_irrefl _ hlt

/-- A function is declared directly in the file, and everything else in a declaration that begins with its keyword. -/
theorem place (h : entry.Fits file) :
    entry.spec ∈ file.decls ∧ entry.role = .function ∨
      ∃ decl ∈ file.decls, entry.spec ∈ file.tree.present decl ∧ (file.tree.op decl).role? = some entry.role := by
  cases h with
  | type hdecl hop hspec => exact .inr ⟨_, hdecl, hspec, by rw [hop]; rfl⟩
  | value hdecl hop hspec =>
      obtain ⟨hop, rfl⟩ | ⟨hop, rfl⟩ := hop
      · exact .inr ⟨_, hdecl, hspec, by rw [hop]; rfl⟩
      · exact .inr ⟨_, hdecl, hspec, by rw [hop]; rfl⟩
  | function hspec => exact .inl ⟨hspec, rfl⟩
  | import_ hdecl hop hspec => exact .inr ⟨_, hdecl, hspec, by rw [hop]; rfl⟩

/-- A declaration stands for names of one kind. -/
theorem role_eq (hforest : file.tree.Forest) (h : entry.Fits file) (h' : entry'.Fits file)
    (hspec : entry.spec = entry'.spec) : entry.role = entry'.role := by
  obtain ⟨hmem, hrole⟩ | ⟨decl, hdecl, hmem, hop⟩ := h.place
  · obtain ⟨-, hrole'⟩ | ⟨decl', hdecl', hmem', -⟩ := h'.place
    · rw [hrole, hrole']
    · exact absurd (hspec ▸ hmem') (not_nested hforest hdecl' hmem)
  · obtain ⟨hmem', -⟩ | ⟨decl', hdecl', hmem', hop'⟩ := h'.place
    · exact absurd (hspec ▸ hmem) (not_nested hforest hdecl hmem')
    · have hsame : decl = decl' := hforest.parent hmem (hspec ▸ hmem')
      exact Option.some.inj (hop.symm.trans (hsame ▸ hop'))

/-- A type declaration has one name. -/
theorem eq_of_spec (hforest : file.tree.Forest) (h : entry.Fits file) (h' : entry'.Fits file)
    (hrole : entry.role = .type) (hspec : entry.spec = entry'.spec) : entry = entry' := by
  have hrole' : entry'.role = .type := (role_eq hforest h h' hspec).symm.trans hrole
  cases h with
  | type hdecl hop hmem hname =>
      cases h' with
      | type hdecl' hop' hmem' hname' =>
          cases hspec
          cases hname.symm.trans hname'
          rfl
      | value _ hop' =>
          rcases hop' with ⟨-, hne⟩ | ⟨-, hne⟩
          · cases hne.symm.trans hrole'
          · cases hne.symm.trans hrole'
      | function => cases hrole'
      | import_ => cases hrole'
  | value _ hop =>
      rcases hop with ⟨-, hne⟩ | ⟨-, hne⟩
      · cases hne.symm.trans hrole
      · cases hne.symm.trans hrole
  | function => cases hrole
  | import_ => cases hrole

/-- What is inside a part of a declaration is not directly in the file either. -/
theorem not_deep (hforest : file.tree.Forest) {decl spec x : NodeId} (hdecl : decl ∈ file.decls)
    (hspec : spec ∈ file.tree.present decl) (hx : x ∈ file.decls) : x ∉ file.tree.present spec := by
  intro hmem
  have hroot : spec = file.root := hforest.parent hmem hx
  have hlt := Nat.lt_trans (hforest.ordered hspec) (hforest.ordered hdecl)
  rw [hroot] at hlt
  exact Nat.lt_irrefl _ hlt

/-- A name is a part of its declaration, or of a list of names there. -/
theorem name_place (h : entry.Fits file) :
    entry.name ∈ file.tree.present entry.spec ∨
      ∃ decl ∈ file.decls, entry.spec ∈ file.tree.present decl ∧
        ∃ names ∈ file.tree.present entry.spec, entry.name ∈ file.tree.present names := by
  cases h with
  | type _ _ _ hname => exact .inl (Tree.mem_present_of_part? hname)
  | value hdecl _ hspec hnames hname =>
      exact .inr ⟨_, hdecl, hspec, _, Tree.mem_present_of_part? hnames, hname⟩
  | function _ _ _ hname => exact .inl (Tree.mem_present_of_part? hname)
  | import_ _ _ _ hname => exact .inl hname

/-- A list of names is deeper in the file than all declarations. -/
theorem ne_names (hforest : file.tree.Forest) (h : entry.Fits file) {decl spec names : NodeId}
    (hdecl : decl ∈ file.decls) (hspec : spec ∈ file.tree.present decl) (hnames : names ∈ file.tree.present spec) :
    entry.spec ≠ names := by
  rintro rfl
  obtain ⟨hmem, -⟩ | ⟨decl', hdecl', hmem, -⟩ := h.place
  · exact not_deep hforest hdecl hspec hmem hnames
  · exact not_nested hforest hdecl (hforest.parent hnames hmem ▸ hdecl') hspec

/-- A name stands in one declaration. -/
theorem spec_eq_of_name (hforest : file.tree.Forest) (h : entry.Fits file) (h' : entry'.Fits file)
    (hname : entry.name = entry'.name) : entry.spec = entry'.spec := by
  obtain hmem | ⟨decl, hdecl, hspec, names, hnames, hmem⟩ := h.name_place
  · obtain hmem' | ⟨decl', hdecl', hspec', names', hnames', hmem'⟩ := h'.name_place
    · exact hforest.parent hmem (hname ▸ hmem')
    · exact absurd (hforest.parent hmem (hname ▸ hmem')) (h.ne_names hforest hdecl' hspec' hnames')
  · obtain hmem' | ⟨-, -, -, names', hnames', hmem'⟩ := h'.name_place
    · exact absurd (hforest.parent hmem' (hname ▸ hmem)) (h'.ne_names hforest hdecl hspec hnames)
    · have hsame : names = names' := hforest.parent hmem (hname ▸ hmem')
      exact hforest.parent hnames (hsame ▸ hnames')

/-- An entry is known by its name. -/
theorem eq_of_name (hforest : file.tree.Forest) (h : entry.Fits file) (h' : entry'.Fits file)
    (hname : entry.name = entry'.name) : entry = entry' := by
  have hspec := spec_eq_of_name hforest h h' hname
  have hrole := role_eq hforest h h' hspec
  cases entry
  cases entry'
  cases hname
  cases hspec
  cases hrole
  rfl

/-- The names of methods are no names of the package. -/
theorem name_ne (hforest : file.tree.Forest) (h : entry.Fits file) {decl name : NodeId} {place : Nat}
    (hdecl : decl ∈ file.decls) (hmethod : Package.isMethod file.tree decl = true)
    (hname : file.tree.part? decl place = some name) : entry.name ≠ name := by
  have hmem := Tree.mem_present_of_part? hname
  have hnested {decl' spec : NodeId} (hdecl' : decl' ∈ file.decls) (hspec : spec ∈ file.tree.present decl') :
      name ∉ file.tree.present spec := by
    intro hmem'
    have hsame := hforest.parent hmem hmem'
    exact not_nested hforest hdecl' hdecl (hsame ▸ hspec)
  cases h with
  | type hdecl' _ hspec hpart =>
      rintro rfl
      exact hnested hdecl' hspec (Tree.mem_present_of_part? hpart)
  | value hdecl' _ hspec hnames hmem' =>
      rintro rfl
      have hsame := hforest.parent hmem hmem'
      rw [← hsame] at hnames
      exact not_deep hforest hdecl' hspec hdecl (Tree.mem_present_of_part? hnames)
  | function _ _ hfree hpart =>
      rintro rfl
      have hsame := hforest.parent hmem (Tree.mem_present_of_part? hpart)
      rw [hsame, hfree] at hmethod
      cases hmethod
  | import_ hdecl' _ hspec hmem' =>
      rintro rfl
      exact hnested hdecl' hspec hmem'

end Entry.Fits

/-! ### Progress -/

namespace Package

variable {pkg : Package} {spec spec' : NodeId} {progress : Progress}

theorem progress?_setProgress_self (h : (pkg.progress? spec).isSome) :
    (pkg.setProgress spec progress).progress? spec = some progress := by
  unfold progress? at h
  unfold progress? setProgress
  dsimp only
  generalize pkg.tasks = tasks at h
  induction tasks with
  | nil => cases h
  | cons task rest ih =>
      rw [List.map_cons, List.find?_cons]
      rw [List.find?_cons] at h
      by_cases hspec : task.entry.spec = spec
      · rw [if_pos hspec, decide_eq_true hspec]
        rfl
      · rw [if_neg hspec, decide_eq_false hspec]
        rw [decide_eq_false hspec] at h
        exact ih h

theorem progress?_setProgress_of_ne (h : spec' ≠ spec) :
    (pkg.setProgress spec progress).progress? spec' = pkg.progress? spec' := by
  unfold progress? setProgress
  dsimp only
  induction pkg.tasks with
  | nil => rfl
  | cons task rest ih =>
      rw [List.map_cons, List.find?_cons, List.find?_cons]
      by_cases hspec : task.entry.spec = spec
      · rw [if_pos hspec]
        have hne : ¬ task.entry.spec = spec' := fun heq => h (heq.symm.trans hspec)
        rw [decide_eq_false hne]
        exact ih
      · rw [if_neg hspec]
        by_cases hspec' : task.entry.spec = spec'
        · rw [decide_eq_true hspec']
        · rw [decide_eq_false hspec']
          exact ih

theorem entries_setProgress (pkg : Package) (spec : NodeId) (progress : Progress) :
    (pkg.setProgress spec progress).tasks.map Task.entry = pkg.tasks.map Task.entry := by
  unfold setProgress
  rw [List.map_map]
  refine List.map_congr_left fun task _ => ?_
  rw [Function.comp_apply]
  split
  · rfl
  · rfl

/-- A declaration that is to be resolved and is not ended. -/
def Open (pkg : Package) (spec : NodeId) : Prop :=
  pkg.progress? spec = some .pending ∨ pkg.progress? spec = some .resolving

/-- A type declaration that is not ended. -/
structure Awaits (file : ParsedFile) (pkg : Package) (entry : Entry) : Prop where
  fits : entry.Fits file
  role_eq : entry.role = .type
  isOpen : pkg.Open entry.spec

end Package

/-! ### Work -/

/-- A fault that lies in a declaration. -/
def Diagnostic.LiesIn (d : Diagnostic SemanticFault) (file : ParsedFile) (decl : NodeId) : Prop :=
  ∃ node cause, file.tree.Under decl node ∧ d = .make file.file (file.tree.pos node) cause

/-- What happens to a declaration: it is begun, and ended with a fault or without. -/
inductive Event where
  | begun (spec : NodeId)
  | ended (spec : NodeId) (fault : Option (Diagnostic SemanticFault))

namespace Event

/-- The declaration. -/
def spec : Event → NodeId
  | .begun spec => spec
  | .ended spec _ => spec

/-- The fault that is recorded. -/
def fault? : Event → Option (Diagnostic SemanticFault)
  | .begun _ => none
  | .ended _ fault => fault

end Event

/-- The package in which a fault was recorded, if there is one. -/
def Package.recorded (pkg : Package) (fault : Option (Diagnostic SemanticFault)) : Package :=
  { pkg with faults := pkg.faults ++ fault.toList.toArray }

/-- Building types leaves the types as they are that are there. -/
structure TypeTable.Builds (tt tt' : TypeTable) : Prop where
  reaches : Reaches tt tt'
  shape_eq : ∀ t, tt.Knows t → tt'.shape t = tt.shape t

/-- The type of an entry gets its meaning: a declared type is bound, an alias takes the meaning over. -/
inductive Means (entry : Entry) (meaning : TypeId) (pkg : Package) : Package → Prop
  | bound {obj : Object} {t : TypeId} {types : TypeTable} (hobj : pkg.objects.get? entry.name = some obj)
      (ht : obj.typ = some t) (hknown : pkg.types.Knows meaning)
      (hbind : setUnderlying t meaning pkg.types = (.ok (), types)) :
      Means entry meaning pkg { pkg with types }
  | taken {obj : Object} (hobj : pkg.objects.get? entry.name = some obj) (ht : obj.typ = none)
      (hknown : pkg.types.Knows meaning) :
      Means entry meaning pkg
        { pkg with objects := pkg.objects.modify entry.name ({ · with typ := some meaning }) }

/-- How the work on a declaration ends.  A type whose declaration is at fault becomes invalid. -/
inductive Settles (file : ParsedFile) (entry : Entry) (pkg : Package) :
    Option (Diagnostic SemanticFault) → Package → Prop
  | value (fault : Option (Diagnostic SemanticFault)) (hrole : entry.role ≠ .type)
      (hfault : ∀ d, fault = some d → d.LiesIn file entry.spec) :
      Settles file entry pkg fault ((pkg.setProgress entry.spec .done).recorded fault)
  | type {meaning : TypeId} {pkg' : Package} (hrole : entry.role = .type) (hmeans : Means entry meaning pkg pkg') :
      Settles file entry pkg none (pkg'.setProgress entry.spec .done)
  | poisoned {d : Diagnostic SemanticFault} {pkg' : Package} (hrole : entry.role = .type)
      (hmeans : Means entry TypeTable.invalid pkg pkg') (hfault : d.LiesIn file entry.spec) :
      Settles file entry pkg (some d) ((pkg'.setProgress entry.spec .done).recorded (some d))

/-- A piece of work, on a declaration or on none, with what happened in it.  Only names of the declaration that is
worked on are given types, only pending declarations are begun, and methods are added when all types have ended. -/
inductive Work (file : ParsedFile) : Option Entry → Package → List Event → Package → Prop
  | idle {self : Option Entry} {pkg : Package} : Work file self pkg [] pkg
  | build {self : Option Entry} {pkg : Package} {types : TypeTable} (h : pkg.types.Builds types) :
      Work file self pkg [] { pkg with types }
  | give {entry : Entry} {pkg : Package} {name : NodeId} {f : Object → Object}
      (hrole : entry.role ≠ .type) (hname : ({ entry with name } : Entry).Fits file)
      (hkeeps : ∀ obj, (f obj).role = obj.role ∧ (f obj).decl = obj.decl)
      (hf : ∀ obj t, (f obj).typ = some t → pkg.types.Knows t) :
      Work file (some entry) pkg [] { pkg with objects := pkg.objects.modify name f }
  | declare {self : Option Entry} {entry : Entry} {pkg pkg₁ pkg₂ : Package} {es : List Event}
      {fault : Option (Diagnostic SemanticFault)} (hentry : entry.Fits file)
      (hpending : pkg.progress? entry.spec = some .pending)
      (hwork : Work file (some entry) (pkg.setProgress entry.spec .resolving) es pkg₁)
      (hsettles : Settles file entry pkg₁ fault pkg₂) :
      Work file self pkg (.begun entry.spec :: es ++ [.ended entry.spec fault]) pkg₂
  | note {self : Option Entry} {pkg : Package} (methods : List (String × String)) :
      Work file self pkg [] { pkg with methods }
  | method {self : Option Entry} {pkg : Package} {types : TypeTable} {decl name : NodeId} {obj : Object}
      (hdecl : decl ∈ file.decls) (hmethod : Package.isMethod file.tree decl = true)
      (hname : file.tree.part? decl 1 = some name) (hended : ∀ entry, ¬ pkg.Awaits file entry)
      (hreaches : Reaches pkg.types types) (hknown : ∀ t, obj.typ = some t → types.Knows t) :
      Work file self pkg [] { pkg with types, objects := pkg.objects.insert name obj }
  | after {self : Option Entry} {pkg pkg₁ pkg₂ : Package} {es es' : List Event}
      (h : Work file self pkg es pkg₁) (h' : Work file self pkg₁ es' pkg₂) : Work file self pkg (es ++ es') pkg₂

/-! ### What work leaves alone -/

/-- What stays the same while declarations are worked on. -/
structure Steady (pkg pkg' : Package) : Prop where
  entries_eq : pkg'.tasks.map Task.entry = pkg.tasks.map Task.entry
  scope_eq : pkg'.scope = pkg.scope
  outer_eq : pkg'.outer = pkg.outer
  path_eq : pkg'.path = pkg.path
  reaches : Reaches pkg.types pkg'.types

namespace Steady

variable {pkg pkg₁ pkg₂ : Package}

theorem refl (pkg : Package) : Steady pkg pkg :=
  ⟨rfl, rfl, rfl, rfl, .refl⟩

theorem trans (h : Steady pkg pkg₁) (h' : Steady pkg₁ pkg₂) : Steady pkg pkg₂ :=
  ⟨h'.entries_eq.trans h.entries_eq, h'.scope_eq.trans h.scope_eq, h'.outer_eq.trans h.outer_eq,
    h'.path_eq.trans h.path_eq, h.reaches.trans h'.reaches⟩

theorem setProgress (pkg : Package) (spec : NodeId) (progress : Progress) :
    Steady pkg (pkg.setProgress spec progress) :=
  ⟨pkg.entries_setProgress spec progress, rfl, rfl, rfl, .refl⟩

end Steady

variable {file : ParsedFile} {self : Option Entry} {entry : Entry} {pkg pkg' pkg₁ pkg₂ : Package} {es : List Event}
  {fault : Option (Diagnostic SemanticFault)} {meaning : TypeId} {spec : NodeId}

/-- Binding a declared type is an operation on types that the table knows. -/
theorem reaches_setUnderlying {tt tt' : TypeTable} {t : TypeId} (hknown : tt.Knows meaning)
    (hbind : setUnderlying t meaning tt = (.ok (), tt')) : Reaches tt tt' := by
  obtain ⟨fault, hrun⟩ | ⟨pkgPath, name, ms, u, hs, -, -⟩ := setUnderlying_cases t meaning tt
  · cases hrun.symm.trans hbind
  · refine Reaches.after .refl (.bind t meaning) ?_ (congrArg Prod.snd hbind)
    have ht : tt.Knows t := knows_of_shape_ne (by rw [hs]; exact nofun)
    simpa [Operation.handles] using ⟨ht, hknown⟩

theorem Means.steady (h : Means entry meaning pkg pkg') : Steady pkg pkg' := by
  cases h with
  | bound _ _ hknown hbind => exact ⟨rfl, rfl, rfl, rfl, reaches_setUnderlying hknown hbind⟩
  | taken => exact ⟨rfl, rfl, rfl, rfl, .refl⟩

theorem Settles.steady (h : Settles file entry pkg fault pkg') : Steady pkg pkg' := by
  cases h with
  | value => exact ⟨pkg.entries_setProgress entry.spec .done, rfl, rfl, rfl, .refl⟩
  | type _ hmeans => exact hmeans.steady.trans (.setProgress _ _ _)
  | poisoned _ hmeans =>
      have hdone := hmeans.steady.trans (.setProgress _ entry.spec .done)
      exact ⟨hdone.entries_eq, hdone.scope_eq, hdone.outer_eq, hdone.path_eq, hdone.reaches⟩

theorem Work.steady (h : Work file self pkg es pkg') : Steady pkg pkg' := by
  induction h with
  | idle => exact .refl _
  | build h => exact ⟨rfl, rfl, rfl, rfl, h.reaches⟩
  | give => exact ⟨rfl, rfl, rfl, rfl, .refl⟩
  | declare _ _ _ hsettles ih => exact ((Steady.setProgress _ _ _).trans ih).trans hsettles.steady
  | note => exact ⟨rfl, rfl, rfl, rfl, .refl⟩
  | method _ _ _ _ hreaches => exact ⟨rfl, rfl, rfl, rfl, hreaches⟩
  | after _ _ ih ih' => exact ih.trans ih'

/-! ### Histories -/

theorem Means.tasks_eq (h : Means entry meaning pkg pkg') : pkg'.tasks = pkg.tasks := by
  cases h with
  | bound => rfl
  | taken => rfl

theorem Means.faults_eq (h : Means entry meaning pkg pkg') : pkg'.faults = pkg.faults := by
  cases h with
  | bound => rfl
  | taken => rfl

theorem progress?_congr (h : pkg'.tasks = pkg.tasks) (spec : NodeId) : pkg'.progress? spec = pkg.progress? spec := by
  rw [Package.progress?, Package.progress?, h]

/-- A declaration is done when its type has got its meaning, and no other one has changed its state. -/
theorem Means.progress?_self (h : Means entry meaning pkg pkg')
    (hresolving : pkg.progress? entry.spec = some .resolving) :
    (pkg'.setProgress entry.spec .done).progress? entry.spec = some .done :=
  Package.progress?_setProgress_self (by rw [progress?_congr h.tasks_eq, hresolving]; rfl)

theorem Means.progress?_of_ne {spec : NodeId} (h : Means entry meaning pkg pkg') (hne : spec ≠ entry.spec) :
    (pkg'.setProgress entry.spec .done).progress? spec = pkg.progress? spec := by
  rw [Package.progress?_setProgress_of_ne hne, progress?_congr h.tasks_eq]

/-- Only the entity of the type that is declared is affected. -/
theorem Means.get?_eq {id : NodeId} (h : Means entry meaning pkg pkg') (hne : id ≠ entry.name) :
    pkg'.objects.get? id = pkg.objects.get? id := by
  cases h with
  | bound => rfl
  | taken => exact NodeMap.get?_modify_of_ne _ _ hne

/-- When the work on a declaration has ended, only that declaration has changed its state. -/
theorem Settles.tasks_eq (h : Settles file entry pkg fault pkg') :
    pkg'.tasks = (pkg.setProgress entry.spec .done).tasks := by
  have hmeans {pkg₁ : Package} (h : pkg₁.tasks = pkg.tasks) :
      (pkg₁.setProgress entry.spec .done).tasks = (pkg.setProgress entry.spec .done).tasks := by
    rw [Package.setProgress, Package.setProgress, h]
  cases h with
  | value => rfl
  | type _ h => exact hmeans h.tasks_eq
  | poisoned _ h => exact hmeans h.tasks_eq

/-- A declaration that was worked on is done. -/
theorem Settles.progress?_eq (h : Settles file entry pkg fault pkg')
    (hresolving : pkg.progress? entry.spec = some .resolving) : pkg'.progress? entry.spec = some .done := by
  rw [progress?_congr h.tasks_eq]
  exact Package.progress?_setProgress_self (by rw [hresolving]; rfl)

theorem Settles.faults_eq (h : Settles file entry pkg fault pkg') :
    pkg'.faults = pkg.faults ++ fault.toList.toArray := by
  cases h with
  | value => rfl
  | type _ hmeans =>
      show (Package.setProgress _ _ _).faults = _
      rw [Option.toList_none, Array.append_empty]
      exact hmeans.faults_eq
  | poisoned _ hmeans => exact congrArg (· ++ _) hmeans.faults_eq

/-- A declaration that is not pending is left alone, and of one that is pending either nothing was heard, or it was
begun and ended once. -/
structure Chronicled (pkg : Package) (es : List Event) (pkg' : Package) (spec : NodeId) : Prop where
  quiet : pkg.progress? spec ≠ some .pending →
    pkg'.progress? spec = pkg.progress? spec ∧ es.filter (·.spec = spec) = []
  once : pkg.progress? spec = some .pending →
    (pkg'.progress? spec = some .pending ∧ es.filter (·.spec = spec) = []) ∨
      pkg'.progress? spec = some .done ∧ ∃ fault, es.filter (·.spec = spec) = [.begun spec, .ended spec fault]

/-- Nothing happened. -/
theorem Chronicled.still (h : pkg'.tasks = pkg.tasks) (spec : NodeId) : Chronicled pkg [] pkg' spec := by
  have hprogress := progress?_congr h spec
  exact ⟨fun _ => ⟨hprogress, rfl⟩, fun hpending => .inl ⟨hprogress.trans hpending, rfl⟩⟩

theorem Work.history (h : Work file self pkg es pkg') (spec : NodeId) : Chronicled pkg es pkg' spec := by
  induction h with
  | idle | build | give | note | method => exact .still (by rfl) spec
  | @declare self entry pkg pkg₁ pkg₂ es fault _ hpending _ hsettles ih =>
      have hbegun : (pkg.setProgress entry.spec .resolving).progress? entry.spec = some .resolving :=
        Package.progress?_setProgress_self (by rw [hpending]; rfl)
      have hprogress := progress?_congr hsettles.tasks_eq spec
      by_cases hspec : spec = entry.spec
      · subst hspec
        obtain ⟨hkept, hfilter⟩ := ih.quiet (by rw [hbegun]; exact nofun)
        refine ⟨fun hne => absurd hpending hne, fun _ => .inr ⟨?_, fault, ?_⟩⟩
        · rw [hprogress]
          exact Package.progress?_setProgress_self (by rw [hkept, hbegun]; rfl)
        · rw [List.cons_append, List.filter_cons, List.filter_append, hfilter]
          simp [Event.spec]
      · have hother (fault : Option (Diagnostic SemanticFault)) :
            (Event.begun entry.spec :: es ++ [Event.ended entry.spec fault]).filter (·.spec = spec) =
              es.filter (·.spec = spec) := by
          have hne : ¬ entry.spec = spec := fun h => hspec h.symm
          rw [List.cons_append, List.filter_cons, List.filter_append]
          simp [Event.spec, hne]
        have hbefore : (pkg.setProgress entry.spec .resolving).progress? spec = pkg.progress? spec :=
          Package.progress?_setProgress_of_ne hspec
        have hafter : pkg₂.progress? spec = pkg₁.progress? spec := by
          rw [hprogress]
          exact Package.progress?_setProgress_of_ne hspec
        constructor
        · intro hne
          rw [hother]
          obtain ⟨hkept, hfilter⟩ := ih.quiet (by rwa [hbefore])
          exact ⟨hafter.trans (hkept.trans hbefore), hfilter⟩
        · intro hpending'
          rw [hother, hafter]
          exact ih.once (by rwa [hbefore])
  | after _ _ ih ih' =>
      constructor
      · intro hne
        obtain ⟨hkept, hfilter⟩ := ih.quiet hne
        obtain ⟨hkept', hfilter'⟩ := ih'.quiet (by rwa [hkept])
        refine ⟨hkept'.trans hkept, ?_⟩
        rw [List.filter_append, hfilter, hfilter']
        rfl
      · intro hpending
        rw [List.filter_append]
        rcases ih.once hpending with ⟨hstill, hfilter⟩ | ⟨hdone, fault, hfilter⟩
        · rw [hfilter]
          exact ih'.once hstill
        · obtain ⟨hkept', hfilter'⟩ := ih'.quiet (by rw [hdone]; exact nofun)
          refine .inr ⟨hkept'.trans hdone, fault, ?_⟩
          rw [hfilter, hfilter']
          rfl

/-- The faults recorded are those of the declarations that were ended. -/
theorem Work.faults_eq (h : Work file self pkg es pkg') :
    pkg'.faults = pkg.faults ++ (es.filterMap Event.fault?).toArray := by
  induction h with
  | idle | build | give | note | method => simp
  | @declare self entry pkg pkg₁ pkg₂ es fault _ _ _ hsettles ih =>
      have hevents : (Event.begun entry.spec :: es ++ [Event.ended entry.spec fault]).filterMap Event.fault? =
          es.filterMap Event.fault? ++ fault.toList := by
        rw [List.filterMap_append, List.filterMap_cons]
        cases fault with
        | none => rfl
        | some d => rfl
      rw [hsettles.faults_eq, ih, hevents, Array.append_assoc]
      exact congrArg (pkg.faults ++ ·) (List.append_toArray _ _)
  | after _ _ ih ih' =>
      rw [ih', ih, List.filterMap_append, Array.append_assoc]
      simp

/-- The fault of a declaration lies in it. -/
theorem Work.liesIn (h : Work file self pkg es pkg') {d : Diagnostic SemanticFault}
    (hd : Event.ended spec (some d) ∈ es) : d.LiesIn file spec := by
  induction h with
  | idle | build | give | note | method => exact absurd hd List.not_mem_nil
  | declare _ _ _ hsettles ih =>
      rw [List.cons_append, List.mem_cons, List.mem_append, List.mem_singleton] at hd
      rcases hd with hd | hd | hd
      · cases hd
      · exact ih hd
      · cases hd
        cases hsettles with
        | value _ _ hfault => exact hfault d rfl
        | poisoned _ _ hfault => exact hfault
  | after _ _ ih ih' => exact (List.mem_append.1 hd).elim ih ih'

/-! ### Orderly packages -/

/-- A declared type that stands for nothing yet. -/
def TypeTable.Unbound (tt : TypeTable) (t : TypeId) : Prop :=
  ∃ pkgPath name ms, tt.shape t = .named pkgPath name none ms

namespace Package

/-- The entities of a package have types that the table knows, its entries stand in the file, and the types that are
awaited are unbound and differ from one another. -/
structure Orderly (file : ParsedFile) (pkg : Package) : Prop where
  forest : file.tree.Forest
  regular : pkg.types.Regular
  known : ∀ id obj t, pkg.objects.get? id = some obj → obj.typ = some t → pkg.types.Knows t
  predeclared : ∀ obj ∈ pkg.outer, ∀ t, obj.typ = some t → pkg.types.Knows t
  declared : ∀ name entry, pkg.declared? name = some entry → entry.Fits file
  listed : ∀ entry ∈ pkg.tasks.map Task.entry, entry.Fits file
  distinct : ((pkg.tasks.map Task.entry).map Entry.spec).Nodup
  awaited : ∀ entry, pkg.Awaits file entry →
    ∃ obj, pkg.objects.get? entry.name = some obj ∧ ∀ t, obj.typ = some t → pkg.types.Unbound t
  apart : ∀ entry entry', pkg.Awaits file entry → pkg.Awaits file entry' → ∀ obj obj' t,
    pkg.objects.get? entry.name = some obj → pkg.objects.get? entry'.name = some obj' →
    obj.typ = some t → obj'.typ = some t → entry = entry'

/-- A package stays orderly if what is still awaited has not changed. -/
theorem Orderly.keep (h : pkg.Orderly file) (hsteady : Steady pkg pkg')
    (hknown : ∀ id obj t, pkg'.objects.get? id = some obj → obj.typ = some t → pkg'.types.Knows t)
    (hawaits : ∀ entry, pkg'.Awaits file entry → pkg.Awaits file entry ∧
      pkg'.objects.get? entry.name = pkg.objects.get? entry.name ∧
      ∀ obj t, pkg.objects.get? entry.name = some obj → obj.typ = some t → pkg.types.Unbound t → pkg'.types.Unbound t) :
    pkg'.Orderly file := by
  have hgrows := hsteady.reaches.grows h.regular.toSound
  exact {
    forest := h.forest
    regular := h.regular.reaches hsteady.reaches
    known := hknown
    predeclared := fun obj hobj t ht => hgrows.knows (h.predeclared obj (hsteady.outer_eq ▸ hobj) t ht)
    declared := fun name entry hentry => by
      refine h.declared name entry ?_
      rwa [declared?, ← hsteady.scope_eq]
    listed := hsteady.entries_eq ▸ h.listed
    distinct := hsteady.entries_eq ▸ h.distinct
    awaited := fun entry hentry => by
      obtain ⟨hold, hobject, hunbound⟩ := hawaits entry hentry
      obtain ⟨obj, hobj, ht⟩ := h.awaited entry hold
      exact ⟨obj, hobject.trans hobj, fun t htyp => hunbound obj t hobj htyp (ht t htyp)⟩
    apart := fun entry entry' hentry hentry' obj obj' t hobj hobj' ht ht' => by
      obtain ⟨hold, hobject, -⟩ := hawaits entry hentry
      obtain ⟨hold', hobject', -⟩ := hawaits entry' hentry'
      exact h.apart entry entry' hold hold' obj obj' t (hobject.symm.trans hobj) (hobject'.symm.trans hobj') ht ht' }

/-- Beginning a declaration that is pending. -/
theorem Orderly.begin (h : pkg.Orderly file) (hpending : pkg.progress? spec = some .pending) :
    (pkg.setProgress spec .resolving).Orderly file := by
  refine h.keep (.setProgress _ _ _) h.known ?_
  intro entry hentry
  refine ⟨⟨hentry.fits, hentry.role_eq, ?_⟩, rfl, fun _ _ _ _ hunbound => hunbound⟩
  by_cases hspec : entry.spec = spec
  · rw [hspec]
    exact .inl hpending
  · have hopen := hentry.isOpen
    rw [Open, progress?_setProgress_of_ne hspec] at hopen
    exact hopen

theorem Orderly.build (h : pkg.Orderly file) {types : TypeTable} (hbuilds : pkg.types.Builds types) :
    ({ pkg with types } : Package).Orderly file := by
  have hgrows := hbuilds.reaches.grows h.regular.toSound
  refine h.keep ⟨rfl, rfl, rfl, rfl, hbuilds.reaches⟩ ?_ ?_
  · exact fun id obj t hobj ht => hgrows.knows (h.known id obj t hobj ht)
  · intro entry hentry
    refine ⟨⟨hentry.fits, hentry.role_eq, hentry.isOpen⟩, rfl, ?_⟩
    rintro obj t hobj ht ⟨pkgPath, name, ms, hs⟩
    exact ⟨pkgPath, name, ms, (hbuilds.shape_eq t (h.known _ obj t hobj ht)).trans hs⟩

/-- The names of types are left alone where a name that is none is given a type. -/
theorem Orderly.give (h : pkg.Orderly file) {name : NodeId} {f : Object → Object}
    (hrole : entry.role ≠ .type) (hname : ({ entry with name } : Entry).Fits file)
    (hf : ∀ obj t, (f obj).typ = some t → pkg.types.Knows t) :
    ({ pkg with objects := pkg.objects.modify name f } : Package).Orderly file := by
  refine h.keep ⟨rfl, rfl, rfl, rfl, .refl⟩ ?_ ?_
  · intro id obj t hobj ht
    by_cases hid : id = name
    · subst hid
      have hobj : (pkg.objects.modify id f).get? id = some obj := hobj
      rw [NodeMap.get?_modify_self, Option.map_eq_some_iff] at hobj
      obtain ⟨old, -, rfl⟩ := hobj
      exact hf old t ht
    · have hobj : (pkg.objects.modify name f).get? id = some obj := hobj
      rw [NodeMap.get?_modify_of_ne _ _ hid] at hobj
      exact h.known id obj t hobj ht
  · intro e he
    refine ⟨⟨he.fits, he.role_eq, he.isOpen⟩, NodeMap.get?_modify_of_ne _ _ ?_, fun _ _ _ _ hunbound => hunbound⟩
    intro heq
    have hsame := he.fits.eq_of_name h.forest hname heq
    exact hrole ((congrArg Entry.role hsame).symm.trans he.role_eq)

theorem Orderly.note (h : pkg.Orderly file) (methods : List (String × String)) :
    ({ pkg with methods } : Package).Orderly file :=
  h.keep ⟨rfl, rfl, rfl, rfl, .refl⟩ h.known fun _ hentry =>
    ⟨⟨hentry.fits, hentry.role_eq, hentry.isOpen⟩, rfl, fun _ _ _ _ hunbound => hunbound⟩

/-- When no type is awaited, types and entities can be added. -/
theorem Orderly.method (h : pkg.Orderly file) {types : TypeTable} {name : NodeId} {obj : Object}
    (hended : ∀ entry, ¬ pkg.Awaits file entry) (hreaches : Reaches pkg.types types)
    (hknown : ∀ t, obj.typ = some t → types.Knows t) :
    ({ pkg with types, objects := pkg.objects.insert name obj } : Package).Orderly file := by
  have hgrows := hreaches.grows h.regular.toSound
  refine h.keep ⟨rfl, rfl, rfl, rfl, hreaches⟩ ?_ fun entry hentry =>
    absurd ⟨hentry.fits, hentry.role_eq, hentry.isOpen⟩ (hended entry)
  intro id obj' t hobj ht
  have hobj : (pkg.objects.insert name obj).get? id = some obj' := hobj
  by_cases hid : id = name
  · rw [hid, NodeMap.get?_insert_self] at hobj
    cases hobj
    exact hknown t ht
  · rw [NodeMap.get?_insert_of_ne _ _ hid] at hobj
    exact hgrows.knows (h.known id obj' t hobj ht)

/-- A type declaration that is ended is awaited no more; the others are not affected. -/
theorem Orderly.means (h : pkg.Orderly file) (hentry : pkg.Awaits file entry)
    (hmeans : Means entry meaning pkg pkg') : (pkg'.setProgress entry.spec .done).Orderly file := by
  have hisSome : (pkg.progress? entry.spec).isSome := by
    rcases hentry.isOpen with hopen | hopen
    · rw [hopen]
      rfl
    · rw [hopen]
      rfl
  have hothers (e : Entry) (he : (pkg'.setProgress entry.spec .done).Awaits file e) :
      pkg.Awaits file e ∧ e ≠ entry := by
    have hspec : e.spec ≠ entry.spec := by
      intro hspec
      have hopen := he.isOpen
      rw [Open, hspec, progress?_setProgress_self (by rw [progress?_congr hmeans.tasks_eq]; exact hisSome)] at hopen
      rcases hopen with hopen | hopen
      · cases hopen
      · cases hopen
    refine ⟨⟨he.fits, he.role_eq, ?_⟩, fun heq => hspec (congrArg Entry.spec heq)⟩
    have hopen := he.isOpen
    rw [Open, progress?_setProgress_of_ne hspec, progress?_congr hmeans.tasks_eq] at hopen
    exact hopen
  refine h.keep (hmeans.steady.trans (.setProgress _ _ _)) ?_ ?_
  · intro id obj t hobj ht
    cases hmeans with
    | bound _ _ hknown hbind =>
        have hgrows := (reaches_setUnderlying hknown hbind).grows h.regular.toSound
        exact hgrows.knows (h.known id obj t hobj ht)
    | taken _ _ hknown =>
        have hobj : (pkg.objects.modify entry.name ({ · with typ := some meaning })).get? id = some obj := hobj
        by_cases hid : id = entry.name
        · subst hid
          rw [NodeMap.get?_modify_self, Option.map_eq_some_iff] at hobj
          obtain ⟨old, -, rfl⟩ := hobj
          cases ht
          exact hknown
        · rw [NodeMap.get?_modify_of_ne _ _ hid] at hobj
          exact h.known id obj t hobj ht
  · intro e he
    obtain ⟨hold, hne⟩ := hothers e he
    refine ⟨hold, ?_, ?_⟩
    · cases hmeans with
      | bound => rfl
      | taken =>
          refine NodeMap.get?_modify_of_ne _ _ fun heq => hne ?_
          exact hold.fits.eq_of_name h.forest hentry.fits heq
    · rintro obj t hobj ht ⟨pkgPath, name, ms, hs⟩
      cases hmeans with
      | @bound obj' t' types hobj' ht' _ hbind =>
          have hdistinct : t ≠ t' := by
            rintro rfl
            exact hne (h.apart e entry hold hentry obj obj' t hobj hobj' ht ht')
          obtain ⟨fault, hrun⟩ | ⟨_, _, _, _, -, -, hrun⟩ := setUnderlying_cases t' meaning pkg.types
          · cases hrun.symm.trans hbind
          · cases hrun.symm.trans hbind
            refine ⟨pkgPath, name, ms, ?_⟩
            show (TypeTable.update _ _ _).shape t = _
            rw [shape_update, if_neg fun h => hdistinct h.1]
            exact hs
      | taken => exact ⟨pkgPath, name, ms, hs⟩

/-- Other declarations than those of types are not awaited. -/
theorem Orderly.ended (h : pkg.Orderly file) (hentry : entry.Fits file)
    (hrole : entry.role ≠ .type) : (pkg.setProgress entry.spec .done).Orderly file := by
  refine h.keep (.setProgress _ _ _) h.known ?_
  intro e he
  have hspec : e.spec ≠ entry.spec := fun hspec =>
    hrole ((he.fits.role_eq h.forest hentry hspec).symm.trans he.role_eq)
  refine ⟨⟨he.fits, he.role_eq, ?_⟩, rfl, fun _ _ _ _ hunbound => hunbound⟩
  have hopen := he.isOpen
  rw [Open, progress?_setProgress_of_ne hspec] at hopen
  exact hopen

/-- Recording a fault changes nothing else. -/
theorem Orderly.recorded (h : pkg.Orderly file) (fault : Option (Diagnostic SemanticFault)) :
    (pkg.recorded fault).Orderly file :=
  h.keep ⟨rfl, rfl, rfl, rfl, .refl⟩ h.known fun _ hentry =>
    ⟨⟨hentry.fits, hentry.role_eq, hentry.isOpen⟩, rfl, fun _ _ _ _ hunbound => hunbound⟩

theorem Orderly.settles (h : pkg.Orderly file) (hentry : entry.Fits file)
    (hresolving : pkg.progress? entry.spec = some .resolving) (hsettles : Settles file entry pkg fault pkg') :
    pkg'.Orderly file := by
  cases hsettles with
  | value fault hrole => exact (h.ended hentry hrole).recorded fault
  | type hrole hmeans => exact h.means ⟨hentry, hrole, .inr hresolving⟩ hmeans
  | poisoned hrole hmeans => exact (h.means ⟨hentry, hrole, .inr hresolving⟩ hmeans).recorded _

end Package

/-- While a declaration is worked on it is neither begun again nor ended. -/
theorem Work.resolving (hpending : pkg.progress? entry.spec = some .pending)
    (h : Work file self (pkg.setProgress entry.spec .resolving) es pkg') :
    pkg'.progress? entry.spec = some .resolving := by
  have hbegun : (pkg.setProgress entry.spec .resolving).progress? entry.spec = some .resolving :=
    Package.progress?_setProgress_self (by rw [hpending]; rfl)
  rw [((h.history entry.spec).quiet (by rw [hbegun]; exact nofun)).1, hbegun]

/-- Work keeps a package orderly. -/
theorem Work.orderly (h : Work file self pkg es pkg') (horderly : pkg.Orderly file) :
    pkg'.Orderly file := by
  induction h with
  | idle => exact horderly
  | build hbuilds => exact horderly.build hbuilds
  | give hrole hname _ hf => exact horderly.give hrole hname hf
  | note methods => exact horderly.note methods
  | method _ _ _ hended hreaches hknown => exact horderly.method hended hreaches hknown
  | declare hentry hpending hwork hsettles ih =>
      exact (ih (horderly.begin hpending)).settles hentry (hwork.resolving hpending) hsettles
  | after _ _ ih ih' => exact ih' (ih horderly)

end GoSource
