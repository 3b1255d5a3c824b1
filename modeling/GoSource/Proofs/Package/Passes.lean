import GoSource.Proofs.Package.Collected

/-!
# The passes over a file

When all declarations have been worked on, the methods are added, and then the types are looked for that contain
themselves.  These passes find at most one fault in each thing they look at, and leave the names of types alone.

* **`Work.spoiled`**: a type whose declaration was at fault is invalid, and stays so.
* **`Reviews`**: what the later passes do.
* **`resolveAll_ends`**: how the passes end.
-/

namespace GoSource

open TypeTable

variable {file : ParsedFile} {self : Option Entry} {pkg pkg' pkg₁ : Package} {es : List Event} {entry : Entry}

namespace Package

/-- No declaration is left to be resolved. -/
def Ended (pkg : Package) : Prop :=
  ∀ spec, ¬ pkg.Open spec

theorem Ended.congr (h : pkg.Ended) (hprogress : ∀ spec, pkg'.progress? spec = pkg.progress? spec) : pkg'.Ended := by
  intro spec
  rw [Open, hprogress]
  exact h spec

theorem Ended.not_awaits (h : pkg.Ended) (entry : Entry) : ¬ pkg.Awaits file entry :=
  fun hentry => h entry.spec hentry.isOpen

/-- The type of a name is invalid. -/
def Spoiled (pkg : Package) (entry : Entry) : Prop :=
  ∃ obj t, pkg.objects.get? entry.name = some obj ∧ obj.typ = some t ∧ pkg.types.isInvalid t = true

end Package

/-! ### After the declarations -/

/-- A declaration that has ended is not taken up again. -/
theorem Work.not_open (h : Work file self pkg es pkg') {spec : NodeId} (hended : ¬ pkg.Open spec) :
    pkg'.progress? spec = pkg.progress? spec ∧ ¬ pkg'.Open spec := by
  have hkept := ((h.history spec).quiet fun hpending => hended (.inl hpending)).1
  refine ⟨hkept, ?_⟩
  rwa [Package.Open, hkept]

/-- Where nothing is left to be resolved, nothing happens to declarations. -/
theorem Work.eq_nil (h : Work file self pkg es pkg') (hended : pkg.Ended) : es = [] := by
  refine List.eq_nil_iff_forall_not_mem.2 fun e he => ?_
  have hfilter := ((h.history e.spec).quiet fun hpending => hended e.spec (.inl hpending)).2
  exact absurd (hfilter ▸ List.mem_filter.2 ⟨he, by simp⟩) List.not_mem_nil

theorem Work.ended (h : Work file self pkg es pkg') (hended : pkg.Ended) : pkg'.Ended :=
  fun spec => (h.not_open (hended spec)).2

theorem Settles.object_eq {e : Entry} {fault : Option (Diagnostic SemanticFault)}
    (h : Settles file e pkg fault pkg') (hne : entry.name ≠ e.name) :
    pkg'.objects.get? entry.name = pkg.objects.get? entry.name := by
  cases h with
  | value => rfl
  | type _ hmeans => exact hmeans.get?_eq hne
  | poisoned _ hmeans => exact hmeans.get?_eq hne

/-- The name of a type whose declaration has ended keeps its meaning. -/
theorem Work.object_eq (h : Work file self pkg es pkg') (hforest : file.tree.Forest) (hentry : entry.Fits file)
    (hrole : entry.role = .type) (hended : ¬ pkg.Open entry.spec) :
    pkg'.objects.get? entry.name = pkg.objects.get? entry.name := by
  induction h with
  | idle | build | note => rfl
  | @give e pkg name f hvalue hname =>
      refine NodeMap.get?_modify_of_ne _ _ fun heq => hvalue ?_
      exact (congrArg Entry.role (hentry.eq_of_name hforest hname heq)).symm.trans hrole
  | @declare self e pkg pkg₁ pkg₂ es fault hfits hpending _ hsettles ih =>
      have hne : entry ≠ e := by
        rintro rfl
        exact hended (.inl hpending)
      have hname : entry.name ≠ e.name := fun heq => hne (hentry.eq_of_name hforest hfits heq)
      have hspec : entry.spec ≠ e.spec := fun heq => hne (hentry.eq_of_spec hforest hfits hrole heq)
      rw [hsettles.object_eq hname, ih]
      · rfl
      · rwa [Package.Open, Package.progress?_setProgress_of_ne hspec]
  | method hdecl hmethod hname =>
      exact NodeMap.get?_insert_of_ne _ _ (hentry.name_ne hforest hdecl hmethod hname)
  | after h _ ih ih' => exact (ih' (h.not_open hended).2).trans (ih hended)

/-- What is spoiled stays so. -/
theorem Package.Spoiled.keep (h : pkg.Spoiled entry) (horderly : pkg.Orderly file)
    (hobject : pkg'.objects.get? entry.name = pkg.objects.get? entry.name) (hreaches : Reaches pkg.types pkg'.types) :
    pkg'.Spoiled entry := by
  obtain ⟨obj, t, hobj, ht, hinvalid⟩ := h
  refine ⟨obj, t, hobject.trans hobj, ht, ?_⟩
  exact (hreaches.grows horderly.regular.toSound).isInvalid horderly.regular.toSound
    (horderly.known _ obj t hobj ht) hinvalid

/-- A type that gets the invalid meaning is spoiled. -/
theorem Means.spoiled (h : Means entry TypeTable.invalid pkg pkg') (horderly : pkg.Orderly file) :
    pkg'.Spoiled entry := by
  cases h with
  | @bound obj t types hobj ht hknown hbind =>
      have hsound := ((reaches_setUnderlying hknown hbind).grows horderly.regular.toSound).sound
      have hregular := horderly.regular.reaches (reaches_setUnderlying hknown hbind)
      refine ⟨obj, t, hobj, ht, ?_⟩
      obtain ⟨fault, hrun⟩ | ⟨pkgPath, name, ms, u, hs, hu, -⟩ :=
        setUnderlying_cases t TypeTable.invalid pkg.types
      · cases hrun.symm.trans hbind
      · obtain ⟨types', hrun, hs'⟩ := setUnderlying_ok hs hu
        cases hrun.symm.trans hbind
        rw [TypeTable.underlying?, horderly.regular.shape_invalid] at hu
        cases hu
        show types.isInvalid t = true
        rw [TypeTable.isInvalid, hsound.kind_eq_kindOf, TypeTable.underlying?, hs']
        show (some TypeTable.invalid).isSome && decide ((types.shape TypeTable.invalid).kind = .invalid)
        rw [hregular.shape_invalid]
        rfl
  | @taken obj hobj =>
      refine ⟨{ obj with typ := some TypeTable.invalid }, TypeTable.invalid, ?_, rfl,
        horderly.regular.isInvalid_invalid⟩
      show (pkg.objects.modify entry.name _).get? entry.name = _
      rw [NodeMap.get?_modify_self, hobj]
      rfl

/-- A type whose declaration was ended with a fault is spoiled. -/
theorem Work.spoiled (h : Work file self pkg es pkg') (horderly : pkg.Orderly file) (hentry : entry.Fits file)
    (hrole : entry.role = .type) {d : Diagnostic SemanticFault} (hd : .ended entry.spec (some d) ∈ es) :
    pkg'.Spoiled entry ∧ ¬ pkg'.Open entry.spec := by
  induction h with
  | idle | build | give | note | method => exact absurd hd List.not_mem_nil
  | @declare self e pkg pkg₁ pkg₂ es fault hfits hpending hwork hsettles ih =>
      have hbegun := horderly.begin hpending
      have hdone := hsettles.progress?_eq (hwork.resolving hpending)
      rw [List.cons_append, List.mem_cons, List.mem_append, List.mem_singleton] at hd
      rcases hd with hd | hd | hd
      · cases hd
      · obtain ⟨hspoiled, hended⟩ := ih hbegun hd
        have hspec : entry.spec ≠ e.spec := by
          intro hspec
          rw [hspec] at hended
          exact hended (.inr (hwork.resolving hpending))
        have hname : entry.name ≠ e.name := fun heq =>
          hspec (congrArg Entry.spec (hentry.eq_of_name horderly.forest hfits heq))
        refine ⟨hspoiled.keep (hwork.orderly hbegun) (hsettles.object_eq hname) hsettles.steady.reaches, ?_⟩
        rwa [Package.Open, progress?_congr hsettles.tasks_eq, Package.progress?_setProgress_of_ne hspec]
      · injection hd with hspec hfault
        subst hfault
        cases hentry.eq_of_spec horderly.forest hfits hrole hspec
        refine ⟨?_, ?_⟩
        · cases hsettles with
          | value _ hvalue => exact absurd hrole hvalue
          | poisoned _ hmeans => exact hmeans.spoiled (hwork.orderly hbegun)
        · rw [Package.Open, hdone]
          rintro (h | h)
          · cases h
          · cases h
  | after h h' ih ih' =>
      rcases List.mem_append.1 hd with hd | hd
      · obtain ⟨hspoiled, hended⟩ := ih horderly hd
        refine ⟨hspoiled.keep (h.orderly horderly) ?_ h'.steady.reaches, (h'.not_open hended).2⟩
        exact h'.object_eq horderly.forest hentry hrole hended
      · exact ih' (h.orderly horderly) hd

/-! ### The later passes -/

/-- A pass looks at one thing after another.  It does some work, and may find a fault there if `C` holds of it. -/
inductive Reviews (file : ParsedFile) (C : NodeId → Package → Prop) :
    List NodeId → Package → List (NodeId × Diagnostic SemanticFault) → Package → Prop
  | done {pkg : Package} : Reviews file C [] pkg [] pkg
  | next {node : NodeId} {rest : List NodeId} {pkg pkg₁ pkg₂ : Package} {es : List Event}
      {fault : Option (Diagnostic SemanticFault)} {blamed : List (NodeId × Diagnostic SemanticFault)}
      (hwork : Work file none pkg es pkg₁) (hfault : ∀ d, fault = some d → d.LiesIn file node ∧ C node pkg)
      (hrest : Reviews file C rest (pkg₁.recorded fault) blamed pkg₂) :
      Reviews file C (node :: rest) pkg (fault.toList.map (node, ·) ++ blamed) pkg₂

namespace Reviews

variable {C : NodeId → Package → Prop} {nodes : List NodeId} {blamed : List (NodeId × Diagnostic SemanticFault)}

/-- The declarations stay as they are, and so do the names of types. -/
theorem keeps (h : Reviews file C nodes pkg blamed pkg') (horderly : pkg.Orderly file) (hended : pkg.Ended) :
    pkg'.Orderly file ∧ (∀ spec, pkg'.progress? spec = pkg.progress? spec) ∧
      ∀ entry, entry.Fits file → entry.role = .type → pkg.Spoiled entry → pkg'.Spoiled entry := by
  induction h with
  | done => exact ⟨horderly, fun _ => rfl, fun _ _ _ h => h⟩
  | @next node rest pkg pkg₁ pkg₂ es fault blamed hwork _ _ ih =>
      obtain ⟨horderly', hprogress, hspoiled⟩ := ih ((hwork.orderly horderly).recorded fault) (hwork.ended hended)
      refine ⟨horderly', fun spec => (hprogress spec).trans (hwork.not_open (hended spec)).1, ?_⟩
      intro entry hentry hrole h
      refine hspoiled entry hentry hrole (h.keep horderly ?_ hwork.steady.reaches)
      exact hwork.object_eq horderly.forest hentry hrole (hended entry.spec)

theorem reaches (h : Reviews file C nodes pkg blamed pkg') :
    pkg'.outer = pkg.outer ∧ Reaches pkg.types pkg'.types := by
  induction h with
  | done => exact ⟨rfl, .refl⟩
  | next hwork _ _ ih => exact ⟨ih.1.trans hwork.steady.outer_eq, hwork.steady.reaches.trans ih.2⟩

theorem faults_eq (h : Reviews file C nodes pkg blamed pkg') (hended : pkg.Ended) :
    pkg'.faults = pkg.faults ++ (blamed.map Prod.snd).toArray := by
  induction h with
  | done => simp
  | @next node rest pkg pkg₁ pkg₂ es fault blamed hwork _ _ ih =>
      have hfaults := hwork.faults_eq
      rw [hwork.eq_nil hended] at hfaults
      rw [ih (hwork.ended hended)]
      show pkg₁.faults ++ fault.toList.toArray ++ _ = _
      rw [hfaults]
      cases fault with
      | none => simp
      | some d => simp

theorem sublist (h : Reviews file C nodes pkg blamed pkg') : (blamed.map Prod.fst).Sublist nodes := by
  induction h with
  | done => exact .slnil
  | @next node rest pkg pkg₁ pkg₂ es fault blamed _ _ _ ih =>
      cases fault with
      | none => exact ih.cons node
      | some d => exact ih.cons_cons node

theorem liesIn (h : Reviews file C nodes pkg blamed pkg') : ∀ x ∈ blamed, x.2.LiesIn file x.1 := by
  induction h with
  | done => exact nofun
  | @next node rest pkg pkg₁ pkg₂ es fault blamed _ hfault _ ih =>
      intro x hx
      rcases List.mem_append.1 hx with hx | hx
      · obtain ⟨d, hd, rfl⟩ := List.mem_map.1 hx
        exact (hfault d (Option.mem_toList.1 hd)).1
      · exact ih x hx

/-- What holds of the package as long as the pass goes on, and not of what may be found, is not found. -/
theorem not_mem {node : NodeId} {I : Package → Prop} (h : Reviews file C nodes pkg blamed pkg')
    (horderly : pkg.Orderly file) (hended : pkg.Ended) (hI : I pkg)
    (hkeep : ∀ {pkg pkg₁ : Package} {es : List Event} {fault : Option (Diagnostic SemanticFault)},
      pkg.Orderly file → pkg.Ended → Work file none pkg es pkg₁ → I pkg → I (pkg₁.recorded fault))
    (hC : ∀ pkg, I pkg → ¬ C node pkg) : node ∉ blamed.map Prod.fst := by
  induction h with
  | done => exact List.not_mem_nil
  | @next x rest pkg pkg₁ pkg₂ es fault blamed hwork hfault _ ih =>
      rw [List.map_append, List.mem_append]
      rintro (hmem | hmem)
      · obtain ⟨y, hy, heq⟩ := List.mem_map.1 hmem
        obtain ⟨d, hd, rfl⟩ := List.mem_map.1 hy
        subst heq
        exact hC pkg hI (hfault d (Option.mem_toList.1 hd)).2
      · exact ih ((hwork.orderly horderly).recorded fault) (hwork.ended hended) (hkeep horderly hended hwork hI) hmem

end Reviews

/-- The end of an action that is stopped by too many methods. -/
def Overflows {α : Type} (pkg : Package) (result : Except Failure α × Package) : Prop :=
  (∃ n, result.1 = .error (.construction (.tooManyMethods n))) ∧ result.2.outer = pkg.outer ∧
    Reaches pkg.types result.2.types

theorem Overflows.after {α : Type} {result : Except Failure α × Package} (h : Overflows pkg₁ result)
    (houter : pkg₁.outer = pkg.outer) (hreaches : Reaches pkg.types pkg₁.types) : Overflows pkg result :=
  ⟨h.1, h.2.1.trans houter, hreaches.trans h.2.2⟩

/-- What is stopped is not followed by anything. -/
theorem Overflows.bind {α β : Type} {a : ResolveM α} (h : Overflows pkg (a file pkg)) (f : α → ResolveM β) :
    Overflows pkg ((a >>= f) file pkg) := by
  obtain ⟨⟨n, hn⟩, hrest⟩ := h
  rw [ResolveM.bind_run]
  match hrun : a file pkg with
  | (outcome, pkg') =>
      rw [hrun] at hn hrest
      cases hn
      exact ⟨⟨n, rfl⟩, hrest⟩

/-- What an action of a later pass does to the node it looks at. -/
def Examines (file : ParsedFile) (C : NodeId → Package → Prop) (node : NodeId) (action : ResolveM Unit) : Prop :=
  ∀ pkg : Package, pkg.Orderly file → pkg.Ended →
    (∃ es pkg₁ fault, action file pkg = (.ok (), pkg₁.recorded fault) ∧ Work file none pkg es pkg₁ ∧
      ∀ d, fault = some d → d.LiesIn file node ∧ C node pkg) ∨ Overflows pkg (action file pkg)

/-- A pass over a list. -/
theorem reviews_forM {β : Type} {C : NodeId → Package → Prop} {f : β → ResolveM Unit} (node : β → NodeId)
    (xs : List β) (h : ∀ x ∈ xs, Examines file C (node x) (f x)) (horderly : pkg.Orderly file) (hended : pkg.Ended) :
    (∃ blamed pkg', xs.forM f file pkg = (.ok (), pkg') ∧ Reviews file C (xs.map node) pkg blamed pkg') ∨
      Overflows pkg (xs.forM f file pkg) := by
  induction xs generalizing pkg with
  | nil => exact .inl ⟨[], pkg, rfl, .done⟩
  | cons x rest ih =>
      have hrun : (x :: rest).forM f file pkg = (f x >>= fun _ => rest.forM f) file pkg := rfl
      rw [hrun]
      rcases h x List.mem_cons_self pkg horderly hended with ⟨es, pkg₁, fault, hfirst, hwork, hfault⟩ | hover
      · rw [ResolveM.run_bind hfirst]
        have horderly₁ := (hwork.orderly horderly).recorded fault
        rcases ih (fun y hy => h y (List.mem_cons_of_mem _ hy)) horderly₁ (hwork.ended hended) with
          ⟨blamed, pkg', hrest, hreviews⟩ | hover
        · exact .inl ⟨_, pkg', hrest, .next hwork hfault hreviews⟩
        · exact .inr (hover.after hwork.steady.outer_eq hwork.steady.reaches)
      · exact .inr (hover.bind _)

/-- Adding a method. -/
theorem method_examines {decl : NodeId} (hforest : file.tree.Forest) (hdecl : decl ∈ file.decls)
    (hmethod : Package.isMethod file.tree decl = true) :
    Examines file (fun _ _ => True) decl (ResolveM.isolate (ResolveM.run (·.method decl))) := by
  intro pkg horderly hended
  have hends : Ends file none (·.LiesIn file decl) pkg (fun _ _ => True) (ResolveM.run (·.method decl) file pkg) :=
    Meanings.method_does (lawful_meanings file _) hdecl hforest hmethod pkg horderly hended.not_awaits
  have hattempt : ResolveM.attempt (ResolveM.run (·.method decl)) file pkg =
      (.ok (ResolveM.run (·.method decl) file pkg).1, (ResolveM.run (·.method decl) file pkg).2) := rfl
  rw [ResolveM.isolate, ResolveM.run_bind hattempt]
  match hrun : ResolveM.run (·.method decl) file pkg with
  | (.ok (), pkg₁) =>
      rw [hrun] at hends
      obtain ⟨⟨es, hwork⟩, -⟩ := hends
      refine .inl ⟨es, pkg₁, none, ?_, hwork, nofun⟩
      show (Except.ok (), pkg₁) = (Except.ok (), pkg₁.recorded none)
      rw [Package.recorded, Option.toList_none, Array.append_empty]
  | (.error (.declaration d), pkg₁) =>
      rw [hrun] at hends
      obtain ⟨⟨es, hwork⟩, hd⟩ := hends
      refine .inl ⟨es, pkg₁, some d, Meanings.record_eq d pkg₁, hwork, ?_⟩
      rintro d' ⟨⟩
      exact ⟨hd, trivial⟩
  | (.error (.construction fault), pkg₁) =>
      rw [hrun] at hends
      obtain ⟨⟨n, rfl⟩, houter, hreaches⟩ := hends
      exact .inr ⟨⟨n, rfl⟩, houter, hreaches⟩

/-- A type declaration whose type is not known to be invalid. -/
def Unspoiled (file : ParsedFile) (spec : NodeId) (pkg : Package) : Prop :=
  ∃ entry, entry.spec = spec ∧ entry.role = .type ∧ entry.Fits file ∧ ¬ pkg.Spoiled entry

/-- Whether a type contains itself is asked only of types that stand for something valid. -/
theorem containsItself_eq (t : TypeId) (pkg : Package) :
    ResolveM.containsItself t file pkg =
      if (pkg.types.underlying? t).isNone || pkg.types.isInvalid t then (.ok false, pkg)
      else (.ok (!(completed t pkg.types).1.isComplete), { pkg with types := (completed t pkg.types).2 }) := by
  rw [ResolveM.containsItself, ResolveM.run_bind (ResolveM.types_run file pkg)]
  split
  · rfl
  · rfl

/-- Looking for types that contain themselves. -/
theorem checkFinite_examines (hentry : entry.Fits file) :
    Examines file (Unspoiled file) entry.spec (ResolveM.checkFinite entry) := by
  intro pkg horderly _
  have hidle (hrun : ResolveM.checkFinite entry file pkg = (.ok (), pkg)) :
      ∃ es pkg₁ fault, ResolveM.checkFinite entry file pkg = (.ok (), pkg₁.recorded fault) ∧
        Work file none pkg es pkg₁ ∧ ∀ d, fault = some d → d.LiesIn file entry.spec ∧ Unspoiled file entry.spec pkg := by
    refine ⟨[], pkg, none, ?_, .idle, nofun⟩
    rw [hrun, Package.recorded, Option.toList_none, Array.append_empty]
  refine .inl ?_
  by_cases hrole : entry.role = .type
  · cases hobj : pkg.objects.get? entry.name with
    | none =>
        refine hidle ?_
        rw [ResolveM.checkFinite, if_pos hrole, ResolveM.run_bind (ResolveM.get_run file pkg), hobj]
        rfl
    | some obj =>
        cases ht : obj.typ with
        | none =>
            refine hidle ?_
            rw [ResolveM.checkFinite, if_pos hrole, ResolveM.run_bind (ResolveM.get_run file pkg), hobj]
            dsimp only
            rw [ht]
            rfl
        | some t =>
            have hrun : ResolveM.checkFinite entry file pkg =
                (ResolveM.containsItself t >>= fun found =>
                  if found then do
                    let file ← read
                    modify fun pkg => pkg.report file entry.name (.recursiveType obj.name)
                  else pure () : ResolveM Unit) file pkg := by
              rw [ResolveM.checkFinite, if_pos hrole, ResolveM.run_bind (ResolveM.get_run file pkg), hobj]
              dsimp only
              rw [ht]
            by_cases hskip : ((pkg.types.underlying? t).isNone || pkg.types.isInvalid t) = true
            · refine hidle ?_
              rw [hrun, ResolveM.bind_run, containsItself_eq, if_pos hskip]
              rfl
            · have hvalid : ¬ pkg.Spoiled entry := by
                rintro ⟨obj', t', hobj', ht', hinvalid⟩
                cases hobj.symm.trans hobj'
                cases ht.symm.trans ht'
                exact hskip (by rw [hinvalid, Bool.or_true])
              have hwork : Work file none pkg [] { pkg with types := (completed t pkg.types).2 } := by
                refine .build ⟨Reaches.after .refl (.complete t) ?_ rfl, fun u _ => ?_⟩
                · simpa [Operation.handles] using horderly.known _ obj t hobj ht
                · exact (leads_complete t pkg.types).shape_eq u
              rw [hrun, ResolveM.bind_run, containsItself_eq, if_neg hskip]
              dsimp only
              cases (completed t pkg.types).1.isComplete with
              | true =>
                  refine ⟨[], _, none, ?_, hwork, nofun⟩
                  rw [Package.recorded, Option.toList_none, Array.append_empty]
                  rfl
              | false =>
                  refine ⟨[], _, some (.make file.file (file.tree.pos entry.name) (.recursiveType obj.name)), ?_, hwork, ?_⟩
                  · rw [Package.recorded, Option.toList_some]
                    rfl
                  · rintro d ⟨⟩
                    exact ⟨⟨entry.name, _, hentry.under hrole, rfl⟩, entry, rfl, hrole, hentry, hvalid⟩
  · refine hidle ?_
    rw [ResolveM.checkFinite, if_neg hrole]
    rfl

/-! ### All passes -/

/-- The first pass leaves no declaration pending. -/
theorem declarations_end (entries : List Entry) (hentries : ∀ entry ∈ entries, entry.Fits file)
    (horderly : pkg.Orderly file) :
    (∃ es pkg', entries.forM (fun entry => ResolveM.run (·.resolve entry)) file pkg = (.ok (), pkg') ∧
      Work file none pkg es pkg' ∧ ∀ entry ∈ entries, pkg'.progress? entry.spec ≠ some .pending) ∨
      Overflows pkg (entries.forM (fun entry => ResolveM.run (·.resolve entry)) file pkg) := by
  induction entries generalizing pkg with
  | nil => exact .inl ⟨[], pkg, rfl, .idle, nofun⟩
  | cons entry rest ih =>
      have hends : Ends file none (fun _ => False) pkg (fun _ pkg => pkg.progress? entry.spec ≠ some .pending)
          (ResolveM.run (·.resolve entry) file pkg) :=
        Meanings.resolve_ends (lawful_meanings file _) (hentries entry List.mem_cons_self) horderly
      have hrun : (entry :: rest).forM (fun entry => ResolveM.run (·.resolve entry)) file pkg =
          (ResolveM.run (·.resolve entry) >>= fun _ => rest.forM fun entry => ResolveM.run (·.resolve entry))
            file pkg := rfl
      rw [hrun, ResolveM.bind_run]
      match hfirst : ResolveM.run (·.resolve entry) file pkg with
      | (.ok (), pkg₁) =>
          rw [hfirst] at hends
          obtain ⟨⟨es, hwork⟩, hnot⟩ := hends
          rcases ih (fun e he => hentries e (List.mem_cons_of_mem _ he)) (hwork.orderly horderly) with
            ⟨es', pkg', hrest, hwork', hnots⟩ | hover
          · refine .inl ⟨_, pkg', hrest, hwork.after hwork', fun e he => ?_⟩
            rcases List.mem_cons.1 he with rfl | he
            · rw [((hwork'.history e.spec).quiet hnot).1]
              exact hnot
            · exact hnots e he
          · exact .inr (hover.after hwork.steady.outer_eq hwork.steady.reaches)
      | (.error (.declaration d), pkg₁) =>
          rw [hfirst] at hends
          exact hends.2.elim
      | (.error (.construction fault), pkg₁) =>
          rw [hfirst] at hends
          obtain ⟨⟨n, rfl⟩, hrest⟩ := hends
          exact .inr ⟨⟨n, rfl⟩, hrest⟩

/-- Every declaration that was collected is pending. -/
theorem Package.Gathered.progress?_eq (h : pkg.Gathered file) (hentry : entry ∈ pkg.tasks.map Task.entry) :
    pkg.progress? entry.spec = some .pending := by
  cases hprogress : pkg.progress? entry.spec with
  | none => exact absurd (List.mem_map_of_mem hentry) (Package.not_mem_of_progress? hprogress)
  | some progress =>
      rw [Package.progress?, Option.map_eq_some_iff] at hprogress
      obtain ⟨task, hfind, rfl⟩ := hprogress
      rw [h.pending task (List.mem_of_find?_eq_some hfind)]

/-- Every declaration that was collected is begun and ended once. -/
theorem Package.Gathered.resolved (h : pkg.Gathered file) (hwork : Work file none pkg es pkg')
    (hnot : ∀ entry ∈ pkg.tasks.map Task.entry, pkg'.progress? entry.spec ≠ some .pending) :
    pkg'.Ended ∧ ∀ entry ∈ pkg.tasks.map Task.entry, pkg'.progress? entry.spec = some .done ∧
      ∃ fault, es.filter (·.spec = entry.spec) = [.begun entry.spec, .ended entry.spec fault] := by
  have hdone (entry : Entry) (hentry : entry ∈ pkg.tasks.map Task.entry) :=
    ((hwork.history entry.spec).once (h.progress?_eq hentry)).resolve_left fun hstill => hnot entry hentry hstill.1
  refine ⟨fun spec hopen => ?_, hdone⟩
  by_cases hmem : ∃ entry ∈ pkg.tasks.map Task.entry, entry.spec = spec
  · obtain ⟨entry, hentry, rfl⟩ := hmem
    rw [Package.Open, (hdone entry hentry).1] at hopen
    rcases hopen with h | h
    · cases h
    · cases h
  · have hnone : pkg.progress? spec = none := by
      rw [Package.progress?, Option.map_eq_none_iff, List.find?_eq_none]
      intro task htask heq
      exact hmem ⟨task.entry, List.mem_map_of_mem htask, of_decide_eq_true heq⟩
    have hkept := ((hwork.history spec).quiet (by simp [hnone])).1
    rw [Package.Open, hkept, hnone] at hopen
    rcases hopen with h | h
    · cases h
    · cases h

/-- How the passes over a file end. -/
theorem resolveAll_ends {methods : List NodeId} (h : pkg.Gathered file)
    (hmethods : ∀ decl ∈ methods, decl ∈ file.decls ∧ Package.isMethod file.tree decl = true) :
    (∃ es pkg₂ blamed₃ pkg₃ blamed₄ pkg₄, ResolveM.resolveAll methods file pkg = (.ok (), pkg₄) ∧
      (pkg.tasks.map Task.entry).forM (fun entry => ResolveM.run (·.resolve entry)) file pkg = (.ok (), pkg₂) ∧
      Work file none pkg es pkg₂ ∧
      (∀ entry ∈ pkg.tasks.map Task.entry, pkg₂.progress? entry.spec ≠ some .pending) ∧
      Reviews file (fun _ _ => True) methods pkg₂ blamed₃ pkg₃ ∧
      Reviews file (Unspoiled file) ((pkg.tasks.map Task.entry).map Entry.spec) pkg₃ blamed₄ pkg₄) ∨
      Overflows pkg (ResolveM.resolveAll methods file pkg) := by
  have hrun : ResolveM.resolveAll methods file pkg =
      ((pkg.tasks.map Task.entry).forM (fun entry => ResolveM.run (·.resolve entry)) >>= fun _ =>
        methods.forM (fun decl => ResolveM.isolate (ResolveM.run (·.method decl))) >>= fun _ =>
          (pkg.tasks.map Task.entry).forM ResolveM.checkFinite) file pkg := rfl
  rw [hrun]
  rcases declarations_end (pkg.tasks.map Task.entry) h.listed h.toOrderly with ⟨es, pkg₂, hfirst, hwork, hnot⟩ | hover
  · obtain ⟨hended, -⟩ := h.resolved hwork hnot
    have horderly := hwork.orderly h.toOrderly
    rw [ResolveM.run_bind hfirst]
    rcases reviews_forM (f := fun decl => ResolveM.isolate (ResolveM.run (·.method decl))) id methods (fun decl hdecl => method_examines h.forest (hmethods decl hdecl).1
      (hmethods decl hdecl).2) horderly hended with ⟨blamed₃, pkg₃, hsecond, hreviews⟩ | hover
    · rw [List.map_id] at hreviews
      rw [ResolveM.run_bind hsecond]
      obtain ⟨horderly₃, hprogress, -⟩ := hreviews.keeps horderly hended
      rcases reviews_forM Entry.spec (pkg.tasks.map Task.entry) (fun entry hentry =>
        checkFinite_examines (h.listed entry hentry)) horderly₃ (hended.congr hprogress) with ⟨blamed₄, pkg₄, hthird, hreviews'⟩ | hover
      · exact .inl ⟨es, pkg₂, blamed₃, pkg₃, blamed₄, pkg₄, hthird, hfirst, hwork, hnot, hreviews, hreviews'⟩
      · obtain ⟨houter, hreaches⟩ := hreviews.reaches
        exact .inr (hover.after (houter.trans hwork.steady.outer_eq) (hwork.steady.reaches.trans hreaches))
    · exact .inr ((hover.bind _).after hwork.steady.outer_eq hwork.steady.reaches)
  · exact .inr (hover.bind _)

end GoSource
