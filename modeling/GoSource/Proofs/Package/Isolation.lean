import GoSource.Proofs.Package.Passes

/-!
# Faults stay where they are

What is wrong with a declaration is found once and stops nothing else.

* **`Package.Session`**: the packages that resolution leaves behind, one file after another.
* **`resolution_stopped`**: the work on a file is given up for nothing but too many methods.
* **`Account`**: who answers for the faults of a file.
* **`faults_isolated`**: every declaration is resolved once and answers for at most one fault.
-/

namespace GoSource

open TypeTable

variable {file : ParsedFile} {self : Option Entry} {pkg pkg' : Package} {es : List Event} {entry : Entry}
  {decls : List NodeId}

/-! ### Packages in use -/

/-- The packages that are there when a file is resolved: new ones over types that were built in some way, those in
which other files were resolved, and those whose types were put to further use. -/
inductive Package.Session : Package → Prop
  | new {tt : TypeTable} (h : Reachable tt) : Session (Package.new tt)
  | resolved {pkg : Package} (h : Session pkg) {file : ParsedFile} (hfile : file.Parsed) {decls : List NodeId}
      (hdecls : ∀ decl ∈ decls, decl ∈ file.decls) : Session (pkg.resolveDecls file decls).2
  | operation {pkg : Package} (h : Session pkg) (op : Operation) (hknown : ∀ t ∈ op.handles, pkg.types.Knows t) :
      Session { pkg with types := op.run pkg.types }

/-- How the work on a file ends, in a package that is ready for it. -/
theorem resolveDecls_ends (h : pkg.Ready) (hfile : file.Parsed) (hdecls : ∀ decl ∈ decls, decl ∈ file.decls) :
    (∃ es pkg₂ blamed₃ pkg₃ blamed₄ pkg₄, pkg.resolveDecls file decls = (.ok (), pkg₄) ∧
      ((pkg.collected file decls).tasks.map Task.entry).forM (fun entry => ResolveM.run (·.resolve entry)) file
        (pkg.collected file decls) = (.ok (), pkg₂) ∧
      Work file none (pkg.collected file decls) es pkg₂ ∧
      (∀ entry ∈ (pkg.collected file decls).tasks.map Task.entry, pkg₂.progress? entry.spec ≠ some .pending) ∧
      Reviews file (fun _ _ => True) (decls.filter (Package.isMethod file.tree)) pkg₂ blamed₃ pkg₃ ∧
      Reviews file (Unspoiled file) (((pkg.collected file decls).tasks.map Task.entry).map Entry.spec) pkg₃ blamed₄
        pkg₄) ∨
      Overflows (pkg.collected file decls) (pkg.resolveDecls file decls) := by
  refine resolveAll_ends (Package.gathered_collected h hfile.forest hdecls) fun decl hdecl => ?_
  have hdecl := List.mem_filter.1 hdecl
  exact ⟨hdecls decl hdecl.1, hdecl.2⟩

theorem Package.Session.ready (h : pkg.Session) : pkg.Ready := by
  induction h with
  | new h =>
      have hregular := regular_of_reachable h
      obtain ⟨any, error, functions, -, hreaches, -⟩ := new_run hregular.toSound
      exact ⟨hregular.reaches hreaches, knows_outer hregular.toSound⟩
  | @resolved pkg _ file hfile decls hdecls ih =>
      have hgathered := Package.gathered_collected ih hfile.forest hdecls
      have hready := hgathered.toOrderly.ready
      rcases resolveDecls_ends ih hfile hdecls with
        ⟨es, pkg₂, blamed₃, pkg₃, blamed₄, pkg₄, hrun, -, hwork, -, hreviews, hreviews'⟩ | ⟨-, houter, hreaches⟩
      · rw [hrun]
        refine ((hready.reaches hwork.steady.outer_eq hwork.steady.reaches).reaches ?_ ?_).reaches ?_
          hreviews'.reaches.2
        · exact hreviews.reaches.1
        · exact hreviews.reaches.2
        · exact hreviews'.reaches.1
      · exact hready.reaches houter hreaches
  | operation _ op hknown ih => exact ih.reaches rfl (.step .refl op hknown)

/-- Whatever a file contains, the work on it is given up for nothing but too many methods. -/
theorem resolution_stopped (hpkg : pkg.Session) (hfile : file.Parsed) (hdecls : ∀ decl ∈ decls, decl ∈ file.decls) :
    (pkg.resolveDecls file decls).1 = .ok () ∨
      ∃ n, (pkg.resolveDecls file decls).1 = .error (.construction (.tooManyMethods n)) := by
  rcases resolveDecls_ends hpkg.ready hfile hdecls with ⟨_, _, _, _, _, pkg₄, hrun, -⟩ | ⟨hover, -⟩
  · exact .inl (congrArg Prod.fst hrun)
  · exact .inr hover

/-- A text that is full of gaps, with declarations that refer to themselves and to one another. -/
theorem resolution_stopped_gaps :
    let file := ParsedFile.ofString "a.go"
      "package p\ntype I interface \x7b I; M(x ...J, y\ntype J = [n]K; type K = J\nconst n, m = m\nfunc (I) M(x U\n"
    let pkg := Package.new (TypeTable.new .amd64)
    pkg.Session ∧ file.Parsed ∧
      ((pkg.resolveFile file).1 = .ok () ∨
        ∃ n, (pkg.resolveFile file).1 = .error (.construction (.tooManyMethods n))) := by
  intro file pkg
  have hpkg : pkg.Session := .new ⟨.amd64, .refl⟩
  have hfile : file.Parsed := ParsedFile.parsed_ofString _ _
  exact ⟨hpkg, hfile, resolution_stopped hpkg hfile fun _ h => h⟩

/-! ### Who answers for a fault -/

/-- The declaration that answers for a fault. -/
def Event.blame? : Event → Option (NodeId × Diagnostic SemanticFault)
  | .begun _ => none
  | .ended spec fault => fault.map (spec, ·)

theorem mem_blamed {spec : NodeId} {d : Diagnostic SemanticFault} :
    (spec, d) ∈ es.filterMap Event.blame? ↔ .ended spec (some d) ∈ es := by
  rw [List.mem_filterMap]
  constructor
  · rintro ⟨e, he, heq⟩
    cases e with
    | begun => cases heq
    | ended spec' fault =>
        obtain ⟨d', rfl, heq⟩ := Option.map_eq_some_iff.1 heq
        cases heq
        exact he
  · exact fun h => ⟨_, h, rfl⟩

theorem snd_blamed (es : List Event) : (es.filterMap Event.blame?).map Prod.snd = es.filterMap Event.fault? := by
  rw [List.map_filterMap]
  refine List.filterMap_congr fun e _ => ?_
  cases e with
  | begun => rfl
  | ended spec fault =>
      cases fault with
      | none => rfl
      | some d => rfl

theorem count_blamed (es : List Event) (spec : NodeId) :
    ((es.filterMap Event.blame?).map Prod.fst).count spec =
      ((es.filter (·.spec = spec)).filterMap Event.blame?).length := by
  induction es with
  | nil => rfl
  | cons e es ih =>
      by_cases hspec : e.spec = spec
      · rw [List.filter_cons_of_pos (by simpa using hspec), List.filterMap_cons, List.filterMap_cons]
        cases hblame : e.blame? with
        | none => exact ih
        | some x =>
            have hfst : x.1 = spec := by
              cases e with
              | begun => cases hblame
              | ended spec' fault =>
                  obtain ⟨d, -, rfl⟩ := Option.map_eq_some_iff.1 hblame
                  exact hspec
            rw [List.map_cons, hfst, List.count_cons_self, List.length_cons, ih]
      · rw [List.filter_cons_of_neg (by simpa using hspec), List.filterMap_cons]
        cases hblame : e.blame? with
        | none => exact ih
        | some x =>
            have hfst : x.1 ≠ spec := by
              cases e with
              | begun => cases hblame
              | ended spec' fault =>
                  obtain ⟨d, -, rfl⟩ := Option.map_eq_some_iff.1 hblame
                  exact hspec
            rw [List.map_cons, List.count_cons_of_ne hfst, ih]

/-- In a piece of work, a declaration answers for at most one fault. -/
theorem Work.nodup_blamed (h : Work file self pkg es pkg') : ((es.filterMap Event.blame?).map Prod.fst).Nodup := by
  rw [List.nodup_iff_count_le_one]
  intro spec
  rw [count_blamed]
  have hhistory := h.history spec
  by_cases hpending : pkg.progress? spec = some .pending
  · rcases hhistory.once hpending with ⟨-, hfilter⟩ | ⟨-, fault, hfilter⟩
    · rw [hfilter]
      exact Nat.zero_le 1
    · rw [hfilter]
      cases fault with
      | none => exact Nat.zero_le 1
      | some d => exact Nat.le_refl 1
  · rw [(hhistory.quiet hpending).2]
    exact Nat.zero_le 1

/-- Only what was pending is begun and ended. -/
theorem Work.pending (h : Work file self pkg es pkg') {e : Event} (he : e ∈ es) :
    pkg.progress? e.spec = some .pending := by
  by_contra hpending
  have hfilter := ((h.history e.spec).quiet hpending).2
  exact absurd (hfilter ▸ List.mem_filter.2 ⟨he, by simp⟩) List.not_mem_nil

theorem Package.mem_specs {spec : NodeId} {progress : Progress} (h : pkg.progress? spec = some progress) :
    spec ∈ (pkg.tasks.map Task.entry).map Entry.spec := by
  by_contra hnot
  rw [Package.progress?, Option.map_eq_some_iff] at h
  obtain ⟨task, hfind, -⟩ := h
  have hspec : task.entry.spec = spec := by simpa using List.find?_some hfind
  have hmem := List.mem_map_of_mem (f := Task.entry) (List.mem_of_find?_eq_some hfind)
  exact hnot (hspec ▸ List.mem_map_of_mem hmem)

/-- A method is no declaration of a name. -/
theorem Entry.Fits.not_method (h : entry.Fits file) (hforest : file.tree.Forest) (hdecl : entry.spec ∈ file.decls) :
    Package.isMethod file.tree entry.spec = false := by
  cases h with
  | type hdecl' _ hspec => exact absurd hspec (Entry.Fits.not_nested hforest hdecl' hdecl)
  | value hdecl' _ hspec => exact absurd hspec (Entry.Fits.not_nested hforest hdecl' hdecl)
  | import_ hdecl' _ hspec => exact absurd hspec (Entry.Fits.not_nested hforest hdecl' hdecl)
  | function _ _ hfree => exact hfree

/-- An account of the faults of a file, from the package in which the names were collected to the last one: what
happened to the declarations when they were resolved, and who answers for the faults that were found from then on. -/
structure Account (file : ParsedFile) (decls : List NodeId) (pkg pkg' : Package) (es : List Event)
    (blamed : List (NodeId × Diagnostic SemanticFault)) : Prop where
  /-- Every declaration is pending at first, is begun and ended once, and stays done. -/
  once : ∀ entry ∈ pkg.tasks.map Task.entry, pkg.progress? entry.spec = some .pending ∧
    (∃ fault, es.filter (·.spec = entry.spec) = [.begun entry.spec, .ended entry.spec fault]) ∧
    pkg'.progress? entry.spec = some .done
  /-- The faults recorded are those that somebody answers for. -/
  faults_eq : pkg'.faults = pkg.faults ++ (blamed.map Prod.snd).toArray
  /-- Nobody answers for two faults. -/
  nodup : (blamed.map Prod.fst).Nodup
  /-- Declarations and methods answer for faults that lie in them. -/
  answerable : ∀ x ∈ blamed, x.2.LiesIn file x.1 ∧
    (x.1 ∈ (pkg.tasks.map Task.entry).map Entry.spec ∨ x.1 ∈ decls.filter (Package.isMethod file.tree))
  /-- A declaration that was ended with a fault answers for that one. -/
  kept : ∀ spec d, .ended spec (some d) ∈ es → (spec, d) ∈ blamed

/-- A type that was found at fault is invalid, and the last pass passes over it. -/
theorem Reviews.not_mem_of_spoiled {nodes : List NodeId} {blamed : List (NodeId × Diagnostic SemanticFault)}
    {spec : NodeId} (h : Reviews file (Unspoiled file) nodes pkg blamed pkg') (horderly : pkg.Orderly file)
    (hended : pkg.Ended) (hspoiled : ∀ entry : Entry, entry.Fits file → entry.role = .type → entry.spec = spec →
      pkg.Spoiled entry) : spec ∉ blamed.map Prod.fst := by
  refine h.not_mem (I := fun pkg => ∀ entry : Entry, entry.Fits file → entry.role = .type → entry.spec = spec →
    pkg.Spoiled entry) horderly hended hspoiled ?_ ?_
  · intro pkg pkg₁ es fault horderly hended hwork hI entry hentry hrole hspec
    refine (hI entry hentry hrole hspec).keep horderly ?_ hwork.steady.reaches
    exact hwork.object_eq horderly.forest hentry hrole (hended entry.spec)
  · rintro pkg hI ⟨entry, rfl, hrole, hentry, hunspoiled⟩
    exact hunspoiled (hI entry hentry hrole rfl)

/-- The accounts of the passes make one account. -/
theorem account {pkg₂ pkg₃ pkg₄ : Package} {blamed₃ blamed₄ : List (NodeId × Diagnostic SemanticFault)}
    (h : pkg.Gathered file) (hdecls : ∀ decl ∈ decls, decl ∈ file.decls) (hnodup : decls.Nodup)
    (hwork : Work file none pkg es pkg₂)
    (hnot : ∀ entry ∈ pkg.tasks.map Task.entry, pkg₂.progress? entry.spec ≠ some .pending)
    (hmethods : Reviews file (fun _ _ => True) (decls.filter (Package.isMethod file.tree)) pkg₂ blamed₃ pkg₃)
    (htypes : Reviews file (Unspoiled file) ((pkg.tasks.map Task.entry).map Entry.spec) pkg₃ blamed₄ pkg₄) :
    Account file decls pkg pkg₄ es (es.filterMap Event.blame? ++ (blamed₃ ++ blamed₄)) := by
  obtain ⟨hended, hdone⟩ := h.resolved hwork hnot
  obtain ⟨horderly₃, hprogress₃, hspoiled₃⟩ := hmethods.keeps (hwork.orderly h.toOrderly) hended
  have hended₃ := hended.congr hprogress₃
  obtain ⟨-, hprogress₄, -⟩ := htypes.keeps horderly₃ hended₃
  have hspecs {spec : NodeId} (hspec : spec ∈ (es.filterMap Event.blame?).map Prod.fst) :
      spec ∈ (pkg.tasks.map Task.entry).map Entry.spec := by
    obtain ⟨⟨spec, d⟩, hmem, rfl⟩ := List.mem_map.1 hspec
    exact Package.mem_specs (hwork.pending (mem_blamed.1 hmem))
  have hapart {spec : NodeId} (hspec : spec ∈ (pkg.tasks.map Task.entry).map Entry.spec)
      (hmem : spec ∈ decls.filter (Package.isMethod file.tree)) : False := by
    obtain ⟨entry, hentry, rfl⟩ := List.mem_map.1 hspec
    obtain ⟨hdecl, hmethod⟩ := List.mem_filter.1 hmem
    rw [(h.listed entry hentry).not_method h.forest (hdecls _ hdecl)] at hmethod
    cases hmethod
  constructor
  case once =>
    intro entry hentry
    refine ⟨h.progress?_eq hentry, (hdone entry hentry).2, ?_⟩
    rw [hprogress₄, hprogress₃]
    exact (hdone entry hentry).1
  case faults_eq =>
    rw [htypes.faults_eq hended₃, hmethods.faults_eq hended, hwork.faults_eq, ← snd_blamed]
    simp
  case nodup =>
    rw [List.map_append, List.map_append]
    refine List.Nodup.append hwork.nodup_blamed (List.Nodup.append ?_ ?_ ?_) ?_
    · exact hmethods.sublist.nodup (hnodup.filter _)
    · exact htypes.sublist.nodup h.distinct
    · exact fun spec hspec hspec' => hapart (htypes.sublist.subset hspec') (hmethods.sublist.subset hspec)
    · intro spec hspec hspec'
      rcases List.mem_append.1 hspec' with hspec' | hspec'
      · exact hapart (hspecs hspec) (hmethods.sublist.subset hspec')
      · obtain ⟨⟨spec, d⟩, hmem, rfl⟩ := List.mem_map.1 hspec
        refine htypes.not_mem_of_spoiled horderly₃ hended₃ (fun entry hentry hrole hspec => ?_) hspec'
        subst hspec
        exact hspoiled₃ entry hentry hrole (hwork.spoiled h.toOrderly hentry hrole (mem_blamed.1 hmem)).1
  case answerable =>
    intro x hx
    rcases List.mem_append.1 hx with hx | hx
    · exact ⟨hwork.liesIn (mem_blamed.1 hx), .inl (hspecs (List.mem_map_of_mem hx))⟩
    · rcases List.mem_append.1 hx with hx | hx
      · exact ⟨hmethods.liesIn x hx, .inr (hmethods.sublist.subset (List.mem_map_of_mem hx))⟩
      · exact ⟨htypes.liesIn x hx, .inl (htypes.sublist.subset (List.mem_map_of_mem hx))⟩
  case kept => exact fun spec d hended => List.mem_append_left _ (mem_blamed.2 hended)

/-- Where the work on a file is not given up, each declaration is resolved once, and each declaration and each method
answers for at most one fault.  In particular, a type declaration that failed is not reported again by the pass that
looks for types that contain themselves. -/
theorem faults_isolated (hpkg : pkg.Session) (hfile : file.Parsed) (hdecls : ∀ decl ∈ decls, decl ∈ file.decls)
    (hnodup : decls.Nodup) (hok : pkg.resolveDecls file decls = (.ok (), pkg')) :
    ∃ es pkg₂ blamed,
      ((pkg.collected file decls).tasks.map Task.entry).forM (fun entry => ResolveM.run (·.resolve entry)) file
        (pkg.collected file decls) = (.ok (), pkg₂) ∧
      Work file none (pkg.collected file decls) es pkg₂ ∧
      Account file decls (pkg.collected file decls) pkg' es blamed := by
  have hready := hpkg.ready
  rcases resolveDecls_ends hready hfile hdecls with
    ⟨es, pkg₂, blamed₃, pkg₃, blamed₄, pkg₄, hrun, hfirst, hwork, hnot, hmethods, htypes⟩ | ⟨⟨n, hover⟩, -⟩
  · cases hrun.symm.trans hok
    have hgathered := Package.gathered_collected hready hfile.forest hdecls
    exact ⟨es, pkg₂, _, hfirst, hwork, account hgathered hdecls hnodup hwork hnot hmethods htypes⟩
  · rw [hok] at hover
    cases hover

/-- Of two declarations that fail, one when it is resolved and one when its type turns out to contain itself, each
answers for its fault. -/
theorem faults_isolated_types :
    let file := ParsedFile.ofString "a.go" "package p\ntype A map[T]int\ntype B [2]B\n"
    let pkg := Package.new (TypeTable.new .amd64)
    (pkg.resolveFile file).2.faults.size = 2 ∧
      ∃ es pkg₂ blamed,
        ((pkg.collected file file.decls).tasks.map Task.entry).forM (fun entry => ResolveM.run (·.resolve entry)) file
          (pkg.collected file file.decls) = (.ok (), pkg₂) ∧
        Work file none (pkg.collected file file.decls) es pkg₂ ∧
        Account file file.decls (pkg.collected file file.decls) (pkg.resolveFile file).2 es blamed := by
  intro file pkg
  have hfile : file.Parsed := ParsedFile.parsed_ofString _ _
  have ⟨hok, hsize⟩ : (pkg.resolveFile file).1.toBool = true ∧ (pkg.resolveFile file).2.faults.size = 2 := by
    decide +kernel
  refine ⟨hsize, faults_isolated (.new ⟨.amd64, .refl⟩) hfile (fun _ h => h) (hfile.forest.nodup _) ?_⟩
  match hrun : pkg.resolveFile file with
  | (.ok (), pkg') => exact hrun
  | (.error failure, pkg') =>
      rw [hrun] at hok
      cases hok

end GoSource
