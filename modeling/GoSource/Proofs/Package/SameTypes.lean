import GoSource.Proofs.Grammar.SpeltTypes
import GoSource.Proofs.Grammar.Traces
import GoSource.Proofs.Package.Entered
import GoSource.Proofs.Package.Sanity

/-!
# Same spelling, same type

Type expressions of the same words become the same nodes.  What these express does not depend on where they stand: names
mean the same everywhere in the file, and types that are built in the same way are the same.

* **`Doubled`**: a file with a part that is there twice.
* **`Doubled.expresses_unique`**: both copies of a type expression express the same type.
* **`ParsedFile.Flawless`**: a file in which the parser found nothing to report.
* **`declared_type_expressed`**: what is known about a variable that is declared with a type.
* **`same_words_same_type`**: variables whose types are the same words have the same type.
-/

namespace GoSource

open TypeTable

variable {file : ParsedFile} {pkg : Package} {D D' : NodeId → TypeId → Prop} {f : NodeId → NodeId} {n : Nat}
  {id c : NodeId} {t u : TypeId}

/-- Built types are the same if they are built in the same way. -/
theorem TypeTable.Sound.eq_of_shape {tt : TypeTable} {s : Shape} (h : tt.Sound) (hbuilt : s.isDeclared = false)
    (hvalid : s ≠ .basic .invalid) (ht : tt.shape t = s) (hu : tt.shape u = s) : t = u :=
  h.unique (knows_of_shape_ne (ht ▸ hvalid)) (knows_of_shape_ne (hu ▸ hvalid)) (ht ▸ hbuilt) (ht.trans hu.symm)

/-- The nodes of a file with indexes below `n` are there again under the names that `f` gives them. -/
structure Doubled (file : ParsedFile) (pkg : Package) (f : NodeId → NodeId) (n : Nat) : Prop where
  forest : file.tree.Forest
  repeats : file.tree.Repeats f n
  sound : pkg.types.Sound

/-- Nodes below `n` express the same types as their copies. -/
def Agrees (n : Nat) (f : NodeId → NodeId) (D D' : NodeId → TypeId → Prop) : Prop :=
  ∀ y : NodeId, y.index < n → ∀ t u, D y t → D' (f y) u → t = u

namespace Doubled

variable (h : Doubled file pkg f n) (hid : id.index < n)
include h hid

/-! ### Parts -/

theorem below {place : Nat} (hc : file.tree.part? id place = some c) : c.index < n :=
  Nat.lt_trans (h.forest.ordered (Tree.mem_present_of_part? hc)) hid

theorem part?_copy {place : Nat} (hc : file.tree.part? id place = some c) :
    file.tree.part? (f id) place = some (f c) := by
  rw [h.repeats.part?_eq hid, hc]
  rfl

theorem fieldCount_eq : file.tree.fieldCount (f id) = file.tree.fieldCount id := by
  rw [Tree.fieldCount, h.repeats.part?_eq hid, Tree.fieldCount]
  cases hnames : file.tree.part? id 0 with
  | none => rfl
  | some names =>
      show (file.tree.children (f names)).length = (file.tree.children names).length
      rw [h.repeats.children_eq (h.below hid hnames), List.length_map]

theorem fields_eq : file.tree.fields (some (f id)) = (file.tree.fields (some id)).map f := by
  show (file.tree.present (f id)).filter _ = ((file.tree.present id).filter _).map f
  rw [h.repeats.present_eq hid, List.filter_map]
  congr 1
  refine List.filter_congr fun c hc => ?_
  rw [Function.comp, h.repeats.isBad_eq (Nat.lt_trans (h.forest.ordered hc) hid)]

/-- What the fields of a node come to and what those of its copy do is the same, if it is for each field. -/
theorem fields_unique {γ : Type} {R R' : NodeId → γ → Prop} {as bs : List γ}
    (hfields : List.Forall₂ R (file.tree.fields (some id)) as)
    (hfields' : List.Forall₂ R' (file.tree.fields (some (f id))) bs)
    (hsame : ∀ field : NodeId, field.index < n → ∀ a b, R field a → R' (f field) b → a = b) : as = bs := by
  rw [h.fields_eq hid] at hfields'
  refine forall₂_unique hfields hfields' fun field hfield => hsame field ?_
  exact Nat.lt_trans (h.forest.ordered (List.mem_filter.1 hfield).1) hid

/-! ### Rules -/

theorem counts_unique {k k' : Nat} (hk : Counts file pkg id k) (hk' : Counts file pkg (f id) k') : k = k' := by
  have hop := h.repeats.op_eq hid
  have hliteral := h.repeats.literal_eq hid
  cases hk with
  | literal hlit hk =>
      cases hk' with
      | literal _ hk' =>
          rw [hliteral] at hk'
          exact Option.some.inj (hk.symm.trans hk')
      | constant hident _ _ _ _ => cases hlit.symm.trans (hop.symm.trans hident)
  | constant hident hobj _ hv hk =>
      cases hk' with
      | literal hlit _ => cases hident.symm.trans (hop.symm.trans hlit)
      | constant _ hobj' _ hv' hk' =>
          rw [hliteral, hobj] at hobj'
          cases hobj'
          cases hv.symm.trans hv'
          exact Option.some.inj (hk.symm.trans hk')

variable (hparts : Agrees n f D D')
include hparts

theorem field_unique {a b : List TypeId × Bool} (ha : FieldRule file pkg D id a)
    (hb : FieldRule file pkg D' (f id) b) : a = b := by
  cases ha with
  | @plain typ ts htyp hop hlength hts =>
      have htyp' := h.part?_copy hid htyp
      have hbelow := h.below hid htyp
      cases hb with
      | @plain _ ts' hcopy _ hlength' hts' =>
          cases htyp'.symm.trans hcopy
          rw [h.fieldCount_eq hid, ← hlength] at hlength'
          congr 1
          refine List.ext_getElem hlength'.symm fun i hi hi' => ?_
          exact hparts typ hbelow _ _ (hts _ (List.getElem_mem hi)) (hts' _ (List.getElem_mem hi'))
      | variadic hcopy hop' _ _ _ =>
          cases htyp'.symm.trans hcopy
          exact absurd ((h.repeats.op_eq hbelow).symm.trans hop') hop
  | @variadic typ elem e t htyp hop helem he hs =>
      have htyp' := h.part?_copy hid htyp
      have hbelow := h.below hid htyp
      cases hb with
      | plain hcopy hop' _ _ =>
          cases htyp'.symm.trans hcopy
          exact absurd ((h.repeats.op_eq hbelow).trans hop) hop'
      | variadic hcopy _ hcopy' he' hs' =>
          cases htyp'.symm.trans hcopy
          cases (h.part?_copy hbelow helem).symm.trans hcopy'
          cases hparts elem (h.below hbelow helem) _ _ he he'
          rw [h.sound.eq_of_shape rfl (by simp) hs hs']

theorem signature_unique (ht : SignatureRule file pkg D id t) (hu : SignatureRule file pkg D' (f id) u) : t = u := by
  have hfields {place : Nat} {as bs : List (List TypeId × Bool)}
      (has : List.Forall₂ (FieldRule file pkg D) (file.tree.fields (file.tree.part? id place)) as)
      (hbs : List.Forall₂ (FieldRule file pkg D') (file.tree.fields (file.tree.part? (f id) place)) bs) : as = bs := by
    cases hlist : file.tree.part? id place with
    | none =>
        rw [h.repeats.part?_eq hid, hlist] at hbs
        rw [hlist] at has
        cases has
        cases hbs
        rfl
    | some list =>
        rw [hlist] at has
        rw [h.part?_copy hid hlist] at hbs
        exact h.fields_unique (h.below hid hlist) has hbs fun _ hfield _ _ => h.field_unique hfield hparts
  cases ht with
  | intro hparams hresults hs =>
      cases hu with
      | intro hparams' hresults' hs' =>
          cases hfields hparams hparams'
          cases hfields hresults hresults'
          exact h.sound.eq_of_shape rfl (by simp) hs hs'

theorem member_unique {a b : Meanings.Member} (ha : MemberRule file pkg D id a) (hb : MemberRule file pkg D' (f id) b) :
    a = b := by
  cases ha with
  | @method typ names name t htyp hnames hname ht =>
      cases hb with
      | method htyp' hnames' hname' ht' =>
          cases (h.part?_copy hid htyp).symm.trans htyp'
          cases (h.part?_copy hid hnames).symm.trans hnames'
          have hbelow := h.below hid hnames
          cases (h.part?_copy hbelow hname).symm.trans hname'
          rw [h.repeats.literal_eq (h.below hbelow hname), h.signature_unique (h.below hid htyp) hparts ht ht']
      | embedded _ hnames' _ =>
          rw [h.part?_copy hid hnames] at hnames'
          cases hnames'
  | @embedded typ t htyp hnames ht =>
      cases hb with
      | method _ hnames' _ _ =>
          rw [h.repeats.part?_eq hid, hnames] at hnames'
          cases hnames'
      | embedded htyp' _ ht' =>
          cases (h.part?_copy hid htyp).symm.trans htyp'
          rw [hparts typ (h.below hid htyp) _ _ ht ht']

theorem rule_unique (ht : TypeRule file pkg D id t) (hu : TypeRule file pkg D' (f id) u) : t = u := by
  have hop := h.repeats.op_eq hid
  have hpart {place : Nat} {c c' : NodeId} {t u : TypeId} (hc : file.tree.part? id place = some c)
      (hc' : file.tree.part? (f id) place = some c') (ht : D c t) (hu : D' c' u) : t = u := by
    cases (h.part?_copy hid hc).symm.trans hc'
    exact hparts c (h.below hid hc) _ _ ht hu
  cases ht with
  | name hname hobj _ ht =>
      cases hu with
      | name _ hobj' _ hu =>
          rw [h.repeats.literal_eq hid, hobj] at hobj'
          cases hobj'
          exact Option.some.inj (ht.symm.trans hu)
      | _ => grind [chanDir?]
  | paren hparen hc ht =>
      cases hu with
      | paren _ hc' hu => exact hpart hc hc' ht hu
      | _ => grind [chanDir?]
  | pointer hmul hc he hs =>
      cases hu with
      | pointer _ hc' he' hs' =>
          cases hpart hc hc' he he'
          exact h.sound.eq_of_shape rfl (by simp) hs hs'
      | _ => grind [chanDir?]
  | slice harray hlength hc he hs =>
      cases hu with
      | slice _ _ hc' he' hs' =>
          cases hpart hc hc' he he'
          exact h.sound.eq_of_shape rfl (by simp) hs hs'
      | array _ hlength' _ _ _ _ =>
          rw [h.repeats.part?_eq hid, hlength] at hlength'
          cases hlength'
      | _ => grind [chanDir?]
  | array harray hlength hk hc he hs =>
      cases hu with
      | slice _ hlength' _ _ _ =>
          rw [h.part?_copy hid hlength] at hlength'
          cases hlength'
      | array _ hlength' hk' hc' he' hs' =>
          cases (h.part?_copy hid hlength).symm.trans hlength'
          cases h.counts_unique (h.below hid hlength) hk hk'
          cases hpart hc hc' he he'
          exact h.sound.eq_of_shape rfl (by simp) hs hs'
      | _ => grind [chanDir?]
  | map hmap hc hk hc' he hs =>
      cases hu with
      | map _ hcopy hk' hcopy' he' hs' =>
          cases hpart hc hcopy hk hk'
          cases hpart hc' hcopy' he he'
          exact h.sound.eq_of_shape rfl (by simp) hs hs'
      | _ => grind [chanDir?]
  | chan hchan hc he hs =>
      cases hu with
      | chan hchan' hc' he' hs' =>
          rw [hop, hchan] at hchan'
          cases hchan'
          cases hpart hc hc' he he'
          exact h.sound.eq_of_shape rfl (by simp) hs hs'
      | _ => grind [chanDir?]
  | func hfunc ht =>
      cases hu with
      | func _ hu => exact h.signature_unique hid hparts ht hu
      | _ => grind [chanDir?]
  | interface hinterface hmembers hmerge hs =>
      cases hu with
      | interface _ hmembers' hmerge' hs' =>
          cases h.fields_unique hid hmembers hmembers' fun _ hfield _ _ => h.member_unique hfield hparts
          cases hmerge.symm.trans hmerge'
          exact h.sound.eq_of_shape rfl (by simp) hs hs'
      | _ => grind [chanDir?]

omit hid hparts in
/-- A type expression and its copy express the same type. -/
theorem expresses_unique (ht : Expresses file pkg id t) (hid : id.index < n) (hu : Expresses file pkg (f id) u) :
    t = u := by
  induction ht generalizing u with
  | of_rule hrule _ ih =>
      cases hu with
      | of_rule hrule' hparts' =>
          exact h.rule_unique hid (fun y hy _ _ ht hu => ih _ _ ht hy (hparts' _ _ hu)) hrule hrule'

end Doubled

/-! ### Files -/

/-- The file is what a parser makes of it that starts at `start`, and nothing is reported. -/
structure ParsedFile.Flawless (file : ParsedFile) (start : Parser) : Prop where
  starts : ∃ p : Parser, start = p.restart
  root_eq : file.root = start.parseFile.1
  tree_eq : file.tree = start.parseFile.2.tree
  file_eq : file.file = start.parseFile.2.file
  clean : start.parseFile.2.journal.Clean

/-- A text that is parsed in one go, without a diagnostic. -/
theorem ParsedFile.flawless_ofString (name text : String) (h : (ofString name text).diagnostics = []) :
    (ofString name text).Flawless (.new { name } { bytes := text.toUTF8 } {}) :=
  ⟨⟨_, rfl⟩, rfl, rfl, rfl, Parser.clean_after {} _ _ _ [.parseFile] (Array.toList_eq_nil_iff.1 h)⟩

/-- The specification `spec` of a file declares variables with the type expression `x`. -/
structure ParsedFile.Types (file : ParsedFile) (spec x : NodeId) : Prop where
  declared : ∃ decl ∈ file.decls, file.tree.op decl = .kw .var ∧ spec ∈ file.tree.present decl
  type_eq : file.tree.part? spec 1 = some x

namespace ParsedFile.Flawless

open Grammar

variable {start : Parser} {spec x y : NodeId} {ws : List Word} (h : file.Flawless start)
include h

theorem parsed : file.Parsed := by
  obtain ⟨p, rfl⟩ := h.starts
  exact ⟨_, .start p, h.root_eq, h.tree_eq, h.file_eq⟩

theorem begins : Ended start ∧ start.tree = {} ∧ start.compositeOk = true := by
  obtain ⟨p, rfl⟩ := h.starts
  exact ⟨ended_restart p, Parser.tree_advance _, compositeOk_advance _⟩

theorem isBad_eq_false (id : NodeId) : file.tree.isBad id = false := by
  have hmoves := Reads.moves (fun _ => fileNode_reads) [] start
  rw [h.tree_eq]
  exact Moves.isBad_eq_false hmoves h.clean h.begins.2.1 id

/-- Nothing is wrong with the file itself. -/
theorem faults_ne (hflawed : pkg.Flawed file) : pkg.faults ≠ #[] := by
  refine hflawed.resolve_left ?_
  rintro ⟨id, hbad⟩
  cases hbad.symm.trans (h.isBad_eq_false id)

/-- Where a file declares variables, the types are read from words. -/
theorem spelt (hspec : file.Types spec x) :
    file.tree.op spec = .tag .valueSpec ∧ ∃ ws, ReadsType start start.parseFile.2 ws x := by
  obtain ⟨-, htree, hcomposite⟩ := h.begins
  obtain ⟨decl, hdecl, hop, hmem⟩ := hspec.declared
  have hbad := h.isBad_eq_false
  have htype := hspec.type_eq
  rw [ParsedFile.decls, h.root_eq] at hdecl
  rw [h.tree_eq] at hdecl hop hmem hbad htype ⊢
  have hspelt := (fileNode_spelt hcomposite htree decl hdecl).spelt hop (hbad decl) spec hmem
  exact ⟨hspelt.tagged (hbad spec), hspelt.typed x htype⟩

/-- Type expressions of the same words express the same type. -/
theorem expresses_unique (hx : ReadsType start start.parseFile.2 ws x) (hy : ReadsType start start.parseFile.2 ws y)
    (hsound : pkg.types.Sound) (ht : Expresses file pkg x t) (hu : Expresses file pkg y u) : t = u := by
  obtain ⟨hended, htree, -⟩ := h.begins
  have hdoubled {f : NodeId → NodeId} {n : Nat} (hrepeats : start.parseFile.2.tree.Repeats f n) :
      Doubled file pkg f n :=
    ⟨h.parsed.forest, h.tree_eq ▸ hrepeats, hsound⟩
  obtain ⟨f, n, hrepeats, hx, rfl⟩ | ⟨f, n, hrepeats, hy, rfl⟩ := hx.same hy hended htree h.clean
  · exact (hdoubled hrepeats).expresses_unique ht hx hu
  · exact ((hdoubled hrepeats).expresses_unique hu hy ht).symm

end ParsedFile.Flawless

variable {start : Parser} {pkg' : Package} {spec x a : NodeId}

/-- Where a file has no faults, a variable that is declared with a type has the type that is expressed there. -/
theorem declared_type_expressed (hfile : file.Flawless start) (hpkg : pkg.Session)
    (hok : pkg.resolveFile file = (.ok (), pkg')) (hfaults : pkg'.faults = #[]) (hspec : file.Types spec x)
    (ha : a ∈ file.namesIn spec) :
    ∃ obj t, pkg'.objects.get? a = some obj ∧ obj.role = .variable ∧ obj.typ = some t ∧
      (file.tree.literal a = "_" ∨ pkg'.lookup (file.tree.literal a) = some obj) ∧ Expresses file pkg' x t := by
  have hdecls : ∀ decl ∈ file.decls, decl ∈ file.decls := fun _ h => h
  have hout := resolveDecls_sane hpkg hpkg.startsFrom hfile.parsed hdecls
  have hok : pkg.resolveDecls file file.decls = (.ok (), pkg') := hok
  rw [hok] at hout
  obtain ⟨hsane, honto, hended⟩ := hout
  have hsound : ¬ pkg'.Flawed file := fun hflawed => hfile.faults_ne hflawed hfaults
  obtain ⟨decl, hdecl, hop, hmem⟩ := hspec.declared
  -- The name was entered, and what was entered is still there.
  have hentered : (pkg.collected file file.decls).Entered file { name := a, spec, role := .variable } :=
    Package.entered_collected (fun _ h => h) hdecl (.inr ⟨hop, rfl⟩) hmem (hfile.spelt hspec).1 ha hfile.isBad_eq_false
  obtain ⟨hpresent, hname⟩ := hentered.resolve_left fun hfaults => hsound (honto.flawed (.inr hfaults))
  have hfits : ({ name := a, spec, role := .variable } : Entry).Fits file :=
    .of_mem_namesIn hdecl (.inr ⟨hop, rfl⟩) hmem ha
  obtain ⟨before, hbefore⟩ := Option.isSome_iff_exists.1 hpresent
  obtain ⟨obj, hobj, -⟩ := honto.gains _ hfits before hbefore
  -- Its declaration has been resolved, and has given it its type.
  have hformed := hsane.formed _ hfits obj hobj
  have hfinished := hformed.finished (hended.done (hformed.scheduled (by simp)))
  obtain ⟨t, ht⟩ := Option.ne_none_iff_exists'.1 fun hnone =>
    hsound (hfinished.given rfl (by rw [hspec.type_eq]; rfl) hnone)
  have hanswers := hformed.declared rfl x hspec.type_eq t ht
  refine ⟨obj, t, hobj, hformed.role_eq, ht, hname.imp_right fun hentry => ?_, (hanswers.signifies ?_).expressed⟩
  · rw [Package.lookup, Package.declared?, honto.onward.steady.scope_eq, ← Package.declared?, hentry]
    exact hobj
  · rintro rfl
    exact hsound ((hsane.backed hanswers.backed).2.2 hsane.regular.isInvalid_invalid)

/-- Of a file in which neither the parser nor resolution finds a fault: the types with which variables are declared are
read from words; and if two of them are read from the same words, wherever they stand and whatever these mean, the
variables have one and the same type, which is expressed in both places. -/
theorem same_words_same_type (hfile : file.Flawless start) (hpkg : pkg.Session)
    (hok : pkg.resolveFile file = (.ok (), pkg')) (hfaults : pkg'.faults = #[]) :
    (∀ spec x, file.Types spec x → ∃ ws, Grammar.ReadsType start start.parseFile.2 ws x) ∧
      ∀ spec x spec' y, file.Types spec x → file.Types spec' y →
        ∀ ws, Grammar.ReadsType start start.parseFile.2 ws x → Grammar.ReadsType start start.parseFile.2 ws y →
        ∀ a ∈ file.namesIn spec, ∀ b ∈ file.namesIn spec', ∃ obj obj' t,
          pkg'.objects.get? a = some obj ∧ pkg'.objects.get? b = some obj' ∧
          (file.tree.literal a = "_" ∨ pkg'.lookup (file.tree.literal a) = some obj) ∧
          (file.tree.literal b = "_" ∨ pkg'.lookup (file.tree.literal b) = some obj') ∧
          obj.typ = some t ∧ obj'.typ = some t ∧ Expresses file pkg' x t ∧ Expresses file pkg' y t := by
  refine ⟨fun spec x hspec => (hfile.spelt hspec).2, ?_⟩
  intro spec x spec' y hspec hspec' ws hx hy a ha b hb
  obtain ⟨obj, t, hobj, -, ht, hname, hexpresses⟩ := declared_type_expressed hfile hpkg hok hfaults hspec ha
  obtain ⟨obj', u, hobj', -, hu, hname', hexpresses'⟩ := declared_type_expressed hfile hpkg hok hfaults hspec' hb
  have hsound : pkg'.types.Sound := by
    have hready := (hpkg.resolved hfile.parsed fun decl (h : decl ∈ file.decls) => h).ready
    have hafter : (pkg.resolveDecls file file.decls).2 = pkg' := congrArg Prod.snd hok
    rw [hafter] at hready
    exact hready.regular.toSound
  obtain rfl := hfile.expresses_unique hx hy hsound hexpresses hexpresses'
  exact ⟨obj, obj', t, hobj, hobj', hname, hname', ht, hu, hexpresses, hexpresses'⟩

open Grammar in
/-- Two declarations with the same type, one of them in a group.  The constant, the declared type and the alias that it
is built from are declared later. -/
theorem same_words_same_type_twice :
    let file := ParsedFile.ofString "a.go"
      "package p\nvar a func(A) [n]T\nvar (\n\tb func(A) [n]T\n)\ntype T int\ntype A = T\nconst n = 2\n"
    let pkg := ((Package.new (TypeTable.new .amd64)).resolveFile file).2
    ∃ obj obj' t, pkg.lookup "a" = some obj ∧ pkg.lookup "b" = some obj' ∧ obj.typ = some t ∧ obj'.typ = some t := by
  intro file pkg
  let text := "package p\nvar a func(A) [n]T\nvar (\n\tb func(A) [n]T\n)\ntype T int\ntype A = T\nconst n = 2\n"
  let start : Parser := .new { name := "a.go" } { bytes := text.toUTF8 } {}
  let stop := start.parseFile.2
  let ws : List Word := [(.kw .func, ""), (.op .lparen, ""), (.lit .ident, "A"), (.op .rparen, ""), (.op .lbrack, ""),
    (.lit .ident, "n"), (.op .rbrack, ""), (.lit .ident, "T")]
  have hfile : file.Flawless start := ParsedFile.flawless_ofString _ _ (by decide +kernel)
  have hitem {p : Parser} (h : ∃ st, Moves ([], start) (st, p)) : ∃ st, Moves ([], start) (st, (item? p).2) :=
    h.elim fun st h => ⟨_, h.trans (Reads.moves item?_reads st p)⟩
  have hnext {p : Parser} (h : ∃ st, Moves ([], start) (st, p)) (ht : p.curr.token.isLiteral = false) :
      ∃ st, Moves ([], start) (st, p.advance) :=
    h.elim fun st h => ⟨st, h.tail (.pass ht)⟩
  have hreads {p : Parser} {x : NodeId} (h : ∃ st, Moves ([], start) (st, p))
      (hfacts : let q := grammar.type (nameList p).2
        ((nameList p).2.compositeOk = true ∧ q.1 = x ∧ (nameList p).2.words = ws ++ q.2.words) ∧
          (q.2.journal.closed = false ∧ q.2.journal.entries.size = 0) ∧
          q.2.tree.size ≤ stop.tree.size ∧ ∀ i < q.2.tree.size, stop.tree.node ⟨i⟩ = q.2.tree.node ⟨i⟩) :
      ReadsType start stop ws x := by
    obtain ⟨st, h⟩ := h
    obtain ⟨⟨hcomposite, rfl, hwords⟩, ⟨hopen, hempty⟩, hsize, hnodes⟩ := hfacts
    have hnames := Reads.moves (fun _ => nameList_reads) st p
    refine (Moves.readsType (h.trans hnames) hcomposite hwords).precedes ⟨⟨hsize, fun id => hnodes id.index⟩, ?_⟩
    exact fun _ => ⟨hopen, Array.size_eq_zero_iff.1 hempty⟩
  let p := (item? start).2
  let q := (item? p).2
  have ⟨hsep, hvar, hsep', hvar', hlparen⟩ : p.curr.token.isLiteral = false ∧
      p.advance.curr.token.isLiteral = false ∧ q.curr.token.isLiteral = false ∧ q.advance.curr.token.isLiteral = false ∧
      q.advance.advance.curr.token.isLiteral = false := by
    decide +kernel
  have hp : ∃ st, Moves ([], start) (st, p) := hitem ⟨[], .refl⟩
  have hfirst : ReadsType start stop ws ⟨12⟩ := hreads (hnext (hnext hp hsep) hvar) (by decide +kernel)
  have hsecond : ReadsType start stop ws ⟨25⟩ :=
    hreads (hnext (hnext (hnext (hitem hp) hsep') hvar') hlparen) (by decide +kernel)
  have htypes : ((⟨14⟩ : NodeId) ∈ file.decls ∧ file.tree.op ⟨14⟩ = .kw .var ∧
      (⟨13⟩ : NodeId) ∈ file.tree.present ⟨14⟩ ∧ file.tree.part? ⟨13⟩ 1 = some ⟨12⟩ ∧
      (⟨2⟩ : NodeId) ∈ file.namesIn ⟨13⟩ ∧ file.tree.literal ⟨2⟩ = "a") ∧
      (⟨27⟩ : NodeId) ∈ file.decls ∧ file.tree.op ⟨27⟩ = .kw .var ∧
      (⟨26⟩ : NodeId) ∈ file.tree.present ⟨27⟩ ∧ file.tree.part? ⟨26⟩ 1 = some ⟨25⟩ ∧
      (⟨15⟩ : NodeId) ∈ file.namesIn ⟨26⟩ ∧ file.tree.literal ⟨15⟩ = "b" := by
    decide +kernel
  obtain ⟨⟨hdecl, hop, hspec, htype, hname, ha⟩, hdecl', hop', hspec', htype', hname', hb⟩ := htypes
  have ⟨hok, hfaults⟩ :
      ((Package.new (TypeTable.new .amd64)).resolveFile file).1.toBool = true ∧ pkg.faults.size = 0 := by
    decide +kernel
  have hrun : (Package.new (TypeTable.new .amd64)).resolveFile file = (.ok (), pkg) := by
    refine Prod.ext ?_ rfl
    cases hresult : ((Package.new (TypeTable.new .amd64)).resolveFile file).1 with
    | ok _ => rfl
    | error failure =>
        rw [hresult] at hok
        cases hok
  obtain ⟨-, hsame⟩ := same_words_same_type hfile (.new ⟨.amd64, .refl⟩) hrun (Array.size_eq_zero_iff.1 hfaults)
  obtain ⟨obj, obj', t, -, -, hobj, hobj', ht, ht', -⟩ := hsame ⟨13⟩ ⟨12⟩ ⟨26⟩ ⟨25⟩ ⟨⟨_, hdecl, hop, hspec⟩, htype⟩
    ⟨⟨_, hdecl', hop', hspec'⟩, htype'⟩ ws hfirst hsecond ⟨2⟩ hname ⟨15⟩ hname'
  rw [ha] at hobj
  rw [hb] at hobj'
  exact ⟨obj, obj', t, hobj.resolve_left (by decide), hobj'.resolve_left (by decide), ht, ht'⟩

end GoSource
