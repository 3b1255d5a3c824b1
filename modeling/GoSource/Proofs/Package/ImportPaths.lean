import GoSource.Package.Resolve
import GoSource.Proofs.Grammar.Imports
import GoSource.Proofs.Grammar.Lookahead
import GoSource.Proofs.Grammar.Traces
import GoSource.Proofs.Scanner.Respelling

/-!
# The paths of imports

The marks of an import path are taken off as single bytes.  The strings of a text have such marks, and so have the
paths that the parser found.  But in the place of a path that is missing stands a bad node, with the text of the token
that was found instead, and that can be any text.

* **`Tree.Sourced`**: what the parts of import declarations are, and where the texts of strings come from.
* **`Grammar.Sourcing`**: the same of a production and what it has in its hands.  No step changes that.
* **`Parser.sourced_after`**: so it holds of the tree of every parser.
* **`ParsedFile.LacksPath`**, **`resolution_breaks_off`**: resolving breaks off exactly at the bad paths whose text
  cannot be cut.
-/

namespace GoSource

/-! ### The marks of strings -/

theorem Literal.numberClass?_ne_string (cs : List Char) : numberClass? cs ≠ some .string := by
  unfold numberClass? classify?
  dsimp only
  repeat' split
  all_goals simp

/-- A text that begins with a character of one byte can be cut. -/
theorem Literal.isUncuttable_ofList_cons {c : Char} (h : c.utf8Size = 1) (cs : List Char) :
    isUncuttable (String.ofList (c :: cs)) = false := by
  simp [isUncuttable, h]

namespace Lexeme

theorem lookup_ne_string (s : String) : Token.lookup s ≠ .lit .string := by
  unfold Token.lookup
  cases Keyword.ofText? s with
  | none => exact nofun
  | some k => exact nofun

/-- A string opens with one of the two marks of strings. -/
theorem mark_of_measure {r : Rune} {rest : List Rune} (h : (measure r rest).kind = .token (.lit .string)) :
    r.char = '"' ∨ r.char = Literal.rawMark := by
  have hword : (word r rest).kind ≠ .token (.lit .string) := by simp [word, lookup_ne_string]
  have hnumber : (number r rest).kind ≠ .token (.lit .string) := by
    unfold number
    dsimp only
    split
    · next c hclass =>
        intro heq
        obtain rfl : c = .string := by simpa using heq
        exact Literal.numberClass?_ne_string _ hclass
    · simp
  have hblock : (blockComment rest).kind ≠ .token (.lit .string) := by
    unfold blockComment
    split <;> simp
  have hstray : (operatorOrStray r rest).kind ≠ .token (.lit .string) := by
    unfold operatorOrStray
    split <;> simp
  simp only [measure] at h
  repeat' split at h
  · cases h
  · cases h
  · exact absurd h hword
  · exact absurd h hnumber
  · cases h
  · exact absurd h hblock
  · next hquote => exact .inl hquote
  · next hraw => exact .inr hraw
  · cases h
  · exact absurd h hstray

theorem mark_of_mem_split {rs : List Rune} {l : Lexeme} (h : l ∈ split rs) (hkind : l.kind = .token (.lit .string)) :
    ∃ r body, l.runes = r :: body ∧ (r.char = '"' ∨ r.char = Literal.rawMark) := by
  induction rs using split.induct with
  | case1 => simp [split] at h
  | case2 r rest extent ih =>
      rw [split] at h
      rcases List.mem_cons.1 h with rfl | h
      · exact ⟨r, _, rfl, mark_of_measure hkind⟩
      · exact ih h

end Lexeme

/-- The strings of a text can be cut. -/
theorem Scanner.isUncuttable_of_mem_sequence {r : Reader} {t : Scanned} (h : t ∈ (start r).sequence)
    (hstring : t.token = .lit .string) : Literal.isUncuttable t.literal = false := by
  rw [sequence_eq, List.mem_append, List.mem_singleton] at h
  rcases h with h | rfl
  · unfold upcoming at h
    obtain ⟨item, hitem, rfl⟩ := List.mem_map.1 h
    have hitem := List.mem_of_mem_filter hitem
    rw [items_start] at hitem
    rcases Item.mem_ofLexemes (fun _ hl => Lexeme.cut_of_mem_split hl) hitem with hword | ⟨l, hl, hkind, hliteral, -⟩
    · have htoken : item.token = .op .semicolon := congrArg Prod.fst hword
      exact absurd (htoken.symm.trans hstring) nofun
    · have hkind : l.kind = .token (.lit .string) := hkind.trans (congrArg LexemeKind.token hstring)
      obtain ⟨r, body, hrunes, hmark⟩ := Lexeme.mark_of_mem_split hl hkind
      have htext : item.literal = String.ofList (r.char :: Rune.chars body) := by
        rw [hliteral, Lexeme.literal_of_kind hkind, hrunes]
        rfl
      show Literal.isUncuttable item.literal = false
      rw [htext]
      apply Literal.isUncuttable_ofList_cons
      rcases hmark with hmark | hmark <;> rw [hmark] <;> rfl
  · cases hstring

/-! ### What import declarations are made of -/

/-- The parts of import declarations are import specifications, the paths of these are strings, and the strings are
tokens of `ts`.  Bad nodes can stand anywhere. -/
structure Tree.Sourced (ts : List Scanned) (t : Tree) : Prop where
  specs : ∀ {id spec : NodeId}, t.isBad id = false → t.op id = .kw .import_ → some spec ∈ t.children id →
    t.Fits (.tag .importSpec) spec
  path : ∀ {id path : NodeId}, t.isBad id = false → t.op id = .tag .importSpec →
    (t.children id)[1]? = some (some path) → t.Fits (.lit .string) path
  strings : ∀ {id : NodeId}, t.isBad id = false → t.op id = .lit .string → (t.node id).atom.scanned ∈ ts

theorem Tree.sourced_empty (ts : List Scanned) : ({} : Tree).Sourced ts :=
  ⟨nofun, nofun, nofun⟩

namespace Grammar

variable {s : Scanner} {ts : List Scanned} {p : Parser}

/-- A node is made. -/
theorem sourced_withNode (h : p.tree.Sourced ts) (atom : Atom) (shape : NodeShape)
    (hformed : isSound shape = true → Formed p.tree atom.token shape)
    (hstring : isSound shape = true → atom.token = .lit .string → atom.scanned ∈ ts) :
    (withNode p atom shape).tree.Sourced ts := by
  have hgrows := grows_withNode p atom shape
  have hsound (h : ({ atom, shape } : Node).isBad = false) : isSound shape = true := by
    cases shape with
    | bad found d => cases h
    | leaf | unary | binary | list => rfl
  constructor
  · intro id spec hbad hop hspec
    rw [Tree.isBad, node_withNode] at hbad
    rw [Tree.op, node_withNode] at hop
    rw [Tree.children, node_withNode] at hspec
    split at hbad
    · next hid =>
        rw [if_pos hid] at hop hspec
        exact ((hformed (hsound hbad)).specs hop spec hspec).grows (by simp) hgrows
    · next hid =>
        rw [if_neg hid] at hop hspec
        exact (h.specs hbad hop hspec).grows (by simp) hgrows
  · intro id path hbad hop hpath
    rw [Tree.isBad, node_withNode] at hbad
    rw [Tree.op, node_withNode] at hop
    rw [Tree.children, node_withNode] at hpath
    split at hbad
    · next hid =>
        rw [if_pos hid] at hop hpath
        exact ((hformed (hsound hbad)).path hop path hpath).grows (by simp) hgrows
    · next hid =>
        rw [if_neg hid] at hop hpath
        exact (h.path hbad hop hpath).grows (by simp) hgrows
  · intro id hbad hop
    rw [Tree.isBad, node_withNode] at hbad
    rw [Tree.op, node_withNode] at hop
    rw [node_withNode]
    split at hbad
    · next hid =>
        rw [if_pos hid] at hop ⊢
        exact hstring (hsound hbad) hop
    · next hid =>
        rw [if_neg hid] at hop ⊢
        exact h.strings hbad hop

/-- Everything comes from the text whose scanner was `s` at its start: the tokens in sight and those in hand, and the
strings of the tree. -/
structure Sourcing (s : Scanner) (x : Stack × Parser) : Prop where
  inSight : Parser.InSight s x.2
  sourced : x.2.tree.Sourced s.sequence
  tokens : ∀ a, .token a ∈ x.1 → a.scanned ∈ s.sequence

/-- A step that makes no node and takes no token. -/
theorem Sourcing.of_tree_eq {x y : Stack × Parser} (h : Sourcing s x) (hsight : Parser.InSight s y.2)
    (htree : y.2.tree = x.2.tree) (htokens : ∀ a, Piece.token a ∈ y.1 → .token a ∈ x.1) : Sourcing s y :=
  ⟨hsight, htree ▸ h.sourced, fun a ha => h.tokens a (htokens a ha)⟩

theorem tree_complain (p : Parser) (d : Diagnostic SourceFault) : (p.complain d).tree = p.tree := by
  unfold Parser.complain
  split <;> rfl

theorem token_mem_push {α : Type} [Holds α] (x : α) {a : Atom} {st : Stack} (h : Piece.token a ∈ st) :
    .token a ∈ push x st :=
  List.mem_append_right _ h

theorem Move.sourcing {x y : Stack × Parser} (h : Move x y) (hx : Sourcing s x) : Sourcing s y := by
  obtain ⟨before, hsteps⟩ := Parser.steps_of_move h none
  have hsight : Parser.InSight s y.2 := (hx.inSight.watched.steps hsteps).inSight
  cases h with
  | uncomment | composite => exact hx.of_tree_eq hsight rfl fun _ ha => ha
  | complain => exact hx.of_tree_eq hsight (tree_complain _ _) fun _ ha => ha
  | pass | lose | peek => exact hx.of_tree_eq hsight (Parser.tree_advance _) fun _ ha => ha
  | take =>
      rename_i st p
      refine ⟨hsight, ?_, fun a ha => ?_⟩
      · show p.advance.tree.Sourced s.sequence
        rw [Parser.tree_advance]
        exact hx.sourced
      · rcases List.mem_cons.1 ha with ha | ha
        · obtain rfl := Piece.token.inj ha
          exact hx.inSight.suffix.subset List.mem_cons_self
        · exact hx.tokens a ha
  | leaf above a hne =>
      have ha : a.scanned ∈ s.sequence := hx.tokens a (List.mem_append_right _ List.mem_cons_self)
      refine ⟨hsight, ?_, fun b hb => hx.tokens b ?_⟩
      · refine sourced_withNode hx.sourced a .leaf (fun _ => ⟨?_, ?_, ?_⟩) fun _ _ => ha
        · simp
        · simp
        · simp
      · simp only [List.mem_append, List.mem_cons, reduceCtorEq, false_or] at hb ⊢
        exact hb.imp_right .inr
  | node above atom shape hliteral _ _ hformed =>
      refine ⟨hsight, ?_, fun b hb => hx.tokens b ?_⟩
      · refine sourced_withNode hx.sourced atom shape (fun _ => hformed) fun _ hstring => ?_
        rw [hstring] at hliteral
        cases hliteral
      · simp only [List.mem_append, List.mem_cons, reduceCtorEq, false_or] at hb ⊢
        exact hb.imp_right (token_mem_push _)
  | bad atom found d _ _ =>
      refine ⟨hsight, sourced_withNode hx.sourced atom (.bad found d) nofun nofun, fun b hb => hx.tokens b ?_⟩
      simp only [List.mem_cons, reduceCtorEq, false_or] at hb
      exact token_mem_push found hb
  | reorder _ hperm => exact hx.of_tree_eq hsight rfl fun _ ha => hperm.mem_iff.2 ha
  | drop above id _ =>
      refine hx.of_tree_eq hsight rfl fun a ha => ?_
      simp only [List.mem_append, List.mem_cons, reduceCtorEq, false_or]
      exact List.mem_append.1 ha

theorem Moves.sourcing {x y : Stack × Parser} (h : Moves x y) (hx : Sourcing s x) : Sourcing s y := by
  induction h with
  | refl => exact hx
  | tail _ hstep ih => exact hstep.sourcing ih

end Grammar

/-- Whatever was called on a parser since a file was bound, the strings of the tree come from its text. -/
theorem Parser.sourced_after (p : Parser) (file : SourceFile) (source : ByteSource) (mode : Mode) (calls : List Call) :
    ((p.init file source mode).after calls).tree.Sourced (p.scanner.init file source).sequence := by
  obtain ⟨st, hmoves⟩ := Grammar.moves_after [] (p.init file source mode) calls
  have hsight := inSight_restart { p with scanner := p.scanner.init file source, mode } nofun
  have htree : (p.init file source mode).tree = {} := Parser.tree_advance _
  have hstart : Grammar.Sourcing (p.scanner.init file source) ([], p.init file source mode) :=
    ⟨hsight, htree ▸ Tree.sourced_empty _, fun _ ha => absurd ha List.not_mem_nil⟩
  exact (hmoves.sourcing hstart).sourced

namespace Package

variable {file : ParsedFile} {pkg : Package} {decls : List NodeId} {text : String}

theorem mem_importPaths {t : Tree} : text ∈ importPaths t decls ↔
    ∃ decl ∈ decls, t.isBad decl = false ∧ t.op decl = .kw .import_ ∧
      ∃ spec ∈ sound t decl, ∃ path, t.part? spec 1 = some path ∧ t.literal path = text := by
  simp [importPaths, and_assoc]

theorem resolveDecls?_eq_none : pkg.resolveDecls? file decls = none ↔
    ∃ text ∈ importPaths file.tree decls, Literal.isUncuttable text = true := by
  simp [resolveDecls?]

end Package

/-- A path that was found can be cut. -/
theorem ParsedFile.isBad_of_isUncuttable (name text : String) {decl spec path : NodeId}
    (hdecl : (ParsedFile.ofString name text).tree.isBad decl = false)
    (himport : (ParsedFile.ofString name text).tree.op decl = .kw .import_)
    (hspec : spec ∈ Package.sound (ParsedFile.ofString name text).tree decl)
    (hpath : (ParsedFile.ofString name text).tree.part? spec 1 = some path)
    (hcut : Literal.isUncuttable ((ParsedFile.ofString name text).tree.literal path) = true) :
    (ParsedFile.ofString name text).tree.isBad path = true := by
  have hsourced : (ParsedFile.ofString name text).tree.Sourced _ :=
    Parser.sourced_after {} { name } { bytes := text.toUTF8 } {} [.parseFile]
  generalize (ParsedFile.ofString name text).tree = t at *
  by_contra hbad
  obtain ⟨hpresent, hsound⟩ := List.mem_filter.1 hspec
  have hsound : t.isBad spec = false := by simpa using hsound
  have hchild : some spec ∈ t.children decl := by simpa [Tree.present] using hpresent
  have hop : t.op spec = .tag .importSpec := (hsourced.specs hdecl himport hchild).resolve_left (by simp [hsound])
  rw [Tree.part?, Option.join_eq_some_iff] at hpath
  have hstring : t.op path = .lit .string := (hsourced.path hsound hop hpath).resolve_left hbad
  have hmem := hsourced.strings (by simpa using hbad) hstring
  have hcuttable := Scanner.isUncuttable_of_mem_sequence hmem hstring
  exact Bool.false_ne_true (hcuttable.symm.trans hcut)

/-- In the place of the path of an import stands a bad node, with a text from which no marks can be taken off. -/
def ParsedFile.LacksPath (file : ParsedFile) : Prop :=
  ∃ decl ∈ file.decls, file.tree.isBad decl = false ∧ file.tree.op decl = .kw .import_ ∧
    ∃ spec ∈ Package.sound file.tree decl, ∃ path, file.tree.part? spec 1 = some path ∧
      file.tree.isBad path = true ∧ Literal.isUncuttable (file.tree.literal path) = true

/-- The resolution of a text breaks off exactly if a path is missing, and in its place is a text that begins and ends
with one character of several bytes.  A text without diagnostics is always resolved. -/
theorem resolution_breaks_off (name text : String) (pkg : Package) :
    (pkg.resolveFile? (ParsedFile.ofString name text) = none ↔ (ParsedFile.ofString name text).LacksPath) ∧
    ((ParsedFile.ofString name text).diagnostics = [] →
      pkg.resolveFile? (ParsedFile.ofString name text) = some (pkg.resolveFile (ParsedFile.ofString name text))) := by
  have hbreaks : pkg.resolveFile? (ParsedFile.ofString name text) = none ↔ _ := Package.resolveDecls?_eq_none
  simp only [Package.mem_importPaths] at hbreaks
  constructor
  · rw [hbreaks]
    constructor
    · rintro ⟨_, ⟨decl, hmem, hdecl, himport, spec, hspec, path, hpath, rfl⟩, hcut⟩
      have hbad := ParsedFile.isBad_of_isUncuttable name text hdecl himport hspec hpath hcut
      exact ⟨decl, hmem, hdecl, himport, spec, hspec, path, hpath, hbad, hcut⟩
    · rintro ⟨decl, hmem, hdecl, himport, spec, hspec, path, hpath, -, hcut⟩
      exact ⟨_, ⟨decl, hmem, hdecl, himport, spec, hspec, path, hpath, rfl⟩, hcut⟩
  · intro hclean
    show pkg.resolveDecls? _ _ = _
    unfold Package.resolveDecls?
    rw [if_neg]
    · rfl
    · intro hany
      obtain ⟨_, hmem, hcut⟩ := List.any_eq_true.1 hany
      obtain ⟨decl, -, hdecl, himport, spec, hspec, path, hpath, rfl⟩ := Package.mem_importPaths.1 hmem
      have hbad := ParsedFile.isBad_of_isUncuttable name text hdecl himport hspec hpath hcut
      exact absurd hbad (by simp [(ParsedFile.untroubled_ofString name text hclean).1 path])

/-- The same letter in a path that is one, and in the place of one. -/
theorem resolution_breaks_off_letter :
    (ParsedFile.ofString "a" "package p\nimport a \"é\"\n").diagnostics = [] ∧
      (Package.new (.new .amd64)).resolveFile? (ParsedFile.ofString "a" "package p\nimport a \"é\"\n") ≠ none := by
  have hclean : (ParsedFile.ofString "a" "package p\nimport a \"é\"\n").diagnostics = [] := by decide +kernel
  refine ⟨hclean, ?_⟩
  rw [(resolution_breaks_off "a" _ _).2 hclean]
  exact nofun

/-- A letter where a path is missing breaks resolution off. -/
theorem resolution_not_total :
    (Package.new (.new .amd64)).resolveFile? (ParsedFile.ofString "a" "package p\nimport a é\n") = none := by
  decide +kernel

end GoSource
