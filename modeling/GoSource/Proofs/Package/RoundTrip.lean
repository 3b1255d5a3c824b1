import GoSource.Proofs.Package.Spelling
import GoSource.Proofs.Package.Variable

/-!
# Types are read back from their spellings

A type made of the predeclared types and `error` is spelled by a text that a source file can hold.  A variable
declared with that text has the type again, by the same handle.

* **`Writable.parsed`**: the file is parsed without a fault, into the declaration of the variable.
* **`spelling_resolved`**: resolving it gives the variable the handle that was spelled.
-/

namespace GoSource

open TypeTable Lexeme
open Grammar (IsVariableFile)

variable {tt : TypeTable} {error t : TypeId}

/-- A file that declares a variable with a given type. -/
def variableText (typ : String) : String :=
  "package p\nvar x " ++ typ ++ "\n"

/-! ### Reading the file -/

theorem isIdent_p : IsIdent "p" :=
  isIdent_of_check (by decide +kernel)

theorem isIdent_x : IsIdent "x" :=
  isIdent_of_check (by decide +kernel)

theorem line_package : Line "package p" [(.kw .package, ""), (.lit .ident, "p")] := by
  have hcuts : Cuts ("package" ++ (" " ++ "p")) [(.kw .package, ""), (.lit .ident, "p")] Breaks :=
    (cuts_keyword .package).append
      (cuts_blank.append (cuts_ident isIdent_p) fun rest _ => (opens_ident isIdent_p).append rest)
      fun rest _ => breaks_cons (by decide) _
  exact ⟨hcuts, closes_snoc [_] rfl⟩

theorem line_variable {text : String} {ws : List Word} (h : SpelledAs tt error t text ws) :
    Line ("var x " ++ text) ([(.kw .var, ""), (.lit .ident, "x")] ++ ws) := by
  have hx : Cuts (" " ++ "x") [(.lit .ident, "x")] Breaks :=
    cuts_blank.append (cuts_ident isIdent_x) fun rest _ => (opens_ident isIdent_x).append rest
  have hvar : Cuts ("var" ++ (" " ++ "x")) [(.kw .var, ""), (.lit .ident, "x")] Breaks :=
    (cuts_keyword .var).append hx fun rest _ => breaks_cons (by decide) _
  have hblank : Cuts ("var" ++ (" " ++ "x") ++ " ") [(.kw .var, ""), (.lit .ident, "x")] Opens :=
    hvar.append cuts_blank fun rest _ => breaks_cons (by decide) _
  exact ⟨hblank.append h.cuts fun rest _ => h.opens.append rest, h.closes.append _⟩

theorem toList_variableText (typ : String) :
    (variableText typ).toList = lineChars ["package p", "var x " ++ typ] := by
  show ("package p\nvar x " ++ typ ++ "\n").toList = _
  rw [String.toList_append, String.toList_append]
  simp only [lineChars, List.flatMap_cons, List.flatMap_nil, List.append_nil, String.toList_append]
  rfl

/-- The file of a writable type is parsed without a fault, into a declaration that denotes the type. -/
theorem TypeTable.Writable.parsed (h : Writable tt error t) (hsound : tt.Sound) (name : String) :
    let file := ParsedFile.ofString name (variableText (tt.spell t))
    file.diagnostics = [] ∧ IsVariableFile "p" "x" (Denotes tt error t) file.tree file.root := by
  obtain ⟨ws, hws⟩ := h.spelled hsound
  have hlines := List.Forall₂.cons line_package (List.Forall₂.cons (line_variable hws) List.Forall₂.nil)
  have htext := toList_variableText (tt.spell t)
  have hbom : (variableText (tt.spell t)).toList.head? ≠ some Rune.bom := by
    rw [htext]
    exact nofun
  obtain ⟨hready, hmode⟩ := Parser.ready_lines hlines { name } {} htext hbom
  have hwords : (Parser.new { name } { bytes := (variableText (tt.spell t)).toUTF8 } {}).Ready
      ((.kw .package, "") :: (.lit .ident, "p") :: (.op .semicolon, "") ::
        (.kw .var, "") :: (.lit .ident, "x") :: (ws ++ [(.op .semicolon, "")])) := by
    have hflat : lineWords [[(.kw .package, ""), (.lit .ident, "p")], [(.kw .var, ""), (.lit .ident, "x")] ++ ws] =
        (.kw .package, "") :: (.lit .ident, "p") :: (.op .semicolon, "") ::
          (.kw .var, "") :: (.lit .ident, "x") :: (ws ++ [(.op .semicolon, "")]) := by
      simp [lineWords]
    rw [← hflat]
    exact hready
  obtain ⟨root, q, hrun, hclean, hfile⟩ :=
    Grammar.fileNode_run (stable_denotes tt error t) hws.typeWords hwords (by rw [hmode])
  have hparsed : ParsedFile.ofString name (variableText (tt.spell t)) =
      { tree := q.tree, file := q.file, root, diagnostics := q.journal.entries.toList } := by
    rw [ParsedFile.ofString, Parser.parseFile, hrun]
  rw [hparsed]
  exact ⟨congrArg Array.toList hclean.2, hfile⟩

/-! ### Resolving the file -/

theorem name_ne_x : ∀ k ∈ predeclaredKinds, k.name ≠ "x" := by
  decide

/-- A package over a table in which nothing is declared, with the universe that was made for an earlier table. -/
theorem hosts_reset {pkg : Package} {any : TypeId} {functions : List Object} (htypes : pkg.types = tt)
    (houter : pkg.outer = predeclaredNames any error ++ functions) (path : String) :
    Hosts tt error (pkg.reset path) := by
  have hpredeclared (name : String) :
      (pkg.reset path).predeclared? name = (predeclaredNames any error ++ functions).find? (·.name == name) := by
    rw [← houter]
    rfl
  refine ⟨htypes, fun k hk => ⟨rfl, ?_⟩, rfl, ?_⟩
  · rw [hpredeclared, find?_predeclared_basic hk]
  · rw [hpredeclared, find?_predeclared_error]

/-- A type made of the predeclared types and the `error` of a package, in any table that comes after that of the
package, is read back from its spelling: a variable declared with that text gets the handle that was spelled, and
neither the parser nor the package reports anything. -/
theorem spelling_resolved {target : Target} {tt₀ tt : TypeTable} {error t : TypeId} (pkg : Package) (name : String)
    (hstart : Reaches (TypeTable.new target) tt₀)
    (herror : ((Package.new tt₀).predeclared? "error").bind Object.typ = some error)
    (hbuilt : Built (TypeTable.new target) (Package.new tt₀).types error tt t)
    (houter : pkg.outer = (Package.new tt₀).outer) (htypes : pkg.types = tt) :
    let file := ParsedFile.ofString name ("package p\nvar x " ++ tt.spell t ++ "\n")
    file.diagnostics = [] ∧
      ∃ pkg', pkg.resolveFile file = (.ok (), pkg') ∧ pkg'.faults = #[] ∧ pkg'.types = tt ∧
        (pkg'.lookup "x").bind Object.typ = some t := by
  have hsound := sound_new target
  obtain ⟨any, error', functions, houter', hreach, herror'⟩ := new_run (hstart.grows hsound).sound
  obtain rfl : error' = error := by
    rw [Package.predeclared?, houter', find?_predeclared_error] at herror
    exact Option.some.inj herror
  obtain ⟨hgrows, hwritable⟩ := hbuilt.writable hsound (hstart.trans hreach) herror'
  obtain ⟨hclean, hfile⟩ := hwritable.parsed hgrows.sound name
  obtain ⟨pkg', hrun, hfaults, htypes', hlookup⟩ :=
    resolveFile_variable hfile (hosts_reset htypes (houter.trans houter') "p") (by decide) name_ne_x (by decide)
  exact ⟨hclean, pkg', hrun, hfaults, htypes'.trans htypes, hlookup⟩

/-- A channel of channels to receive from, whose element needs parentheses. -/
theorem spelling_resolved_channel :
    let pkg := Package.new (TypeTable.new .amd64)
    let tt := (newChan ⟨45⟩ .both (newChan ⟨29⟩ .recv pkg.types).2).2
    (pkg.predeclared? "error").bind Object.typ = some ⟨29⟩ ∧
      Built (TypeTable.new .amd64) pkg.types ⟨29⟩ tt ⟨46⟩ ∧ tt.spell ⟨46⟩ = "chan (<-chan error)" ∧
      (let file := ParsedFile.ofString "a.go" ("package p\nvar x " ++ tt.spell ⟨46⟩ ++ "\n")
      file.diagnostics = [] ∧
        ∃ pkg', Package.resolveFile file { pkg with types := tt } = (.ok (), pkg') ∧ pkg'.faults = #[] ∧
          pkg'.types = tt ∧ (pkg'.lookup "x").bind Object.typ = some ⟨46⟩) := by
  intro pkg tt
  have herror : (pkg.predeclared? "error").bind Object.typ = some ⟨29⟩ := by decide +kernel
  have harrow : newChan ⟨29⟩ .recv pkg.types = (.ok ⟨45⟩, (newChan ⟨29⟩ .recv pkg.types).2) :=
    granted_of_toOption (by decide +kernel)
  have hchan : newChan ⟨45⟩ .both (newChan ⟨29⟩ .recv pkg.types).2 = (.ok ⟨46⟩, tt) :=
    granted_of_toOption (by decide +kernel)
  have hbuilt : Built (TypeTable.new .amd64) pkg.types ⟨29⟩ tt ⟨46⟩ := .chan (.chan (.error .refl) harrow) hchan
  refine ⟨herror, hbuilt, by decide +kernel, ?_⟩
  exact spelling_resolved { pkg with types := tt } "a.go" .refl herror hbuilt rfl rfl

end GoSource
