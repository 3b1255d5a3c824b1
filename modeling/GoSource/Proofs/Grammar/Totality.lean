import GoSource.Proofs.Grammar.File
import Mathlib.Logic.Function.Iterate

/-!
# Parsing ends, and reads everything

The cycles of the grammar have one solution, no loop goes round without reading on, an item of a file consumes
a token, and a whole file is read to its end.

* **`Loop.Advances`**: the guard of a loop is never what ends it.
* **`LoopsAdvance`** says so of all loops of the grammar.
* **`parseFile_reads_all`**: after a file nothing is upcoming.
* **`Scanner.scan_exhausted`**: past the last token there is only the end of the text.
-/

namespace GoSource

namespace Grammar

variable {σ : Type}

/-- Every round that goes on leaves less to read, so the loop goes on exactly as its rounds decide. -/
structure Loop.Advances (loop : Loop σ) : Prop where
  left_lt : ∀ x p, loop.more p.curr.token = true → ∀ y p', loop.round x p = (.again y, p') → p'.left < p.left
  unroll : ∀ x p, loop.runFrom x p =
    if loop.more p.curr.token then
      match loop.round x p with
      | (.done y, p') => (y, p')
      | (.again y, p') => loop.runFrom y p'
    else (x, p)

theorem Loop.Advances.of_left_lt {loop : Loop σ}
    (h : ∀ x p, loop.more p.curr.token = true → ∀ y p', loop.round x p = (.again y, p') → p'.left < p.left) :
    loop.Advances := by
  refine ⟨h, fun x p => ?_⟩
  rw [Loop.runFrom]
  by_cases hmore : loop.more p.curr.token = true
  · rw [if_pos hmore, if_pos hmore]
    cases hround : loop.round x p with
    | mk turn p' =>
      cases turn with
      | done y => rfl
      | again y => exact if_pos (h x p hmore y p' hround)
  · rw [if_neg hmore, if_neg hmore]

theorem Loop.Reads.advances [Holds σ] {loop : Loop σ} (h : ∀ n, loop.Reads n loop) : loop.Advances := by
  refine .of_left_lt fun x p hmore y p' hround => ?_
  have hstart : Within (push x [], p) (p.left + 1) (push x []) p := .refl (Nat.lt_succ_self _)
  have hturn := ((h (p.left + 1)).round p.left (Nat.lt_succ_self _) _ _ x _ hmore p ⟨hstart, rfl⟩).2
  rw [hround] at hturn
  exact hturn.left_lt

/-- If another round is always due, a loop ends with a round that stops. -/
theorem Loop.Advances.exists_done {loop : Loop σ} (h : loop.Advances) (hmore : ∀ t, loop.more t = true) (x : σ)
    (p : Parser) : ∃ y q, loop.round y q = (.done (loop.runFrom x p).1, (loop.runFrom x p).2) := by
  induction hj : p.left using Nat.strongRecOn generalizing x p with
  | ind j ih =>
    subst hj
    cases hround : loop.round x p with
    | mk turn p' =>
      have hrun := h.unroll x p
      rw [if_pos (hmore _), hround] at hrun
      cases turn with
      | done y => exact ⟨x, p, by rw [hrun, hround]⟩
      | again y =>
          obtain ⟨z, q, hz⟩ := ih p'.left (h.left_lt x p (hmore _) y p' hround) y p' rfl
          exact ⟨z, q, by rw [hrun]; exact hz⟩

/-- No loop of the grammar goes round without reading on. -/
structure LoopsAdvance (g : Rules) : Prop where
  skip : ∀ stop fault, (skipLoop stop fault).Advances
  pass : ∀ token, (passLoop token).Advances
  exprs : g.exprsLoop.Advances
  union : (unionLoop g).Advances
  brackets : (bracketLoop g).Advances
  params : ∀ close typeParams, (paramsLoop g close typeParams).Advances
  typeArguments : (typeArgumentsLoop g).Advances
  fields : (membersLoop .rbrace .semicolon (structField g)).Advances
  methods : (membersLoop .rbrace .semicolon (interfaceElem g)).Advances
  names : namesLoop.Advances
  stmts : (stmtLoop g).Advances
  index : (indexLoop g).Advances
  arguments : (argumentsLoop g).Advances
  elements : (elementsLoop g).Advances
  suffixes : (suffixLoop g).Advances
  binary : ∀ precedence, 1 ≤ precedence → (binaryLoop g precedence).Advances
  cases : (clausesLoop g do listExprs (← g.exprs)).Advances
  communications : (clausesLoop g (simpleStmt g)).Advances
  imports : (membersLoop .rparen .rparen importSpec).Advances
  values : (membersLoop .rparen .rparen (valueSpec g)).Advances
  types : (membersLoop .rparen .rparen (typeSpec g)).Advances
  file : fileLoop.Advances

theorem passLoop_advances (token : Token) : (passLoop token).Advances := by
  refine .of_left_lt fun x p hmore y p' hround => ?_
  have hne : p.curr.token ≠ .eof := by
    simp only [passLoop, Bool.and_eq_true, bne_iff_ne] at hmore
    exact hmore.2
  obtain rfl : p.advance = p' := congrArg Prod.snd hround
  exact Parser.left_advance_lt hne

theorem paramsLoop_advances (close : Token) (typeParams : Bool) :
    (paramsLoop grammar close typeParams).Advances := by
  refine .of_left_lt fun x p hmore y p' hround => ?_
  have hturn := (paramsLoop_turn (grammar_self (p.left + 1)) (Nat.lt_succ_self p.left) x hmore p
    ⟨.refl (w := []) (Nat.lt_succ_self _), rfl⟩).2
  rw [hround] at hturn
  obtain ⟨e, bads, -, hwithin, -⟩ := hturn
  exact hwithin.left_lt

theorem grammar_loopsAdvance : LoopsAdvance grammar where
  skip stop fault := Loop.Reads.advances fun _ => skipLoop_reads stop fault
  pass := passLoop_advances
  exprs := Loop.Reads.advances fun n => ⟨rfl, fun k hk =>
    (exprsLoop_reads (grammar_self n).expr).round k (Nat.lt_succ_of_lt hk)⟩
  union := Loop.Reads.advances fun n => unionLoop_reads (grammar_self n)
  brackets := Loop.Reads.advances fun n => bracketLoop_reads (grammar_self n)
  params := paramsLoop_advances
  typeArguments := Loop.Reads.advances fun n => typeArgumentsLoop_reads (grammar_self n)
  fields := Loop.Reads.advances fun n => membersLoop_reads (structField_reads (grammar_self n))
  methods := Loop.Reads.advances fun n => membersLoop_reads (interfaceElem_reads (grammar_self n))
  names := Loop.Reads.advances fun _ => namesLoop_reads
  stmts := Loop.Reads.advances fun n => stmtLoop_reads (grammar_self n)
  index := Loop.Reads.advances fun n => indexLoop_reads (grammar_self n)
  arguments := Loop.Reads.advances fun n => argumentsLoop_reads (grammar_self n)
  elements := Loop.Reads.advances fun n => elementsLoop_reads (grammar_self n)
  suffixes := Loop.Reads.advances fun n => ⟨rfl, fun k hk =>
    (suffixLoop_reads (grammar_self n)).round k (Nat.lt_succ_of_lt hk)⟩
  binary _ hprec := Loop.Reads.advances fun n => ⟨rfl, fun k hk =>
    (binaryLoop_reads (grammar_self n) hprec).round k (Nat.lt_succ_of_lt hk)⟩
  cases := Loop.Reads.advances fun n => clausesLoop_reads (grammar_self n) fun k hk s w =>
    (exprs_reads (grammar_self n).expr k hk s w).bind fun items => listExprs_reads items
  communications := Loop.Reads.advances fun n =>
    clausesLoop_reads (grammar_self n) (simpleStmt_reads (grammar_self n).expr)
  imports := Loop.Reads.advances fun _ => membersLoop_reads importSpec_reads
  values := Loop.Reads.advances fun n => membersLoop_reads (valueSpec_reads (grammar_self n))
  types := Loop.Reads.advances fun n => membersLoop_reads (typeSpec_reads (grammar_self n))
  file := Loop.Reads.advances fun _ => fileLoop_reads

/-! ### Items and files -/

/-- An item that is not the end consumes a token. -/
theorem item?_consumes (p : Parser) :
    (∃ id, (item? p).1 = some id ∧ (item? p).2.tree.op id = .eof) ∨
      ∃ taken, taken ≠ [] ∧ p.upcoming = taken ++ (item? p).2.upcoming := by
  rcases (item?_itemized (s := ([], p)) (w := []) p (.refl (Nat.lt_succ_self _))).2 with hread | ⟨-, hend⟩
  · obtain ⟨taken, htaken⟩ := hread.moves.upcoming_suffix
    refine .inr ⟨taken, ?_, htaken.symm⟩
    rintro rfl
    have hlt : (item? p).2.left < p.left := hread.left_lt
    rw [← Parser.length_upcoming, ← Parser.length_upcoming, ← htaken, List.nil_append] at hlt
    exact Nat.lt_irrefl _ hlt
  · cases hx : (item? p).1 with
    | none =>
        rw [hx] at hend
        exact absurd hend (by simp)
    | some id =>
        rw [hx] at hend
        exact .inl ⟨id, rfl, by simpa using hend⟩

/-- The loop over a file stops at a leaf for the end. -/
theorem fileLoop_done (decls : List Child) :
    Agree (fun _ => True) (fileLoop.round decls) (fileLoop.round decls)
      fun turn p => ∀ x, turn = .done x → ∃ id, p.tree.op id = .eof := by
  refine Agree.left fun b => ?_
  refine Agree.bind (Q := fun _ _ => True) (fun p _ => ⟨rfl, trivial⟩) fun item => Agree.get fun q => ?_
  refine Agree.ite (fun hend => ?_) (fun _ => ?_)
  · refine Agree.pure fun p hp x _ => ?_
    obtain ⟨-, rfl⟩ := hp
    cases item with
    | none => exact absurd hend (by simp)
    | some id => exact ⟨id, by simpa using hend⟩
  · refine Agree.bind (Q := fun _ _ => True) (fun p _ => ⟨rfl, trivial⟩) fun _ => Agree.left fun j => ?_
    refine Agree.ite (fun _ => ?_) (fun _ => Agree.pure fun p _ x hx => absurd hx nofun)
    refine Agree.bind (Q := fun _ _ => True) (fun p _ => ⟨rfl, trivial⟩) fun y => ?_
    exact Agree.pure fun p _ x hx => absurd hx nofun

/-- Everything was read: the end of the text is looked at, and nothing is left before it. -/
def ReadToEnd (p : Parser) : Prop :=
  p.curr.token = .eof ∧ p.upcoming = [] ∧ p.scanner.stream.items = []

/-- A file is read to its end, if the mode accepts declarations. -/
theorem fileNode_readToEnd {p : Parser} (hp : Ended p) (hdecls : p.mode.decls = true) :
    ReadToEnd (fileNode p).2 := by
  have hrun := (fileLoop_reads.run (Nat.le_refl _) []
    (s := ([], p)) (w := []) p (.refl (Nat.lt_succ_self _))).2
  obtain ⟨decls, q, hround⟩ := grammar_loopsAdvance.file.exists_done (fun _ => rfl) [] p
  have hended : Ended (fileLoop.run [] p).2 := hrun.moves.ended hp
  have hmode : (fileLoop.run [] p).2.mode = p.mode := hrun.moves.mode_eq
  obtain ⟨id, hop⟩ : ∃ id, (fileLoop.run [] p).2.tree.op id = .eof := by
    have hdone := (fileLoop_done decls q trivial).2
    rw [hround] at hdone
    exact hdone _ rfl
  have hcurr : (fileLoop.run [] p).2.curr.token = .eof := hended.token_eq (by rw [hmode, hdecls]) id hop
  exact ⟨hcurr, hended.settled.upcoming_eq_nil hcurr, (hended.settled.curr hcurr).1⟩

theorem mode_init (p : Parser) (file : SourceFile) (source : ByteSource) (mode : Mode) :
    (p.init file source mode).mode = mode :=
  Parser.mode_advance _

theorem mode_setBudget (p : Parser) (budget : Nat) : (p.setBudget budget).mode = p.mode :=
  Parser.mode_advance _

end Grammar

namespace Scanner

/-- A token handed out comes off the stream; at its end the end of the text is handed out. -/
theorem scan_items (s : Scanner) :
    s.scan.2.stream.items = s.stream.items.tail ∧ s.scan.2.finish = s.finish ∧ s.scan.2.file = s.file := by
  unfold scan
  split
  · rename_i item rest hpop
    refine ⟨?_, ?_, s.file_deliver item rest⟩
    · rw [TokenStream.items_pop? hpop]
      rfl
    · show (s.reportFault item).finish = s.finish
      unfold reportFault
      split <;> rfl
  · rename_i hpop
    have hitems : s.stream.items = [] := TokenStream.items_eq_nil_of_pop? hpop
    exact ⟨by show s.stream.items = _; rw [hitems]; rfl, rfl, rfl⟩

theorem scan_of_items_nil {s : Scanner} (h : s.stream.items = []) :
    s.scan.1 = { token := .eof, pos := s.file.pos s.finish, stop := s.file.pos s.finish } := by
  unfold scan
  split
  · rename_i item rest hpop
    rw [TokenStream.items_pop? hpop] at h
    exact absurd h (List.cons_ne_nil _ _)
  · rfl

/-- Once the text is exhausted, the end of the text is handed out for ever. -/
theorem scan_exhausted (s : Scanner) (n : Nat) (h : s.stream.items.length ≤ n) :
    ((fun s => s.scan.2)^[n] s).scan.1 =
      { token := .eof, pos := s.file.pos s.finish, stop := s.file.pos s.finish } := by
  induction n generalizing s with
  | zero => exact scan_of_items_nil (List.length_eq_zero_iff.1 (Nat.le_zero.1 h))
  | succ n ih =>
      obtain ⟨hitems, hfinish, hfile⟩ := s.scan_items
      have hlength : s.scan.2.stream.items.length ≤ n := by
        rw [hitems, List.length_tail]
        omega
      rw [Function.iterate_succ_apply, ih s.scan.2 hlength, hfinish, hfile]

end Scanner

namespace Grammar

/-- Parsing is total and makes progress.  The cycles of the grammar have one solution, which is what parsing
runs; every loop reads on in each round; an item of a file consumes a token or is the end; a file is read to
its end under any budget; and a scanner that is exhausted stays so. -/
theorem parsing_total :
    (grammar.Closed ∧ ∀ g : Rules, g.Closed → g.Same grammar) ∧
    (run declaration = declaration grammar ∧ run statement? = statement? grammar ∧
      run Rules.expr = grammar.expr) ∧
    LoopsAdvance grammar ∧
    (∀ p : Parser, (∃ id, p.parse.1 = some id ∧ p.parse.2.tree.op id = .eof) ∨
      ∃ taken, taken ≠ [] ∧ p.upcoming = taken ++ p.parse.2.upcoming) ∧
    (∀ (p : Parser) (file : SourceFile) (source : ByteSource) (mode : Mode) (budget : Nat),
      mode.decls = true →
        ReadToEnd (p.init file source mode).parseFile.2 ∧
        ReadToEnd ((p.init file source mode).setBudget budget).parseFile.2) ∧
    (∀ (s : Scanner) (n : Nat), s.stream.items.length ≤ n →
      ((fun s => s.scan.2)^[n] s).scan.1 =
        { token := .eof, pos := s.file.pos s.finish, stop := s.file.pos s.finish }) := by
  refine ⟨⟨grammar_closed, fun g hg => hg.same grammar_closed⟩, ⟨run_declaration, run_statement?, run_expr⟩,
    grammar_loopsAdvance, item?_consumes, fun p file source mode budget hdecls => ⟨?_, ?_⟩,
    Scanner.scan_exhausted⟩
  · refine fileNode_readToEnd (ended_restart _) ?_
    rw [mode_init, hdecls]
  · refine fileNode_readToEnd (ended_restart _) ?_
    rw [mode_setBudget, mode_init, hdecls]

/-- The text `var` is read to its end, though it is no program. -/
theorem parsing_total_var :
    ({} : Mode).decls = true ∧
      ReadToEnd ((Parser.new {} { bytes := "var".toUTF8 } {}).setBudget 1).parseFile.2 :=
  ⟨rfl, (parsing_total.2.2.2.2.1 {} {} { bytes := "var".toUTF8 } {} 1 rfl).2⟩

end Grammar

end GoSource
