import GoSource.Proofs.Grammar.DeedRuns
import GoSource.Proofs.Grammar.SameWords
import GoSource.Proofs.Grammar.Tags

/-!
# The words of the types of variables

Wherever a parser comes to a declaration of variables, it reads each of the types in it from some words.  In a file
these are all the nodes that declare variables.

* **`Spelt`**: what is in the place of the type of a specification was read from some words.
* **`Underway`**: what holds where declarations are read.  **`varDecl_spelt`**: a declaration of variables.
* **`itemBody?_declares`**: items.  Only what starts with `var` declares variables.
* **`Filing`**: what holds between the items of a file.  **`fileNode_spelt`**: files.
-/

namespace GoSource.Grammar

variable {start p q : Parser} {st : Stack} {xs : List NodeId} {x : NodeId}

/-- The node `x` is a specification of values, if it could be read, and what it has in the place of its type was read
from some words. -/
structure Spelt (start : Parser) (x : NodeId) (p : Parser) : Prop where
  made : x.index < p.tree.size
  tagged : p.tree.isBad x = false → p.tree.op x = .tag .valueSpec
  typed : ∀ y, p.tree.part? x 1 = some y → ∃ ws, ReadsType start p ws y

theorem Spelt.precedes (h : Spelt start x p) (hp : p.Precedes q) : Spelt start x q := by
  have hnode := hp.grows.node_eq x h.made
  refine ⟨Nat.lt_of_lt_of_le h.made hp.grows.size_le, fun hbad => ?_, fun y hy => ?_⟩
  · rw [Tree.isBad, hnode] at hbad
    rw [Tree.op, hnode]
    exact h.tagged hbad
  rw [Tree.part?, Tree.children, hnode] at hy
  obtain ⟨ws, hws⟩ := h.typed y hy
  exact ⟨ws, hws.precedes hp⟩

/-- Bad nodes have nothing in the place of a type. -/
theorem spelt_of_isBad (hmade : x.index < p.tree.size) (hbad : p.tree.isBad x = true) : Spelt start x p := by
  refine ⟨hmade, fun hsound => absurd (hbad.symm.trans hsound) (by decide), fun y hy => ?_⟩
  rw [Tree.isBad, Node.isBad] at hbad
  rw [Tree.part?, Tree.children, Node.children] at hy
  cases hshape : (p.tree.node x).shape with
  | bad found d =>
      rw [hshape] at hy
      cases hy
  | _ =>
      rw [hshape] at hbad
      cases hbad

/-- On its way from `start` the parser comes to `p`, where composite literals are allowed.  The types of `xs` were read
from words. -/
structure Underway (start : Parser) (xs : List NodeId) (p : Parser) : Prop where
  reached : ∃ st, Moves ([], start) (st, p)
  compositeOk : p.compositeOk = true
  spelt : ∀ x ∈ xs, Spelt start x p

theorem grammar_works : grammar.Works :=
  ⟨fun hpos p => (rules_works _).binary hpos p, fun p => (rules_works _).unary p, fun p => (rules_works _).type? p,
    fun p => (rules_works _).stmt? p, fun p => (rules_works _).ifStmt p, fun p => (rules_works _).elements p⟩

theorem valueType_spelt :
    Agree (fun p => Moves ([], start) (st, p) ∧ p.compositeOk = true) (valueType grammar) (valueType grammar)
      fun typ p => ∀ y, typ = some y → ∃ ws, ReadsType start p ws y := by
  refine Agree.tok fun t => ?_
  split
  iterate 4 · exact Agree.pure fun _ _ _ hy => nomatch hy
  refine fun p hp => ⟨rfl, fun y hy => ?_⟩
  obtain ⟨⟨hreached, hcomposite⟩, -⟩ := hp
  obtain ⟨ws, hws⟩ := (Reads.moves grammar_type_reads st p).upcoming_suffix
  obtain rfl := Option.some.inj hy
  refine ⟨ws.map Scanned.word, Moves.readsType hreached hcomposite ?_⟩
  rw [Parser.words, ← hws, List.map_append]
  rfl

theorem grammar_valueSpec_reads (n : Nat) : Reads n (valueSpec grammar) (valueSpec grammar) :=
  valueSpec_reads (grammar_self n)

/-- A specification of variables. -/
theorem valueSpec_spelt :
    Agree (Underway start xs) (valueSpec grammar) (valueSpec grammar) fun x => Underway start (xs ++ [x]) := by
  intro p hp
  obtain ⟨st, hreached⟩ := hp.reached
  have hmoves := Reads.moves grammar_valueSpec_reads st p
  refine ⟨rfl, ⟨_, hreached.trans hmoves⟩,
    (valueSpec_works (N := []) grammar_works p hp.compositeOk (by simp)).1, fun x hx => ?_⟩
  rcases List.mem_append.1 hx with hx | hx
  · exact (hp.spelt x hx).precedes hmoves.precedes
  obtain rfl := List.mem_singleton.1 hx
  -- The names, the type and the values are read one after the other.
  rcases hnames : nameList (bare p) with ⟨names, p₂⟩
  have hreached₂ : Moves ([], start) (.node names :: st, p₂) := by
    have hmoves := Reads.moves (fun _ => nameList_reads) st (bare p)
    rw [hnames] at hmoves
    exact (hreached.tail .uncomment).trans hmoves
  have hcomposite₂ : p₂.compositeOk = true := by
    have hworks := (nameList_works (N := []) (bare p) hp.compositeOk (by simp)).1
    rwa [hnames] at hworks
  have hspelt := (valueType_spelt p₂ ⟨hreached₂, hcomposite₂⟩).2
  rcases htyp : valueType grammar p₂ with ⟨typ, p₃⟩
  rw [htyp] at hspelt
  rcases hvalues : initialValues grammar p₃ with ⟨values, p₄⟩
  have hmoves₄ := Reads.moves (fun n => initialValues_reads (grammar_self n)) st p₃
  rw [hvalues] at hmoves₄
  have hrun : valueSpec grammar p =
      (nextId p₄, withNode p₄ (atomOf p (.tag .valueSpec)) (.list [some names, typ, values])) := by
    rw [valueSpec, run_bind (makeAtom_run _ p), run_bind hnames, run_bind htyp, run_bind hvalues, add_run]
  rw [hrun]
  have hgrows := grows_withNode p₄ (atomOf p (.tag .valueSpec)) (.list [some names, typ, values])
  refine ⟨by simp [withNode, Tree.size, nextId], fun _ => ?_, fun y hy => ?_⟩
  · rw [Tree.op, node_withNode, if_pos rfl]
    rfl
  rw [part?_withNode, if_pos rfl] at hy
  obtain ⟨ws, hws⟩ := hspelt y (by simpa using hy)
  exact ⟨ws, (hws.precedes hmoves₄.precedes).precedes ⟨hgrows, id⟩⟩

/-- What is skipped between specifications is bad. -/
theorem isBad_of_supplies {α : Type} [Holds α] {m : ParseM α} (h : ∀ tag, Supplies tag m) (hx : x ∈ held (m p).1) :
    x.index < (m p).2.tree.size ∧ (m p).2.tree.isBad x = true := by
  have hfits (tag : Token) (htag : tag ≠ .illegal) : (m p).2.tree.Fits tag x :=
    (h tag [] p ⟨htag, nofun⟩).2.2 x (by simpa using hx)
  refine ⟨(hfits .eof nofun).index_lt nofun, ?_⟩
  rcases hfits .eof nofun with hbad | hop
  · exact hbad
  · exact (hfits .comment nofun).resolve_right fun hop' => by cases hop.symm.trans hop'

/-- Skipping on: what is returned is bad, and what was there before stays. -/
theorem Underway.skip {α : Type} [Holds α] {m : ParseM α} (h : Underway start xs p)
    (hreached : Moves ([], start) (st, p)) (hmoves : Moves (st, p) (push (m p).1 st, (m p).2))
    (hworks : (m p).2.compositeOk = true) (hsupplies : ∀ tag, Supplies tag m) :
    Underway start (xs ++ held (m p).1) (m p).2 := by
  refine ⟨⟨_, hreached.trans hmoves⟩, hworks, fun x hx => ?_⟩
  rcases List.mem_append.1 hx with hx | hx
  · exact (h.spelt x hx).precedes hmoves.precedes
  · obtain ⟨hmade, hbad⟩ := isBad_of_supplies hsupplies hx
    exact spelt_of_isBad hmade hbad

/-- Specifications in parentheses. -/
theorem specGroup_spelt :
    Agree (Underway start []) (specGroup (valueSpec grammar)) (specGroup (valueSpec grammar))
      fun specs => Underway start (held specs) := by
  refine Loop.run_keeps_due _ (I := fun (specs : List Child) => Underway start (held specs)) (fun specs t ht => ?_) []
  obtain ⟨hclose, hne⟩ : t ≠ .op .rparen ∧ t ≠ .eof := by
    simpa only [membersLoop, Bool.and_eq_true, bne_iff_ne] using ht
  refine Agree.left fun b p hp => ?_
  obtain ⟨⟨hp, rfl⟩, rfl⟩ := hp
  obtain ⟨st, hreached⟩ := hp.reached
  have hmoves := Reads.moves grammar_valueSpec_reads st p
  have hspec := (valueSpec_spelt p hp).2
  rcases hrun : valueSpec grammar p with ⟨spec, q⟩
  rw [hrun] at hmoves hspec
  have hcounted : Counted (push spec st, q) p.left p.curr.token (push spec st) q :=
    ⟨.refl (Nat.lt_succ_of_le hmoves.left_le), fun hleft =>
      (hmoves.left_lt_or_token_eq hne).resolve_left fun hlt => Nat.lt_irrefl _ (hleft ▸ hlt)⟩
  have hend : Moves (push spec st, q) (push (memberEnd .rparen .rparen p.left q).1 (push spec st),
      (memberEnd .rparen .rparen p.left q).2) := (memberEnd_reads hclose hne q hcounted).2.moves
  have hround := hspec.skip (hreached.trans hmoves) hend
    (memberEnd_works (N := []) _ _ _ q hspec.compositeOk (by simp)).1 fun _ => memberEnd_supplies _ _ _
  have hturn : (do
      let kid ← valueSpec grammar
      return Turn.again (specs ++ some kid :: (← memberEnd .rparen .rparen p.left)) : ParseM (Turn (List Child))) p =
      (.again (specs ++ some spec :: (memberEnd .rparen .rparen p.left q).1),
        (memberEnd .rparen .rparen p.left q).2) := by
    rw [run_bind hrun]
    rfl
  refine ⟨rfl, ?_⟩
  rw [hturn]
  simpa [held] using hround

theorem next_underway {t : Token} (ht : t.isLiteral = false) :
    Agree (fun p => Underway start xs p ∧ p.curr.token = t) next next fun _ => Underway start xs := by
  rintro p ⟨hp, rfl⟩
  obtain ⟨st, hreached⟩ := hp.reached
  have hmove : Move (st, p) (st, p.advance) := .pass ht
  exact ⟨rfl, ⟨st, hreached.tail hmove⟩, (compositeOk_advance p).trans hp.compositeOk,
    fun x hx => (hp.spelt x hx).precedes (Moves.precedes (.single hmove))⟩

theorem makeAtom_underway {t : Token} (token : Token) :
    Agree (fun p => Underway start [] p ∧ p.curr.token = t) (makeAtom token) (makeAtom token)
      fun _ p => Underway start [] p ∧ p.curr.token = t := by
  rintro p ⟨hp, ht⟩
  obtain ⟨st, hreached⟩ := hp.reached
  exact ⟨rfl, ⟨⟨st, hreached.tail .uncomment⟩, hp.compositeOk, nofun⟩, ht⟩

/-- A node is made of specifications. -/
theorem add_list_spelt (a : Atom) (specs : List Child) :
    Agree (Underway start (held specs)) (add a (.list specs)) (add a (.list specs))
      fun decl p => ∀ spec ∈ p.tree.present decl, Spelt start spec p := by
  refine fun p hp => ⟨rfl, fun spec hspec => ?_⟩
  rw [add_run, present_withNode, if_pos rfl] at hspec
  exact (hp.spelt spec hspec).precedes ⟨grows_withNode p a (.list specs), id⟩

/-- Wherever a declaration of variables is read, the types in it are read from words. -/
theorem varDecl_spelt :
    Agree (fun p => Underway start [] p ∧ p.curr.token = .kw .var) (declaration grammar) (declaration grammar)
      fun decl p => ∀ spec ∈ p.tree.present decl, Spelt start spec p := by
  refine Agree.tok_eq ?_
  refine (makeAtom_underway _).bind fun a => (next_underway rfl).bind fun _ => ?_
  refine Agree.tok fun t => Agree.ite (fun _ => ?_) fun ht => ?_
  · refine (valueSpec_spelt.pre fun p (hp : Underway start [] p ∧ _) => hp.1).bind fun spec => ?_
    exact add_list_spelt a [some spec]
  · obtain rfl : t = .op .lparen := Decidable.of_not_not ht
    refine (next_underway rfl).bind fun _ => specGroup_spelt.bind fun specs => ?_
    refine Agree.bind (Q := fun bads => Underway start (held (specs ++ bads))) (fun p hp => ⟨rfl, ?_⟩) fun bads =>
      add_list_spelt a (specs ++ bads)
    obtain ⟨st, hreached⟩ := hp.reached
    have hskipped := hp.skip hreached (Reads.moves (fun _ => leave_reads (t := .op .rparen) rfl) st p)
      (leave_works (N := []) (.op .rparen) p hp.compositeOk (by simp)).1 fun _ => leave_supplies (.op .rparen)
    simpa [held] using hskipped

/-! ### Files -/

/-- If the item `x` of a file declares variables, the types in it were read from words. -/
structure SpeltItem (start : Parser) (x : NodeId) (p : Parser) : Prop where
  made : x.index < p.tree.size
  spelt : p.tree.op x = .kw .var → p.tree.isBad x = false → ∀ spec ∈ p.tree.present x, Spelt start spec p

theorem SpeltItem.precedes (h : SpeltItem start x p) (hp : p.Precedes q) : SpeltItem start x q := by
  have hnode := hp.grows.node_eq x h.made
  refine ⟨Nat.lt_of_lt_of_le h.made hp.grows.size_le, fun hop hbad spec hspec => ?_⟩
  rw [Tree.op, hnode] at hop
  rw [Tree.isBad, hnode] at hbad
  rw [Tree.present, Tree.children, hnode] at hspec
  exact (h.spelt hop hbad spec hspec).precedes hp

/-- On its way from `start` the parser comes to `p`, where composite literals are allowed.  The types in the items `xs`
were read from words. -/
structure Filing (start : Parser) (xs : List NodeId) (p : Parser) : Prop where
  reached : ∃ st, Moves ([], start) (st, p)
  compositeOk : p.compositeOk = true
  items : ∀ x ∈ xs, SpeltItem start x p

/-- What reads on changes nothing in the items. -/
theorem Filing.after {α : Type} [Holds α] {m : ParseM α} {Q : α → List Mark} (h : Filing start xs p)
    (hreads : ∀ n, Reads n m m) (hworks : Works true [] 0 m Q) : Filing start xs (m p).2 := by
  obtain ⟨st, hreached⟩ := h.reached
  have hmoves := Reads.moves hreads st p
  exact ⟨⟨_, hreached.trans hmoves⟩, (hworks p h.compositeOk (by simp)).1,
    fun x hx => (h.items x hx).precedes hmoves.precedes⟩

/-- What an item that declares variables is made of. -/
def Declares (start : Parser) (x : Child) (p : Parser) : Prop :=
  ∀ y, x = some y → p.tree.op y = .kw .var → ∀ spec ∈ p.tree.present y, Spelt start spec p

theorem AllHeadless.declares {c : Child} (h : AllHeadless c p) : Declares start c p := by
  intro y hy hvar
  have hheads := h y hy
  rw [Headless, hvar] at hheads
  cases hheads

/-- Only what starts with `var` declares variables. -/
theorem itemBody?_declares : Agree (Underway start []) itemBody? itemBody? (Declares start) := by
  have hforeign {P : Parser → Prop} {m : ParseM Child} (h : Agree P m m AllHeadless) : Agree P m m (Declares start) :=
    h.post fun _ _ => AllHeadless.declares
  have hsome {P : Parser → Prop} {m : ParseM NodeId} (h : Agree P m m Headless) :
      Agree P (some <$> m) (some <$> m) (Declares start) := by
    refine hforeign (h.map fun x p hx => ?_)
    rintro y ⟨⟩
    exact hx
  have hend {P : Parser → Prop} : Agree P (some <$> makeEof) (some <$> makeEof) (Declares start) :=
    hsome (.tagged rfl fun a ha => add_foreign ha)
  have hnone {P : Parser → Prop} : Agree P (pure none : ParseM Child) (pure none) (Declares start) :=
    .pure fun _ _ => nofun
  refine .get fun q => .tok fun t => .ite (fun _ => hend) fun _ => .ite (fun _ => ?_) fun _ =>
    .ite (fun _ => .ite (fun _ => ?_) fun _ => .ite (fun _ => .after fun _ => ?_) fun _ => hend) fun himport => ?_
  · exact hsome (.tagged rfl fun a ha => .after fun _ => .after fun _ => add_foreign ha)
  · refine Agree.map (genDecl_tagged .import_ importSpec) fun x p hx => ?_
    rintro y ⟨⟩ hvar
    cases hx.symm.trans hvar
  · exact hnone
  refine .ite (fun _ => hnone) fun _ => .ite (fun _ => hend) fun _ => .ite (fun hclosing => ?_) fun _ =>
    .ite (fun _ => ?_) fun hdecl => ?_
  · exact hsome (strayClosing_foreign (Token.heads_of_isClosing hclosing))
  · rw [run_declaration]
    by_cases hvar : t = .kw .var
    · refine (varDecl_spelt.pre fun p hp => ⟨hp.1.1, hp.2.trans hvar⟩).map fun x p hx => ?_
      rintro y ⟨⟩ -
      exact hx
    · have hheads : t.heads = false := Token.heads_eq_false fun h => h.elim himport hvar
      exact hsome (declaration_foreign.pre fun p hp => hp.2 ▸ hheads)
  · have hheads : t.heads = false := Token.heads_of_not_isDecl hdecl
    rw [run_statement?]
    exact hforeign ((statement?_foreign grammar_closed).pre fun p hp => hp.2 ▸ hheads)

theorem item?_declares : Agree (Underway start []) item? item? (Declares start) := by
  refine .tok fun t => .ite_then (Q := Underway start []) (fun ht => ?_) (fun _ p hp => hp.1) itemBody?_declares
  exact next_underway (by rw [ht]; rfl)

/-- The next item of a file. -/
theorem item?_filing (htree : start.tree = {}) :
    Agree (Filing start xs) item? item? fun x => Filing start (xs ++ held x) := by
  intro p hp
  obtain ⟨st, hreached⟩ := hp.reached
  have hmoves := Reads.moves item?_reads st p
  have hafter := hp.after item?_reads item?_works
  have hdeclares : Declares start (item? p).1 (item? p).2 := (item?_declares p ⟨hp.reached, hp.compositeOk, nofun⟩).2
  have hplanted : Planted (push (item? p).1 st, (item? p).2) :=
    Moves.planted (hreached.trans hmoves) (planted_empty htree)
  refine ⟨rfl, hafter.reached, hafter.compositeOk, fun y hy => ?_⟩
  rcases List.mem_append.1 hy with hy | hy
  · exact hafter.items y hy
  · have hitem : (item? p).1 = some y := by
      cases hx : (item? p).1 with
      | none =>
          rw [hx] at hy
          cases hy
      | some x =>
          rw [hx] at hy
          rw [List.mem_singleton.1 hy]
    refine ⟨hplanted.made y ?_, fun hvar _ => hdeclares y hitem hvar⟩
    rw [inHand_push]
    exact List.mem_append_left _ (List.mem_reverse.2 hy)

theorem parseBad_filing (fault : SyntaxFault) :
    Agree (Filing start xs) (parseBad fault) (parseBad fault) fun x => Filing start (xs ++ [x]) := by
  intro p hp
  have hafter := hp.after (fun _ => parseBad_reads fault) (parseBad_works fault)
  have hx : (parseBad fault p).1 ∈ held (parseBad fault p).1 := List.mem_singleton.2 rfl
  obtain ⟨hmade, hbad⟩ := isBad_of_supplies (fun _ => parseBad_supplies fault) hx
  refine ⟨rfl, hafter.reached, hafter.compositeOk, fun y hy => ?_⟩
  rcases List.mem_append.1 hy with hy | hy
  · exact hafter.items y hy
  · obtain rfl := List.mem_singleton.1 hy
    exact ⟨hmade, fun _ hsound => absurd (hbad.symm.trans hsound) (by decide)⟩

/-- All items of a file. -/
theorem fileLoop_filing (htree : start.tree = {}) :
    Agree (Filing start []) (fileLoop.run []) (fileLoop.run []) fun items => Filing start (held items) := by
  refine Loop.run_keeps _ (I := fun (items : List Child) => Filing start (held items)) (fun items => ?_) []
  refine Agree.left fun before => ((item?_filing htree).pre fun p hp => hp.1).bind fun x => Agree.get fun q =>
    Agree.ite (fun _ => ?_) fun _ => ?_
  · exact .pure fun p hp => ⟨hp.1.reached, hp.1.compositeOk, fun y hy => hp.1.items y (List.mem_append_left _ hy)⟩
  have hcheck : Agree (Filing start (held (items ++ x.toList.map some))) (checkTopLevel x) (checkTopLevel x)
      fun _ => Filing start (held (items ++ x.toList.map some)) :=
    fun p hp => ⟨rfl, hp.after (fun _ => checkTopLevel_reads x) (checkTopLevel_works x)⟩
  have hitems : held (items ++ x.toList.map some) = held items ++ held x := by
    cases x <;> simp [held]
  refine Agree.bind (Q := fun _ => Filing start (held (items ++ x.toList.map some))) ?_ fun _ => ?_
  · exact hcheck.pre fun p hp => hitems ▸ hp.1
  refine Agree.left fun after => Agree.ite (fun _ => ?_) fun _ => .pure fun p hp => hp.1
  refine ((parseBad_filing _).pre fun p hp => hp.1).bind fun y => .pure fun p hp => ?_
  simpa [held] using hp

/-- Wherever a file declares variables, the types are read from words. -/
theorem fileNode_spelt (hcomposite : start.compositeOk = true) (htree : start.tree = {}) :
    ∀ decl ∈ (fileNode start).2.tree.present (fileNode start).1, SpeltItem start decl (fileNode start).2 := by
  have hfiling := (fileLoop_filing htree start ⟨⟨[], .refl⟩, hcomposite, nofun⟩).2
  rcases hrun : fileLoop.run [] start with ⟨items, p⟩
  rw [hrun] at hfiling
  have hnode : fileNode start =
      (nextId p, withNode p (Tree.tagAt (.tag .file) start.curr.pos) (.list items)) := by
    have hhere : here start = (start.curr.pos, start) := rfl
    rw [fileNode, run_bind hhere, run_bind hrun, add_run]
  intro decl hdecl
  rw [hnode] at hdecl ⊢
  rw [present_withNode, if_pos rfl] at hdecl
  exact (hfiling.items decl hdecl).precedes ⟨grows_withNode p _ (.list items), id⟩

end GoSource.Grammar
