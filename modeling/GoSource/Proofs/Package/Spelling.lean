import GoSource.Proofs.Package.Denotes
import GoSource.Proofs.Scanner.Lines

/-!
# Spellings are read back

The spelling of a writable type is cut into words, the words are a type expression, and the expression denotes
the type.

* **`SpelledAs`**: a text that is read back as a type.
* One lemma a form of type: from the texts of the parts to the text of the whole.
* **`Writable.spelled`**: every writable type is read back from its spelling.
-/

namespace GoSource

open TypeTable Lexeme
open Grammar (NodeProp Stable IsLeaf IsUnary IsTypeField IsMethod Nodes TypeWords ParamWords ResultWords SignatureWords
  MemberWords joinWords)

variable {tt : TypeTable} {error e k t : TypeId} {text : String} {ws vs : List Word} {P Q : NodeProp}

theorem Grammar.ParamWords.mono (h : ParamWords ws P) (hPQ : ∀ tree id, P tree id → Q tree id) :
    ParamWords ws Q := by
  refine ⟨h.opens, ?_⟩
  intro p rest hp hrest
  obtain ⟨entry, id, q, hrun, hlone, hreaches, hid⟩ := h.run p rest hp hrest
  exact ⟨entry, id, q, hrun, hlone, hreaches, hPQ _ _ hid⟩

theorem Grammar.MemberWords.mono (h : MemberWords ws P) (hPQ : ∀ tree id, P tree id → Q tree id) :
    MemberWords ws Q := by
  refine ⟨h.opens, ?_⟩
  intro p rest hp hrest
  obtain ⟨id, q, hrun, hreaches, hid⟩ := h.run p rest hp hrest
  exact ⟨id, q, hrun, hreaches, hPQ _ _ hid⟩

/-- The text is cut into the words `ws`, which are a type expression for `t`. -/
structure SpelledAs (tt : TypeTable) (error t : TypeId) (text : String) (ws : List Word) : Prop
    extends Piece text ws where
  typeWords : TypeWords ws (Denotes tt error t)
  paramWords : ParamWords ws (Denotes tt error t)
  /-- No parenthesis comes first, and an arrow only before a channel to receive from. -/
  head : ∃ w vs, ws = w :: vs ∧ w.1 ≠ .op .lparen ∧
    (w.1 = .op .arrow → tt.chanDir? t = some .recv ∧ tt.isNamed t = false)
  closes : Closes ws

/-- Tokens that lead a type with parts, the arrow apart. -/
def leadsType : Token → Bool
  | .op .mul | .op .lbrack | .kw .map | .kw .chan | .kw .func | .kw .interface => true
  | _ => false

theorem ne_of_leadsType {a b : Token} (ha : leadsType a = true) (hb : leadsType b = false) : a ≠ b := by
  rintro rfl
  rw [ha] at hb
  cases hb

/-- A type that a keyword or an operator leads. -/
theorem spelledAs_lead {w : Word} (hpiece : Piece text (w :: vs)) (htype : TypeWords (w :: vs) (Denotes tt error t))
    (hw : leadsType w.1 = true) (hcloses : Closes (w :: vs)) : SpelledAs tt error t text (w :: vs) := by
  refine ⟨hpiece, htype, ?_, ⟨w, vs, rfl, ne_of_leadsType hw rfl, ?_⟩, hcloses⟩
  · exact htype.param rfl (ne_of_leadsType hw rfl) (ne_of_leadsType hw rfl) (ne_of_leadsType hw rfl)
  · intro harrow
    exact absurd harrow (ne_of_leadsType hw rfl)

/-! ### Names -/

theorem opens_ident {name : String} (h : IsIdent name) : Opens name.toList := by
  obtain ⟨⟨c, cs, rfl, hc, -⟩, -⟩ := h
  rw [String.toList_ofList]
  refine ⟨c, cs, rfl, ?_, ne_of_opensWord hc (by decide)⟩
  simp [isBlank, ne_of_opensWord hc (d := ' ') (by decide), ne_of_opensWord hc (d := '\t') (by decide),
    ne_of_opensWord hc (d := '\r') (by decide)]

/-- A predeclared type is spelled by its name. -/
theorem spelledAs_name {name : String} (hident : IsIdent name) (hblank : name ≠ "_")
    (hname : ∀ pkg, Hosts tt error pkg → pkg.declared? name = none ∧
      pkg.predeclared? name = some (.predeclaredType name t)) :
    SpelledAs tt error t name [(.lit .ident, name)] := by
  have hdenotes (tree : Tree) (id : NodeId) (h : IsLeaf (.lit .ident, name) tree id) : Denotes tt error t tree id :=
    denotes_name h hblank hname
  refine ⟨⟨cuts_ident hident, opens_ident hident⟩, (Grammar.typeWords_name name).mono hdenotes,
    (Grammar.paramWords_name name).mono hdenotes, ⟨_, _, rfl, by simp, ?_⟩, closes_snoc [] rfl⟩
  intro harrow
  cases harrow

/-! ### Types with parts -/

theorem cuts_lbrack : Cuts "[" [(.op .lbrack, "")] Anything :=
  cuts_mark (o := .lbrack) (by decide) (by decide)

theorem cuts_rbrack : Cuts "]" [(.op .rbrack, "")] Anything :=
  cuts_mark (o := .rbrack) (by decide) (by decide)

theorem cuts_lparen : Cuts "(" [(.op .lparen, "")] Anything :=
  cuts_mark (o := .lparen) (by decide) (by decide)

theorem cuts_rparen : Cuts ")" [(.op .rparen, "")] Anything :=
  cuts_mark (o := .rparen) (by decide) (by decide)

theorem opens_cons {c : Char} (cs : List Char) (hblank : isBlank c = false) (hequals : c ≠ '=') : Opens (c :: cs) :=
  ⟨c, cs, rfl, hblank, hequals⟩

theorem spelledAs_pointer (he : SpelledAs tt error e text ws) (hvalid : tt.isInvalid e = false)
    (hfound : newPointer e tt = (.ok t, tt)) : SpelledAs tt error t ("*" ++ text) ((.op .mul, "") :: ws) := by
  refine spelledAs_lead ⟨?_, ?_⟩ ?_ rfl (he.closes.append [_])
  · exact cuts_star.append he.cuts fun rest _ => he.opens.append rest
  · rw [String.toList_append]
    exact opens_cons _ (by decide) (by decide)
  · exact (Grammar.typeWords_pointer (stable_denotes tt error e) he.typeWords).mono fun _ _ h =>
      denotes_pointer h hvalid hfound

theorem spelledAs_slice (he : SpelledAs tt error e text ws) (hvalid : tt.isInvalid e = false)
    (hfound : newSlice e tt = (.ok t, tt)) :
    SpelledAs tt error t ("[]" ++ text) ((.op .lbrack, "") :: (.op .rbrack, "") :: ws) := by
  refine spelledAs_lead ⟨?_, ?_⟩ ?_ rfl (he.closes.append [_, _])
  · have hbrackets : Cuts "[]" [(.op .lbrack, ""), (.op .rbrack, "")] Anything :=
      cuts_lbrack.joined cuts_rbrack (fun _ _ => trivial) (by decide)
    exact hbrackets.append he.cuts fun _ _ => trivial
  · rw [String.toList_append]
    exact opens_cons _ (by decide) (by decide)
  · exact (Grammar.typeWords_slice (stable_denotes tt error e) he.typeWords).mono fun _ _ h =>
      denotes_slice h hvalid hfound

theorem spelledAs_array {n : Nat} (he : SpelledAs tt error e text ws) (hvalid : tt.isInvalid e = false)
    (hn : n < Literal.wordLimit) (hfound : newArray e n tt = (.ok t, tt)) :
    SpelledAs tt error t ("[" ++ toString n ++ "]" ++ text)
      ((.op .lbrack, "") :: (.lit .int, n.repr) :: (.op .rbrack, "") :: ws) := by
  refine spelledAs_lead ⟨?_, ?_⟩ ?_ rfl (he.closes.append [_, _, _])
  · exact (cuts_length n).append he.cuts fun _ _ => trivial
  · rw [String.append_assoc, String.append_assoc, String.toList_append]
    exact opens_cons _ (by decide) (by decide)
  · exact (Grammar.typeWords_array (Grammar.stable_isLeaf _) (stable_denotes tt error e)
      (Grammar.lengthWords_int n.repr) he.typeWords).mono fun _ _ h =>
      denotes_array h hvalid hn hfound

theorem spelledAs_map {text' : String} (hk : SpelledAs tt error k text ws) (he : SpelledAs tt error e text' vs)
    (hkey : tt.isInvalid k = false) (hvalid : tt.isInvalid e = false) (hfound : newMap k e tt = (.ok t, tt)) :
    SpelledAs tt error t ("map[" ++ text ++ "]" ++ text')
      ((.kw .map, "") :: (.op .lbrack, "") :: ws ++ (.op .rbrack, "") :: vs) := by
  refine spelledAs_lead ⟨?_, ?_⟩ ?_ rfl
    ((he.closes.append [(.op .rbrack, "")]).append ((.kw .map, "") :: (.op .lbrack, "") :: ws))
  · have hmap : Cuts "map[" [(.kw .map, ""), (.op .lbrack, "")] Anything :=
      (cuts_keyword .map).joined cuts_lbrack (fun rest _ => breaks_cons (by decide) rest) (by decide)
    have hkeyed := (hmap.append hk.cuts fun _ _ => trivial).append cuts_rbrack fun rest _ =>
      breaks_cons (by decide) rest
    have hwhole := hkeyed.append he.cuts fun _ _ => trivial
    rw [List.append_assoc] at hwhole
    exact hwhole
  · rw [String.append_assoc, String.append_assoc, String.toList_append]
    exact opens_cons _ (by decide) (by decide)
  · exact (Grammar.typeWords_map (stable_denotes tt error k) (stable_denotes tt error e) hk.typeWords
      he.typeWords).mono fun _ _ h => denotes_map h hkey hvalid hfound

/-! ### Channels -/

/-- The words of a channel's direction. -/
def dirWords : ChanDir → List Word
  | .both => [(.kw .chan, "")]
  | .send => [(.kw .chan, ""), (.op .arrow, "")]
  | .recv => [(.op .arrow, ""), (.kw .chan, "")]

theorem cuts_dir (d : ChanDir) : Cuts (spellDir d) (dirWords d) Opens := by
  have harrow : Cuts "<-" [(.op .arrow, "")] Anything := cuts_mark (o := .arrow) (by decide) (by decide)
  have hchan : Cuts "chan " [(.kw .chan, "")] Opens :=
    (cuts_keyword .chan).joined cuts_blank (fun rest _ => breaks_cons (by decide) rest) (by decide)
  cases d with
  | both => exact hchan
  | send =>
      have hsend : Cuts "chan<-" [(.kw .chan, ""), (.op .arrow, "")] Anything :=
        (cuts_keyword .chan).joined harrow (fun rest _ => breaks_cons (by decide) ('-' :: rest)) (by decide)
      exact hsend.joined cuts_blank (fun _ _ => trivial) (by decide)
  | recv => exact harrow.joined hchan (fun _ _ => trivial) (by decide)

theorem typeWords_dir (d : ChanDir) (hP : Stable P) (h : TypeWords ws P) (hne : ws ≠ [])
    (hhead : d = .both → ∀ w ∈ ws.head?, w.1 ≠ .op .arrow) :
    TypeWords (dirWords d ++ ws) (IsUnary (.tag d.tag) P) := by
  cases d with
  | both => exact Grammar.typeWords_chan hP h (hhead rfl) hne
  | send => exact Grammar.typeWords_sendChan hP h
  | recv => exact Grammar.typeWords_recvChan hP h

/-- A channel, when its element is written as `text`. -/
theorem spelledAs_dir {d : ChanDir} (hs : tt.shape t = .chan e d) (hpiece : Piece text ws)
    (htype : TypeWords ws (Denotes tt error e)) (hne : ws ≠ []) (hcloses : Closes ws)
    (hhead : d = .both → ∀ w ∈ ws.head?, w.1 ≠ .op .arrow) (hvalid : tt.isInvalid e = false)
    (hfound : newChan e d tt = (.ok t, tt)) :
    SpelledAs tt error t (spellDir d ++ text) (dirWords d ++ ws) := by
  have hcuts : Piece (spellDir d ++ text) (dirWords d ++ ws) := by
    refine ⟨(cuts_dir d).append hpiece.cuts fun rest _ => hpiece.opens.append rest, ?_⟩
    rw [String.toList_append]
    refine Opens.append ?_ _
    cases d with
    | both => exact opens_cons _ (by decide) (by decide)
    | send => exact opens_cons _ (by decide) (by decide)
    | recv => exact opens_cons _ (by decide) (by decide)
  have hwords : TypeWords (dirWords d ++ ws) (Denotes tt error t) :=
    (typeWords_dir d (stable_denotes tt error e) htype hne hhead).mono fun _ _ h => denotes_chan h hvalid hfound
  cases d with
  | both => exact spelledAs_lead hcuts hwords rfl (hcloses.append (dirWords .both))
  | send => exact spelledAs_lead hcuts hwords rfl (hcloses.append (dirWords .send))
  | recv =>
      refine ⟨hcuts, hwords, hwords.param rfl (by simp) (by simp) (by simp), ⟨_, _, rfl, by simp, fun _ => ?_⟩,
        hcloses.append (dirWords .recv)⟩
      rw [chanDir?, underlyingShape?, underlying?, isNamed]
      simp [hs]

/-- A channel.  Parentheses keep the arrow of an element from being read as that of the channel. -/
theorem spelledAs_chan {d : ChanDir} (he : SpelledAs tt error e text ws) (hs : tt.shape t = .chan e d)
    (hvalid : tt.isInvalid e = false) (hfound : newChan e d tt = (.ok t, tt)) :
    ∃ ws', SpelledAs tt error t
      (if d ≠ .recv ∧ tt.chanDir? e = some .recv ∧ !tt.isNamed e then spellDir d ++ "(" ++ text ++ ")"
        else spellDir d ++ text) ws' := by
  split
  · have hpiece : Piece ("(" ++ text ++ ")") ((.op .lparen, "") :: ws ++ [(.op .rparen, "")]) := by
      refine ⟨?_, ?_⟩
      · have hwhole := (cuts_lparen.append he.cuts fun _ _ => trivial).append cuts_rparen fun rest _ =>
          breaks_cons (by decide) rest
        exact fun rest _ => hwhole rest trivial
      · rw [String.append_assoc, String.toList_append]
        exact opens_cons _ (by decide) (by decide)
    refine ⟨dirWords d ++ ((.op .lparen, "") :: ws ++ [(.op .rparen, "")]), ?_⟩
    rw [show spellDir d ++ "(" ++ text ++ ")" = spellDir d ++ ("(" ++ text ++ ")") by
      rw [String.append_assoc, String.append_assoc, String.append_assoc]]
    exact spelledAs_dir hs hpiece (Grammar.typeWords_paren he.typeWords) (by simp) (closes_snoc _ rfl) (by simp)
      hvalid hfound
  · next hplain =>
      obtain ⟨w, vs, rfl, -, harrow⟩ := he.head
      refine ⟨_, spelledAs_dir hs he.toPiece he.typeWords (by simp) he.closes ?_ hvalid hfound⟩
      rintro rfl w' hw' harrow'
      cases hw'
      obtain ⟨hdir, hnamed⟩ := harrow harrow'
      exact hplain ⟨by decide, hdir, by rw [hnamed]; rfl⟩

/-! ### Functions -/

section Functions

variable (tt error)

/-- The property of the node of a last parameter: a type, or the rest of the arguments of an element type. -/
def lastProp (v : Bool) (p : TypeId) : NodeProp :=
  match v, tt.elem? p with
  | true, some e => IsUnary (.op .ellipsis) (Denotes tt error e)
  | _, _ => Denotes tt error p

/-- The properties of the nodes of parameters. -/
def paramProps (v : Bool) : List TypeId → List NodeProp
  | [] => []
  | [p] => [lastProp tt error v p]
  | p :: ps => Denotes tt error p :: paramProps v ps

end Functions

theorem stable_paramProps {v : Bool} {ps : List TypeId} : ∀ P ∈ paramProps tt error v ps, Stable P := by
  induction ps with
  | nil => simp [paramProps]
  | cons p ps ih =>
      cases ps with
      | nil =>
          intro P hP
          rw [paramProps, List.mem_singleton] at hP
          subst hP
          unfold lastProp
          split
          · exact Grammar.stable_isUnary (stable_denotes tt error _)
          · exact stable_denotes tt error _
      | cons q qs =>
          intro P hP
          rcases List.mem_cons.1 hP with rfl | hP
          · exact stable_denotes tt error _
          · exact ih P hP

/-- What the last parameter of a variadic function is: a slice, by its element. -/
def EndsInSlice (tt : TypeTable) (ps : List TypeId) : Prop :=
  ∀ q ∈ ps.getLast?, ∃ e, tt.elem? q = some e ∧ tt.isInvalid e = false ∧ newSlice e tt = (.ok q, tt)

/-- Fields of such nodes declare the parameters. -/
theorem nodes_fieldProps {tree : Tree} {fields : List NodeId} {v : Bool} {ps : List TypeId}
    (h : Nodes tree fields ((paramProps tt error v ps).map IsTypeField)) (hv : v = true → EndsInSlice tt ps) :
    Nodes tree fields (fieldProps tt error v ps) := by
  induction ps generalizing fields with
  | nil => exact h
  | cons p ps ih =>
      cases ps with
      | nil =>
          cases v with
          | false =>
              obtain ⟨field, rest, hfield, hnil, rfl⟩ := List.forall₂_cons_right_iff.1 h
              cases hnil
              exact .cons (fieldDenotes_plain hfield) .nil
          | true =>
              obtain ⟨e, helem, hvalid, hfound⟩ := hv rfl p rfl
              have hlast : lastProp tt error true p = IsUnary (.op .ellipsis) (Denotes tt error e) := by
                simp only [lastProp, helem]
              rw [paramProps, hlast] at h
              obtain ⟨field, rest, hfield, hnil, rfl⟩ := List.forall₂_cons_right_iff.1 h
              cases hnil
              exact .cons (fieldDenotes_variadic hfield hvalid hfound) .nil
      | cons q qs =>
          obtain ⟨field, rest, hfield, hrest, rfl⟩ := List.forall₂_cons_right_iff.1 h
          exact .cons (fieldDenotes_plain hfield) (ih hrest hv)

theorem spellParams_last (spell : TypeId → String) (v : Bool) (p : TypeId) :
    tt.spellParams spell v [p] = [match v, tt.elem? p with
      | true, some e => "..." ++ spell e
      | _, _ => spell p] := by
  cases v with
  | false => simp only [spellParams]
  | true =>
      cases he : tt.elem? p with
      | none => simp only [spellParams, he]
      | some e => simp only [spellParams, he]

/-- The texts of parameters. -/
theorem params_spelled {spell : TypeId → String} {v : Bool} {ps : List TypeId}
    (h : ∀ p ∈ ps, ∃ ws, SpelledAs tt error p (spell p) ws)
    (helem : v = true → ∀ q ∈ ps.getLast?, ∀ e, tt.elem? q = some e → ∃ ws, SpelledAs tt error e (spell e) ws) :
    ∃ wss, List.Forall₂ Piece (tt.spellParams spell v ps) wss ∧
      List.Forall₂ ParamWords wss (paramProps tt error v ps) := by
  induction ps with
  | nil => exact ⟨[], .nil, .nil⟩
  | cons p ps ih =>
      obtain ⟨ws, hp⟩ := h p List.mem_cons_self
      cases ps with
      | nil =>
          rw [spellParams_last, paramProps]
          unfold lastProp
          split
          · next e he =>
              obtain ⟨vs, hvs⟩ := helem rfl p rfl e he
              refine ⟨[(.op .ellipsis, "") :: vs], .cons ⟨?_, ?_⟩ .nil, .cons ?_ .nil⟩
              · exact cuts_ellipsis.append hvs.cuts fun _ _ => trivial
              · rw [String.toList_append]
                exact opens_cons _ (by decide) (by decide)
              · exact Grammar.paramWords_variadic (stable_denotes tt error e) hvs.typeWords
          · exact ⟨[ws], .cons hp.toPiece .nil, .cons hp.paramWords .nil⟩
      | cons q qs =>
          obtain ⟨wss, hpieces, hwords⟩ := ih (fun p hp => h p (List.mem_cons_of_mem _ hp)) helem
          exact ⟨ws :: wss, .cons hp.toPiece hpieces, .cons hp.paramWords hwords⟩

/-- Texts with commas between them, in parentheses. -/
theorem cuts_list {texts : List String} {wss : List (List Word)} (h : List.Forall₂ Piece texts wss) :
    Cuts ("(" ++ commas texts ++ ")") ((.op .lparen, "") :: joinWords .comma wss ++ [(.op .rparen, "")]) Anything := by
  have hcommas : Cuts (commas texts) (joinWords .comma wss) Breaks :=
    cuts_intercalate (o := .comma) (by decide) (by decide) (fun rest => breaks_cons (by decide) rest) h
  exact (cuts_lparen.append hcommas fun _ _ => trivial).append cuts_rparen fun rest _ =>
    breaks_cons (by decide) rest

theorem spellParams_plain (spell : TypeId → String) (rs : List TypeId) :
    tt.spellParams spell false rs = rs.map spell := by
  induction rs with
  | nil => rfl
  | cons r rs ih =>
      cases rs with
      | nil => rw [spellParams_last]; rfl
      | cons s rs => rw [spellParams, ih, List.map_cons] <;> simp

/-- The text of the results of a function. -/
def spellResults (spell : TypeId → String) : List TypeId → String
  | [] => ""
  | [only] => " " ++ spell only
  | results => " (" ++ commas (results.map spell) ++ ")"

theorem results_spelled {spell : TypeId → String} {rs : List TypeId}
    (h : ∀ r ∈ rs, ∃ ws, SpelledAs tt error r (spell r) ws) :
    ∃ ws, Cuts (spellResults spell rs) ws Breaks ∧ ResultWords ws (paramProps tt error false rs) ∧
      (ws = [] ∨ Closes ws) := by
  match rs, h with
  | [], _ => exact ⟨[], fun rest _ => .nil rest, Grammar.resultWords_none, .inl rfl⟩
  | [only], h =>
      obtain ⟨ws, hws⟩ := h only (by simp)
      obtain ⟨w, vs, heq, hparen, -⟩ := hws.head
      refine ⟨ws, ?_, Grammar.resultWords_one (stable_denotes tt error only) hws.typeWords heq hparen,
        .inr hws.closes⟩
      exact cuts_blank.append hws.cuts fun rest _ => hws.opens.append rest
  | r :: s :: rs, h =>
      obtain ⟨wss, hpieces, hwords⟩ := params_spelled (v := false) h (by simp)
      rw [spellParams_plain] at hpieces
      refine ⟨_, ?_, Grammar.resultWords_many hwords stable_paramProps, .inr (closes_snoc _ rfl)⟩
      have hopens (rest : List Char) :
          Opens (("(" ++ commas ((r :: s :: rs).map spell) ++ ")").toList ++ rest) := by
        rw [String.append_assoc, String.toList_append]
        exact opens_cons _ (by decide) (by decide)
      have hlist := cuts_blank.append (cuts_list hpieces) fun rest _ => hopens rest
      rw [← String.append_assoc, ← String.append_assoc] at hlist
      exact fun rest _ => hlist rest trivial

theorem spellSignature_eq (spell : TypeId → String) (ps rs : List TypeId) (v : Bool) :
    tt.spellSignature spell ps rs v =
      "(" ++ commas (tt.spellParams spell v ps) ++ ")" ++ spellResults spell rs := by
  match rs with
  | [] => rfl
  | [_] => rfl
  | _ :: _ :: _ => rfl

/-- The text of a signature starts with a parenthesis. -/
theorem toList_spellSignature (tt : TypeTable) (spell : TypeId → String) (ps rs : List TypeId) (v : Bool) :
    ∃ cs, (tt.spellSignature spell ps rs v).toList = '(' :: cs := by
  rw [spellSignature_eq, String.append_assoc, String.append_assoc, String.toList_append]
  exact ⟨_, rfl⟩

/-- The node property of a signature's parts. -/
theorem signature_spelled {spell : TypeId → String} {ps rs : List TypeId} {v : Bool}
    (hps : ∀ p ∈ ps, ∃ ws, SpelledAs tt error p (spell p) ws)
    (helem : v = true → ∀ q ∈ ps.getLast?, ∀ e, tt.elem? q = some e → ∃ ws, SpelledAs tt error e (spell e) ws)
    (hrs : ∀ r ∈ rs, ∃ ws, SpelledAs tt error r (spell r) ws) :
    ∃ vs, Cuts (tt.spellSignature spell ps rs v) ((.op .lparen, "") :: vs) Breaks ∧
      SignatureWords ((.op .lparen, "") :: vs) (paramProps tt error v ps) (paramProps tt error false rs) ∧
      Closes ((.op .lparen, "") :: vs) := by
  obtain ⟨wss, hpieces, hwords⟩ := params_spelled hps helem
  obtain ⟨vs, hcuts, hresults, hcloses⟩ := results_spelled hrs
  refine ⟨_, ?_, Grammar.signatureWords hwords stable_paramProps hresults stable_paramProps, ?_⟩
  · rw [spellSignature_eq]
    have hwhole := (cuts_list hpieces).append hcuts fun _ _ => trivial
    rw [List.append_assoc] at hwhole
    exact hwhole
  · rcases hcloses with rfl | hcloses
    · exact closes_snoc ((.op .lparen, "") :: joinWords .comma wss) rfl
    · exact (hcloses.append [(.op .rparen, "")]).append ((.op .lparen, "") :: joinWords .comma wss)

/-- The node of a signature, by what its fields declare. -/
theorem fields_of_isSignature {token : Token} {ps rs : List TypeId} {v : Bool} {tree : Tree} {id : NodeId}
    (h : Grammar.IsSignature token (paramProps tt error v ps) (paramProps tt error false rs) tree id)
    (hv : v = true → EndsInSlice tt ps) :
    Grammar.IsBinary token (Grammar.IsList (.tag .params) (fieldProps tt error v ps))
      (Grammar.IsList (.tag .results) (fieldProps tt error false rs)) tree id := by
  obtain ⟨atom, x, y, hholds, htoken, hlt, hlt', ⟨xatom, xs, hx⟩, ⟨yatom, ys, hy⟩⟩ := h
  obtain ⟨hxholds, hxtoken, hxlt, hxs⟩ := hx
  obtain ⟨hyholds, hytoken, hylt, hys⟩ := hy
  exact ⟨atom, x, y, hholds, htoken, hlt, hlt', ⟨xatom, xs, hxholds, hxtoken, hxlt, nodes_fieldProps hxs hv⟩,
    ⟨yatom, ys, hyholds, hytoken, hylt, nodes_fieldProps hys (by simp)⟩⟩

/-- A function type by its parts: they are spelled, valid, and the type is in the table. -/
structure FuncSpelled (tt : TypeTable) (error : TypeId) (spell : TypeId → String) (ps rs : List TypeId) (v : Bool)
    (t : TypeId) : Prop where
  params : ∀ p ∈ ps, ∃ ws, SpelledAs tt error p (spell p) ws
  elem : v = true → ∀ q ∈ ps.getLast?, ∀ e, tt.elem? q = some e → ∃ ws, SpelledAs tt error e (spell e) ws
  results : ∀ r ∈ rs, ∃ ws, SpelledAs tt error r (spell r) ws
  valid : ∀ part ∈ ps ++ rs, tt.isInvalid part = false
  nonempty : v = true → ps ≠ []
  endsInSlice : v = true → EndsInSlice tt ps
  found : newFunc ps rs v tt = (.ok t, tt)

theorem spelledAs_func {spell : TypeId → String} {ps rs : List TypeId} {v : Bool}
    (h : FuncSpelled tt error spell ps rs v t) :
    ∃ ws, SpelledAs tt error t ("func" ++ tt.spellSignature spell ps rs v) ws := by
  obtain ⟨vs, hcuts, hwords, hcloses⟩ := signature_spelled h.params h.elem h.results
  refine ⟨(.kw .func, "") :: (.op .lparen, "") :: vs, spelledAs_lead ⟨?_, ?_⟩ ?_ rfl (hcloses.append [_])⟩
  · exact (cuts_keyword .func).append hcuts fun rest _ => by
      obtain ⟨cs, hcs⟩ := toList_spellSignature tt spell ps rs v
      rw [hcs]
      exact breaks_cons (by decide) (cs ++ rest)
  · rw [String.toList_append]
    exact opens_cons _ (by decide) (by decide)
  · exact (Grammar.typeWords_func hwords).mono fun _ _ hid =>
      denotes_func (fields_of_isSignature hid h.endsInSlice) h.nonempty h.valid h.found

/-! ### Interfaces -/

theorem isIdent_of_exported {m : Method} (h : m.Exported) : IsIdent m.name := by
  obtain ⟨-, c, cs, hname, hupper, hopens, hcontinues⟩ := h
  refine ⟨⟨c, cs, hname, hopens, hcontinues⟩, ?_⟩
  have hlower : ∀ k ∈ Keyword.all, k.text.toList.head?.any Unicode.isUppercase = false := by decide +kernel
  cases hk : Keyword.ofText? m.name with
  | none =>
      rw [Token.lookup, hk]
      rfl
  | some k =>
      have htext : k.text = m.name := by simpa using List.find?_some hk
      have hhead := hlower k (List.mem_of_find?_eq_some hk)
      rw [htext, hname, String.toList_ofList, List.head?_cons, Option.any_some, hupper] at hhead
      cases hhead

/-- A method by the parts of its signature. -/
structure MethodSpelled (tt : TypeTable) (error : TypeId) (spell : TypeId → String) (m : Method) : Prop where
  exported : m.Exported
  signature : ∃ ps rs v, tt.shape m.typ = .func ps rs v ∧ FuncSpelled tt error spell ps rs v m.typ

theorem method_spelled {spell : TypeId → String} {m : Method} (h : MethodSpelled tt error spell m) :
    ∃ ws, Piece (tt.spellMethod spell true m) ws ∧
      MemberWords ws (IsMethod m.name (DenotesSignature tt error m.typ)) := by
  obtain ⟨ps, rs, v, hs, hfunc⟩ := h.signature
  obtain ⟨vs, hcuts, hwords, -⟩ := signature_spelled hfunc.params hfunc.elem hfunc.results
  have hident := isIdent_of_exported h.exported
  have htext : tt.spellMethod spell true m = m.name ++ tt.spellSignature spell ps rs v := by
    rw [spellMethod, if_pos rfl, Method.qualifiedName, h.exported.pkgPath_eq, hs]
    rfl
  rw [htext]
  refine ⟨(.lit .ident, m.name) :: (.op .lparen, "") :: vs, ⟨?_, ?_⟩, ?_⟩
  · exact (cuts_ident hident).append hcuts fun rest _ => by
      obtain ⟨cs, hcs⟩ := toList_spellSignature tt spell ps rs v
      rw [hcs]
      exact breaks_cons (by decide) (cs ++ rest)
  · rw [String.toList_append]
    exact (opens_ident hident).append _
  · exact (Grammar.memberWords_method m.name hwords stable_paramProps stable_paramProps rfl).mono fun _ _ hid => by
      obtain ⟨atom, atom', names, x, y, hholds, hnames, hleaf, hlt, hx⟩ := hid
      exact ⟨atom, atom', names, x, y, hholds, hnames, hleaf, hlt,
        denotesSignature (fields_of_isSignature hx hfunc.endsInSlice) hfunc.nonempty hfunc.valid hfunc.found⟩

theorem methods_spelled {spell : TypeId → String} {ms : List Method} (h : ∀ m ∈ ms, MethodSpelled tt error spell m) :
    ∃ wss, List.Forall₂ Piece (ms.map (tt.spellMethod spell true)) wss ∧
      List.Forall₂ MemberWords wss (methodProps tt error ms) := by
  induction ms with
  | nil => exact ⟨[], .nil, .nil⟩
  | cons m ms ih =>
      obtain ⟨ws, hpiece, hwords⟩ := method_spelled (h m List.mem_cons_self)
      obtain ⟨wss, hpieces, hmembers⟩ := ih fun m hm => h m (List.mem_cons_of_mem _ hm)
      exact ⟨ws :: wss, .cons hpiece hpieces, .cons hwords hmembers⟩

theorem stable_methodProps {ms : List Method} : ∀ P ∈ methodProps tt error ms, Stable P := by
  intro P hP
  obtain ⟨m, -, rfl⟩ := List.mem_map.1 hP
  exact Grammar.stable_isMethod (stable_denotesSignature tt error m.typ)

theorem cuts_lbrace : Cuts "\x7b" [(.op .lbrace, "")] Anything :=
  cuts_mark (o := .lbrace) (by decide) (by decide)

theorem cuts_rbrace : Cuts "\x7d" [(.op .rbrace, "")] Anything :=
  cuts_mark (o := .rbrace) (by decide) (by decide)

theorem cuts_interface : Cuts "interface \x7b" [(.kw .interface, ""), (.op .lbrace, "")] Anything := by
  have hkeyword : Cuts "interface " [(.kw .interface, "")] Opens :=
    (cuts_keyword .interface).joined cuts_blank (fun rest _ => breaks_cons (by decide) rest) (by decide)
  exact hkeyword.joined cuts_lbrace (fun rest _ => opens_cons rest (by decide) (by decide)) (by decide)

/-- Methods in braces, with blanks around them if there are any. -/
def spellMembers : List String → String
  | [] => "interface \x7b\x7d"
  | texts => "interface \x7b " ++ String.intercalate "; " texts ++ " \x7d"

theorem spellShape_interface (spell : TypeId → String) (ms : List Method) :
    tt.spellShape spell true (.interface ms) = spellMembers (ms.map (tt.spellMethod spell true)) := by
  cases ms with
  | nil => rfl
  | cons m ms => rfl

theorem opens_spellMembers (texts : List String) : Opens (spellMembers texts).toList := by
  cases texts with
  | nil => exact opens_cons _ (by decide) (by decide)
  | cons text texts =>
      rw [spellMembers, String.append_assoc, String.toList_append]
      · exact opens_cons _ (by decide) (by decide)
      · simp

theorem cuts_spellMembers {texts : List String} {wss : List (List Word)} (h : List.Forall₂ Piece texts wss) :
    Cuts (spellMembers texts)
      ((.kw .interface, "") :: (.op .lbrace, "") :: joinWords .semicolon wss ++ [(.op .rbrace, "")]) Anything := by
  cases h with
  | nil => exact cuts_interface.joined cuts_rbrace (fun _ _ => trivial) (by decide)
  | @cons text ws texts wss hhead htail =>
      have hopen : Cuts "interface \x7b " [(.kw .interface, ""), (.op .lbrace, "")] Opens :=
        cuts_interface.joined cuts_blank (fun _ _ => trivial) (by decide)
      have hclose : Cuts " \x7d" [(.op .rbrace, "")] Anything :=
        cuts_blank.joined cuts_rbrace (fun rest _ => opens_cons rest (by decide) (by decide)) (by decide)
      have hmembers : Cuts (String.intercalate "; " (text :: texts)) (joinWords .semicolon (ws :: wss)) Breaks :=
        cuts_intercalate (o := .semicolon) (by decide) (by decide) (fun rest => breaks_cons (by decide) rest)
          (.cons hhead htail)
      have hopened := hopen.append hmembers fun rest _ => (hhead.opens.intercalate "; " texts).append rest
      exact hopened.append hclose fun rest _ => breaks_cons (by decide) ('\x7d' :: rest)

theorem spelledAs_interface {spell : TypeId → String} {ms : List Method}
    (h : ∀ m ∈ ms, MethodSpelled tt error spell m) (hfound : newInterface [] ms tt = (.ok t, tt)) :
    ∃ ws, SpelledAs tt error t (tt.spellShape spell true (.interface ms)) ws := by
  obtain ⟨wss, hpieces, hmembers⟩ := methods_spelled h
  have htype := (Grammar.typeWords_interface hmembers stable_methodProps).mono fun _ _ hid =>
    denotes_interface hid (fun m hm => (h m hm).exported) hfound
  rw [spellShape_interface]
  refine ⟨_, spelledAs_lead ⟨?_, opens_spellMembers _⟩ htype rfl
    (closes_snoc ((.kw .interface, "") :: (.op .lbrace, "") :: joinWords .semicolon wss) rfl)⟩
  exact fun rest _ => cuts_spellMembers hpieces rest trivial

/-! ### All writable types -/

/-- Whether a text is an identifier. -/
def isIdent (name : String) : Bool :=
  match name.toList with
  | [] => false
  | c :: cs => opensWord c && cs.all continuesWord && Token.lookup name == .lit .ident

theorem isIdent_of_check {name : String} (h : isIdent name = true) : IsIdent name := by
  unfold isIdent at h
  split at h
  · cases h
  · next c cs hlist =>
      simp only [Bool.and_eq_true, List.all_eq_true, beq_iff_eq] at h
      obtain ⟨⟨hc, hcs⟩, hlookup⟩ := h
      refine ⟨⟨c, cs, ?_, hc, hcs⟩, hlookup⟩
      rw [← hlist, String.ofList_toList]

theorem isIdent_kind {k : Kind} (hk : k ∈ predeclaredKinds) : IsIdent k.name := by
  have hall : ∀ k ∈ predeclaredKinds, isIdent k.name = true := by decide +kernel
  exact isIdent_of_check (hall k hk)

theorem ne_blank_kind : ∀ k ∈ predeclaredKinds, k.name ≠ "_" := by
  decide

theorem isIdent_error : IsIdent "error" :=
  isIdent_of_check (by decide +kernel)

theorem maxSize_lt (target : Target) : target.maxSize < Literal.wordLimit := by
  cases target <;> decide

section Sound

variable (hsound : tt.Sound)
include hsound

/-- A writable function type, when what was made before it is spelled. -/
theorem funcSpelled {spell : TypeId → String} {ps rs : List TypeId} {v : Bool} (h : Writable tt error t)
    (hs : tt.shape t = .func ps rs v)
    (hspell : ∀ u, Writable tt error u → u.index < t.index → ∃ ws, SpelledAs tt error u (spell u) ws) :
    FuncSpelled tt error spell ps rs v t := by
  have hshape := h.shape hsound
  have hordered := hsound.ordered t
  rw [hs] at hshape hordered
  obtain ⟨hps, hrs, hv⟩ := hshape
  have helem {q e : TypeId} (hq : q ∈ ps) (hslice : tt.shape q = .slice e) : Writable tt error e := by
    have hshape := (hps q hq).shape hsound
    rw [hslice] at hshape
    exact hshape
  have helem? {q e : TypeId} (hq : tt.shape q = .slice e) : tt.elem? q = some e := by
    rw [elem?, underlyingShape?, underlying?]
    simp [hq]
  constructor
  case params =>
    exact fun p hp => hspell p (hps p hp) (hordered p (List.mem_append_left _ hp))
  case elem =>
    intro hvariadic q hq e he
    obtain ⟨qs, q', e', rfl, hslice⟩ := hv hvariadic
    obtain rfl : q' = q := by simpa using hq
    rw [helem? hslice] at he
    cases he
    have hlt := hordered q' (by simp [Shape.components])
    have hlt' := hsound.ordered q' e (by rw [hslice]; simp [Shape.components])
    exact hspell e (helem (by simp) hslice) (Nat.lt_trans hlt' hlt)
  case results =>
    exact fun r hr => hspell r (hrs r hr) (hordered r (List.mem_append_right _ hr))
  case valid =>
    intro part hpart
    rcases List.mem_append.1 hpart with hp | hr
    · exact (hps part hp).valid hsound
    · exact (hrs part hr).valid hsound
  case nonempty =>
    intro hvariadic hnil
    obtain ⟨qs, q, e, rfl, -⟩ := hv hvariadic
    simp at hnil
  case endsInSlice =>
    intro hvariadic q hq
    obtain ⟨qs, q', e, rfl, hslice⟩ := hv hvariadic
    obtain rfl : q' = q := by simpa using hq
    exact ⟨e, helem? hslice, (helem (by simp) hslice).valid hsound,
      (hps q' (by simp)).found hsound hslice rfl⟩
  case found =>
    obtain ⟨hvariadic, hkind, -⟩ | ⟨-, hrun⟩ := newFunc_cases ps rs v tt
    · obtain ⟨qs, q, e, rfl, hslice⟩ := hv hvariadic
      rw [List.getLast?_append, List.getLast?_singleton] at hkind
      refine absurd ?_ hkind
      rw [Option.some_or, Option.map_some, TypeTable.kind, hslice]
      rfl
    · rw [hrun]
      exact h.found hsound hs rfl

/-- Every writable type is read back from its spelling. -/
theorem TypeTable.Writable.spelled (h : Writable tt error t) : ∃ ws, SpelledAs tt error t (tt.spell t) ws := by
  -- The parts of a type were made before it, so the induction is on the place of its handle.
  induction hindex : t.index using Nat.strongRecOn generalizing t with
  | ind n ih =>
      subst hindex
      rw [spell]
      generalize hspell : (fun part : TypeId =>
        if part.index < t.index then tt.spell part else tt.short part) = spell
      have hpart (u : TypeId) (hu : Writable tt error u) (hlt : u.index < t.index) :
          ∃ ws, SpelledAs tt error u (spell u) ws := by
        obtain ⟨ws, hws⟩ := ih u.index hlt hu rfl
        refine ⟨ws, ?_⟩
        rw [← hspell]
        dsimp only
        rw [if_pos hlt]
        exact hws
      have hordered := hsound.ordered t
      have hshape := h.shape hsound
      cases hs : tt.shape t with
      | basic k =>
          rw [hs] at hshape
          obtain ⟨hk, rfl⟩ := hshape
          exact ⟨_, spelledAs_name (isIdent_kind hk) (ne_blank_kind k hk) fun pkg hpkg => hpkg.basic_eq k hk⟩
      | named pkgPath name bound ms =>
          rw [hs] at hshape
          obtain ⟨rfl, rfl, rfl, -⟩ := hshape
          rw [show tt.spellShape spell true (.named "" "error" bound ms) = "error" from rfl]
          exact ⟨_, spelledAs_name isIdent_error (by decide) fun pkg hpkg => hpkg.error_eq⟩
      | pointer e =>
          rw [hs] at hordered hshape
          obtain ⟨ws, he⟩ := hpart e hshape (hordered e (by simp [Shape.components]))
          exact ⟨_, spelledAs_pointer he (hshape.valid hsound) (h.found hsound hs rfl)⟩
      | slice e =>
          rw [hs] at hordered hshape
          obtain ⟨ws, he⟩ := hpart e hshape (hordered e (by simp [Shape.components]))
          exact ⟨_, spelledAs_slice he (hshape.valid hsound) (h.found hsound hs rfl)⟩
      | array e n =>
          have hfits := hsound.fits hs
          rw [hs] at hordered hshape
          obtain ⟨ws, he⟩ := hpart e hshape (hordered e (by simp [Shape.components]))
          exact ⟨_, spelledAs_array he (hshape.valid hsound) (Nat.lt_of_le_of_lt hfits (maxSize_lt _))
            (h.found hsound hs rfl)⟩
      | chan e d =>
          rw [hs] at hordered hshape
          obtain ⟨ws, he⟩ := hpart e hshape (hordered e (by simp [Shape.components]))
          exact spelledAs_chan he hs (hshape.valid hsound) (h.found hsound hs rfl)
      | map k e =>
          rw [hs] at hordered hshape
          obtain ⟨ws, hk⟩ := hpart k hshape.1 (hordered k (by simp [Shape.components]))
          obtain ⟨vs, he⟩ := hpart e hshape.2 (hordered e (by simp [Shape.components]))
          exact ⟨_, spelledAs_map hk he (hshape.1.valid hsound) (hshape.2.valid hsound)
            (h.found hsound hs rfl)⟩
      | func ps rs v => exact spelledAs_func (funcSpelled hsound h hs hpart)
      | interface ms =>
          rw [hs] at hordered hshape
          obtain ⟨hmerged, hmethods⟩ := hshape
          have hfound : newInterface [] ms tt = (.ok t, tt) := by
            rw [newInterface_ok (mergeMethods_self hmerged fun m hm => (hmethods m hm).2.2)]
            exact h.found hsound hs rfl
          refine spelledAs_interface (fun m hm => ?_) hfound
          obtain ⟨hexported, hwritable, hkind⟩ := hmethods m hm
          obtain ⟨ps, rs, v, hfunc⟩ := hwritable.func_of_kind hsound hkind
          have hlt := hordered m.typ (List.mem_map_of_mem hm)
          exact ⟨hexported, ps, rs, v, hfunc, funcSpelled hsound hwritable hfunc fun u hu hlt' =>
            hpart u hu (Nat.lt_trans hlt' hlt)⟩
      | builtin name i o v =>
          rw [hs] at hshape
          exact hshape.elim

end Sound

end GoSource
