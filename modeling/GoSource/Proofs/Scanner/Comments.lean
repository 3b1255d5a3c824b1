import GoSource.Proofs.Scanner.Respelling

/-!
# Comments stand for blanks and line ends

A text keeps its tokens, its automatic semicolons and its faults when every comment is taken out of it: a comment up to
the end of its line leaves nothing, a bracketed one leaves a line end if it holds one and a blank otherwise.

* **`uncomment`**: a text without its comments.
* **`alike_uncomment`**: no lexeme before a text can tell whether its comments were taken out.
* **`split_uncomment`**: apart from blanks, the text without comments is cut into the same lexemes, with line ends for
  the comments that hold one.
* **`comments_leave_tokens`**: words and reports are the same.
-/

namespace GoSource

namespace Lexeme

/-! ### Taking comments out -/

/-- What a lexeme leaves: a comment up to the end of its line nothing, a bracketed one a line end if it holds one and a
blank otherwise, and everything else itself. -/
def uncommented (l : Lexeme) : List Char :=
  if l.kind = .token .comment then
    if l.isBlock then if (Rune.chars l.runes).contains '\n' then ['\n'] else [' '] else []
  else Rune.chars l.runes

/-- A text without its comments. -/
def uncomment (cs : List Char) : List Char :=
  (split (cs.map .scalar)).flatMap uncommented

/-- Every comment of the text ends. -/
def Terminated (cs : List Char) : Prop :=
  ∀ l ∈ split (cs.map .scalar), l.kind = .token .comment → l.fault ≠ some .unterminatedComment

section

variable {c : Char} {body tail : List Char} {e : Extent}

theorem uncomment_nil : uncomment [] = [] := by
  rw [uncomment, List.map_nil, split]
  rfl

theorem Measured.uncomment_eq (h : Measured c body tail e) :
    uncomment (c :: (body ++ tail)) = (e.lexeme c body).uncommented ++ uncomment tail := by
  rw [uncomment, h.split_eq, List.flatMap_cons]
  rfl

theorem Measured.uncomment_of_ne (h : Measured c body tail e) (hkind : e.kind ≠ .token .comment) :
    uncomment (c :: (body ++ tail)) = c :: (body ++ uncomment tail) := by
  have hself : (e.lexeme c body).uncommented = c :: body := by
    rw [uncommented, Extent.kind_lexeme, if_neg hkind, Extent.chars_lexeme]
  rw [h.uncomment_eq, hself]
  rfl

theorem Measured.terminated (h : Measured c body tail e) (hterminated : Terminated (c :: (body ++ tail))) :
    (e.kind = .token .comment → e.fault ≠ some .unterminatedComment) ∧ Terminated tail := by
  rw [Terminated, h.split_eq] at hterminated
  exact ⟨hterminated _ List.mem_cons_self, fun l hl => hterminated l (List.mem_cons_of_mem _ hl)⟩

/-- A comment opens with a slash; one that is not bracketed reaches to the end of its line. -/
theorem Measured.comment (h : Measured c body tail e) (hkind : e.kind = .token .comment) :
    c = '/' ∧ ((e.lexeme c body).isBlock = true ∨ e.fault = none ∧ '\n' ∉ body ∧ Ends tail) := by
  obtain ⟨hslash, hline | ⟨hstar, hblock⟩⟩ := comment_of_measure h.measure_eq hkind
  · refine ⟨hslash, .inr ⟨by rw [hline]; rfl, ?_⟩⟩
    have hlength : ((body ++ tail).takeWhile (· != '\n')).length = body.length := by
      rw [← h.more_eq, hline, lineComment, List.takeWhile_map, List.length_map]
      rfl
    obtain ⟨hbody, htail⟩ := of_length_takeWhile hlength
    refine ⟨fun hmem => by simpa using hbody _ hmem, fun d hd => ?_⟩
    rw [hd] at htail
    have hd : d = '\n' := by simpa using htail
    rw [hd]
    decide
  · refine ⟨hslash, .inl ?_⟩
    have hne : (body ++ tail).map Rune.scalar ≠ [] := by
      intro hnil
      simp [hnil] at hstar
    have hpositive := more_blockComment_pos hne
    rw [← hblock, h.more_eq] at hpositive
    obtain ⟨b, body, rfl⟩ := List.exists_cons_of_length_pos hpositive
    obtain rfl : b = '*' := by simpa using hstar
    rw [isBlock, Extent.chars_lexeme, show c = '/' from hslash]
    rfl

/-- The only fault of a comment is that it is not terminated. -/
theorem Measured.fault_comment (h : Measured c body tail e) (hkind : e.kind = .token .comment)
    (hterminated : e.fault ≠ some .unterminatedComment) : e.fault = none := by
  obtain ⟨-, hline | ⟨-, hblock⟩⟩ := comment_of_measure h.measure_eq hkind
  · rw [hline]
    rfl
  · rw [hblock] at hterminated ⊢
    unfold blockComment at hterminated ⊢
    split
    · rfl
    · next hnone =>
        rw [hnone] at hterminated
        exact absurd rfl hterminated

/-- In the place of a comment there is nothing, or a separator. -/
theorem Measured.ends_uncomment (h : Measured c body tail e) (hkind : e.kind = .token .comment)
    (htail : Ends tail → Ends (uncomment tail)) : Ends (uncomment (c :: (body ++ tail))) := by
  rw [h.uncomment_eq, uncommented, Extent.kind_lexeme, if_pos hkind]
  split
  · split
    · intro d hd
      obtain rfl : '\n' = d := by simpa using hd
      decide
    · intro d hd
      obtain rfl : ' ' = d := by simpa using hd
      decide
  · next hline =>
      obtain ⟨-, hblock | ⟨-, -, hends⟩⟩ := h.comment hkind
      · exact absurd hblock hline
      · exact htail hends

end

/-- A text starts as it does with its comments, unless one is in front. -/
theorem head?_uncomment (cs : List Char) :
    (uncomment cs).head? = cs.head? ∨ cs.head? = some '/' ∧ Ends (uncomment cs) := by
  induction cs using measured_induction with
  | nil =>
      rw [uncomment_nil]
      exact .inl rfl
  | cons c body tail e h ih =>
      by_cases hkind : e.kind = .token .comment
      · refine .inr ⟨congrArg some (h.comment hkind).1, h.ends_uncomment hkind fun htail => ?_⟩
        rcases ih with hsame | ⟨-, hends⟩
        · rwa [Ends, hsame]
        · exact hends
      · rw [h.uncomment_of_ne hkind]
        exact .inl rfl

/-- No lexeme before a text can tell whether its comments were taken out. -/
theorem alike_uncomment (cs : List Char) : Alike cs (uncomment cs) := by
  cases cs with
  | nil =>
      rw [uncomment_nil]
      exact .ends nofun
  | cons c cs =>
      obtain ⟨body, tail, e, rfl, h⟩ := exists_measured c cs
      by_cases hkind : e.kind = .token .comment
      · refine .ends (h.ends_uncomment hkind fun htail => ?_)
        rcases head?_uncomment tail with hsame | ⟨-, hends⟩
        · rwa [Ends, hsame]
        · exact hends
      · rw [h.uncomment_of_ne hkind]
        refine .cons c ?_
        cases body with
        | nil => exact head?_uncomment tail
        | cons b body => exact .inl rfl

theorem stopsAlike_uncomment (cs : List Char) : StopsAlike cs (uncomment cs) := by
  constructor
  · rintro rfl
    exact uncomment_nil
  · intro hnewline
    rcases head?_uncomment cs with hsame | ⟨hslash, -⟩
    · rw [hsame, hnewline]
    · rw [hslash] at hnewline
      cases hnewline

/-! ### The lexemes that are left -/

/-- The lexemes that are no blanks. -/
def solid (ls : List Lexeme) : List Lexeme :=
  ls.filter (·.kind ≠ .blank)

/-- The lexeme of a line end. -/
def lineEnd : Lexeme :=
  { kind := .newline, runes := [.scalar '\n'] }

/-- What a lexeme is when comments and blanks do not count. -/
def gist? (l : Lexeme) : Option Lexeme :=
  match l.kind with
  | .blank => none
  | .token .comment => if l.breaksLine then some lineEnd else none
  | _ => some l

theorem gist?_of_ne_comment {l : Lexeme} (h : l.kind ≠ .token .comment) :
    l.gist? = if l.kind ≠ .blank then some l else none := by
  unfold gist?
  split
  · next hk => simp [hk]
  · next hk => exact absurd hk h
  · next hk _ => exact (if_pos hk).symm

theorem gist?_comment {l : Lexeme} (h : l.kind = .token .comment) :
    l.gist? = if l.breaksLine then some lineEnd else none := by
  simp only [gist?, h]

theorem solid_split_dropWhile (cs : List Char) :
    solid (split (cs.map .scalar)) = solid (split ((cs.dropWhile isBlank).map .scalar)) := by
  cases cs with
  | nil => rfl
  | cons c cs =>
      cases hblank : isBlank c with
      | false => rw [List.dropWhile_cons_of_neg (by simp [hblank])]
      | true =>
          obtain ⟨body, tail, e, rfl, h⟩ := exists_measured c cs
          have hnewline : c ≠ '\n' := by
            rintro rfl
            cases hblank
          have hextent := h.measure_eq
          rw [measure_map_scalar, if_neg hnewline, if_pos hblank] at hextent
          have hlength : ((body ++ tail).takeWhile isBlank).length = body.length := by
            rw [← h.more_eq, ← hextent]
          obtain ⟨hbody, htail⟩ := of_length_takeWhile hlength
          have hdrop : (c :: (body ++ tail)).dropWhile isBlank = tail := by
            rw [List.dropWhile_cons_of_pos hblank, List.dropWhile_append_of_pos hbody]
            cases tail with
            | nil => rfl
            | cons d tail => exact List.dropWhile_cons_of_neg (by simpa using htail)
          rw [hdrop, h.split_eq, solid, List.filter_cons_of_neg (by simp [← hextent])]
          rfl

/-- Blanks in front make no difference. -/
theorem solid_split_append {blanks : List Char} (h : ∀ c ∈ blanks, isBlank c = true) (cs : List Char) :
    solid (split ((blanks ++ cs).map .scalar)) = solid (split (cs.map .scalar)) := by
  rw [solid_split_dropWhile, List.dropWhile_append_of_pos h, ← solid_split_dropWhile]

theorem solid_split_lineEnd (cs : List Char) :
    solid (split (('\n' :: cs).map .scalar)) = lineEnd :: solid (split (cs.map .scalar)) := by
  rw [List.map_cons, split]
  rfl

section

variable {c : Char} {body tail : List Char} {e : Extent}

theorem Measured.eq_lineEnd (h : Measured c body tail e) (hkind : e.kind = .newline) :
    c = '\n' ∧ body = [] ∧ e.lexeme c body = lineEnd := by
  have hspells := h.spells
  rw [hkind] at hspells
  obtain ⟨r, hr, hnewline⟩ := hspells
  obtain ⟨rfl, hbody⟩ := List.cons.inj hr
  obtain rfl : c = '\n' := hnewline
  obtain rfl := List.map_eq_nil_iff.1 hbody
  have hextent := h.measure_eq
  rw [measure_map_scalar, if_pos rfl] at hextent
  refine ⟨rfl, rfl, ?_⟩
  rw [← hextent]
  rfl

/-- A comment leaves a line end or no lexeme at all. -/
theorem Measured.solid_uncommented (h : Measured c body tail e) (hkind : e.kind = .token .comment)
    (hterminated : e.fault ≠ some .unterminatedComment) (cs : List Char) :
    solid (split (((e.lexeme c body).uncommented ++ cs).map .scalar)) =
      (e.lexeme c body).gist?.toList ++ solid (split (cs.map .scalar)) := by
  have hfault := h.fault_comment hkind hterminated
  have hbreaks : (e.lexeme c body).breaksLine = ((e.lexeme c body).isBlock && (c :: body).contains '\n') := by
    simp only [breaksLine, Extent.kind_lexeme, hkind, Extent.fault_lexeme, hfault, Extent.chars_lexeme,
      Option.isNone_none, Bool.and_true]
  rw [gist?_comment hkind, hbreaks, uncommented, Extent.kind_lexeme, if_pos hkind, Extent.chars_lexeme]
  cases (e.lexeme c body).isBlock with
  | false => rfl
  | true =>
      cases (c :: body).contains '\n' with
      | false =>
          have hblank : ∀ c ∈ [' '], isBlank c = true := List.forall_mem_singleton.2 rfl
          exact solid_split_append hblank cs
      | true => exact solid_split_lineEnd cs

end

/-- Apart from blanks, a text without its comments is cut into the lexemes of the text, with line ends for the comments
that hold one. -/
theorem split_uncomment {cs : List Char} (hterminated : Terminated cs) :
    solid (split ((uncomment cs).map .scalar)) = (split (cs.map .scalar)).filterMap gist? := by
  induction cs using measured_induction with
  | nil =>
      rw [uncomment_nil, List.map_nil, split]
      rfl
  | cons c body tail e h ih =>
      obtain ⟨hfault, htail⟩ := h.terminated hterminated
      have hrest := ih htail
      rw [h.split_eq]
      cases hkind : e.kind with
      | blank =>
          have hspells := h.spells
          rw [hkind] at hspells
          have hblanks : ∀ d ∈ c :: body, isBlank d = true := fun d hd => hspells (.scalar d) (List.mem_map_of_mem hd)
          have hgist : (e.lexeme c body).gist? = none := by simp only [gist?, Extent.kind_lexeme, hkind]
          rw [List.filterMap_cons_none hgist, h.uncomment_of_ne (by simp [hkind]), ← List.cons_append,
            solid_split_append hblanks, hrest]
      | newline =>
          obtain ⟨rfl, rfl, hline⟩ := h.eq_lineEnd hkind
          have hgist : lineEnd.gist? = some lineEnd := rfl
          rw [h.uncomment_of_ne (by simp [hkind]), hline, List.filterMap_cons_some hgist, ← hrest]
          exact solid_split_lineEnd (uncomment tail)
      | token token =>
          by_cases hcomment : token = .comment
          · have hkind : e.kind = .token .comment := hcomment ▸ hkind
            rw [h.uncomment_eq, h.solid_uncommented hkind (hfault hkind), hrest, List.filterMap_cons]
            cases (e.lexeme c body).gist? <;> rfl
          · have hnoComment : e.kind ≠ .token .comment := by
              rw [hkind]
              exact fun heq => hcomment (LexemeKind.token.inj heq)
            -- What follows the token looks the same to it.
            have hagain := h.alike (h.isBlank_eq_false hkind) hnoComment (alike_uncomment tail)
              (.inr (stopsAlike_uncomment tail))
            have hgist : (e.lexeme c body).gist? = some (e.lexeme c body) := by
              rw [gist?_of_ne_comment hnoComment, Extent.kind_lexeme, hkind]
              rfl
            rw [h.uncomment_of_ne hnoComment, hagain.split_eq, List.filterMap_cons_some hgist, ← hrest, solid,
              List.filter_cons_of_pos (by simp [hkind])]
            rfl

theorem ne_comment_of_gist? {l k : Lexeme} (h : l.gist? = some k) : k.kind ≠ .token .comment := by
  unfold gist? at h
  split at h
  · cases h
  · split at h
    · obtain rfl := Option.some.inj h
      exact nofun
    · cases h
  · next hcomment =>
      obtain rfl := Option.some.inj h
      exact hcomment

/-- Without its comments a text has none. -/
theorem ne_comment_uncomment {cs : List Char} (hterminated : Terminated cs) :
    ∀ l ∈ split ((uncomment cs).map .scalar), l.kind ≠ .token .comment := by
  intro l hl hkind
  have hsolid : l ∈ solid (split ((uncomment cs).map .scalar)) := List.mem_filter.2 ⟨hl, by simp [hkind]⟩
  rw [split_uncomment hterminated] at hsolid
  obtain ⟨k, -, hk⟩ := List.mem_filterMap.1 hsolid
  exact ne_comment_of_gist? hk hkind

theorem filterMap_gist? {ls : List Lexeme} (h : ∀ l ∈ ls, l.kind ≠ .token .comment) :
    ls.filterMap gist? = solid ls := by
  induction ls with
  | nil => rfl
  | cons l ls ih =>
      have hl := h l List.mem_cons_self
      have hls := ih fun k hk => h k (List.mem_cons_of_mem _ hk)
      rw [solid, List.filter_cons, List.filterMap_cons, gist?_of_ne_comment hl, hls]
      by_cases hblank : l.kind = .blank
      · simp [hblank, solid]
      · simp [hblank, solid]

end Lexeme

/-! ### The entries that are left -/

namespace Item

open Lexeme

/-- The words of entries that are no comments, each with its fault. -/
def view (items : List Item) : List (Word × Option LexicalFault) :=
  (items.filter (·.token ≠ .comment)).map fun item => (item.word, item.fault)

theorem view_cons_comment {item : Item} (h : item.token = .comment) (items : List Item) :
    view (item :: items) = view items := by
  rw [view, List.filter_cons_of_neg (by simp [h])]
  rfl

theorem view_cons {item : Item} (h : item.token ≠ .comment) (items : List Item) :
    view (item :: items) = (item.word, item.fault) :: view items := by
  rw [view, List.filter_cons_of_pos (by simp [h])]
  rfl

theorem view_semicolon (offset : Nat) (holds : Bool) (items : List Item) :
    view (semicolon offset holds :: items) = ((.op .semicolon, ""), none) :: view items :=
  view_cons (by simp [semicolon]) items

/-- The words of a text do not depend on where it starts, nor on its blanks, and a comment counts as a line end if it
holds one. -/
theorem view_ofLexemes {ls : List Lexeme} (hls : ∀ l ∈ ls, l.Cut) (offset offset' : Nat) (last : Token) :
    view (ofLexemes offset last ls) = view (ofLexemes offset' last (ls.filterMap gist?)) := by
  induction ls generalizing offset offset' last with
  | nil => rfl
  | cons l ls ih =>
      have hl := hls l List.mem_cons_self
      have hlater (offset offset' : Nat) (last : Token) := ih (fun k hk => hls k (List.mem_cons_of_mem _ hk)) offset
        offset' last
      cases hk : l.kind with
      | blank =>
          have hgist : l.gist? = none := by simp only [gist?, hk]
          rw [ofLexemes_blank _ _ _ hk, List.filterMap_cons_none hgist]
          exact hlater _ _ _
      | newline =>
          have hgist : l.gist? = some l := by simp only [gist?, hk]
          rw [List.filterMap_cons_some hgist]
          cases hends : last.endsStatement with
          | true =>
              rw [ofLexemes_newline _ _ _ hk hends, ofLexemes_newline _ _ _ hk hends, view_semicolon,
                view_semicolon]
              exact congrArg _ (hlater _ _ _)
          | false =>
              rw [ofLexemes_newline_of_false _ _ _ hk hends, ofLexemes_newline_of_false _ _ _ hk hends]
              exact hlater _ _ _
      | token token =>
          by_cases hcomment : token = .comment
          · subst hcomment
            have hend := commentLineEnd?_eq hk hl
            have hgist := gist?_comment hk
            cases hbreaks : l.breaksLine with
            | false =>
                rw [hbreaks] at hgist hend
                rw [ofLexemes_comment _ _ _ hk (.inr hend), view_cons_comment rfl, List.filterMap_cons_none hgist]
                exact hlater _ _ _
            | true =>
                rw [hbreaks] at hgist hend
                rw [List.filterMap_cons_some hgist]
                cases hends : last.endsStatement with
                | true =>
                    rw [ofLexemes_block _ _ _ hk hends hend, ofLexemes_newline _ _ _ rfl hends, view_semicolon,
                      view_cons_comment rfl, view_semicolon]
                    exact congrArg _ (hlater _ _ _)
                | false =>
                    rw [ofLexemes_comment _ _ _ hk (.inl hends), view_cons_comment rfl,
                      ofLexemes_newline_of_false _ _ _ rfl hends]
                    exact hlater _ _ _
          · have hgist : l.gist? = some l := by
              rw [gist?_of_ne_comment (by simpa [hk] using hcomment), hk]
              rfl
            rw [List.filterMap_cons_some hgist, ofLexemes_token _ _ _ hk hcomment, ofLexemes_token _ _ _ hk hcomment,
              view_cons hcomment, view_cons hcomment]
            exact congrArg _ (hlater _ _ _)

/-- The comments of a text are entered as they are written. -/
theorem comments_ofLexemes {ls : List Lexeme} (hls : ∀ l ∈ ls, l.Cut) (offset : Nat) (last : Token) :
    ((ofLexemes offset last ls).filter (·.token = .comment)).map (·.literal) =
      (ls.filter (·.kind = .token .comment)).map Lexeme.literal := by
  induction ls generalizing offset last with
  | nil => rfl
  | cons l ls ih =>
      have hlater (offset : Nat) (last : Token) := ih (fun k hk => hls k (List.mem_cons_of_mem _ hk)) offset last
      have hraw (last : Token) : ((raw offset [l] ++ ofLexemes (offset + Rune.widths l.runes) last ls).filter
          (·.token = .comment)).map (·.literal) = ((l :: ls).filter (·.kind = .token .comment)).map Lexeme.literal := by
        rw [List.filter_append, List.map_append, hlater, List.filter_cons]
        cases hk : l.kind with
        | token token =>
            by_cases hcomment : token = .comment
            · simp [raw, hk, hcomment, ofLexeme]
            · simp [raw, hk, hcomment, ofLexeme]
        | _ => simp [raw, hk]
      obtain ⟨last', hrun⟩ | ⟨-, hrun⟩ := ofLexemes_cases (hls l List.mem_cons_self) offset last ls
      · rw [hrun, hraw]
      · rw [hrun, List.filter_cons_of_neg (by simp [semicolon]), hraw]

/-- Every comment has its entry, with its fault. -/
theorem exists_comment_ofLexemes {ls : List Lexeme} (hls : ∀ l ∈ ls, l.Cut) {l : Lexeme} (hl : l ∈ ls)
    (hkind : l.kind = .token .comment) (offset : Nat) (last : Token) :
    ∃ item ∈ ofLexemes offset last ls, item.fault = l.fault := by
  have hraw (offset : Nat) : ∃ item ∈ raw offset ls, item.fault = l.fault := by
    clear hls
    induction ls generalizing offset with
    | nil => cases hl
    | cons k ls ih =>
        rw [raw_cons]
        rcases List.mem_cons.1 hl with rfl | hl
        · refine ⟨ofLexeme offset .comment l, List.mem_append_left _ ?_, rfl⟩
          simp [raw, hkind]
        · obtain ⟨item, hitem, hfault⟩ := ih hl (offset + Rune.widths k.runes)
          exact ⟨item, List.mem_append_right _ hitem, hfault⟩
  obtain ⟨item, hitem, hfault⟩ := hraw offset
  rw [← written_ofLexemes hls offset last] at hitem
  exact ⟨item, (List.mem_filter.1 hitem).1, hfault⟩

/-- What is wrong with the entries, in their order. -/
def faults (items : List Item) : List LexicalFault :=
  items.filterMap (·.fault)

/-- If nothing is wrong with the comments, the faults are those of the other entries. -/
theorem faults_eq {items : List Item} (h : ∀ item ∈ items, item.token = .comment → item.fault = none) :
    faults items = (view items).filterMap Prod.snd := by
  induction items with
  | nil => rfl
  | cons item items ih =>
      have hlater := ih fun item hitem => h item (List.mem_cons_of_mem _ hitem)
      by_cases hcomment : item.token = .comment
      · rw [view_cons_comment hcomment, faults, List.filterMap_cons_none (h item List.mem_cons_self hcomment)]
        exact hlater
      · rw [view_cons hcomment, faults, List.filterMap_cons, List.filterMap_cons, ← hlater]
        rfl

end Item

/-! ### Scanning without comments -/

/-- A byte order mark in front, and the text after it. -/
def splitBom : List Char → List Char × List Char
  | [] => ([], [])
  | c :: cs => if c = Rune.bom then ([c], cs) else ([], c :: cs)

/-- The text of a file of characters is what follows a byte order mark. -/
theorem Reader.readText_splitBom {r : Reader} {cs : List Char} (hopen : r.journal.closed = false)
    (hdecode : Rune.decodeFrom r.bytes r.cursor = cs.map .scalar) :
    r.readText.1.2 = (splitBom cs).2.map .scalar ∧ r.readText.2.journal = r.journal := by
  obtain ⟨hrunes, hjournal⟩ := drain_wellFormed hopen (by simp [hdecode])
  rw [readText_snd]
  refine ⟨?_, hjournal⟩
  rw [hdecode] at hrunes
  have hdrain : r.drain = (cs.map .scalar, r.drain.2) := by rw [← hrunes]
  unfold readText
  rw [hdrain]
  cases cs with
  | nil => rfl
  | cons c cs =>
      show (if c = Rune.bom then _ else _ : (Nat × List Rune) × Reader).1.2 = (if c = Rune.bom then _ else _ :
        List Char × List Char).2.map .scalar
      split <;> rfl

namespace Scanner

open Lexeme

/-- The wordings of what was reported up to the end of the text, in their order. -/
def messages (s : Scanner) : List String :=
  s.scanAll.2.journal.entries.toList.map fun d => describe d.cause

/-- Without a limit, the fault of every token is reported. -/
theorem causes_scanAll {s : Scanner} (h : s.journal.Unlimited) :
    s.scanAll.2.journal.entries.toList.map (·.cause) =
      s.journal.entries.toList.map (·.cause) ++ (Item.faults s.stream.items).map .lexical := by
  fun_induction scanAll s with
  | case1 s item rest hpop delivered tokens s' hall ih =>
      rw [hall] at ih
      rw [TokenStream.items_pop? hpop, Item.faults, List.filterMap_cons]
      have hjournal : delivered.2.journal = (s.reportFault item).journal := rfl
      rw [reportFault] at hjournal
      cases hfault : item.fault with
      | none =>
          rw [hfault] at hjournal
          rw [hjournal] at ih
          exact ih h
      | some fault =>
          rw [hfault] at hjournal
          have hentries := congrArg Journal.entries
            (Journal.report_of_unlimited h (.make s.file (s.file.pos item.start) (.lexical fault)))
          rw [hjournal] at ih
          have hlater := ih (h.report _)
          rw [show (s.report _).journal.entries = _ from hentries] at hlater
          rw [hlater]
          simp [Item.faults, Diagnostic.make]
          rfl
  | case2 s hpop token s' hend =>
      obtain ⟨rfl, rfl⟩ := Prod.mk.inj hend
      rw [TokenStream.items_eq_nil_of_pop? hpop]
      simp [Item.faults]
      rfl

/-- The comments of a text, as they are written. -/
def comments (s : Scanner) : List String :=
  (s.tokens.filter (·.token = .comment)).map (·.literal)

theorem terminated_of_faults {r : Reader} {cs : List Char} (htext : r.readText.1.2 = cs.map .scalar)
    (h : .unterminatedComment ∉ Item.faults (start r).stream.items) : Terminated cs := by
  intro l hl hkind hfault
  have hcut : ∀ l ∈ split (cs.map .scalar), l.Cut := fun l hl => cut_of_mem_split hl
  obtain ⟨item, hitem, hsame⟩ := Item.exists_comment_ofLexemes hcut hl hkind r.readText.1.1 .illegal
  refine h (List.mem_filterMap.2 ⟨item, ?_, hsame.trans hfault⟩)
  rwa [items_start, htext]

/-- A text without its comments has the words and the faults of the text. -/
theorem view_start {r r' : Reader} {cs : List Char} (hterminated : Terminated cs)
    (htext : r.readText.1.2 = cs.map .scalar) (htext' : r'.readText.1.2 = (uncomment cs).map .scalar) :
    (start r').tokens.map Scanned.word = (start r).words ∧
      Item.faults (start r').stream.items = Item.faults (start r).stream.items := by
  have hcut (cs : List Char) : ∀ l ∈ split (cs.map .scalar), l.Cut := fun l hl => cut_of_mem_split hl
  have hbare := ne_comment_uncomment hterminated
  have hitems : (start r).stream.items = Item.ofLexemes r.readText.1.1 .illegal (split (cs.map .scalar)) := by
    rw [items_start, htext]
  have hitems' : (start r').stream.items =
      Item.ofLexemes r'.readText.1.1 .illegal (split ((uncomment cs).map .scalar)) := by
    rw [items_start, htext']
  have hview : Item.view (start r').stream.items = Item.view (start r).stream.items := by
    rw [hitems, hitems', Item.view_ofLexemes (hcut cs) _ 0, Item.view_ofLexemes (hcut (uncomment cs)) _ 0,
      filterMap_gist? hbare, split_uncomment hterminated]
  have hcomment : ∀ item ∈ (start r).stream.items, item.token = .comment → item.fault = none := by
    intro item hitem htoken
    rw [hitems] at hitem
    rcases Item.mem_ofLexemes (hcut cs) hitem with hword | ⟨l, hl, hkind, -, hfault⟩
    · rw [Item.word, htoken] at hword
      cases hword
    · rw [htoken] at hkind
      obtain ⟨c, body, tail, e, hmeasured, rfl⟩ := exists_measured_of_mem_split hl
      exact hfault.trans (hmeasured.fault_comment hkind (hterminated _ hl hkind))
  have hcomment' : ∀ item ∈ (start r').stream.items, item.token ≠ .comment := by
    intro item hitem htoken
    rw [hitems'] at hitem
    rcases Item.mem_ofLexemes (hcut (uncomment cs)) hitem with hword | ⟨l, hl, hkind, -⟩
    · rw [Item.word, htoken] at hword
      cases hword
    · exact hbare l hl (htoken ▸ hkind)
  constructor
  · have hfilter : (start r').stream.items.filter (·.token ≠ .comment) = (start r').stream.items := by
      rw [List.filter_eq_self]
      exact fun item hitem => decide_eq_true (hcomment' item hitem)
    have hfirst (items : List Item) :
        (items.filter (·.token ≠ .comment)).map Item.word = (Item.view items).map Prod.fst := by
      rw [Item.view, List.map_map]
      rfl
    rw [words_eq, hfirst, ← hview, ← hfirst, hfilter, tokens_eq, List.map_map]
    rfl
  · rw [Item.faults_eq hcomment, Item.faults_eq fun item hitem htoken => absurd htoken (hcomment' item hitem), hview]

end Scanner

/-- A text without its comments; a byte order mark in front stays. -/
def withoutComments (text : String) : String :=
  String.ofList ((splitBom text.toList).1 ++ Lexeme.uncomment (splitBom text.toList).2)

theorem splitBom_of_ne {cs : List Char} (h : cs.head? ≠ some Rune.bom) : splitBom cs = ([], cs) := by
  cases cs with
  | nil => rfl
  | cons c cs => exact if_neg (by simpa using h)

theorem splitBom_withoutComments (text : String) :
    (splitBom (withoutComments text).toList).2 = Lexeme.uncomment (splitBom text.toList).2 := by
  rw [withoutComments, String.toList_ofList]
  cases text.toList with
  | nil =>
      show (splitBom (Lexeme.uncomment [])).2 = Lexeme.uncomment []
      rw [Lexeme.uncomment_nil]
      rfl
  | cons c cs =>
      rw [splitBom]
      split
      · next hbom =>
          show (splitBom (c :: Lexeme.uncomment cs)).2 = Lexeme.uncomment cs
          rw [splitBom, if_pos hbom]
      · next hbom =>
          have hhead : (Lexeme.uncomment (c :: cs)).head? ≠ some Rune.bom := by
            rcases Lexeme.head?_uncomment (c :: cs) with hsame | ⟨-, hends⟩
            · rw [hsame]
              simpa using hbom
            · exact hends.head?_ne (by decide)
          show (splitBom (Lexeme.uncomment (c :: cs))).2 = Lexeme.uncomment (c :: cs)
          rw [splitBom_of_ne hhead]

namespace Scanner

open Lexeme

/-- A text of characters that is scanned without a limit, from a journal without entries. -/
theorem setBudget_init {s : Scanner} (hempty : s.journal.entries = #[]) (file : SourceFile) (text : String) :
    ∃ r : Reader, (s.init file { bytes := text.toUTF8 }).setBudget 0 = start r ∧
      r.readText.1.2 = (splitBom text.toList).2.map .scalar ∧ (start r).journal.Unlimited ∧
        (start r).journal.entries = #[] := by
  have hdecode := Rune.decodeFrom_toUTF8 text
  generalize hfirst : s.reader.init file { bytes := text.toUTF8 } = first
  have hjournal : first.journal.entries = #[] := by
    rw [← hfirst]
    exact hempty
  have hfirstDecode : Rune.decodeFrom first.bytes first.cursor = text.toList.map .scalar := by
    rw [← hfirst]
    exact hdecode
  obtain ⟨-, hread⟩ := Reader.readText_splitBom (r := first) (by rw [← hfirst]; rfl) hfirstDecode
  generalize hr : (first.readText.2.setBudget 0).rewind = r
  have hunlimited : r.journal.Unlimited := by
    rw [← hr]
    exact ⟨rfl, rfl⟩
  have hentries : r.journal.entries = #[] := by
    rw [← hr]
    show first.readText.2.journal.entries.take first.readText.2.journal.kept = #[]
    rw [hread, hjournal]
    simp
  have hbytes : Rune.decodeFrom r.bytes r.cursor = text.toList.map .scalar := by
    rw [← hr]
    show Rune.decodeFrom first.readText.2.bytes 0 = _
    rw [Reader.readText_snd, Reader.bytes_drain, ← hfirst]
    exact hdecode
  obtain ⟨htext, hsame⟩ := Reader.readText_splitBom hunlimited.2 hbytes
  refine ⟨r, ?_, htext, ?_, ?_⟩
  · rw [← hr, ← hfirst]
    rfl
  · rwa [journal_start, hsame]
  · rwa [journal_start, hsame]

theorem messages_eq {s : Scanner} (hunlimited : s.journal.Unlimited) (hempty : s.journal.entries = #[]) :
    s.messages = (Item.faults s.stream.items).map LexicalFault.message := by
  have hcauses := causes_scanAll hunlimited
  rw [hempty] at hcauses
  have hmessages := congrArg (List.map SourceFault.message) hcauses
  rw [List.map_map, List.map_append, List.map_map, List.map_map] at hmessages
  exact hmessages

/-- Comments count as blanks and line ends only.  Out of a text whose comments all end, each comment is taken: one up
to the end of its line leaves nothing, a bracketed one leaves a line end if it holds one and a blank otherwise.  Without
a limit on reports the text is scanned as the same words, with the same semicolons put in, and with the same reports. -/
theorem comments_leave_tokens (s : Scanner) (file file' : SourceFile) (text : String)
    (hempty : s.journal.entries = #[])
    (hterminated : ∀ d ∈ ((s.init file { bytes := text.toUTF8 }).setBudget 0).scanAll.2.journal.entries,
      d.cause ≠ .lexical .unterminatedComment) :
    let full := (s.init file { bytes := text.toUTF8 }).setBudget 0
    let bare := (s.init file' { bytes := (withoutComments text).toUTF8 }).setBudget 0
    full.comments = ((split ((splitBom text.toList).2.map .scalar)).filter (·.kind = .token .comment)).map literal ∧
      bare.tokens.map Scanned.word = full.words ∧ bare.messages = full.messages := by
  intro full bare
  obtain ⟨r, hfull, htext, hunlimited, hentries⟩ := setBudget_init hempty file text
  obtain ⟨r', hbare, htext', hunlimited', hentries'⟩ := setBudget_init hempty file' (withoutComments text)
  rw [splitBom_withoutComments] at htext'
  rw [hfull] at hterminated
  have hends : Terminated (splitBom text.toList).2 := by
    refine terminated_of_faults htext fun hmem => ?_
    have hcauses := causes_scanAll hunlimited
    have hcause : SourceFault.lexical .unterminatedComment ∈
        (start r).scanAll.2.journal.entries.toList.map (·.cause) := by
      rw [hcauses]
      exact List.mem_append_right _ (List.mem_map_of_mem hmem)
    obtain ⟨d, hd, hunterminated⟩ := List.mem_map.1 hcause
    exact hterminated d (Array.mem_toList_iff.1 hd) hunterminated
  obtain ⟨hwords, hfaults⟩ := view_start hends htext htext'
  rw [show full = start r from hfull, show bare = start r' from hbare]
  refine ⟨?_, hwords, ?_⟩
  · have hcut : ∀ l ∈ split ((splitBom text.toList).2.map .scalar), l.Cut := fun l hl => cut_of_mem_split hl
    rw [comments, tokens_eq, List.filter_map, List.map_map, items_start, htext, ← Item.comments_ofLexemes hcut]
    rfl
  · rw [messages_eq hunlimited hentries, messages_eq hunlimited' hentries', hfaults]

/-- A byte order mark, comments of all three kinds, and two tokens with a fault. -/
theorem comments_leave_tokens_mixed :
    let text := "\uFEFFx/* a */y /* b\n */ @// c\n08"
    let full := (({} : Scanner).init {} { bytes := text.toUTF8 }).setBudget 0
    let bare := (({} : Scanner).init {} { bytes := (withoutComments text).toUTF8 }).setBudget 0
    (∀ d ∈ full.scanAll.2.journal.entries, d.cause ≠ .lexical .unterminatedComment) ∧
      full.comments = ["/* a */", "/* b\n */", "// c"] ∧ withoutComments text = "\uFEFFx y \n @\n08" ∧
      full.messages = ["invalid character", "invalid number literal"] ∧
      bare.tokens.map Scanned.word = full.words ∧ bare.messages = full.messages := by
  intro text full bare
  have hterminated : ∀ d ∈ full.scanAll.2.journal.entries, d.cause ≠ .lexical .unterminatedComment := by
    decide +kernel
  exact ⟨hterminated, by decide +kernel, by decide +kernel, by decide +kernel,
    (comments_leave_tokens {} {} {} text rfl hterminated).2⟩

end Scanner

end GoSource
