import GoSource.Proofs.Scanner.QuotedTexts

/-!
# What is wrong with a lexeme

A lexeme has a fault if it is no token at all, or a literal or comment that does not end as it should.

* **`Token.IsFlawed`**: a string or character that cannot be read, a bracketed comment without an end.
* **`Lexeme.Verdict`**: the kinds of lexemes, each with what is wrong with it.  A byte that starts no character has no
  fault of its own where it is a lexeme.
* **`Lexeme.verdict_of_mem_split`**: every lexeme of a text is of one of these kinds.
-/

namespace GoSource

/-- Strings, characters and comments; only these can hold any character. -/
def Token.holdsText (t : Token) : Bool :=
  t = .lit .string || t = .lit .char || t = .comment

/-- The text of a string or character cannot be read, or that of a bracketed comment does not end. -/
def Token.IsFlawed (t : Token) (text : String) : Prop :=
  match t with
  | .lit .string => Literal.unquote? text = none
  | .lit .char => Literal.unquote? text = none
  | .comment => ['/', '*'] <+: text.toList ∧ ∀ body, text.toList ≠ '/' :: '*' :: (body ++ ['*', '/'])
  | _ => False

/-- A number is no string and no character. -/
theorem Literal.holdsText_numberClass? {cs : List Char} {c : LiteralClass} (h : numberClass? cs = some c) :
    (Token.lit c).holdsText = false := by
  unfold numberClass? classify? at h
  dsimp only at h
  repeat' split at h
  all_goals cases h
  all_goals rfl

/-- A raw string can be read if it ends with its mark. -/
theorem Literal.unquote?_raw_iff {cs : List Char} :
    (unquote? (String.ofList (rawMark :: cs))).isSome = true ↔ ∃ body, cs = body ++ [rawMark] := by
  rw [isSome_unquote?_iff]
  simp only [unquote?_eq, BEq.rfl, if_true, Option.isSome_some, and_true]

namespace Lexeme

open Literal

/-! ### Quoted texts by their characters -/

/-- The extent of a body depends on its characters only. -/
theorem quotedBody_chars (mark : Char) (rs : List Rune) :
    quotedBody mark ((Rune.chars rs).map .scalar) = quotedBody mark rs := by
  have hcons (r : Rune) (rs : List Rune) :
      (Rune.chars (r :: rs)).map Rune.scalar = .scalar r.char :: (Rune.chars rs).map .scalar := rfl
  have hlength (rs : List Rune) : ((Rune.chars rs).map Rune.scalar).length = rs.length := by simp [Rune.chars]
  have hread (rs : List Rune) : readEscape? Rune.char mark ((Rune.chars rs).map .scalar) =
      (readEscape? Rune.char mark rs).map fun p => (p.1, (Rune.chars p.2).map .scalar) := by
    simp only [Rune.chars, List.map_map]
    exact readEscape?_map Rune.char (fun r : Rune => .scalar r.char) mark rs
  fun_induction quotedBody mark rs with
  | case1 => rw [Rune.chars, List.map_nil, List.map_nil, quotedBody]
  | case2 r rest hnewline => rw [hcons, quotedBody, Rune.char_scalar, if_pos hnewline]
  | case3 r rest hnewline hmark => rw [hcons, quotedBody, Rune.char_scalar, if_neg hnewline, if_pos hmark]
  | case4 r rest hnewline hmark hescape m rest' hfound hless ih =>
      have hmark' : mark ≠ '\\' := fun h => hmark (hescape.trans h.symm)
      have hagain := (hread rest).trans (congrArg _ hfound)
      rw [hcons, quotedBody_escape (r := .scalar r.char) hmark' hescape hagain, ih, hlength, hlength]
  | case5 r rest hnewline hmark hescape hnone skipped ih =>
      have hmark' : mark ≠ '\\' := fun h => hmark (hescape.trans h.symm)
      have hagain := (hread rest).trans (congrArg _ hnone)
      rw [hcons, quotedBody_skip (r := .scalar r.char) hmark' hescape hagain]
      cases rest with
      | nil => exact congrArg (·.cons 1 false) ih
      | cons x rest =>
          rw [hcons, List.head?_cons, Option.any_some, Rune.char_scalar]
          by_cases hx : x.char = '\n'
          · have hskipped : skipped = 0 := dif_neg (by simp [hx])
            rw [hskipped] at ih ⊢
            rw [if_neg (by simp [hx]), ← hcons]
            exact congrArg (·.cons 1 false) ih
          · have hskipped : skipped = 1 := dif_pos (by simp [hx])
            rw [hskipped] at ih ⊢
            rw [if_pos (by simp [hx])]
            exact congrArg (·.cons 2 false) ih
  | case6 r rest hnewline hmark hescape ih =>
      rw [hcons, quotedBody_char hnewline hmark hescape, ih]

theorem stringLiteral_chars (rs : List Rune) : stringLiteral ((Rune.chars rs).map .scalar) = stringLiteral rs := by
  simp only [stringLiteral, quotedBody_chars]

theorem charLiteral_chars (rs : List Rune) : charLiteral ((Rune.chars rs).map .scalar) = charLiteral rs := by
  simp only [charLiteral, quotedBody_chars]

/-- An extent that reaches to the end of a text and has no fault. -/
theorem Extent.eq_iff {e : Extent} {kind : LexemeKind} {n : Nat} (hkind : e.kind = kind) (hmore : e.more = n) :
    e = { kind, more := n } ↔ e.fault = none := by
  obtain ⟨kind, more, fault⟩ := e
  obtain rfl := hkind
  obtain rfl := hmore
  simp

/-- A string literal has no fault if its text can be read. -/
theorem fault_stringLiteral_iff (rest : List Rune) :
    (stringLiteral rest).fault = none ↔
      (unquote? (String.ofList ('"' :: Rune.chars (rest.take (stringLiteral rest).more)))).isSome = true := by
  generalize hbody : rest.take (stringLiteral rest).more = body
  have hle : (stringLiteral rest).more ≤ rest.length := length_quotedBody_le (by decide) (by decide) rest
  have hlength : body.length = (stringLiteral rest).more := by rw [← hbody, List.length_take, Nat.min_eq_left hle]
  have hrest : body ++ rest.drop (stringLiteral rest).more = rest := by rw [← hbody, List.take_append_drop]
  -- Cut off from the rest, the literal is measured the same.
  have halone : stringLiteral (body ++ []) = stringLiteral (body ++ rest.drop (stringLiteral rest).more) :=
    stringLiteral_append (by rw [hrest, hlength]) (.inr fun _ => nofun)
  rw [hrest, List.append_nil, ← stringLiteral_chars] at halone
  rw [unquote?_string_iff, ← stringLiteral_eq_iff, halone]
  exact (Extent.eq_iff rfl (by simp [Rune.chars, hlength])).symm

/-- A character literal has no fault if its text can be read. -/
theorem fault_charLiteral_iff (rest : List Rune) :
    (charLiteral rest).fault = none ↔
      (unquote? (String.ofList (charMark :: Rune.chars (rest.take (charLiteral rest).more)))).isSome = true := by
  generalize hbody : rest.take (charLiteral rest).more = body
  have hle : (charLiteral rest).more ≤ rest.length := length_quotedBody_le (by decide) (by decide) rest
  have hlength : body.length = (charLiteral rest).more := by rw [← hbody, List.length_take, Nat.min_eq_left hle]
  have hrest : body ++ rest.drop (charLiteral rest).more = rest := by rw [← hbody, List.take_append_drop]
  have halone : charLiteral (body ++ []) = charLiteral (body ++ rest.drop (charLiteral rest).more) :=
    charLiteral_append (by rw [hrest, hlength]) (.inr fun _ => nofun)
  rw [hrest, List.append_nil, ← charLiteral_chars] at halone
  rw [unquote?_char_iff, ← charLiteral_eq_iff, halone]
  exact (Extent.eq_iff rfl (by simp [Rune.chars, hlength])).symm

/-! ### Ends of raw strings and comments -/

theorem lengthThrough?_eq_some {mark : Char} {rs : List Rune} {n : Nat} (h : lengthThrough? mark rs = some n) :
    ∃ front, Rune.chars (rs.take n) = front ++ [mark] := by
  induction rs generalizing n with
  | nil => cases h
  | cons r rs ih =>
      rw [lengthThrough?] at h
      split at h
      · next hr =>
          obtain rfl := Option.some.inj h
          exact ⟨[], by simp [Rune.chars, hr]⟩
      · obtain ⟨m, hm, rfl⟩ := Option.map_eq_some_iff.1 h
        obtain ⟨front, hfront⟩ := ih hm
        exact ⟨r.char :: front, congrArg (r.char :: ·) hfront⟩

theorem notMem_of_lengthThrough? {mark : Char} {rs : List Rune} (h : lengthThrough? mark rs = none) :
    mark ∉ Rune.chars rs := by
  induction rs with
  | nil => exact List.not_mem_nil
  | cons r rs ih =>
      rw [lengthThrough?] at h
      split at h
      · cases h
      · next hr => exact List.not_mem_cons_of_ne_of_not_mem (Ne.symm hr) (ih (Option.map_eq_none_iff.1 h))

/-- A raw string literal has no fault if its text can be read. -/
theorem fault_rawString_iff (rest : List Rune) :
    (rawString rest).fault = none ↔
      (unquote? (String.ofList (rawMark :: Rune.chars (rest.take (rawString rest).more)))).isSome = true := by
  rw [unquote?_raw_iff]
  cases hlength : lengthThrough? rawMark rest with
  | some n => simpa [rawString, hlength] using lengthThrough?_eq_some hlength
  | none =>
      simp only [rawString, hlength, List.take_length, reduceCtorEq, false_iff]
      rintro ⟨body, hbody⟩
      exact notMem_of_lengthThrough? hlength (by simp [hbody])

theorem lengthThroughEnd?_eq_some {rs : List Rune} {n : Nat} (h : lengthThroughEnd? rs = some n) :
    ∃ front, Rune.chars (rs.take n) = front ++ ['*', '/'] := by
  induction rs generalizing n with
  | nil => cases h
  | cons r rs ih =>
      rw [lengthThroughEnd?] at h
      split at h
      · next hend =>
          obtain rfl := Option.some.inj h
          obtain ⟨hr, hnext⟩ := hend
          obtain ⟨x, hx, hchar⟩ := Option.map_eq_some_iff.1 hnext
          obtain ⟨rest, rfl⟩ := List.head?_eq_some_iff.1 hx
          exact ⟨[], by simp [Rune.chars, hr, hchar]⟩
      · obtain ⟨m, hm, rfl⟩ := Option.map_eq_some_iff.1 h
        obtain ⟨front, hfront⟩ := ih hm
        exact ⟨r.char :: front, congrArg (r.char :: ·) hfront⟩

theorem ne_of_lengthThroughEnd? {rs : List Rune} (h : lengthThroughEnd? rs = none) (front back : List Char) :
    Rune.chars rs ≠ front ++ '*' :: '/' :: back := by
  induction rs generalizing front with
  | nil => exact fun heq => by simp [Rune.chars] at heq
  | cons r rs ih =>
      rw [lengthThroughEnd?] at h
      split at h
      · cases h
      · next hopen =>
          intro heq
          cases front with
          | nil =>
              obtain ⟨hr, hrs⟩ := List.cons.inj heq
              refine hopen ⟨hr, ?_⟩
              rw [← List.head?_map]
              exact congrArg List.head? hrs
          | cons c front => exact ih (Option.map_eq_none_iff.1 h) front (List.cons.inj heq).2

/-- A bracketed comment has no fault if it ends. -/
theorem fault_blockComment_iff {star : Rune} {rest : List Rune} (hstar : star.char = '*') :
    (blockComment (star :: rest)).fault = none ↔
      ¬ Token.comment.IsFlawed
        (String.ofList ('/' :: Rune.chars ((star :: rest).take (blockComment (star :: rest)).more))) := by
  simp only [Token.IsFlawed, String.toList_ofList, not_and, not_forall, not_not]
  cases hlength : lengthThroughEnd? rest with
  | some n =>
      obtain ⟨front, hfront⟩ := lengthThroughEnd?_eq_some hlength
      simp only [blockComment, List.tail_cons, hlength, true_iff, List.take_succ_cons]
      exact fun _ => ⟨front, by rw [← hfront, ← hstar]; rfl⟩
  | none =>
      simp only [blockComment, List.tail_cons, hlength, List.take_length, reduceCtorEq, false_iff, not_forall]
      refine ⟨⟨Rune.chars rest, by rw [← hstar]; rfl⟩, ?_⟩
      rintro ⟨body, hbody⟩
      exact ne_of_lengthThroughEnd? hlength body [] (List.cons.inj (List.cons.inj hbody).2).2

/-! ### Verdicts -/

/-- What a lexeme is, and what is wrong with it. -/
inductive Verdict : Lexeme → Prop
  /-- Nothing is wrong with it, and all its runes are characters other than the replacement character. -/
  | quiet {l : Lexeme} (hfault : l.fault = none)
      (hkind : ∀ t, l.kind = .token t → t ≠ .illegal ∧ t.holdsText = false)
      (hplain : ∀ r ∈ l.runes, r.char ≠ Text.replacement) : Verdict l
  /-- No number, though it looks like one. -/
  | number {l : Lexeme} (hkind : l.kind = .token .illegal) (hfault : l.fault = some .invalidNumber)
      (hplain : ∀ r ∈ l.runes, r.char ≠ Text.replacement) : Verdict l
  /-- A character that belongs to no token. -/
  | stray (c : Char) : Verdict
      { kind := .token .illegal, runes := [.scalar c],
        fault := some (if c = Rune.bom then .invalidBom else .invalidCharacter) }
  /-- A byte that starts no character, reported when it was read. -/
  | malformed : Verdict { kind := .token .illegal, runes := [.malformed] }
  /-- A string, a character or a comment. -/
  | text {l : Lexeme} {t : Token} {r : Rune} {rs : List Rune} (hkind : l.kind = .token t) (ht : t.holdsText = true)
      (hrunes : l.runes = r :: rs) (hfirst : r.char ≠ Text.replacement)
      (hfault : l.fault = none ↔ ¬ t.IsFlawed (Rune.toString l.runes)) : Verdict l

/-- The lexeme of some extent. -/
def Extent.cut (e : Extent) (r : Rune) (rest : List Rune) : Lexeme :=
  { kind := e.kind, runes := r :: rest.take e.more, fault := e.fault }

theorem Verdict.of_unquote? {l : Lexeme} {t : Token} {r : Rune} {rs : List Rune} (hkind : l.kind = .token t)
    (ht : t = .lit .string ∨ t = .lit .char) (hrunes : l.runes = r :: rs) (hfirst : r.char ≠ Text.replacement)
    (hfault : l.fault = none ↔ (unquote? (String.ofList (r.char :: Rune.chars rs))).isSome = true) : Verdict l := by
  have hflawed : t.IsFlawed (Rune.toString l.runes) ↔ unquote? (String.ofList (r.char :: Rune.chars rs)) = none := by
    rw [hrunes]
    rcases ht with rfl | rfl <;> rfl
  refine .text hkind (by rcases ht with rfl | rfl <;> rfl) hrunes hfirst (hfault.trans ?_)
  rw [hflawed, Option.isSome_iff_ne_none]

theorem lookup_quiet (s : String) : Token.lookup s ≠ .illegal ∧ (Token.lookup s).holdsText = false := by
  unfold Token.lookup
  cases Keyword.ofText? s with
  | none => exact ⟨nofun, rfl⟩
  | some k => exact ⟨nofun, rfl⟩

theorem verdict_word {r : Rune} {rest : List Rune} (hr : opensWord r.char = true) :
    Verdict ((word r rest).cut r rest) := by
  have hreplacement : continuesWord Text.replacement = false := by decide +kernel
  have hplain : ∀ c, continuesWord c = true → c ≠ Text.replacement := by
    rintro c hc rfl
    rw [hreplacement] at hc
    cases hc
  refine .quiet rfl (fun t ht => ?_) fun x hx => hplain _ ?_
  · obtain rfl := LexemeKind.token.inj ht
    exact lookup_quiet _
  · rcases List.mem_cons.1 hx with rfl | hx
    · simp [continuesWord, hr]
    · rw [show rest.take (word r rest).more = rest.takeWhile (continuesWord ·.char) from
        (List.prefix_iff_eq_take.1 (List.takeWhile_prefix _)).symm] at hx
      exact List.all_eq_true.1 List.all_takeWhile x hx

theorem plain_numberTail (letter previous : Char) (rs : List Rune) :
    ∀ x ∈ rs.take (numberTail letter previous rs), x.char ≠ Text.replacement := by
  have hletter (follows : Option Char) (previous : Char) :
      continuesNumber letter previous Text.replacement follows = false := rfl
  induction rs generalizing previous with
  | nil => exact fun x hx => by cases hx
  | cons r rs ih =>
      have hstep : numberTail letter previous (r :: rs) =
          if continuesNumber letter previous r.char (rs.head?.map Rune.char) then numberTail letter r.char rs + 1
          else 0 := by
        rw [numberTail]
        rfl
      rw [hstep]
      split
      · next hcontinues =>
          intro x hx
          rcases List.mem_cons.1 hx with rfl | hx
          · intro heq
            rw [heq, hletter] at hcontinues
            cases hcontinues
          · exact ih r.char x hx
      · exact fun x hx => by cases hx

theorem verdict_number {r : Rune} {rest : List Rune}
    (h : (isDigit r.char || (r.char == '.' && (rest.head?.map Rune.char).any isDigit)) = true) :
    Verdict ((number r rest).cut r rest) := by
  have hdigit {c : Char} (hc : isDigit c = true) : c ≠ Text.replacement := by
    rintro rfl
    revert hc
    decide
  have hmore : (number r rest).more = if r.char = '.' then numberTail 'e' '0' rest.tail + 1
      else numberTail (if r.char == '0' && rest.head?.any (·.char.toLower == 'x') then 'p' else 'e') r.char rest := by
    unfold number
    dsimp only
    split <;> rfl
  have hplain : ∀ x ∈ ((number r rest).cut r rest).runes, x.char ≠ Text.replacement := by
    intro x hx
    rcases List.mem_cons.1 hx with rfl | hx
    · by_cases hpoint : x.char = '.'
      · rw [hpoint]
        decide
      · exact hdigit (by simpa [hpoint] using h)
    · rw [hmore] at hx
      split at hx
      · next hpoint =>
          cases rest with
          | nil => cases hx
          | cons d rest =>
              rcases List.mem_cons.1 hx with rfl | hx
              · have hfirst : isDigit '.' = false := by decide
                exact hdigit (by simpa [hpoint, hfirst] using h)
              · exact plain_numberTail _ _ _ x hx
      · exact plain_numberTail _ _ _ x hx
  have hclass :
      (∃ c, (Token.lit c).holdsText = false ∧ (number r rest).kind = .token (.lit c) ∧ (number r rest).fault = none) ∨
      (number r rest).kind = .token .illegal ∧ (number r rest).fault = some .invalidNumber := by
    unfold number
    dsimp only
    split
    · next c hc => exact .inl ⟨c, holdsText_numberClass? hc, rfl, rfl⟩
    · exact .inr ⟨rfl, rfl⟩
  obtain ⟨c, htext, hkind, hfault⟩ | ⟨hkind, hfault⟩ := hclass
  · refine .quiet hfault (fun t ht => ?_) hplain
    obtain rfl := LexemeKind.token.inj (hkind.symm.trans ht)
    exact ⟨nofun, htext⟩
  · exact .number hkind hfault hplain

theorem verdict_lineComment {r : Rune} {rest : List Rune} (hr : r.char = '/')
    (hrest : rest.head?.map Rune.char = some '/') : Verdict ((lineComment rest).cut r rest) := by
  refine .text (t := .comment) rfl rfl rfl (by rw [hr]; decide) (iff_of_true rfl ?_)
  rintro ⟨hopens, -⟩
  obtain ⟨x, hx, hchar⟩ := Option.map_eq_some_iff.1 hrest
  obtain ⟨rest, rfl⟩ := List.head?_eq_some_iff.1 hx
  have hmore : 0 < (lineComment (x :: rest)).more := by simp [lineComment, hchar]
  obtain ⟨n, hn⟩ := Nat.exists_eq_add_one.2 hmore
  rw [Extent.cut, hn] at hopens
  simp [Rune.toString, Rune.chars, hr, hchar] at hopens

theorem verdict_blockComment {r : Rune} {rest : List Rune} (hr : r.char = '/')
    (hrest : rest.head?.map Rune.char = some '*') : Verdict ((blockComment rest).cut r rest) := by
  obtain ⟨star, hstar, hchar⟩ := Option.map_eq_some_iff.1 hrest
  obtain ⟨rest, rfl⟩ := List.head?_eq_some_iff.1 hstar
  have hkind : (blockComment (star :: rest)).kind = .token .comment := by
    unfold blockComment
    split <;> rfl
  refine .text (t := .comment) hkind rfl rfl (by rw [hr]; decide) ?_
  have hfault := @fault_blockComment_iff star rest hchar
  rw [← hr] at hfault
  exact hfault

theorem verdict_operatorOrStray (r : Rune) (rest : List Rune) : Verdict ((operatorOrStray r rest).cut r rest) := by
  cases hfound : operator? (r :: rest) with
  | some found =>
      obtain ⟨o, n⟩ := found
      have hspells := operator?_spells hfound
      rw [operatorOrStray, hfound]
      refine .quiet rfl (fun t ht => ?_) fun x hx hreplacement => ?_
      · obtain rfl := LexemeKind.token.inj ht
        exact ⟨by simp, rfl⟩
      · refine o.replacement_not_mem_text ?_
        rw [← hspells, Rune.toString, String.toList_ofList, ← hreplacement]
        exact List.mem_map_of_mem hx
  | none =>
      rw [operatorOrStray, hfound]
      cases r with
      | malformed => exact .malformed
      | scalar c =>
          have hfault : (if Rune.scalar c = .malformed then none
              else if Rune.scalar c = .scalar Rune.bom then some .invalidBom else some .invalidCharacter) =
              some (if c = Rune.bom then LexicalFault.invalidBom else .invalidCharacter) := by
            rw [if_neg (by simp)]
            simp only [Rune.scalar.injEq]
            split <;> rfl
          dsimp only
          rw [hfault]
          exact .stray c

theorem verdict_rawString {r : Rune} {rest : List Rune} (hr : r.char = rawMark) :
    Verdict ((rawString rest).cut r rest) := by
  have hkind : (rawString rest).kind = .token (.lit .string) := by
    unfold rawString
    split <;> rfl
  refine .of_unquote? hkind (.inl rfl) rfl (by rw [hr]; decide) ?_
  rw [hr]
  exact fault_rawString_iff rest

theorem verdict_measure (r : Rune) (rest : List Rune) : Verdict ((measure r rest).cut r rest) := by
  unfold measure
  dsimp only
  split
  · next hnewline =>
      refine .quiet rfl nofun fun x hx => ?_
      obtain rfl : x = r := by simpa [Extent.cut] using hx
      rw [hnewline]
      decide
  split
  · next hblank =>
      refine .quiet rfl nofun fun x hx hreplacement => ?_
      have hall : isBlank x.char = true := by
        rcases List.mem_cons.1 hx with rfl | hx
        · exact hblank
        · rw [show rest.take _ = rest.takeWhile (isBlank ·.char) from
            (List.prefix_iff_eq_take.1 (List.takeWhile_prefix _)).symm] at hx
          exact List.all_eq_true.1 List.all_takeWhile x hx
      rw [hreplacement] at hall
      revert hall
      decide
  split
  · next hword => exact verdict_word hword
  split
  · next hnumber => exact verdict_number hnumber
  split
  · next hline => exact verdict_lineComment hline.1 hline.2
  split
  · next hblock => exact verdict_blockComment hblock.1 hblock.2
  split
  · next hr =>
      refine .of_unquote? (t := .lit .string) rfl (.inl rfl) rfl (by rw [hr]; decide) ?_
      rw [hr]
      exact fault_stringLiteral_iff rest
  split
  · next hr => exact verdict_rawString hr
  split
  · next hr =>
      refine .of_unquote? (t := .lit .char) rfl (.inr rfl) rfl (by rw [hr]; decide) ?_
      rw [hr]
      exact fault_charLiteral_iff rest
  · exact verdict_operatorOrStray r rest

/-- There is a verdict on every lexeme of a text. -/
theorem verdict_of_mem_split {rs : List Rune} {l : Lexeme} (h : l ∈ split rs) : l.Verdict := by
  induction rs using split.induct with
  | case1 => simp [split] at h
  | case2 r rest extent ih =>
      rw [split] at h
      rcases List.mem_cons.1 h with rfl | h
      · exact verdict_measure r rest
      · exact ih h

end Lexeme

end GoSource
