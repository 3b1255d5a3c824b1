import GoSource.TokenStream
import GoSource.Literal.Integer
import Mathlib.Data.List.Basic

/-!
# Words

A text that is written piece by piece is cut into the same pieces again, if no piece can be read on into the
next one.

* **`Lexeme.Lexes`**: before some rest, characters are cut into lexemes that carry given words.
* **`Lexes.append`**: pieces are cut one after another.
* **`lexes_keyword`**, **`lexes_ident`**, **`lexes_operator`**, **`lexes_number`**, **`lexes_blank`**: the pieces.
* **`integerValue?_repr`**: a number in decimal digits has its value.
-/

namespace GoSource

/-- A token and the text that it carries. -/
abbrev Word := Token × String

theorem Keyword.ofText?_text (k : Keyword) : ofText? k.text = some k := by
  cases k <;> decide

theorem Operator.ofText?_text (o : Operator) : ofText? o.text = some o := by
  cases o <;> decide

@[simp] theorem Rune.char_scalar (c : Char) : (Rune.scalar c).char = c := rfl

namespace Lexeme

/-- The word of a lexeme, if it is a token. -/
def word? (l : Lexeme) : Option Word :=
  match l.kind with
  | .token t => some (t, l.literal)
  | _ => none

/-- A lexeme without a fault that is no line end and no comment. -/
structure Plain (l : Lexeme) : Prop where
  fault_eq : l.fault = none
  ne_newline : l.kind ≠ .newline
  ne_comment : l.kind ≠ .token .comment

/-- Before `rest`, the characters `cs` are cut into plain lexemes that carry the words `ws`. -/
def Lexes (cs : List Char) (ws : List Word) (rest : List Char) : Prop :=
  ∃ ls, split ((cs ++ rest).map .scalar) = ls ++ split (rest.map .scalar) ∧ (∀ l ∈ ls, l.Plain) ∧
    ls.filterMap word? = ws

theorem Lexes.nil (rest : List Char) : Lexes [] [] rest :=
  ⟨[], rfl, by simp, rfl⟩

theorem Lexes.append {cs ds rest : List Char} {ws vs : List Word} (h : Lexes cs ws (ds ++ rest))
    (h' : Lexes ds vs rest) : Lexes (cs ++ ds) (ws ++ vs) rest := by
  obtain ⟨ls, hsplit, hplain, rfl⟩ := h
  obtain ⟨ks, hsplit', hplain', rfl⟩ := h'
  refine ⟨ls ++ ks, ?_, ?_, List.filterMap_append⟩
  · rw [List.append_assoc, hsplit, hsplit', List.append_assoc]
  · intro l hl
    rcases List.mem_append.1 hl with hl | hl
    · exact hplain l hl
    · exact hplain' l hl

/-- A piece that is measured as a whole is one lexeme. -/
theorem Lexes.of_measure {c : Char} {cs rest : List Char} {kind : LexemeKind}
    (hmeasure : measure (.scalar c) ((cs ++ rest).map .scalar) = { kind, more := cs.length })
    (hplain : Plain { kind, runes := (c :: cs).map .scalar }) :
    Lexes (c :: cs) (word? { kind, runes := (c :: cs).map .scalar }).toList rest := by
  refine ⟨[{ kind, runes := (c :: cs).map .scalar }], ?_, by simpa using hplain, ?_⟩
  · rw [List.cons_append, List.map_cons, split, hmeasure]
    simp only [List.map_append, List.singleton_append, List.cons.injEq]
    refine ⟨?_, ?_⟩
    · rw [List.take_left' (by simp)]
      rfl
    · rw [List.drop_left' (by simp)]
  · rw [List.filterMap_cons]
    cases word? { kind, runes := (c :: cs).map .scalar } <;> rfl

/-! ### Words and blanks -/

/-- A text that does not continue a word. -/
def Breaks (rest : List Char) : Prop :=
  ∀ c ∈ rest.head?, continuesWord c = false

theorem breaks_cons {c : Char} (h : continuesWord c = false) (rest : List Char) : Breaks (c :: rest) := by
  intro d hd
  obtain rfl : c = d := by simpa using hd
  exact h

theorem chars_map_scalar (cs : List Char) : Rune.chars (cs.map .scalar) = cs := by
  induction cs with
  | nil => rfl
  | cons c cs ih => exact congrArg (c :: ·) ih

theorem toString_map_scalar (cs : List Char) : Rune.toString (cs.map .scalar) = String.ofList cs := by
  rw [Rune.toString, chars_map_scalar]

theorem ne_of_opensWord {c d : Char} (h : opensWord c = true) (hd : opensWord d = false) : c ≠ d := by
  rintro rfl
  rw [h] at hd
  cases hd

theorem takeWhile_continuesWord {cs rest : List Char} (hcs : ∀ d ∈ cs, continuesWord d = true)
    (hrest : Breaks rest) :
    ((cs ++ rest).map Rune.scalar).takeWhile (continuesWord ·.char) = cs.map .scalar := by
  rw [List.map_append, List.takeWhile_append_of_pos (by simpa using hcs)]
  cases rest with
  | nil => simp
  | cons d rest =>
      have hd : continuesWord d = false := hrest d rfl
      rw [List.map_cons, List.takeWhile_cons_of_neg (by simp [hd]), List.append_nil]

theorem measure_word {c : Char} {cs rest : List Char} (hc : opensWord c = true)
    (hcs : ∀ d ∈ cs, continuesWord d = true) (hrest : Breaks rest) :
    measure (.scalar c) ((cs ++ rest).map .scalar) =
      { kind := .token (.lookup (String.ofList (c :: cs))), more := cs.length } := by
  have hnewline : c ≠ '\n' := ne_of_opensWord hc (by decide)
  have hblank : isBlank c = false := by
    have hspace : c ≠ ' ' := ne_of_opensWord hc (by decide)
    have htab : c ≠ '\t' := ne_of_opensWord hc (by decide)
    have hreturn : c ≠ '\r' := ne_of_opensWord hc (by decide)
    simp [isBlank, hspace, htab, hreturn]
  have htext : Rune.toString (.scalar c :: cs.map .scalar) = String.ofList (c :: cs) :=
    toString_map_scalar (c :: cs)
  simp only [measure, Rune.char_scalar, if_neg hnewline, hblank, hc, word, takeWhile_continuesWord hcs hrest,
    htext, List.length_map]
  simp

theorem lexes_keyword (k : Keyword) {rest : List Char} (hrest : Breaks rest) :
    Lexes k.text.toList [(.kw k, "")] rest := by
  obtain ⟨c, cs, htext, hc, hall⟩ : ∃ c cs, k.text = String.ofList (c :: cs) ∧ opensWord c = true ∧
      cs.all continuesWord = true := by
    cases k <;> exact ⟨_, _, rfl, by decide +kernel, by decide +kernel⟩
  have hlookup : Token.lookup (String.ofList (c :: cs)) = .kw k := by
    rw [← htext, Token.lookup, Keyword.ofText?_text]
    rfl
  have hmeasure := measure_word hc (List.all_eq_true.1 hall) hrest
  rw [hlookup] at hmeasure
  rw [htext, String.toList_ofList]
  exact .of_measure hmeasure ⟨rfl, by simp, by simp⟩

/-- The spelling of an identifier that is no keyword. -/
structure IsIdent (name : String) : Prop where
  shape : ∃ c cs, name = String.ofList (c :: cs) ∧ opensWord c = true ∧ ∀ d ∈ cs, continuesWord d = true
  lookup : Token.lookup name = .lit .ident

theorem lexes_ident {name : String} (h : IsIdent name) {rest : List Char} (hrest : Breaks rest) :
    Lexes name.toList [(.lit .ident, name)] rest := by
  obtain ⟨⟨c, cs, rfl, hc, hcs⟩, hlookup⟩ := h
  have hmeasure := measure_word hc hcs hrest
  rw [hlookup] at hmeasure
  have hword := Lexes.of_measure hmeasure ⟨rfl, by simp, by simp⟩
  rw [word?, literal] at hword
  simp only [toString_map_scalar] at hword
  rw [String.toList_ofList]
  exact hword

/-- A blank before something that is none. -/
theorem lexes_blank {c : Char} {rest : List Char} (hc : isBlank c = false) :
    Lexes [' '] [] (c :: rest) := by
  have hmeasure : measure (.scalar ' ') (([] ++ c :: rest).map .scalar) = { kind := .blank, more := 0 } := by
    have hstop : ((c :: rest).map Rune.scalar).takeWhile (isBlank ·.char) = [] :=
      List.takeWhile_cons_of_neg (by simp [hc])
    rw [List.nil_append]
    simp only [measure, Rune.char_scalar, hstop]
    rfl
  exact @Lexes.of_measure ' ' [] (c :: rest) .blank hmeasure ⟨rfl, by simp, by simp⟩

/-! ### Operators -/

/-- Before `rest`, no operator reaches further than `o`. -/
def Longest (o : Operator) (rest : List Char) : Prop :=
  ∀ o' : Operator, o'.text.toList <+: o.text.toList ++ rest → o'.text.toList.length ≤ o.text.toList.length

theorem length_text (o : Operator) : 1 ≤ o.text.toList.length ∧ o.text.toList.length ≤ 3 := by
  cases o <;> decide

theorem operator?_of_longest {o : Operator} {rest : List Char} (h : Longest o rest) :
    operator? ((o.text.toList ++ rest).map .scalar) = some (o, o.text.toList.length) := by
  obtain ⟨hpositive, hshort⟩ := length_text o
  generalize hn : o.text.toList.length = n at hpositive hshort
  -- A prefix that is the operator is found, a longer one is none.
  have hfind (m : Nat) (hm : n ≤ m) :
      ((Operator.ofText? (Rune.toString (((o.text.toList ++ rest).map .scalar).take m))).map
        (·, (((o.text.toList ++ rest).map Rune.scalar).take m).length)) =
      if m = n ∨ rest = [] then some (o, n) else none := by
    rw [← List.map_take, toString_map_scalar, List.length_map]
    split
    · rename_i hexact
      have htake : (o.text.toList ++ rest).take m = o.text.toList := by
        rcases hexact with rfl | rfl
        · exact List.take_left' hn
        · rw [List.append_nil, List.take_of_length_le (by omega)]
      rw [htake, String.ofList_toList, Operator.ofText?_text, hn]
      rfl
    · rename_i hlonger
      have hmore : n < ((o.text.toList ++ rest).take m).length := by
        have hrest : rest.length ≠ 0 := by simpa using fun h => hlonger (.inr h)
        rw [List.length_take, List.length_append]
        omega
      cases hfound : Operator.ofText? (String.ofList ((o.text.toList ++ rest).take m)) with
      | none => rfl
      | some o' =>
          have htext := List.find?_some hfound
          have htext : o'.text.toList = (o.text.toList ++ rest).take m := by
            rw [beq_iff_eq.1 htext, String.toList_ofList]
          have hle := h o' (htext ▸ List.take_prefix _ _)
          rw [htext] at hle
          omega
  rw [operator?, List.findSome?_cons, hfind 3 hshort]
  by_cases hrest : rest = []
  · rw [if_pos (.inr hrest)]
  · by_cases hthree : 3 = n
    · rw [if_pos (.inl hthree)]
    · rw [if_neg (not_or.2 ⟨hthree, hrest⟩), List.findSome?_cons, hfind 2 (by omega)]
      by_cases htwo : 2 = n
      · rw [if_pos (.inl htwo)]
      · rw [if_neg (not_or.2 ⟨htwo, hrest⟩), List.findSome?_cons, hfind 1 (by omega), if_pos (.inl (by omega))]

/-- Characters that open nothing but operators, before any rest. -/
def opensOperator (c : Char) : Bool :=
  c != '\n' && !isBlank c && !opensWord c && !isDigit c && c != '.' && c != '/' && c != '"' &&
    c != Literal.rawMark && c != Literal.charMark

theorem measure_operator {c : Char} {rest : List Rune} (h : opensOperator c = true) :
    measure (.scalar c) rest = operatorOrStray (.scalar c) rest := by
  simp only [opensOperator, Bool.and_eq_true, bne_iff_ne, Bool.not_eq_true', ne_eq] at h
  obtain ⟨⟨⟨⟨⟨⟨⟨⟨hnewline, hblank⟩, hword⟩, hdigit⟩, hpoint⟩, hslash⟩, hquote⟩, hraw⟩, hchar⟩ := h
  simp [measure, hnewline, hblank, hword, hdigit, hpoint, hslash, hquote, hraw, hchar]

/-- An operator is measured as it is written. -/
theorem lexes_operator {o : Operator} {rest : List Char} (hlongest : Longest o rest)
    (hopens : ∀ c cs, o.text.toList = c :: cs →
      measure (.scalar c) ((cs ++ rest).map .scalar) = operatorOrStray (.scalar c) ((cs ++ rest).map .scalar)) :
    Lexes o.text.toList [(.op o, "")] rest := by
  have hfound := operator?_of_longest hlongest
  obtain ⟨c, cs, htext⟩ := List.exists_cons_of_length_pos (length_text o).1
  have hmeasure := hopens c cs htext
  rw [htext] at hfound
  have hfound : operator? (.scalar c :: (cs ++ rest).map .scalar) = some (o, (c :: cs).length) := hfound
  rw [operatorOrStray, hfound] at hmeasure
  rw [htext]
  exact .of_measure hmeasure ⟨rfl, by simp, by simp⟩

theorem mem_all (o : Operator) : o ∈ Operator.all := by
  cases o <;> decide

/-- No operator is a longer one that starts with `o`. -/
def isClosed (o : Operator) : Bool :=
  Operator.all.all fun o' => !o.text.toList.isPrefixOf o'.text.toList || o' == o

theorem longest_of_isClosed {o : Operator} (h : isClosed o = true) (rest : List Char) : Longest o rest := by
  intro o' hprefix
  rcases List.prefix_or_prefix_of_prefix hprefix (List.prefix_append o.text.toList rest) with hshorter | hlonger
  · exact hshorter.length_le
  · have hsame := List.all_eq_true.1 h o' (mem_all o')
    rw [List.isPrefixOf_iff_prefix.2 hlonger] at hsame
    have hsame : o' = o := by simpa using hsame
    exact Nat.le_of_eq (by rw [hsame])

/-- Brackets, separators and the arrow end where they end, whatever follows. -/
theorem lexes_mark {o : Operator} (hclosed : isClosed o = true)
    (hopens : o.text.toList.head?.any opensOperator = true) (rest : List Char) :
    Lexes o.text.toList [(.op o, "")] rest := by
  refine lexes_operator (longest_of_isClosed hclosed rest) ?_
  intro c cs htext
  rw [htext] at hopens
  exact measure_operator hopens

theorem lexes_ellipsis (rest : List Char) : Lexes "...".toList [(.op .ellipsis, "")] rest := by
  refine lexes_operator (o := .ellipsis) (longest_of_isClosed (by decide) rest) ?_
  intro c cs htext
  obtain ⟨rfl, rfl⟩ : '.' = c ∧ ['.', '.'] = cs := List.cons.inj htext
  rfl

/-- A star that no equals sign follows. -/
theorem lexes_star {c : Char} (hc : c ≠ '=') (rest : List Char) : Lexes "*".toList [(.op .mul, "")] (c :: rest) := by
  refine lexes_operator (o := .mul) ?_ ?_
  · intro o' hprefix
    rw [show Operator.mul.text.toList = ['*'] from rfl] at hprefix ⊢
    by_contra hlonger
    have hassign : ∀ o' ∈ Operator.all, 1 < o'.text.toList.length → o'.text.toList.head? = some '*' →
        o'.text.toList.tail.head? = some '=' := by
      decide
    obtain ⟨d, ds, hd⟩ := List.exists_cons_of_length_pos (length_text o').1
    have hequals := hassign o' (mem_all o') (Nat.lt_of_not_le hlonger)
    rw [hd] at hprefix hequals
    obtain ⟨rfl, htail⟩ := List.cons_prefix_cons.1 hprefix
    obtain ⟨es, hes⟩ := List.head?_eq_some_iff.1 (hequals rfl)
    rw [show ds = '=' :: es from hes] at htail
    exact hc (List.cons_prefix_cons.1 htail).1.symm
  · intro d ds htext
    obtain ⟨rfl, rfl⟩ : '*' = d ∧ [] = ds := List.cons.inj htext
    exact measure_operator (by decide)

/-! ### Numbers -/

theorem numberTail_digits (letter : Char) {ds : List Char} (hds : ∀ d ∈ ds, d.isDigit = true) (prev : Char)
    (rest : List Char) :
    numberTail letter prev ((ds ++ ']' :: rest).map .scalar) = ds.length := by
  induction ds generalizing prev with
  | nil => simp [numberTail]
  | cons d ds ih =>
      have hd := hds d List.mem_cons_self
      have hpoint : d ≠ '.' := by rintro rfl; exact absurd hd (by decide)
      have hplus : d ≠ '+' := by rintro rfl; exact absurd hd (by decide)
      have hminus : d ≠ '-' := by rintro rfl; exact absurd hd (by decide)
      have halphanum : d.isAlphanum = true := by simp [Char.isAlphanum, hd]
      have hrest := ih (fun d hd => hds d (List.mem_cons_of_mem _ hd)) d
      simp [numberTail, hpoint, hplus, hminus, halphanum] at hrest ⊢
      exact hrest

end Lexeme

namespace Literal

theorem toNat_of_isDigit {d : Char} (h : d.isDigit = true) : 48 ≤ d.toNat ∧ d.toNat ≤ 57 := by
  simp only [Char.isDigit, Bool.and_eq_true, decide_eq_true_eq] at h
  exact h

theorem isDigitOf_ten {d : Char} (h : d.isDigit = true) : isDigitOf 10 d = true := by
  obtain ⟨hlow, hhigh⟩ := toNat_of_isDigit h
  have hrange : '0' ≤ d ∧ d ≤ '9' := ⟨hlow, hhigh⟩
  have hlt : d.toNat - 48 < 10 := by omega
  simp [isDigitOf, digit?, digitValue?, hrange, hlt]

theorem toLower_of_isDigit {d : Char} (h : d.isDigit = true) : d.toLower = d := by
  obtain ⟨hlow, hhigh⟩ := toNat_of_isDigit h
  have hupper : ¬ (d.val ≥ 'A'.val ∧ d.val ≤ 'Z'.val) := by
    rintro ⟨hge, -⟩
    have hge : 65 ≤ d.toNat := hge
    omega
  exact dif_neg hupper

theorem splitFirst_of_forall {p : Char → Bool} {cs : List Char} (h : ∀ c ∈ cs, p c = false) :
    splitFirst p cs = (cs, none) := by
  induction cs with
  | nil => rfl
  | cons c cs ih =>
      simp [splitFirst, h c List.mem_cons_self, ih fun c hc => h c (List.mem_cons_of_mem _ hc)]

theorem wellSeparated_of_forall {isDigit : Char → Bool} {cs : List Char} (h : ∀ c ∈ cs, isDigit c = true)
    (hunderscore : isDigit '_' = false) (after : Bool) : wellSeparated isDigit after cs = true := by
  induction cs generalizing after with
  | nil => rfl
  | cons c cs ih =>
      have hc := h c List.mem_cons_self
      have hrest := ih (fun c hc => h c (List.mem_cons_of_mem _ hc)) true
      have hne : c ≠ '_' := by
        rintro rfl
        rw [hc] at hunderscore
        cases hunderscore
      unfold wellSeparated
      split
      · rfl
      · rename_i heq
        exact absurd (List.cons.inj heq).1 hne
      · rename_i heq
        obtain ⟨rfl, rfl⟩ := List.cons.inj heq
        simp [hc, hrest]

theorem ne_of_isDigit {c d : Char} (h : c.isDigit = true) (hd : d.isDigit = false) : c ≠ d := by
  rintro rfl
  rw [h] at hd
  cases hd

/-- Decimal digits without a leading zero are an integer. -/
theorem numberClass?_digits {ds : List Char} (hne : ds ≠ []) (hds : ∀ d ∈ ds, d.isDigit = true)
    (hzero : ∀ d rest, ds ≠ '0' :: d :: rest) : numberClass? ds = some .int := by
  have hlast : ds.getLast? ≠ some 'i' := by
    intro hlast
    exact ne_of_isDigit (hds 'i' (List.mem_of_getLast? hlast)) (by decide) rfl
  have hexponent : ∀ d ∈ ds, (d.toLower == 'p' || (Radix.decimal != .hexadecimal && d.toLower == 'e')) = false := by
    intro d hd
    rw [toLower_of_isDigit (hds d hd)]
    simp [ne_of_isDigit (hds d hd) (show 'p'.isDigit = false by decide),
      ne_of_isDigit (hds d hd) (show 'e'.isDigit = false by decide)]
  have hpoint : ∀ d ∈ ds, (d == '.') = false := by
    intro d hd
    simpa using ne_of_isDigit (hds d hd) (by decide)
  have hparts : NumberParts.ofChars ds =
      { radix := .decimal, marked := false, whole := ds, fraction := none, exponent := none } := by
    unfold NumberParts.ofChars
    split
    rename_i radix marked body hbody
    split at hbody
    · rename_i d rest
      exact absurd rfl (hzero d rest)
    · obtain ⟨rfl, rfl, rfl⟩ := by simpa using hbody
      simp only [splitFirst_of_forall hexponent, splitFirst_of_forall hpoint, Option.map_none]
  have hseparated : wellSeparated (isDigitOf 10) false ds = true :=
    wellSeparated_of_forall (fun d hd => isDigitOf_ten (hds d hd)) (by decide) false
  have hdigit : ds.any (· != '_') = true := by
    obtain ⟨d, rest, rfl⟩ := List.exists_cons_of_ne_nil hne
    have hd := ne_of_isDigit (hds d List.mem_cons_self) (show '_'.isDigit = false by decide)
    simp [hd]
  have hleading (n : NumberParts) (hn : n.whole = ds) : n.leadingZeroFits = true := by
    unfold NumberParts.leadingZeroFits
    rw [hn]
    split
    · rename_i d rest
      exact absurd rfl (hzero d rest)
    · rfl
  rw [numberClass?, if_neg hlast, classify?, hparts]
  simpa [NumberParts.isWellFormed, NumberParts.exponentLetterFits, NumberParts.fractionFits,
    NumberParts.mantissaFits, NumberParts.exponentFits, NumberParts.isFloat, hleading, Radix.base, hseparated]
    using hdigit

theorem isDigit_toDigits {n : Nat} {d : Char} (h : d ∈ Nat.toDigits 10 n) : d.isDigit = true :=
  Nat.isDigit_of_mem_toDigits (by decide) (by decide) h

theorem head?_toDigits_ne_zero {n : Nat} (hn : 0 < n) : (Nat.toDigits 10 n).head? ≠ some '0' := by
  induction n using Nat.strongRecOn with
  | ind n ih =>
      by_cases hlt : n < 10
      · have hdigits : ∀ m < 10, 0 < m → m.digitChar ≠ '0' := by decide
        rw [Nat.toDigits_of_lt_base hlt]
        simpa using hdigits n hlt hn
      · have hrest := ih (n / 10) (by omega) (by omega)
        rw [Nat.toDigits_of_base_le (by decide) (by omega), List.head?_append]
        obtain ⟨d, ds, hds⟩ := List.exists_cons_of_ne_nil (Nat.toDigits_ne_nil (n := n / 10) (b := 10))
        rw [hds] at hrest ⊢
        exact hrest

/-- A number is not written with a leading zero. -/
theorem toDigits_ne_zero_cons (n : Nat) (d : Char) (rest : List Char) : Nat.toDigits 10 n ≠ '0' :: d :: rest := by
  intro h
  by_cases hn : n = 0
  · subst hn
    rw [Nat.toDigits_zero] at h
    simp at h
  · exact head?_toDigits_ne_zero (Nat.pos_of_ne_zero hn) (by rw [h]; rfl)

theorem ofDigits?_ten {ds : List Char} (h : ∀ d ∈ ds, d.isDigit = true) (acc : Nat) :
    ofDigits? 10 acc ds = some (Nat.ofDigitChars 10 ds acc) := by
  induction ds generalizing acc with
  | nil => simp [ofDigits?]
  | cons d ds ih =>
      have hd := isDigitOf_ten (h d List.mem_cons_self)
      obtain ⟨hlow, hhigh⟩ := toNat_of_isDigit (h d List.mem_cons_self)
      have hrange : '0' ≤ d ∧ d ≤ '9' := ⟨hlow, hhigh⟩
      have hdigit : digit? 10 d = some (d.toNat - 48) := by
        have hlt : d.toNat - 48 < 10 := by omega
        simp [digit?, digitValue?, hrange, hlt]
      rw [ofDigits?, hdigit, Option.bind_some, ih (fun d hd => h d (List.mem_cons_of_mem _ hd)),
        Nat.ofDigitChars_cons, Nat.mul_comm]
      rfl

/-- A number that fits a word is the value of its decimal digits. -/
theorem integerValue?_repr {n : Nat} (h : n < wordLimit) : integerValue? n.repr = some n := by
  have hdigits : n.repr.toList.filter (· != '_') = Nat.toDigits 10 n := by
    rw [Nat.toList_repr, List.filter_eq_self]
    intro d hd
    simpa using ne_of_isDigit (isDigit_toDigits hd) (by decide)
  have hword : readWord? 10 (Nat.toDigits 10 n) = some n := by
    have hvalue : ofDigits? 10 0 (Nat.toDigits 10 n) = some n := by
      rw [ofDigits?_ten fun d hd => isDigit_toDigits hd, Nat.ofDigitChars_ten_toDigits]
    unfold readWord?
    split
    · rename_i rest hplus
      exact absurd rfl (ne_of_isDigit (isDigit_toDigits (hplus ▸ List.mem_cons_self)) (by decide))
    · simp [hvalue, Nat.toDigits_ne_nil, h]
  unfold integerValue?
  rw [hdigits]
  split
  · rename_i d rest heq
    exact absurd heq (toDigits_ne_zero_cons n d rest)
  · exact hword

end Literal

namespace Lexeme

theorem isDigit_of_isDigit {d : Char} (h : d.isDigit = true) : isDigit d = true := by
  obtain ⟨hlow, hhigh⟩ := Literal.toNat_of_isDigit h
  have hrange : '0' ≤ d ∧ d ≤ '9' := ⟨hlow, hhigh⟩
  simp [isDigit, hrange]

theorem isBlank_of_isDigit {d : Char} (h : d.isDigit = true) : isBlank d = false := by
  have hspace : d ≠ ' ' := Literal.ne_of_isDigit h (by decide)
  have htab : d ≠ '\t' := Literal.ne_of_isDigit h (by decide)
  have hreturn : d ≠ '\r' := Literal.ne_of_isDigit h (by decide)
  simp [isBlank, hspace, htab, hreturn]

theorem opensWord_of_isDigit {d : Char} (h : d.isDigit = true) : opensWord d = false := by
  obtain ⟨hlow, hhigh⟩ := Literal.toNat_of_isDigit h
  have hunderscore : d ≠ '_' := Literal.ne_of_isDigit h (by decide)
  have hletter : Unicode.isLetter d = false := by
    rw [Unicode.isLetter, Unicode.letterRanges, Unicode.Ranges.covers, if_pos (by omega)]
  simp [opensWord, hunderscore, hletter]

/-- A number in decimal digits, before a bracket. -/
theorem lexes_number (n : Nat) (rest : List Char) :
    Lexes n.repr.toList [(.lit .int, n.repr)] (']' :: rest) := by
  obtain ⟨d, ds, hds⟩ := List.exists_cons_of_ne_nil (Nat.toDigits_ne_nil (n := n) (b := 10))
  have hdigits : ∀ c ∈ d :: ds, c.isDigit = true := by
    intro c hc
    exact Literal.isDigit_toDigits (hds ▸ hc)
  have hd := hdigits d List.mem_cons_self
  have hclass : Literal.numberClass? (d :: ds) = some .int :=
    Literal.numberClass?_digits (by simp) hdigits fun c rest => hds ▸ Literal.toDigits_ne_zero_cons n c rest
  have htail (letter : Char) := numberTail_digits letter (fun c hc => hdigits c (List.mem_cons_of_mem _ hc)) d rest
  have hpoint : d ≠ '.' := Literal.ne_of_isDigit hd (by decide)
  have hnumber : number (.scalar d) ((ds ++ ']' :: rest).map .scalar) =
      { kind := .token (.lit .int), more := ds.length } := by
    have htake : Rune.chars (.scalar d :: ((ds ++ ']' :: rest).map Rune.scalar).take ds.length) = d :: ds := by
      rw [List.map_append, List.take_left' (by simp)]
      exact chars_map_scalar (d :: ds)
    simp only [number, Rune.char_scalar, if_neg hpoint, htail, htake, hclass]
  have hmeasure : measure (.scalar d) ((ds ++ ']' :: rest).map .scalar) =
      { kind := .token (.lit .int), more := ds.length } := by
    have hnewline : d ≠ '\n' := Literal.ne_of_isDigit hd (by decide)
    rw [measure, Rune.char_scalar, if_neg hnewline, isBlank_of_isDigit hd, opensWord_of_isDigit hd,
      isDigit_of_isDigit hd]
    simpa using hnumber
  rw [Nat.toList_repr, Nat.repr_eq_ofList_toDigits, hds]
  have hword := Lexes.of_measure hmeasure ⟨rfl, by simp, by simp⟩
  rw [word?, literal] at hword
  simp only [toString_map_scalar] at hword
  exact hword

end Lexeme

end GoSource
