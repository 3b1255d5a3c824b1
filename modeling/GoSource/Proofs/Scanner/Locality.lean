import GoSource.Proofs.Scanner.Quoted
import GoSource.Proofs.Scanner.Words
import Mathlib.Order.WellFounded

/-!
# Lexemes do not look far ahead

Where a lexeme ends, and what it is, depends on its own characters and on little of what follows them.

* **`Ends`**: nothing follows, or a separator.
* **`Alike`**: two texts between which the end of a lexeme cannot tell: the second one is no text or starts with a
  separator, or both start with the same character and then are alike to a lexeme that looks at one more.
* **`Measured`**: a lexeme, measured before some text.
* **`Measured.alike`**: a lexeme that is neither blank nor a comment is measured the same before two such texts.
* **`measured_induction`**: induction along the lexemes of a text.
-/

namespace GoSource

namespace Lexeme

/-! ### What follows a lexeme -/

/-- Blanks and line ends. -/
def isSpace (c : Char) : Bool :=
  isBlank c || c == '\n'

/-- Nothing follows, or a separator. -/
def Ends (cs : List Char) : Prop :=
  ∀ c ∈ cs.head?, isSpace c = true

/-- A lexeme that ends before `tail` cannot tell `tail` from `rest`: it ends before every separator, and otherwise it
looks at two characters.  A slash can stand there for a comment in whose place `rest` has a separator. -/
inductive Alike : List Char → List Char → Prop
  | ends {tail rest : List Char} (h : Ends rest) : Alike tail rest
  | cons (c : Char) {tail rest : List Char} (h : rest.head? = tail.head? ∨ tail.head? = some '/' ∧ Ends rest) :
      Alike (c :: tail) (c :: rest)

theorem Ends.any_head? {rest : List Char} (h : Ends rest) {p : Char → Bool}
    (hp : ∀ c, isSpace c = true → p c = false) : rest.head?.any p = false := by
  cases rest with
  | nil => rfl
  | cons c rest => exact hp c (h c rfl)

/-- What does not follow a lexeme does not follow it before a text that is alike either, if it is no separator. -/
theorem Alike.any_head? {tail rest : List Char} (h : Alike tail rest) (body : List Char) {p : Char → Bool}
    (hp : ∀ c, isSpace c = true → p c = false) (htail : (body ++ tail).head?.any p = false) :
    (body ++ rest).head?.any p = false := by
  cases body with
  | cons b body => exact htail
  | nil =>
      cases h with
      | ends h => exact h.any_head? hp
      | cons c h => exact htail

theorem Ends.head?_ne {rest : List Char} (h : Ends rest) {c : Char} (hc : isSpace c = false) :
    rest.head? ≠ some c := by
  intro hhead
  rw [h c hhead] at hc
  cases hc

theorem Alike.head?_ne {body tail rest : List Char} (h : Alike tail rest) {c : Char} (hc : isSpace c = false)
    (htail : (body ++ tail).head? ≠ some c) : (body ++ rest).head? ≠ some c := by
  cases body with
  | cons b body => exact htail
  | nil =>
      cases h with
      | ends h => exact h.head?_ne hc
      | cons d h => exact htail

/-- Something holds of every separator if it holds of each of them. -/
theorem forall_isSpace {p : Char → Prop} (h : p ' ' ∧ p '\t' ∧ p '\r' ∧ p '\n') (c : Char)
    (hc : isSpace c = true) : p c := by
  obtain ⟨hspace, htab, hreturn, hnewline⟩ := h
  have hcases : c = ' ' ∨ c = '\t' ∨ c = '\r' ∨ c = '\n' := by
    simpa [isSpace, isBlank, or_assoc] using hc
  rcases hcases with rfl | rfl | rfl | rfl
  · exact hspace
  · exact htab
  · exact hreturn
  · exact hnewline

section

variable {body tail rest : List Char}

/-- A piece that ends where a property ends. -/
theorem of_length_takeWhile {p : Char → Bool} (h : ((body ++ tail).takeWhile p).length = body.length) :
    (∀ c ∈ body, p c = true) ∧ tail.head?.any p = false := by
  induction body with
  | nil =>
      refine ⟨nofun, ?_⟩
      cases tail with
      | nil => rfl
      | cons c tail =>
          by_contra hc
          have hc : p c = true := by simpa using hc
          simp [hc] at h
  | cons b body ih =>
      cases hb : p b with
      | false => simp [hb] at h
      | true =>
          have hbody : ((body ++ tail).takeWhile p).length = body.length := by simpa [hb] using h
          obtain ⟨hall, htail⟩ := ih hbody
          exact ⟨by simpa using ⟨hb, hall⟩, htail⟩

theorem takeWhile_append_of_any_head? {p : Char → Bool} (hbody : ∀ c ∈ body, p c = true)
    (hrest : rest.head?.any p = false) : (body ++ rest).takeWhile p = body := by
  rw [List.takeWhile_append_of_pos hbody]
  cases rest with
  | nil => simp
  | cons c rest => rw [List.takeWhile_cons_of_neg (by simpa using hrest), List.append_nil]

theorem takeWhile_alike {p : Char → Bool} (hp : ∀ c, isSpace c = true → p c = false)
    (hlength : ((body ++ tail).takeWhile p).length = body.length) (halike : Alike tail rest) :
    (body ++ rest).takeWhile p = (body ++ tail).takeWhile p := by
  obtain ⟨hbody, htail⟩ := of_length_takeWhile hlength
  have hrest : rest.head?.any p = false := halike.any_head? [] hp htail
  rw [takeWhile_append_of_any_head? hbody htail, takeWhile_append_of_any_head? hbody hrest]

theorem continuesWord_eq_false (c : Char) (h : isSpace c = true) : continuesWord c = false :=
  forall_isSpace (p := fun c => continuesWord c = false) (by decide) c h

theorem word_map_scalar (c : Char) (cs : List Char) :
    word (.scalar c) (cs.map .scalar) =
      { kind := .token (.lookup (String.ofList (c :: cs.takeWhile continuesWord)))
        more := (cs.takeWhile continuesWord).length } := by
  have htake : (cs.map Rune.scalar).takeWhile (continuesWord ·.char) =
      (cs.takeWhile continuesWord).map .scalar := List.takeWhile_map
  have htext := toString_map_scalar (c :: cs.takeWhile continuesWord)
  rw [List.map_cons] at htext
  simp only [word, htake, htext, List.length_map]

theorem word_alike {c : Char} (hlength : (word (.scalar c) ((body ++ tail).map .scalar)).more = body.length)
    (halike : Alike tail rest) :
    word (.scalar c) ((body ++ rest).map .scalar) = word (.scalar c) ((body ++ tail).map .scalar) := by
  rw [word_map_scalar] at hlength ⊢
  rw [word_map_scalar, takeWhile_alike continuesWord_eq_false hlength halike]

/-! ### Numbers -/

/-- Whether a character continues a number, where `follows` comes after it. -/
def continuesNumber (letter previous c : Char) (follows : Option Char) : Bool :=
  if c = '.' then follows != some '.'
  else if c = '+' ∨ c = '-' then previous.toLower == letter
  else c.isAlphanum || c == '_'

theorem numberTail_cons (letter previous c : Char) (cs : List Char) :
    numberTail letter previous ((c :: cs).map .scalar) =
      if continuesNumber letter previous c cs.head? then numberTail letter c (cs.map .scalar) + 1 else 0 := by
  have hhead : (cs.map Rune.scalar).head?.map Rune.char = cs.head? := by
    cases cs <;> rfl
  rw [List.map_cons, numberTail]
  simp only [Rune.char_scalar, hhead, continuesNumber]
  rfl

theorem continuesNumber_eq_false (letter previous : Char) (follows : Option Char) (c : Char)
    (h : isSpace c = true) : continuesNumber letter previous c follows = false :=
  forall_isSpace (p := fun c => continuesNumber letter previous c follows = false) (by simp [continuesNumber]) c h

theorem continuesNumber_congr {letter previous c : Char} {follows follows' : Option Char}
    (h : c = '.' → (follows' = some '.' ↔ follows = some '.')) :
    continuesNumber letter previous c follows' = continuesNumber letter previous c follows := by
  unfold continuesNumber
  split
  · next hc =>
      rw [Bool.eq_iff_iff, bne_iff_ne, bne_iff_ne]
      exact not_congr (h hc)
  · rfl

theorem numberTail_alike {letter previous : Char}
    (hlength : numberTail letter previous ((body ++ tail).map .scalar) = body.length) (halike : Alike tail rest) :
    numberTail letter previous ((body ++ rest).map .scalar) = body.length := by
  induction body generalizing previous with
  | nil =>
      cases halike with
      | ends h =>
          cases rest with
          | nil => rfl
          | cons c rest =>
              rw [List.nil_append, numberTail_cons, continuesNumber_eq_false _ _ _ c (h c rfl)]
              rfl
      | @cons c tail rest h =>
          rw [List.nil_append, numberTail_cons] at hlength ⊢
          cases hflag : continuesNumber letter previous c tail.head? with
          | true => simp [hflag] at hlength
          | false =>
              have hpoint : c = '.' → (rest.head? = some '.' ↔ tail.head? = some '.') := by
                rintro rfl
                rcases h with h | ⟨hslash, hends⟩
                · rw [h]
                · rw [hslash]
                  exact ⟨fun h => absurd h (hends.head?_ne (by decide)), nofun⟩
              rw [continuesNumber_congr hpoint, hflag]
              rfl
  | cons b body ih =>
      rw [List.cons_append, numberTail_cons] at hlength ⊢
      cases hflag : continuesNumber letter previous b (body ++ tail).head? with
      | false =>
          rw [hflag] at hlength
          cases hlength
      | true =>
          have hpoint : b = '.' → ((body ++ rest).head? = some '.' ↔ (body ++ tail).head? = some '.') := by
            rintro rfl
            cases body with
            | cons d body => rfl
            | nil =>
                have htail : tail.head? ≠ some '.' := by
                  rw [continuesNumber, if_pos rfl, bne_iff_ne] at hflag
                  exact hflag
                exact iff_of_false (halike.head?_ne (by decide) htail) htail
          rw [hflag, if_pos rfl] at hlength
          rw [continuesNumber_congr hpoint, hflag, if_pos rfl, ih (Nat.succ.inj hlength)]
          rfl

/-- The letter that announces hexadecimal digits after a zero. -/
def marksHex (c : Char) : Bool :=
  c.toLower == 'x'

/-- The letter that opens the exponent of a number which starts with `c`. -/
def exponentLetter (c : Char) (cs : List Char) : Char :=
  if c == '0' && cs.head?.any marksHex then 'p' else 'e'

/-- The number of characters after `c` that belong to a number. -/
def numberLength (c : Char) (cs : List Char) : Nat :=
  if c = '.' then numberTail 'e' '0' (cs.tail.map .scalar) + 1
  else numberTail (exponentLetter c cs) c (cs.map .scalar)

theorem number_map_scalar (c : Char) (cs : List Char) :
    number (.scalar c) (cs.map .scalar) =
      match Literal.numberClass? (c :: cs.take (numberLength c cs)) with
      | some class_ => { kind := .token (.lit class_), more := numberLength c cs }
      | none => { kind := .token .illegal, more := numberLength c cs, fault := some .invalidNumber } := by
  have hhead : (cs.map Rune.scalar).head?.any (·.char.toLower == 'x') = cs.head?.any marksHex := by
    cases cs <;> rfl
  have hmore : (if c = '.' then numberTail 'e' '0' (cs.map Rune.scalar).tail + 1
      else numberTail (exponentLetter c cs) c (cs.map .scalar)) = numberLength c cs := by
    rw [numberLength, List.map_tail]
  have htext (n : Nat) : Rune.chars (.scalar c :: (cs.map .scalar).take n) = c :: cs.take n := by
    rw [← List.map_take]
    exact chars_map_scalar (c :: cs.take n)
  simp only [number, Rune.char_scalar, hhead, htext]
  rewrite [← exponentLetter, hmore]
  rfl

theorem more_number (c : Char) (cs : List Char) :
    (number (.scalar c) (cs.map .scalar)).more = numberLength c cs := by
  rw [number_map_scalar]
  split <;> rfl

theorem continuesNumber_of_marksHex {d : Char} (h : marksHex d = true) (letter previous : Char)
    (follows : Option Char) : continuesNumber letter previous d follows = true := by
  have hlower : d.toLower = 'x' := by simpa [marksHex] using h
  have halphanum : d.isAlphanum = true := by
    by_cases hupper : d.val ≥ 'A'.val ∧ d.val ≤ 'Z'.val
    · have hupper : d.isUpper = true := decide_eq_true hupper
      show (d.isUpper || d.isLower || d.isDigit) = true
      rw [hupper]
      rfl
    · obtain rfl : d = 'x' := (dif_neg hupper).symm.trans hlower
      decide
  have hne (e : Char) (he : e.isAlphanum = false) : d ≠ e := by
    rintro rfl
    rw [halphanum] at he
    cases he
  have hpoint : d ≠ '.' := hne '.' (by decide)
  have hplus : d ≠ '+' := hne '+' (by decide)
  have hminus : d ≠ '-' := hne '-' (by decide)
  simp [continuesNumber, hpoint, hplus, hminus, halphanum]

theorem exponentLetter_alike {c : Char} (hlength : numberTail (exponentLetter c (body ++ tail)) c
      ((body ++ tail).map .scalar) = body.length) (halike : Alike tail rest) :
    exponentLetter c (body ++ rest) = exponentLetter c (body ++ tail) := by
  cases body with
  | cons b body => rfl
  | nil =>
      have htail : tail.head?.any marksHex = false := by
        cases tail with
        | nil => rfl
        | cons d tail =>
            by_contra hd
            have hd : marksHex d = true := by simpa using hd
            rw [List.nil_append, numberTail_cons, if_pos (continuesNumber_of_marksHex hd _ _ _)] at hlength
            cases hlength
      have hrest : rest.head?.any marksHex = false :=
        halike.any_head? [] (forall_isSpace (by decide)) htail
      simp only [exponentLetter, List.nil_append, htail, hrest]

theorem numberLength_alike {c : Char} (hlength : numberLength c (body ++ tail) = body.length)
    (halike : Alike tail rest) : numberLength c (body ++ rest) = body.length := by
  unfold numberLength at hlength ⊢
  split
  · next hc =>
      rw [if_pos hc] at hlength
      cases body with
      | nil => cases hlength
      | cons b body => exact congrArg (· + 1) (numberTail_alike (Nat.succ.inj hlength) halike)
  · next hc =>
      rw [if_neg hc] at hlength
      rw [exponentLetter_alike hlength halike]
      exact numberTail_alike hlength halike

theorem number_alike {c : Char} (hmore : (number (.scalar c) ((body ++ tail).map .scalar)).more = body.length)
    (halike : Alike tail rest) :
    number (.scalar c) ((body ++ rest).map .scalar) = number (.scalar c) ((body ++ tail).map .scalar) := by
  rw [more_number] at hmore
  rw [number_map_scalar, number_map_scalar, numberLength_alike hmore halike, hmore, List.take_left, List.take_left]

/-! ### Raw strings -/

theorem lengthThrough?_append {mark : Char} {body tail : List Rune}
    (h : lengthThrough? mark (body ++ tail) = some body.length) (rest : List Rune) :
    lengthThrough? mark (body ++ rest) = some body.length := by
  induction body with
  | nil =>
      cases tail with
      | nil => cases h
      | cons r tail =>
          rw [List.nil_append, lengthThrough?] at h
          split at h
          · cases h
          · simp at h
  | cons r body ih =>
      rw [List.cons_append, lengthThrough?] at h ⊢
      split at h
      · next hr => rwa [if_pos hr]
      · next hr =>
          obtain ⟨n, hn, hsucc⟩ := Option.map_eq_some_iff.1 h
          obtain rfl : n = body.length := Nat.succ.inj hsucc
          rw [if_neg hr, ih hn]
          rfl

/-- A raw string is what it is before every text if it is closed, and otherwise it reaches to the end of the file. -/
theorem rawString_append {body tail rest : List Rune} (hmore : (rawString (body ++ tail)).more = body.length)
    (hrest : (rawString (body ++ tail)).fault = none ∨ (tail = [] → rest = [])) :
    rawString (body ++ rest) = rawString (body ++ tail) := by
  cases hfound : lengthThrough? Literal.rawMark (body ++ tail) with
  | some n =>
      simp only [rawString, hfound] at hmore
      subst hmore
      simp only [rawString, hfound, lengthThrough?_append hfound rest]
  | none =>
      simp only [rawString, hfound] at hmore hrest
      have htail : tail = [] := by simpa using hmore
      rw [hrest.resolve_left nofun htail, htail]

/-! ### Operators -/

theorem isSpace_of_mem_text {o : Operator} {c : Char} (h : c ∈ o.text.toList) : isSpace c = false := by
  have hall : ∀ o ∈ Operator.all, o.text.toList.all (fun c => !isSpace c) = true := by decide
  simpa using List.all_eq_true.1 (hall o (mem_all o)) c h

theorem Ends.not_mem_text {o : Operator} {c : Char} {cs : List Char} (h : Ends (c :: cs)) :
    c ∉ o.text.toList := by
  intro hc
  have hspace := h c rfl
  rw [isSpace_of_mem_text hc] at hspace
  cases hspace

/-- An operator that starts before `rest` and does not lie in it starts before `tail` too. -/
theorem Alike.text_prefix (h : Alike tail rest) {o : Operator} (front : List Char) (hfront : front ≠ [])
    (htext : o.text.toList <+: front ++ rest) : o.text.toList <+: front ++ tail := by
  rcases List.prefix_or_prefix_of_prefix htext (List.prefix_append front rest) with hshort | ⟨us, hus⟩
  · exact hshort.trans (List.prefix_append front tail)
  · have hmem {u : Char} (hu : u ∈ us) : u ∈ o.text.toList := hus ▸ List.mem_append_right front hu
    have hlength : us.length ≤ 2 := by
      have hshort := (length_text o).2
      have hpositive := List.length_pos_iff.2 hfront
      rw [← hus, List.length_append] at hshort
      omega
    rw [← hus, List.prefix_append_right_inj] at htext ⊢
    match us, hlength with
    | [], _ => exact List.nil_prefix
    | u :: us, hlength =>
        cases h with
        | ends hends =>
            obtain ⟨rest', rfl⟩ := htext
            exact absurd (hmem List.mem_cons_self) hends.not_mem_text
        | @cons c tail rest hnext =>
            obtain ⟨rfl, hlater⟩ := List.cons_prefix_cons.1 htext
            refine List.cons_prefix_cons.2 ⟨rfl, ?_⟩
            match us, hlength with
            | [], _ => exact List.nil_prefix
            | [v], _ =>
                obtain ⟨rest', rfl⟩ := hlater
                rcases hnext with hsame | ⟨-, hends⟩
                · obtain ⟨tail', rfl⟩ := List.head?_eq_some_iff.1 hsame.symm
                  exact ⟨tail', rfl⟩
                · exact absurd (hmem (by simp)) hends.not_mem_text

/-- Where an operator starts, there is a longest one. -/
theorem exists_longest {cs : List Char} {o : Operator} (h : o.text.toList <+: cs) :
    ∃ o' : Operator, ∃ rest, cs = o'.text.toList ++ rest ∧ Longest o' rest := by
  have hwf : WellFounded (InvImage (· < ·) fun o : Operator => 3 - o.text.toList.length) :=
    InvImage.wf _ wellFounded_lt
  obtain ⟨o', ⟨rest, hrest⟩, hmin⟩ := hwf.has_min {o | o.text.toList <+: cs} ⟨o, h⟩
  refine ⟨o', rest, hrest.symm, fun o'' hprefix => ?_⟩
  have hless : ¬ 3 - o''.text.toList.length < 3 - o'.text.toList.length := hmin o'' (hrest ▸ hprefix)
  have hle := (length_text o'').2
  omega

theorem text_prefix_of_operator? {cs : List Char} {o : Operator} {n : Nat}
    (h : operator? (cs.map .scalar) = some (o, n)) : o.text.toList <+: cs := by
  obtain ⟨m, -, hfound⟩ := List.exists_of_findSome?_eq_some h
  obtain ⟨o', htext, heq⟩ := Option.map_eq_some_iff.1 hfound
  obtain ⟨rfl, -⟩ := Prod.mk.inj heq
  have hsame := List.find?_some htext
  rw [← List.map_take, toString_map_scalar, beq_iff_eq] at hsame
  rw [hsame, String.toList_ofList]
  exact List.take_prefix m cs

theorem longest_of_operator? {cs : List Char} {o : Operator} {n : Nat}
    (h : operator? (cs.map .scalar) = some (o, n)) :
    ∃ rest, cs = o.text.toList ++ rest ∧ Longest o rest ∧ n = o.text.toList.length := by
  obtain ⟨o', rest, rfl, hlongest⟩ := exists_longest (text_prefix_of_operator? h)
  rw [operator?_of_longest hlongest] at h
  obtain ⟨rfl, rfl⟩ := Prod.mk.inj (Option.some.inj h)
  exact ⟨rest, rfl, hlongest, rfl⟩

theorem operator?_eq_none_iff {cs : List Char} :
    operator? (cs.map .scalar) = none ↔ ∀ o : Operator, ¬ o.text.toList <+: cs := by
  constructor
  · intro h o hprefix
    obtain ⟨o', rest, rfl, hlongest⟩ := exists_longest hprefix
    rw [operator?_of_longest hlongest] at h
    cases h
  · intro h
    cases hfound : operator? (cs.map .scalar) with
    | none => rfl
    | some found => exact absurd (text_prefix_of_operator? hfound) (h found.1)

theorem operatorOrStray_alike {c : Char}
    (hmore : (operatorOrStray (.scalar c) ((body ++ tail).map .scalar)).more = body.length)
    (halike : Alike tail rest) :
    operatorOrStray (.scalar c) ((body ++ rest).map .scalar) =
      operatorOrStray (.scalar c) ((body ++ tail).map .scalar) := by
  have hcons (cs : List Char) : Rune.scalar c :: cs.map .scalar = (c :: cs).map .scalar := rfl
  unfold operatorOrStray at hmore ⊢
  rw [hcons] at hmore ⊢
  rw [hcons]
  cases hfound : operator? ((c :: (body ++ tail)).map .scalar) with
  | some found =>
      obtain ⟨o, n⟩ := found
      obtain ⟨tail', htext, hlongest, rfl⟩ := longest_of_operator? hfound
      simp only [hfound] at hmore
      have hpositive := (length_text o).1
      obtain ⟨hbody, rfl⟩ : o.text.toList = c :: body ∧ tail' = tail := by
        refine List.append_inj htext.symm ?_
        rw [List.length_cons]
        omega
      have hlonger : Longest o rest := fun o' hprefix =>
        hlongest o' (halike.text_prefix _ (by simp [hbody]) hprefix)
      have hagain := operator?_of_longest hlonger
      rw [hbody, List.cons_append] at hagain
      rw [hagain, hbody]
  | none =>
      simp only [hfound] at hmore
      obtain rfl : body = [] := List.length_eq_zero_iff.1 hmore.symm
      rw [operator?_eq_none_iff] at hfound
      have hagain : operator? ((c :: ([] ++ rest)).map .scalar) = none := by
        rw [operator?_eq_none_iff]
        intro o hprefix
        exact hfound o (halike.text_prefix [c] (by simp) hprefix)
      rw [hagain]

/-! ### Measuring -/

/-- Where a line or the file ends before `tail`, it does before `rest`. -/
structure StopsAlike (tail rest : List Char) : Prop where
  nil : tail = [] → rest = []
  newline : tail.head? = some '\n' → rest.head? = some '\n'

theorem StopsAlike.stops (h : StopsAlike tail rest) (hstops : Stops (tail.map .scalar)) :
    Stops (rest.map .scalar) := by
  cases tail with
  | nil =>
      rw [h.nil rfl]
      exact nofun
  | cons c tail =>
      have hc : c = '\n' := hstops (.scalar c) rfl
      obtain ⟨rest', rfl⟩ := List.head?_eq_some_iff.1 (h.newline (by rw [hc]; rfl))
      intro r hr
      obtain rfl : Rune.scalar '\n' = r := by simpa using hr
      rfl

theorem measure_map_scalar (c : Char) (cs : List Char) :
    measure (.scalar c) (cs.map .scalar) =
      if c = '\n' then { kind := .newline }
      else if isBlank c then { kind := .blank, more := (cs.takeWhile isBlank).length }
      else if opensWord c then word (.scalar c) (cs.map .scalar)
      else if isDigit c || (c == '.' && cs.head?.any isDigit) then number (.scalar c) (cs.map .scalar)
      else if c = '/' ∧ cs.head? = some '/' then lineComment (cs.map .scalar)
      else if c = '/' ∧ cs.head? = some '*' then blockComment (cs.map .scalar)
      else if c = '"' then stringLiteral (cs.map .scalar)
      else if c = Literal.rawMark then rawString (cs.map .scalar)
      else if c = Literal.charMark then charLiteral (cs.map .scalar)
      else operatorOrStray (.scalar c) (cs.map .scalar) := by
  have hhead : (cs.map Rune.scalar).head?.map Rune.char = cs.head? := by
    cases cs <;> rfl
  have htake : (cs.map Rune.scalar).takeWhile (isBlank ·.char) = (cs.takeWhile isBlank).map .scalar :=
    List.takeWhile_map
  simp only [measure, Rune.char_scalar, hhead, htake, List.length_map]
  rfl

/-- A character that opens a number before `tail` does so before `rest`, and one that does not does not. -/
theorem opensNumber_alike {c : Char} (halike : Alike tail rest)
    (hmore : (isDigit c || (c == '.' && (body ++ tail).head?.any isDigit)) = true →
      (number (.scalar c) ((body ++ tail).map .scalar)).more = body.length) :
    (isDigit c || (c == '.' && (body ++ rest).head?.any isDigit)) =
      (isDigit c || (c == '.' && (body ++ tail).head?.any isDigit)) := by
  cases hopens : (isDigit c || (c == '.' && (body ++ tail).head?.any isDigit)) with
  | false =>
      simp only [Bool.or_eq_false_iff, Bool.and_eq_false_iff] at hopens ⊢
      refine ⟨hopens.1, hopens.2.imp_right fun htail => ?_⟩
      exact halike.any_head? _ (forall_isSpace (by decide)) htail
  | true =>
      cases body with
      | cons b body => exact hopens
      | nil =>
          -- A point opens a number of two characters at least.
          by_cases hpoint : c = '.'
          · have hlength := hmore hopens
            rw [more_number, numberLength, if_pos hpoint] at hlength
            cases hlength
          · rw [← hopens, beq_eq_false_iff_ne.2 hpoint]
            rfl

/-- Before `tail` the lexeme `c :: body` is measured as `e`. -/
structure Measured (c : Char) (body tail : List Char) (e : Extent) : Prop where
  measure_eq : measure (.scalar c) ((body ++ tail).map .scalar) = e
  more_eq : e.more = body.length

/-- A lexeme that is neither blank nor a comment is measured the same before a text that is alike.  One that has a
fault can have it because its line or the file ends. -/
theorem Measured.alike {c : Char} {e : Extent} (hmeasured : Measured c body tail e) (hblank : isBlank c = false)
    (hcomment : e.kind ≠ .token .comment) (halike : Alike tail rest)
    (hfault : e.fault = none ∨ StopsAlike tail rest) : Measured c body rest e := by
  obtain ⟨h, hmore⟩ := hmeasured
  refine ⟨?_, hmore⟩
  have hstops : e.fault = none ∨ (Stops (tail.map .scalar) → Stops (rest.map .scalar)) :=
    hfault.imp_right StopsAlike.stops
  have hnil : e.fault = none ∨ (tail.map Rune.scalar = [] → rest.map Rune.scalar = []) := by
    refine hfault.imp_right fun hstop htail => ?_
    rw [hstop.nil (List.map_eq_nil_iff.1 htail)]
    rfl
  have hlength : e.more = (body.map Rune.scalar).length := by rw [hmore, List.length_map]
  -- Both texts go through the same tests, one after the other.
  rw [measure_map_scalar] at h ⊢
  by_cases hnewline : c = '\n'
  · rwa [if_pos hnewline] at h ⊢
  have hnotBlank : ¬ isBlank c = true := by simp [hblank]
  rw [if_neg hnewline, if_neg hnotBlank] at h ⊢
  by_cases hword : opensWord c = true
  · rw [if_pos hword] at h ⊢
    subst h
    rw [word_alike hmore halike]
  rw [if_neg hword] at h ⊢
  have hopens : (isDigit c || (c == '.' && (body ++ rest).head?.any isDigit)) =
      (isDigit c || (c == '.' && (body ++ tail).head?.any isDigit)) := by
    refine opensNumber_alike halike fun hnumber => ?_
    rw [if_pos hnumber] at h
    rw [h, hmore]
  rw [hopens]
  by_cases hnumber : (isDigit c || (c == '.' && (body ++ tail).head?.any isDigit)) = true
  · rw [if_pos hnumber] at h ⊢
    subst h
    rw [number_alike hmore halike]
  rw [if_neg hnumber] at h ⊢
  split at h
  · subst h
    exact absurd rfl hcomment
  next hline =>
  rw [if_neg fun hc => halike.head?_ne (by decide) (fun htail => hline ⟨hc.1, htail⟩) hc.2]
  split at h
  · subst h
    refine absurd ?_ hcomment
    unfold blockComment
    split <;> rfl
  next hblock =>
  rw [if_neg fun hc => halike.head?_ne (by decide) (fun htail => hblock ⟨hc.1, htail⟩) hc.2]
  split at h
  · next hquote =>
      subst h
      rw [List.map_append] at hlength hstops
      rw [if_pos hquote, List.map_append, List.map_append, stringLiteral_append hlength hstops]
  next hquote =>
  rw [if_neg hquote]
  split at h
  · next hraw =>
      subst h
      rw [List.map_append] at hlength hnil
      rw [if_pos hraw, List.map_append, List.map_append, rawString_append hlength hnil]
  next hraw =>
  rw [if_neg hraw]
  split at h
  · next hchar =>
      subst h
      rw [List.map_append] at hlength hstops
      rw [if_pos hchar, List.map_append, List.map_append, charLiteral_append hlength hstops]
  next hchar =>
  subst h
  rw [if_neg hchar, operatorOrStray_alike hmore halike]

end

/-! ### Cutting a text of characters -/

theorem lengthThrough?_le {mark : Char} {rs : List Rune} {n : Nat} (h : lengthThrough? mark rs = some n) :
    n ≤ rs.length := by
  induction rs generalizing n with
  | nil => cases h
  | cons r rs ih =>
      rw [lengthThrough?] at h
      split at h
      · obtain rfl := Option.some.inj h
        exact Nat.succ_le_succ (Nat.zero_le _)
      · obtain ⟨m, hm, rfl⟩ := Option.map_eq_some_iff.1 h
        exact Nat.succ_le_succ (ih hm)

theorem lengthThroughEnd?_le {rs : List Rune} {n : Nat} (h : lengthThroughEnd? rs = some n) : n ≤ rs.length := by
  induction rs generalizing n with
  | nil => cases h
  | cons r rs ih =>
      rw [lengthThroughEnd?] at h
      split at h
      · next hend =>
          obtain rfl := Option.some.inj h
          cases rs with
          | nil => simp at hend
          | cons x rs => simp
      · obtain ⟨m, hm, rfl⟩ := Option.map_eq_some_iff.1 h
        exact Nat.succ_le_succ (ih hm)

theorem numberTail_le (letter previous : Char) (rs : List Rune) : numberTail letter previous rs ≤ rs.length := by
  induction rs generalizing previous with
  | nil => exact Nat.le_refl _
  | cons r rs ih =>
      have hstep (b : Bool) : (if b then numberTail letter r.char rs + 1 else 0) ≤ (r :: rs).length := by
        split
        · exact Nat.succ_le_succ (ih _)
        · exact Nat.zero_le _
      exact hstep _

theorem more_number_le {r : Rune} {rest : List Rune} (h : r.char = '.' → rest ≠ []) :
    (number r rest).more ≤ rest.length := by
  have hlength : (if r.char = '.' then numberTail 'e' '0' rest.tail + 1
      else numberTail (if r.char == '0' && rest.head?.any (·.char.toLower == 'x') then 'p' else 'e') r.char rest) ≤
        rest.length := by
    split
    · next hpoint =>
        have hpositive := List.length_pos_iff.2 (h hpoint)
        have htail := numberTail_le 'e' '0' rest.tail
        rw [List.length_tail] at htail
        omega
    · exact numberTail_le _ _ rest
  unfold number
  dsimp only
  split <;> exact hlength

theorem more_blockComment_le {rest : List Rune} (h : rest ≠ []) : (blockComment rest).more ≤ rest.length := by
  unfold blockComment
  split
  · next n hfound =>
      have hlength := lengthThroughEnd?_le hfound
      have hpositive := List.length_pos_iff.2 h
      rw [List.length_tail] at hlength
      show n + 1 ≤ rest.length
      omega
  · exact Nat.le_refl _

theorem more_rawString_le (rest : List Rune) : (rawString rest).more ≤ rest.length := by
  unfold rawString
  split
  · next n hfound => exact lengthThrough?_le hfound
  · exact Nat.le_refl _

theorem more_operatorOrStray_le (r : Rune) (rest : List Rune) : (operatorOrStray r rest).more ≤ rest.length := by
  unfold operatorOrStray
  split
  · next o n hfound =>
      obtain ⟨m, -, htake⟩ := List.exists_of_findSome?_eq_some hfound
      obtain ⟨o', -, heq⟩ := Option.map_eq_some_iff.1 htake
      obtain ⟨-, rfl⟩ := Prod.mk.inj heq
      have hlength := List.length_take_le' m (r :: rest)
      rw [List.length_cons] at hlength
      show ((r :: rest).take m).length - 1 ≤ rest.length
      omega
  · exact Nat.zero_le _

/-- A lexeme ends in its text. -/
theorem more_measure_le (r : Rune) (rest : List Rune) : (measure r rest).more ≤ rest.length := by
  have hfollows {p : Char → Bool} (h : (rest.head?.map Rune.char).any p = true) : rest ≠ [] := by
    rintro rfl
    cases h
  unfold measure
  dsimp only
  split
  · exact Nat.zero_le _
  split
  · exact (List.takeWhile_prefix _).length_le
  split
  · exact (List.takeWhile_prefix _).length_le
  split
  · next hnumber =>
      refine more_number_le fun hpoint => ?_
      rw [hpoint] at hnumber
      exact hfollows (p := isDigit) (by simpa [isDigit] using hnumber)
  split
  · exact (List.takeWhile_prefix _).length_le
  split
  · next hblock => exact more_blockComment_le (hfollows (p := (· == '*')) (by simp [hblock.2]))
  split
  · exact length_quotedBody_le (by decide) (by decide) rest
  split
  · exact more_rawString_le rest
  split
  · exact length_quotedBody_le (by decide) (by decide) rest
  · exact more_operatorOrStray_le r rest

/-- Every text that is not empty starts with a lexeme. -/
theorem exists_measured (c : Char) (cs : List Char) :
    ∃ body tail e, cs = body ++ tail ∧ Measured c body tail e := by
  generalize he : measure (.scalar c) (cs.map .scalar) = e
  have hle := more_measure_le (.scalar c) (cs.map .scalar)
  rw [List.length_map, he] at hle
  refine ⟨cs.take e.more, cs.drop e.more, e, (List.take_append_drop _ cs).symm, ?_, ?_⟩
  · rw [List.take_append_drop, he]
  · rw [List.length_take, Nat.min_eq_left hle]

/-- The lexeme of the characters `c :: body` with the extent `e`. -/
def Extent.lexeme (e : Extent) (c : Char) (body : List Char) : Lexeme :=
  { kind := e.kind, runes := (c :: body).map .scalar, fault := e.fault }

@[simp] theorem Extent.kind_lexeme (e : Extent) (c : Char) (body : List Char) :
    (e.lexeme c body).kind = e.kind := rfl

@[simp] theorem Extent.fault_lexeme (e : Extent) (c : Char) (body : List Char) :
    (e.lexeme c body).fault = e.fault := rfl

@[simp] theorem Extent.chars_lexeme (e : Extent) (c : Char) (body : List Char) :
    Rune.chars (e.lexeme c body).runes = c :: body :=
  chars_map_scalar (c :: body)

theorem Measured.split_eq {c : Char} {body tail : List Char} {e : Extent} (h : Measured c body tail e) :
    split ((c :: (body ++ tail)).map .scalar) = e.lexeme c body :: split (tail.map .scalar) := by
  have hlength : e.more = (body.map Rune.scalar).length := by rw [h.more_eq, List.length_map]
  rw [List.map_cons, split, h.measure_eq, List.map_append, List.take_left' hlength.symm,
    List.drop_left' hlength.symm]
  rfl

/-- Induction along the lexemes of a text. -/
theorem measured_induction {motive : List Char → Prop} (nil : motive [])
    (cons : ∀ c body tail e, Measured c body tail e → motive tail → motive (c :: (body ++ tail)))
    (cs : List Char) : motive cs := by
  induction hn : cs.length using Nat.strong_induction_on generalizing cs with
  | _ n ih =>
      cases cs with
      | nil => exact nil
      | cons c cs =>
          obtain ⟨body, tail, e, rfl, h⟩ := exists_measured c cs
          refine cons c body tail e h (ih tail.length ?_ tail rfl)
          rw [← hn, List.length_cons, List.length_append]
          omega

theorem exists_measured_of_mem_split {cs : List Char} {l : Lexeme} (h : l ∈ split (cs.map .scalar)) :
    ∃ c body tail e, Measured c body tail e ∧ l = e.lexeme c body := by
  induction cs using measured_induction with
  | nil => simp [split] at h
  | cons c body tail e hmeasured ih =>
      rw [hmeasured.split_eq] at h
      rcases List.mem_cons.1 h with rfl | h
      · exact ⟨c, body, tail, e, hmeasured, rfl⟩
      · exact ih h

end Lexeme

end GoSource
