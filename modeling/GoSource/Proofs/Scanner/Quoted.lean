import GoSource.Lexeme
import Mathlib.Data.List.Basic

/-!
# Where quoted literals end

A quoted literal ends at its closing mark, or with its line if it has none.

* **`readEscape?_eq_some`**: an escape is one character and digits after it, whatever follows.
* **`Encloses`**: a body, and the texts before which it ends.
* **`exists_encloses`**: every text starts with a body.
* **`quotedBody_append`**: a body that is closed is what it is before every text, and one that is not closed before
  every other end of a line.
-/

namespace GoSource

/-! ### Escapes -/

namespace Literal

/-- Digits are read one by one, and no further. -/
theorem readDigits?_eq_some {α : Type} {char : α → Char} {b count acc n : Nat} {xs rest : List α}
    (h : readDigits? char b count acc xs = some (n, rest)) :
    ∃ ds, xs = ds ++ rest ∧ (∀ d ∈ ds, digitValue? (char d) ≠ none) ∧
      ∀ ys, readDigits? char b count acc (ds ++ ys) = some (n, ys) := by
  induction count generalizing acc xs with
  | zero =>
      obtain ⟨rfl, rfl⟩ := Prod.mk.inj (Option.some.inj h)
      exact ⟨[], rfl, by simp, fun ys => rfl⟩
  | succ count ih =>
      cases xs with
      | nil => simp [readDigits?] at h
      | cons x xs =>
          obtain ⟨d, hd, hrest⟩ := Option.bind_eq_some_iff.1 h
          obtain ⟨ds, rfl, hds, hsame⟩ := ih hrest
          refine ⟨x :: ds, rfl, ?_, ?_⟩
          · have hx : digitValue? (char x) ≠ none := by
              intro hnone
              simp [digit?, hnone] at hd
            simpa using ⟨hx, hds⟩
          · intro ys
            rw [List.cons_append, readDigits?, hd]
            exact hsame ys

/-- An escape is one element and digits after it, whatever follows. -/
theorem readEscape?_eq_some {α : Type} {char : α → Char} {quote : Char} {xs rest : List α} {e : Escaped}
    (h : readEscape? char quote xs = some (e, rest)) :
    ∃ x ds, xs = x :: (ds ++ rest) ∧ (∀ d ∈ ds, digitValue? (char d) ≠ none) ∧
      ∀ ys, readEscape? char quote (x :: (ds ++ ys)) = some (e, ys) := by
  cases xs with
  | nil => simp [readEscape?] at h
  | cons x xs =>
      cases hletter : letterEscape? quote (char x) with
      | some meaning =>
          simp only [readEscape?, hletter] at h
          obtain ⟨rfl, rfl⟩ := Prod.mk.inj (Option.some.inj h)
          refine ⟨x, [], rfl, by simp, fun ys => ?_⟩
          simp only [List.nil_append, readEscape?, hletter]
      | none =>
          simp only [readEscape?, hletter] at h
          obtain ⟨form, hform, h⟩ := Option.bind_eq_some_iff.1 h
          obtain ⟨⟨n, rest'⟩, hdigits, h⟩ := Option.bind_eq_some_iff.1 h
          obtain ⟨meaning, hmeaning, h⟩ := Option.bind_eq_some_iff.1 h
          obtain ⟨rfl, rfl⟩ := Prod.mk.inj (Option.some.inj h)
          obtain ⟨ds, rfl, hds, hsame⟩ := readDigits?_eq_some hdigits
          refine ⟨x, ds, rfl, hds, fun ys => ?_⟩
          simp only [readEscape?, hletter, hform, Option.bind_eq_bind, Option.bind_some, hsame ys, hmeaning]
          rfl

end Literal

namespace Lexeme

/-! ### Quoted literals -/

/-- A text at whose start a line or the file ends. -/
def Stops (rs : List Rune) : Prop :=
  ∀ r ∈ rs.head?, r.char = '\n'

theorem quotedBody_of_stops {mark : Char} {rs : List Rune} (h : Stops rs) : quotedBody mark rs = {} := by
  cases rs with
  | nil => rw [quotedBody]
  | cons r rest =>
      have hr : r.char = '\n' := h r rfl
      rw [quotedBody, if_pos hr]

theorem readEscape?_of_stops {mark : Char} (hmark : mark ≠ '\n') {rs : List Rune} (h : Stops rs) :
    Literal.readEscape? Rune.char mark rs = none := by
  cases rs with
  | nil => rfl
  | cons r rest =>
      have hr : r.char = '\n' := h r rfl
      have hletter : Literal.letterEscape? mark '\n' = none := by
        simp [Literal.letterEscape?, Ne.symm hmark]
      have hnumeric : Literal.numericEscape? '\n' = none := by decide
      simp [Literal.readEscape?, hr, hletter, hnumeric]

section Backslash

variable {mark : Char} {r : Rune} {rest : List Rune} (hmark : mark ≠ '\\') (hr : r.char = '\\')

include hmark hr

theorem quotedBody_escape {e : Literal.Escaped} {rest' : List Rune}
    (hread : Literal.readEscape? Rune.char mark rest = some (e, rest')) :
    quotedBody mark (r :: rest) = (quotedBody mark rest').cons (1 + (rest.length - rest'.length)) true := by
  rw [quotedBody, hr, if_neg (by decide), if_neg (Ne.symm hmark), if_pos rfl]
  split
  · next hsome =>
      obtain ⟨rfl, rfl⟩ := Prod.mk.inj (Option.some.inj (hread.symm.trans hsome))
      rfl
  · next hnone =>
      rw [hread] at hnone
      cases hnone

theorem quotedBody_skip (hread : Literal.readEscape? Rune.char mark rest = none) :
    quotedBody mark (r :: rest) =
      if rest.head?.any (·.char != '\n') then (quotedBody mark (rest.drop 1)).cons 2 false
      else (quotedBody mark rest).cons 1 false := by
  rw [quotedBody, hr, if_neg (by decide), if_neg (Ne.symm hmark), if_pos rfl]
  split
  · next hsome =>
      rw [hread] at hsome
      cases hsome
  · split <;> rfl

end Backslash

/-- A body reaches no further before `rs`: it is closed, or the line ends there. -/
def QuotedBody.EndsBefore (body : QuotedBody) (rs : List Rune) : Prop :=
  body.terminated = true ∨ Stops rs

/-- The text `body` is measured as `extent` before `tail`, and before every other text where it ends. -/
structure Encloses (mark : Char) (body tail : List Rune) (extent : QuotedBody) : Prop where
  length_eq : extent.length = body.length
  ends : extent.EndsBefore tail
  same : ∀ rs, extent.EndsBefore rs → quotedBody mark (body ++ rs) = extent
  mark_mem : extent.terminated = true → ∃ r ∈ body, r.char = mark

theorem Encloses.of_stops {mark : Char} {rs : List Rune} (h : Stops rs) : Encloses mark [] rs {} := by
  refine ⟨rfl, .inr h, ?_, nofun⟩
  rintro rs (hclosed | hstops)
  · cases hclosed
  · exact quotedBody_of_stops hstops

/-- One character more in front. -/
theorem Encloses.cons {mark : Char} {body tail : List Rune} {extent : QuotedBody} {fits : Bool}
    (h : Encloses mark body tail extent) (front : List Rune)
    (hstep : ∀ rs, extent.EndsBefore rs →
      quotedBody mark (front ++ (body ++ rs)) = (quotedBody mark (body ++ rs)).cons front.length fits) :
    Encloses mark (front ++ body) tail (extent.cons front.length fits) := by
  refine ⟨?_, h.ends, fun rs hrs => ?_, fun hclosed => ?_⟩
  · rw [List.length_append, ← h.length_eq]
    rfl
  · rw [List.append_assoc, hstep rs hrs, h.same rs hrs]
  · obtain ⟨r, hr, hchar⟩ := h.mark_mem hclosed
    exact ⟨r, List.mem_append_right _ hr, hchar⟩

/-- An escape that is none before `tail` is none before another text either. -/
theorem Encloses.readEscape?_eq_none {mark : Char} (hdigit : Literal.digitValue? mark = none) {x : Rune}
    {body tail rs : List Rune} {extent : QuotedBody} (h : Encloses mark body tail extent)
    (hread : Literal.readEscape? Rune.char mark (x :: (body ++ tail)) = none) (hrs : extent.EndsBefore rs) :
    Literal.readEscape? Rune.char mark (x :: (body ++ rs)) = none := by
  cases hsome : Literal.readEscape? Rune.char mark (x :: (body ++ rs)) with
  | none => rfl
  | some read =>
      obtain ⟨e, rest⟩ := read
      obtain ⟨y, ds, htext, hds, hsame⟩ := Literal.readEscape?_eq_some hsome
      obtain ⟨rfl, heq⟩ := List.cons.inj htext
      -- The digits of the escape lie in the body, or they reach to a place where it cannot end.
      obtain ⟨cs, rfl, rfl⟩ | ⟨cs, rfl, rfl⟩ := List.append_eq_append_iff.1 heq
      · have hopen : extent.terminated = false := by
          by_contra hclosed
          obtain ⟨r, hr, rfl⟩ := h.mark_mem (by simpa using hclosed)
          exact hds r (List.mem_append_left _ hr) hdigit
        have hstops : Stops (cs ++ rest) := hrs.resolve_left (by simp [hopen])
        cases cs with
        | nil =>
            have hagain := hsame tail
            rw [List.append_nil, hread] at hagain
            cases hagain
        | cons c cs =>
            have hc : c.char = '\n' := hstops c rfl
            have hfeed := hds c (by simp)
            rw [hc] at hfeed
            exact absurd (by decide) hfeed
      · have hagain := hsame (cs ++ tail)
        rw [← List.append_assoc, hread] at hagain
        cases hagain

/-- Every text starts with a body, which may be empty. -/
theorem exists_encloses {mark : Char} (hmark : mark ≠ '\n') (hdigit : Literal.digitValue? mark = none)
    (rs : List Rune) : ∃ body tail, rs = body ++ tail ∧ Encloses mark body tail (quotedBody mark rs) := by
  fun_induction quotedBody mark rs with
  | case1 => exact ⟨[], [], rfl, .of_stops nofun⟩
  | case2 r rest hnewline =>
      refine ⟨[], r :: rest, rfl, .of_stops fun x hx => ?_⟩
      obtain rfl : r = x := by simpa using hx
      exact hnewline
  | case3 r rest hnewline hclose =>
      refine ⟨[r], rest, rfl, rfl, .inl rfl, fun rs _ => ?_, fun _ => ⟨r, by simp, hclose⟩⟩
      rw [List.singleton_append, quotedBody, if_neg hnewline, if_pos hclose]
  | case4 r rest hnewline hclose hescape m rest' hread hless ih =>
      obtain ⟨body, tail, rfl, h⟩ := ih
      obtain ⟨x, ds, rfl, -, hsame⟩ := Literal.readEscape?_eq_some hread
      have hmark' : mark ≠ '\\' := fun hmark => hclose (hescape.trans hmark.symm)
      have hlength (rs : List Rune) : 1 + ((x :: (ds ++ rs)).length - rs.length) = (r :: x :: ds).length := by
        simp only [List.length_cons, List.length_append]
        omega
      refine ⟨r :: x :: ds ++ body, tail, by simp, ?_⟩
      rw [hlength]
      refine h.cons (r :: x :: ds) fun rs _ => ?_
      rw [List.cons_append, List.cons_append, quotedBody_escape hmark' hescape (hsame (body ++ rs)), hlength]
  | case5 r rest hnewline hclose hescape hread skipped =>
      rename_i ih
      have hmark' : mark ≠ '\\' := fun hmark => hclose (hescape.trans hmark.symm)
      by_cases hskip : rest.head?.any (·.char != '\n') = true
      · have hskipped : skipped = 1 := dif_pos hskip
        rw [hskipped] at ih ⊢
        cases rest with
        | nil => cases hskip
        | cons x rest =>
            obtain ⟨body, tail, heq, h⟩ := ih
            rw [List.drop_one, List.tail_cons] at heq h
            subst heq
            refine ⟨[r, x] ++ body, tail, rfl, h.cons [r, x] fun rs hrs => ?_⟩
            have hnone := h.readEscape?_eq_none hdigit hread hrs
            rw [List.cons_append, List.singleton_append, quotedBody_skip hmark' hescape hnone]
            exact if_pos hskip
      · have hskipped : skipped = 0 := dif_neg hskip
        rw [hskipped]
        have hstops : Stops rest := by
          intro x hx
          rw [hx] at hskip
          simpa using hskip
        refine ⟨[r], rest, rfl, ?_⟩
        rw [List.drop_zero, quotedBody_of_stops hstops]
        refine (Encloses.of_stops hstops).cons [r] fun rs hrs => ?_
        have hrs : Stops rs := hrs.resolve_left nofun
        have hnone := readEscape?_of_stops hmark hrs
        rw [List.nil_append, List.singleton_append, quotedBody_skip hmark' hescape hnone, if_neg]
        · rfl
        · cases rs with
          | nil => exact nofun
          | cons x rs =>
              have hx : x.char = '\n' := hrs x rfl
              simp [hx]
  | case6 r rest hnewline hclose hescape ih =>
      obtain ⟨body, tail, rfl, h⟩ := ih
      refine ⟨[r] ++ body, tail, rfl, h.cons [r] fun rs _ => ?_⟩
      rw [List.singleton_append, quotedBody, if_neg hnewline, if_neg hclose, if_neg hescape]
      rfl

/-- A body that is closed is measured the same before every text, and one that is not closed before every other end of
a line. -/
theorem quotedBody_append {mark : Char} (hmark : mark ≠ '\n') (hdigit : Literal.digitValue? mark = none)
    {body tail rs : List Rune} (hlength : (quotedBody mark (body ++ tail)).length = body.length)
    (hrs : Stops tail → (quotedBody mark (body ++ tail)).EndsBefore rs) :
    quotedBody mark (body ++ rs) = quotedBody mark (body ++ tail) := by
  obtain ⟨body', tail', heq, h⟩ := exists_encloses hmark hdigit (body ++ tail)
  obtain ⟨rfl, rfl⟩ := List.append_inj heq (hlength.symm.trans h.length_eq)
  rcases h.ends with hclosed | hstops
  · exact h.same rs (.inl hclosed)
  · exact h.same rs (hrs hstops)

theorem length_quotedBody_le {mark : Char} (hmark : mark ≠ '\n') (hdigit : Literal.digitValue? mark = none)
    (rs : List Rune) : (quotedBody mark rs).length ≤ rs.length := by
  obtain ⟨body, tail, rfl, h⟩ := exists_encloses hmark hdigit rs
  rw [h.length_eq, List.length_append]
  exact Nat.le_add_right _ _

theorem stringLiteral_append {body tail rest : List Rune}
    (hmore : (stringLiteral (body ++ tail)).more = body.length)
    (hrest : (stringLiteral (body ++ tail)).fault = none ∨ (Stops tail → Stops rest)) :
    stringLiteral (body ++ rest) = stringLiteral (body ++ tail) := by
  have hclosed (hfault : (stringLiteral (body ++ tail)).fault = none) :
      (quotedBody '"' (body ++ tail)).terminated = true := by
    by_contra hopen
    simp [stringLiteral, eq_false_of_ne_true hopen] at hfault
  have hsame : quotedBody '"' (body ++ rest) = quotedBody '"' (body ++ tail) :=
    quotedBody_append (by decide) (by decide) hmore fun hstops => hrest.imp hclosed (· hstops)
  simp only [stringLiteral, hsame]

theorem charLiteral_append {body tail rest : List Rune}
    (hmore : (charLiteral (body ++ tail)).more = body.length)
    (hrest : (charLiteral (body ++ tail)).fault = none ∨ (Stops tail → Stops rest)) :
    charLiteral (body ++ rest) = charLiteral (body ++ tail) := by
  have hclosed (hfault : (charLiteral (body ++ tail)).fault = none) :
      (quotedBody Literal.charMark (body ++ tail)).terminated = true := by
    by_contra hopen
    simp [charLiteral, eq_false_of_ne_true hopen] at hfault
  have hsame : quotedBody Literal.charMark (body ++ rest) = quotedBody Literal.charMark (body ++ tail) :=
    quotedBody_append (by decide) (by decide) hmore fun hstops => hrest.imp hclosed (· hstops)
  simp only [charLiteral, hsame]

end Lexeme

end GoSource
