import GoSource.Literal.Number
import Mathlib.Computability.Language

/-!
# The grammar of number literals

Integer and floating-point literals as languages.  A production reads as in the language definition: `+` stands between
alternatives, `*` between pieces that follow one another, `optionally` before a piece that may be missing, and `∗` after
a piece that may be repeated.

* **`digits`**: digits with single underscores between them; all other productions are made of it.
* **`intLit`**, **`floatLit`**: the literals.
* **`wellSeparated_iff`**: such digits are what the check of underscores lets pass.
-/

namespace GoSource.Literal

open scoped Computability

/-! ### Productions -/

/-- One character that has a property. -/
def symbol (p : Char → Prop) : Language Char :=
  {cs | ∃ c, p c ∧ cs = [c]}

/-- A piece that may be missing. -/
def optionally (l : Language Char) : Language Char :=
  1 + l

namespace Radix

/-- The digits of a base. -/
def IsDigit : Radix → Char → Prop
  | .binary, c => c = '0' ∨ c = '1'
  | .octal, c => '0' ≤ c ∧ c ≤ '7'
  | .decimal, c => '0' ≤ c ∧ c ≤ '9'
  | .hexadecimal, c => '0' ≤ c ∧ c ≤ '9' ∨ 'A' ≤ c ∧ c ≤ 'F' ∨ 'a' ≤ c ∧ c ≤ 'f'

/-- The letters that announce a base after a zero.  Nothing announces decimal digits. -/
def IsMarker : Radix → Char → Prop
  | .binary, c => c = 'b' ∨ c = 'B'
  | .octal, c => c = 'o' ∨ c = 'O'
  | .decimal, _ => False
  | .hexadecimal, c => c = 'x' ∨ c = 'X'

/-- The letters that open an exponent.  Binary and octal numbers have none. -/
def OpensExponent : Radix → Char → Prop
  | .decimal, c => c = 'e' ∨ c = 'E'
  | .hexadecimal, c => c = 'p' ∨ c = 'P'
  | _, _ => False

end Radix

/-- `"0"` -/
def zero : Language Char :=
  symbol (· = '0')

/-- `"_"` -/
def underscore : Language Char :=
  symbol (· = '_')

/-- `"."` -/
def point : Language Char :=
  symbol (· = '.')

/-- `digit { [ "_" ] digit }` -/
def digits (r : Radix) : Language Char :=
  symbol r.IsDigit * (optionally underscore * symbol r.IsDigit)∗

/-- `"0" | ( "1" … "9" ) [ [ "_" ] decimal_digits ]` -/
def decimalLit : Language Char :=
  zero + symbol (fun c => '1' ≤ c ∧ c ≤ '9') * optionally (optionally underscore * digits .decimal)

/-- `"0" ( "b" | "B" ) [ "_" ] binary_digits` -/
def binaryLit : Language Char :=
  zero * symbol Radix.binary.IsMarker * optionally underscore * digits .binary

/-- `"0" [ "o" | "O" ] [ "_" ] octal_digits` -/
def octalLit : Language Char :=
  zero * optionally (symbol Radix.octal.IsMarker) * optionally underscore * digits .octal

/-- `"0" ( "x" | "X" ) [ "_" ] hex_digits` -/
def hexLit : Language Char :=
  zero * symbol Radix.hexadecimal.IsMarker * optionally underscore * digits .hexadecimal

/-- `decimal_lit | binary_lit | octal_lit | hex_lit` -/
def intLit : Language Char :=
  decimalLit + binaryLit + octalLit + hexLit

/-- `( "e" | "E" ) [ "+" | "-" ] decimal_digits`, with `"p" | "P"` in hexadecimal numbers. -/
def exponent (r : Radix) : Language Char :=
  symbol r.OpensExponent * optionally (symbol fun c => c = '+' ∨ c = '-') * digits .decimal

/-- `decimal_digits "." [ decimal_digits ] [ decimal_exponent ] | decimal_digits decimal_exponent |
"." decimal_digits [ decimal_exponent ]` -/
def decimalFloatLit : Language Char :=
  digits .decimal * point * optionally (digits .decimal) * optionally (exponent .decimal) +
    digits .decimal * exponent .decimal + point * digits .decimal * optionally (exponent .decimal)

/-- `[ "_" ] hex_digits "." [ hex_digits ] | [ "_" ] hex_digits | "." hex_digits` -/
def hexMantissa : Language Char :=
  optionally underscore * digits .hexadecimal * point * optionally (digits .hexadecimal) +
    optionally underscore * digits .hexadecimal + point * digits .hexadecimal

/-- `"0" ( "x" | "X" ) hex_mantissa hex_exponent` -/
def hexFloatLit : Language Char :=
  zero * symbol Radix.hexadecimal.IsMarker * hexMantissa * exponent .hexadecimal

/-- `decimal_float_lit | hex_float_lit` -/
def floatLit : Language Char :=
  decimalFloatLit + hexFloatLit

/-! ### Pieces -/

section

variable {p : Char → Prop} {l m : Language Char} {c : Char} {cs : List Char}

@[simp] theorem mem_symbol : cs ∈ symbol p ↔ ∃ c, p c ∧ cs = [c] := Iff.rfl

@[simp] theorem mem_optionally : cs ∈ optionally l ↔ cs = [] ∨ cs ∈ l := Iff.rfl

theorem mem_symbol_mul : cs ∈ symbol p * l ↔ ∃ c rest, p c ∧ rest ∈ l ∧ cs = c :: rest := by
  constructor
  · intro h
    obtain ⟨_, ⟨c, hc, rfl⟩, rest, hrest, rfl⟩ := Language.mem_mul.1 h
    exact ⟨c, rest, hc, hrest, rfl⟩
  · rintro ⟨c, rest, hc, hrest, rfl⟩
    exact Language.append_mem_mul (a := [c]) ⟨c, hc, rfl⟩ hrest

@[simp] theorem cons_mem_symbol_mul : c :: cs ∈ symbol p * l ↔ p c ∧ cs ∈ l := by
  rw [mem_symbol_mul]
  constructor
  · rintro ⟨d, rest, hd, hrest, heq⟩
    obtain ⟨rfl, rfl⟩ := List.cons.inj heq
    exact ⟨hd, hrest⟩
  · rintro ⟨hc, hcs⟩
    exact ⟨c, cs, hc, hcs, rfl⟩

@[simp] theorem nil_notMem_symbol_mul : [] ∉ symbol p * l := by
  rw [mem_symbol_mul]
  rintro ⟨c, rest, -, -, heq⟩
  cases heq

theorem mem_optionally_mul : cs ∈ optionally l * m ↔ cs ∈ m ∨ cs ∈ l * m := by
  rw [optionally, add_mul, one_mul]
  exact Iff.rfl

end

/-! ### Digits -/

/-- A digit of a base is a character whose value is below it. -/
theorem isDigitOf_iff {r : Radix} {c : Char} : isDigitOf r.base c = true ↔ r.IsDigit c := by
  have hle (d e : Char) : d ≤ e ↔ d.toNat ≤ e.toNat := Iff.rfl
  have heq (d e : Char) : d = e ↔ d.toNat = e.toNat := Char.toNat_inj.symm
  have hdigit : isDigitOf r.base c = true ↔ ∃ d, digitValue? c = some d ∧ d < r.base := by
    simp [isDigitOf, digit?, Option.any_eq_true]
  rw [hdigit]
  unfold digitValue?
  cases r <;> simp only [Radix.base, Radix.IsDigit, hle, heq, Char.reduceToNat] <;> (repeat' split) <;>
    simp <;> omega

theorem isDigit_ne_underscore {r : Radix} {c : Char} (h : r.IsDigit c) : c ≠ '_' := by
  rintro rfl
  cases r <;> simp [Radix.IsDigit] at h

/-- What may stand before a run of digits: an underscore, if what comes before counts as a digit. -/
def leading : Bool → Language Char
  | true => optionally underscore
  | false => 1

theorem leading_false_mul (l : Language Char) : leading false * l = l :=
  one_mul l

/-- A run of digits is a digit, after which there is nothing more or the rest of the run, with or without an
underscore in front. -/
theorem digits_eq (r : Radix) : digits r = symbol r.IsDigit * (1 + optionally underscore * digits r) := by
  have hunfold := Language.one_add_self_mul_kstar_eq_kstar (optionally underscore * symbol r.IsDigit)
  rw [mul_assoc] at hunfold
  rw [digits, hunfold]

section

variable {r : Radix} {c : Char} {cs : List Char}

@[simp] theorem nil_notMem_digits : [] ∉ digits r := by
  rw [digits]
  exact nil_notMem_symbol_mul

theorem cons_mem_digits : c :: cs ∈ digits r ↔ r.IsDigit c ∧ (cs = [] ∨ cs ∈ optionally underscore * digits r) := by
  rw [digits_eq, cons_mem_symbol_mul, Language.mem_add, Language.mem_one, ← digits_eq]

@[simp] theorem nil_notMem_run : [] ∉ optionally underscore * digits r := by
  rw [mem_optionally_mul, underscore]
  simp

theorem cons_mem_run :
    c :: cs ∈ optionally underscore * digits r ↔ c :: cs ∈ digits r ∨ c = '_' ∧ cs ∈ digits r := by
  rw [mem_optionally_mul, underscore, cons_mem_symbol_mul]

theorem wellSeparated_underscore (isDigit : Char → Bool) (after : Bool) :
    wellSeparated isDigit after ('_' :: cs) =
      (after && cs.head?.any isDigit && wellSeparated isDigit false cs) := rfl

theorem wellSeparated_cons (isDigit : Char → Bool) (after : Bool) (hc : c ≠ '_') :
    wellSeparated isDigit after (c :: cs) = (isDigit c && wellSeparated isDigit true cs) := by
  rw [wellSeparated]
  exact hc

/-- The check of underscores lets pass exactly the runs of digits.  An underscore may stand in front where what comes
before counts as a digit. -/
theorem wellSeparated_iff (hcs : cs ≠ []) (after : Bool) :
    wellSeparated (isDigitOf r.base) after cs = true ↔ cs ∈ leading after * digits r := by
  induction cs generalizing after with
  | nil => exact absurd rfl hcs
  | cons c cs ih =>
      by_cases hc : c = '_'
      · subst hc
        have hnone : '_' :: cs ∉ digits r := fun h => isDigit_ne_underscore (cons_mem_digits.1 h).1 rfl
        rw [wellSeparated_underscore]
        cases after with
        | false => simp [leading, hnone]
        | true =>
            rw [leading, cons_mem_run, or_iff_right hnone]
            cases cs with
            | nil => simp
            | cons d cs =>
                have hrest := ih (List.cons_ne_nil d cs) false
                rw [leading_false_mul] at hrest
                rw [Bool.true_and, List.head?_cons, Option.any_some, Bool.and_eq_true, isDigitOf_iff, hrest]
                exact ⟨fun h => ⟨rfl, h.2⟩, fun h => ⟨(cons_mem_digits.1 h.2).1, h.2⟩⟩
      · have hrest : wellSeparated (isDigitOf r.base) true cs = true ↔
            cs = [] ∨ cs ∈ optionally underscore * digits r := by
          cases cs with
          | nil => simp [wellSeparated]
          | cons d cs => rw [ih (List.cons_ne_nil d cs), leading, or_iff_right (List.cons_ne_nil d cs)]
        rw [wellSeparated_cons _ _ hc, Bool.and_eq_true, isDigitOf_iff, hrest, ← cons_mem_digits]
        cases after with
        | false => rw [leading_false_mul]
        | true => rw [leading, cons_mem_run, or_iff_left fun h => hc h.1]

/-- Nothing but digits and underscores stands in a run. -/
theorem isDigit_or_underscore_of_mem_run {after : Bool} (h : cs ∈ leading after * digits r) {d : Char} (hd : d ∈ cs) :
    r.IsDigit d ∨ d = '_' := by
  have hne : cs ≠ [] := List.ne_nil_of_mem hd
  rw [← wellSeparated_iff hne] at h
  clear hne
  induction cs generalizing after with
  | nil => cases hd
  | cons c cs ih =>
      by_cases hc : c = '_'
      · subst hc
        rw [wellSeparated_underscore, Bool.and_eq_true] at h
        rcases List.mem_cons.1 hd with rfl | hd
        · exact .inr rfl
        · exact ih h.2 hd
      · rw [wellSeparated_cons _ _ hc, Bool.and_eq_true, isDigitOf_iff] at h
        rcases List.mem_cons.1 hd with rfl | hd
        · exact .inl h.1
        · exact ih h.2 hd

/-- A run has a digit. -/
theorem exists_isDigit_of_mem_run {after : Bool} (h : cs ∈ leading after * digits r) : ∃ d ∈ cs, r.IsDigit d := by
  have hdigits {cs : List Char} (h : cs ∈ digits r) : ∃ d ∈ cs, r.IsDigit d := by
    cases cs with
    | nil => exact absurd h nil_notMem_digits
    | cons c cs => exact ⟨c, List.mem_cons_self, (cons_mem_digits.1 h).1⟩
  cases after with
  | false =>
      rw [leading_false_mul] at h
      exact hdigits h
  | true =>
      cases cs with
      | nil => exact absurd h nil_notMem_run
      | cons c cs =>
          rcases cons_mem_run.1 h with h | ⟨-, h⟩
          · exact hdigits h
          · obtain ⟨d, hd, hdigit⟩ := hdigits h
            exact ⟨d, List.mem_cons_of_mem c hd, hdigit⟩

end

end GoSource.Literal
