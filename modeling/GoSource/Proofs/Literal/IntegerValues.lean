import GoSource.Literal.Integer
import GoSource.Proofs.Literal.NumberClasses
import Mathlib.Data.Nat.Digits.Defs

/-!
# Values of integers

An integer literal has the value of its digits in the base that its production gives, and reading it gives that value as
far as it fits a word.

* **`positional`**: the number that digits stand for.
* **`HasValue`**: an integer literal and its value, one case for each production.
* **`integerValue?_hasValue`**: the value is read, or refused from `2 ^ 64` on.
-/

namespace GoSource.Literal

/-- The value of a digit. -/
def digitWeight (c : Char) : Nat :=
  if c ≤ '9' then c.toNat - '0'.toNat
  else if c ≤ 'F' then c.toNat - 'A'.toNat + 10
  else c.toNat - 'a'.toNat + 10

/-- The number that digits of a base stand for, the first of them with the most weight.  Underscores do not count. -/
def positional (r : Radix) (cs : List Char) : Nat :=
  Nat.ofDigits r.base ((cs.filter (· != '_')).map digitWeight).reverse

/-- An integer literal and its value: the production that derives the literal gives the base and the digits. -/
inductive HasValue : List Char → Nat → Prop
  | decimal {cs : List Char} : cs ∈ decimalLit → HasValue cs (positional .decimal cs)
  | leadingZero {cs : List Char} : cs ∈ optionally underscore * digits .octal →
      HasValue ('0' :: cs) (positional .octal cs)
  | marked {r : Radix} {c : Char} {cs : List Char} : r.IsMarker c → cs ∈ optionally underscore * digits r →
      HasValue ('0' :: c :: cs) (positional r cs)

/-- Every integer literal has a value. -/
theorem exists_hasValue {cs : List Char} (h : cs ∈ intLit) : ∃ v, HasValue cs v := by
  rcases mem_intLit_iff_unmarked_or_marked.1 h with (h | h) | ⟨r, c, rest, hc, hrest, rfl⟩
  · exact ⟨_, .decimal h⟩
  · obtain ⟨_, rest, rfl, hrest, rfl⟩ := mem_symbol_mul.1 h
    exact ⟨_, .leadingZero hrest⟩
  · exact ⟨_, .marked hc hrest⟩

/-! ### Digits -/

theorem digit?_of_isDigit {r : Radix} {c : Char} (h : r.IsDigit c) : digit? r.base c = some (digitWeight c) := by
  have hle (d e : Char) : d ≤ e ↔ d.toNat ≤ e.toNat := Iff.rfl
  have heq (d e : Char) : d = e ↔ d.toNat = e.toNat := Char.toNat_inj.symm
  rw [digit?, Option.filter_eq_some_iff]
  unfold digitValue? digitWeight
  cases r <;> simp only [Radix.IsDigit, Radix.base, hle, heq, Char.reduceToNat] at h ⊢ <;> (repeat' split) <;>
    simp <;> omega

/-- Reading digits one after the other gives the number that they stand for. -/
theorem ofDigits?_eq {r : Radix} {cs : List Char} (h : ∀ c ∈ cs, r.IsDigit c) (acc : Nat) :
    ofDigits? r.base acc cs =
      some (acc * r.base ^ cs.length + Nat.ofDigits r.base (cs.map digitWeight).reverse) := by
  induction cs generalizing acc with
  | nil => simp [ofDigits?]
  | cons c cs ih =>
      rw [ofDigits?, digit?_of_isDigit (h c List.mem_cons_self), Option.bind_some,
        ih fun c hc => h c (List.mem_cons_of_mem _ hc)]
      rw [List.map_cons, List.reverse_cons, Nat.ofDigits_append, Nat.ofDigits_singleton, List.length_reverse,
        List.length_map, List.length_cons]
      congr 1
      ring

/-- A word is read from digits if it is the number that they stand for. -/
theorem readWord?_eq {r : Radix} {cs : List Char} (hne : cs ≠ []) (h : ∀ c ∈ cs, r.IsDigit c) {v : Nat}
    (hv : v = Nat.ofDigits r.base (cs.map digitWeight).reverse) :
    readWord? r.base cs = if v < 2 ^ 64 then some v else none := by
  have hdigits : ofDigits? r.base 0 cs = some v := by
    rw [ofDigits?_eq h, Nat.zero_mul, Nat.zero_add, hv]
  unfold readWord?
  split
  · next rest =>
      have hplus := h '+' List.mem_cons_self
      cases r <;> simp [Radix.IsDigit] at hplus
  · have hempty : cs.isEmpty = false := by simpa using hne
    simp [hempty, hdigits, Option.filter]

/-- The digits of a run without the underscores. -/
theorem digits_of_mem_run {r : Radix} {after : Bool} {cs : List Char} (h : cs ∈ leading after * digits r) :
    cs.filter (· != '_') ≠ [] ∧ ∀ c ∈ cs.filter (· != '_'), r.IsDigit c := by
  obtain ⟨d, hd, hdigit⟩ := exists_isDigit_of_mem_run h
  refine ⟨List.ne_nil_of_mem (List.mem_filter.2 ⟨hd, by simpa using isDigit_ne_underscore hdigit⟩), ?_⟩
  intro c hc
  obtain ⟨hc, hne⟩ := List.mem_filter.1 hc
  exact (isDigit_or_underscore_of_mem_run h hc).resolve_right (by simpa using hne)

theorem readWord?_of_mem_run {r : Radix} {after : Bool} {cs : List Char} (h : cs ∈ leading after * digits r) :
    readWord? r.base (cs.filter (· != '_')) =
      if positional r cs < 2 ^ 64 then some (positional r cs) else none := by
  obtain ⟨hne, hdigits⟩ := digits_of_mem_run h
  exact readWord?_eq hne hdigits rfl

/-! ### Literals -/

theorem filter_cons_of_ne {c : Char} (hc : c ≠ '_') (cs : List Char) :
    (c :: cs).filter (· != '_') = c :: cs.filter (· != '_') :=
  List.filter_cons_of_pos (by simpa using hc)

/-- The letter after a zero gives the base. -/
theorem integerValue?_marked {r : Radix} {c : Char} (hc : r.IsMarker c) {cs : List Char}
    (hcs : cs ∈ optionally underscore * digits r) :
    integerValue? (String.ofList ('0' :: c :: cs)) =
      if positional r cs < 2 ^ 64 then some (positional r cs) else none := by
  have hne : c ≠ '_' := by
    rintro rfl
    cases r <;> simp [Radix.IsMarker] at hc
  have hrun : cs ∈ leading true * digits r := hcs
  rw [integerValue?, String.toList_ofList, filter_cons_of_ne (by decide), filter_cons_of_ne hne]
  simp only [ofMarker?_eq_some_iff.2 hc]
  exact readWord?_of_mem_run hrun

theorem ofMarker?_eq_none_of_isDigit {c : Char} (h : Radix.octal.IsDigit c) : Radix.ofMarker? c = none := by
  cases hr : Radix.ofMarker? c with
  | none => rfl
  | some r =>
      have hmarker := ofMarker?_eq_some_iff.1 hr
      cases r <;> simp only [Radix.IsMarker] at hmarker <;> rcases hmarker with rfl | rfl <;>
        simp [Radix.IsDigit] at h

/-- Digits after a zero are octal. -/
theorem integerValue?_leadingZero {cs : List Char} (hcs : cs ∈ optionally underscore * digits .octal) :
    integerValue? (String.ofList ('0' :: cs)) =
      if positional .octal cs < 2 ^ 64 then some (positional .octal cs) else none := by
  have hrun : cs ∈ leading true * digits .octal := hcs
  have hword := readWord?_of_mem_run hrun
  obtain ⟨hne, hdigits⟩ := digits_of_mem_run hrun
  obtain ⟨d, ds, hds⟩ := List.exists_cons_of_ne_nil hne
  have hmarker := ofMarker?_eq_none_of_isDigit (hdigits d (hds ▸ List.mem_cons_self))
  rw [hds] at hword
  rw [integerValue?, String.toList_ofList, filter_cons_of_ne (by decide), hds]
  simp only [hmarker]
  exact hword

/-- Other digits are decimal. -/
theorem integerValue?_decimal {cs : List Char} (hcs : cs ∈ decimalLit) :
    integerValue? (String.ofList cs) =
      if positional .decimal cs < 2 ^ 64 then some (positional .decimal cs) else none := by
  rw [integerValue?, String.toList_ofList]
  cases cs with
  | nil => exact absurd hcs nil_notMem_decimalLit
  | cons c cs =>
      rcases cons_mem_decimalLit.1 hcs with ⟨rfl, rfl⟩ | ⟨⟨hlow, hhigh⟩, hrest⟩
      · have hrun : ['0'] ∈ leading false * digits .decimal := by
          rw [leading_false_mul, cons_mem_digits]
          exact ⟨⟨by decide, by decide⟩, .inl rfl⟩
        exact readWord?_of_mem_run hrun
      · have hdigit : Radix.decimal.IsDigit c := ⟨Char.le_trans (by decide) hlow, hhigh⟩
        have hrun : c :: cs ∈ leading false * digits .decimal := by
          rw [leading_false_mul, cons_mem_digits]
          exact ⟨hdigit, hrest⟩
        split
        · next marker rest heq =>
            rw [filter_cons_of_ne (isDigit_ne_underscore hdigit)] at heq
            obtain rfl : c = '0' := (List.cons.inj heq).1
            exact absurd hlow (by decide)
        · exact readWord?_of_mem_run hrun

/-- The value of an integer literal is read if it fits a word, and refused otherwise. -/
theorem integerValue?_of_hasValue {cs : List Char} {v : Nat} (h : HasValue cs v) :
    integerValue? (String.ofList cs) = if v < 2 ^ 64 then some v else none := by
  cases h with
  | decimal hcs => exact integerValue?_decimal hcs
  | leadingZero hcs => exact integerValue?_leadingZero hcs
  | marked hc hcs => exact integerValue?_marked hc hcs

/-- An integer literal has a value, and that is what is read from it, however many digits it has: a value from `2 ^ 64`
on is refused. -/
theorem integerValue?_hasValue (s : String) (h : classify? s.toList = some .int) :
    (∃ v, HasValue s.toList v) ∧
      ∀ v, HasValue s.toList v → integerValue? s = if v < 2 ^ 64 then some v else none := by
  refine ⟨exists_hasValue (classify?_eq_int_iff.1 h), fun v hv => ?_⟩
  have hvalue := integerValue?_of_hasValue hv
  rwa [String.ofList_toList] at hvalue

/-- The first number that does not fit a word. -/
theorem integerValue?_hasValue_limit :
    classify? "0X1_0000_0000_0000_0000".toList = some .int ∧
      HasValue "0X1_0000_0000_0000_0000".toList 18446744073709551616 ∧
      integerValue? "0X1_0000_0000_0000_0000" = none := by
  have hclass : classify? "0X1_0000_0000_0000_0000".toList = some .int := by decide +kernel
  have hrun : "1_0000_0000_0000_0000".toList ∈ optionally underscore * digits .hexadecimal :=
    (wellSeparated_iff (by decide +kernel) true).1 (by decide +kernel)
  have hvalue : HasValue "0X1_0000_0000_0000_0000".toList 18446744073709551616 := by
    have hmarked := HasValue.marked (r := .hexadecimal) (c := 'X') (.inr rfl) hrun
    have hnumber : positional .hexadecimal "1_0000_0000_0000_0000".toList = 18446744073709551616 := by decide +kernel
    rwa [hnumber] at hmarked
  exact ⟨hclass, hvalue, (integerValue?_hasValue _ hclass).2 _ hvalue⟩

end GoSource.Literal
