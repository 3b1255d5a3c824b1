import GoSource.Proofs.Literal.NumberParts

/-!
# Classes of numbers

Which texts are integers, floating-point numbers and imaginary numbers.

* **`mem_intLit_iff`**, **`mem_floatLit_iff`**: the literals of the grammar are what is put together from its pieces.
* **`classify?_grammar`**: a text is classified as the grammar derives it.
* **`numberClass?_imaginary`**: what stands before the suffix of an imaginary number.
-/

namespace GoSource.Literal

open NumberParts

open scoped Computability

/-! ### Integers -/

/-- Octal digits are decimal digits. -/
theorem mem_run_of_octal {cs : List Char} (h : cs ∈ optionally underscore * digits .octal) :
    cs ∈ optionally underscore * digits .decimal := by
  have hsymbol : symbol Radix.octal.IsDigit ≤ symbol Radix.decimal.IsDigit := by
    rintro cs ⟨c, hc, rfl⟩
    exact ⟨c, ⟨hc.1, Char.le_trans hc.2 (by decide)⟩, rfl⟩
  have hdigits : digits .octal ≤ digits .decimal :=
    mul_le_mul' hsymbol (kstar_mono (mul_le_mul' le_rfl hsymbol))
  exact mul_le_mul' le_rfl hdigits h

@[simp] theorem nil_notMem_decimalLit : [] ∉ decimalLit := by
  rw [decimalLit, zero, Language.mem_add]
  simp

theorem cons_mem_decimalLit {c : Char} {cs : List Char} :
    c :: cs ∈ decimalLit ↔
      c = '0' ∧ cs = [] ∨ ('1' ≤ c ∧ c ≤ '9') ∧ (cs = [] ∨ cs ∈ optionally underscore * digits .decimal) := by
  rw [decimalLit, Language.mem_add, cons_mem_symbol_mul, mem_optionally, zero, mem_symbol]
  simp

theorem derived_integer_iff {r : Radix} {marked : Bool} {cs : List Char} :
    Derived { radix := r, marked, whole := cs, fraction := none, exponent := none } ↔
      cs ∈ leading marked * digits r ∧
        ∀ c rest, cs = '0' :: c :: rest → marked = false → c :: rest ∈ optionally underscore * digits .octal := by
  constructor
  · intro h
    have hne : cs ≠ [] := h.ne_nil.resolve_right (by simp)
    exact ⟨h.whole.resolve_left hne, fun c rest hcs hmarked => h.leadingZero c rest hcs hmarked rfl⟩
  · rintro ⟨hcs, hzero⟩
    obtain ⟨d, hd, -⟩ := exists_isDigit_of_mem_run hcs
    exact ⟨.inr hcs, nofun, nofun, .inl (List.ne_nil_of_mem hd), fun h => absurd rfl h,
      fun c rest hcs hmarked _ => hzero c rest hcs hmarked⟩

/-- An integer with a marker. -/
theorem derived_marked_iff {r : Radix} {cs : List Char} :
    Derived { radix := r, marked := true, whole := cs, fraction := none, exponent := none } ↔
      cs ∈ optionally underscore * digits r := by
  rw [derived_integer_iff, leading]
  exact and_iff_left fun c rest _ hmarked => by cases hmarked

/-- An integer without a marker is a decimal number, or an octal number that starts with a zero. -/
theorem derived_unmarked_iff {cs : List Char} :
    Derived { radix := .decimal, marked := false, whole := cs, fraction := none, exponent := none } ↔
      cs ∈ decimalLit ∨ cs ∈ zero * (optionally underscore * digits .octal) := by
  rw [derived_integer_iff, leading_false_mul, zero]
  cases cs with
  | nil => simp
  | cons c cs =>
      rw [cons_mem_digits, cons_mem_decimalLit, cons_mem_symbol_mul]
      by_cases hc : c = '0'
      · subst hc
        cases cs with
        | nil => simp [Radix.IsDigit]
        | cons d cs =>
            have hrun : d :: cs ∈ optionally underscore * digits .octal →
                d :: cs ∈ optionally underscore * digits .decimal := mem_run_of_octal
            simpa [Radix.IsDigit] using hrun
      · have hdigit : Radix.decimal.IsDigit c ↔ '1' ≤ c ∧ c ≤ '9' := by
          have hle (d e : Char) : d ≤ e ↔ d.toNat ≤ e.toNat := Iff.rfl
          rw [← Char.toNat_inj] at hc
          simp only [Radix.IsDigit, hle, Char.reduceToNat] at hc ⊢
          omega
        simp [hc, hdigit]

theorem mem_marked_iff {r : Radix} {cs : List Char} :
    cs ∈ zero * symbol r.IsMarker * optionally underscore * digits r ↔
      ∃ c rest, r.IsMarker c ∧ rest ∈ optionally underscore * digits r ∧ cs = '0' :: c :: rest := by
  rw [mul_assoc, mul_assoc, zero, mem_symbol_mul]
  constructor
  · rintro ⟨_, rest, rfl, hrest, rfl⟩
    obtain ⟨c, tail, hc, htail, rfl⟩ := mem_symbol_mul.1 hrest
    exact ⟨c, tail, hc, htail, rfl⟩
  · rintro ⟨c, rest, hc, hrest, rfl⟩
    exact ⟨'0', c :: rest, rfl, cons_mem_symbol_mul.2 ⟨hc, hrest⟩, rfl⟩

/-- Integers without and with a marker. -/
theorem mem_intLit_iff_unmarked_or_marked {cs : List Char} :
    cs ∈ intLit ↔ (cs ∈ decimalLit ∨ cs ∈ zero * (optionally underscore * digits .octal)) ∨
      ∃ (r : Radix) (c : Char) (rest : List Char),
        r.IsMarker c ∧ rest ∈ optionally underscore * digits r ∧ cs = '0' :: c :: rest := by
  have hoctal : octalLit = zero * (optionally underscore * digits .octal) +
      zero * symbol Radix.octal.IsMarker * optionally underscore * digits .octal := by
    show zero * (1 + symbol Radix.octal.IsMarker) * optionally underscore * digits .octal = _
    rw [mul_add, mul_one, add_mul, add_mul, mul_assoc zero]
  rw [intLit, hoctal]
  simp only [Language.mem_add, binaryLit, hexLit, mem_marked_iff]
  constructor
  · rintro (((h | h) | h | h) | h)
    · exact .inl (.inl h)
    · exact .inr ⟨_, h⟩
    · exact .inl (.inr h)
    · exact .inr ⟨_, h⟩
    · exact .inr ⟨_, h⟩
  · rintro ((h | h) | ⟨r, h⟩)
    · exact .inl (.inl (.inl h))
    · exact .inl (.inr (.inl h))
    · cases r with
      | binary => exact .inl (.inl (.inr h))
      | octal => exact .inl (.inr (.inr h))
      | hexadecimal => exact .inr h
      | decimal =>
          obtain ⟨c, rest, hc, -⟩ := h
          cases hc

/-- The integers of the grammar are put together from its pieces. -/
theorem mem_intLit_iff {cs : List Char} :
    cs ∈ intLit ↔ ∃ n : NumberParts, n.Derived ∧ n.Spells cs ∧ n.literalClass = .int := by
  rw [mem_intLit_iff_unmarked_or_marked, ← derived_unmarked_iff]
  constructor
  · rintro (h | ⟨r, c, rest, hc, hrest, rfl⟩)
    · have hspells := Spells.unmarked
        (n := { radix := .decimal, marked := false, whole := cs, fraction := none, exponent := none }) rfl rfl
      refine ⟨_, h, ?_, rfl⟩
      simpa [body, tailText] using hspells
    · have hspells := Spells.marked
        (n := { radix := r, marked := true, whole := rest, fraction := none, exponent := none }) rfl hc
      refine ⟨_, derived_marked_iff.2 hrest, ?_, rfl⟩
      simpa [body, tailText] using hspells
  · rintro ⟨⟨radix, marked, whole, fraction, exponent⟩, hderived, hspells, hclass⟩
    have hparts : fraction = none ∧ exponent = none := by
      cases fraction <;> cases exponent <;> simp [literalClass, isFloat] at hclass ⊢
    obtain ⟨rfl, rfl⟩ := hparts
    have hbody : body ⟨radix, marked, whole, none, none⟩ = whole := by simp [body, tailText]
    cases hspells with
    | unmarked hmarked hradix =>
        obtain rfl : marked = false := hmarked
        obtain rfl : radix = .decimal := hradix
        rw [hbody]
        exact .inl hderived
    | marked hmarked hc =>
        obtain rfl : marked = true := hmarked
        rw [hbody]
        exact .inr ⟨radix, _, whole, hc, derived_marked_iff.1 hderived, rfl⟩

/-! ### Floating-point numbers -/

/-- A mantissa with a point. -/
def pointed (r : Radix) (after : Bool) : Language Char :=
  leading after * digits r * point * optionally (digits r) + point * digits r

/-- What follows a mantissa with a point: an exponent, which only a decimal number can do without. -/
def ending (r : Radix) : Language Char :=
  if r = .decimal then optionally (exponent r) else exponent r

/-- A floating-point number, without a marker. -/
def floatBody (r : Radix) (after : Bool) : Language Char :=
  pointed r after * ending r + leading after * digits r * exponent r

theorem decimalFloatLit_eq : decimalFloatLit = floatBody .decimal false := by
  have hending : ending .decimal = optionally (exponent .decimal) := if_pos rfl
  rw [decimalFloatLit, floatBody, pointed, hending, leading_false_mul, add_mul, add_right_comm]

theorem hexFloatLit_eq :
    hexFloatLit = zero * (symbol Radix.hexadecimal.IsMarker * floatBody .hexadecimal true) := by
  have hending : ending .hexadecimal = exponent .hexadecimal := if_neg nofun
  have hmantissa : hexMantissa = pointed .hexadecimal true + leading true * digits .hexadecimal :=
    add_right_comm _ _ _
  rw [hexFloatLit, floatBody, hending, hmantissa, ← add_mul, mul_assoc, mul_assoc]

theorem mem_pointed_iff {r : Radix} {after : Bool} {cs : List Char} :
    cs ∈ pointed r after ↔ ∃ whole ∈ optionally (leading after * digits r), ∃ f ∈ optionally (digits r),
      (whole ≠ [] ∨ f ≠ []) ∧ cs = whole ++ '.' :: f := by
  rw [pointed, Language.mem_add, mul_assoc, Language.mem_mul, point, mem_symbol_mul]
  constructor
  · rintro (⟨whole, hwhole, tail, htail, rfl⟩ | ⟨_, f, rfl, hf, rfl⟩)
    · obtain ⟨_, f, rfl, hf, rfl⟩ := mem_symbol_mul.1 htail
      obtain ⟨d, hd, -⟩ := exists_isDigit_of_mem_run hwhole
      exact ⟨whole, .inr hwhole, f, hf, .inl (List.ne_nil_of_mem hd), rfl⟩
    · have hne : f ≠ [] := by
        rintro rfl
        exact nil_notMem_digits hf
      exact ⟨[], .inl rfl, f, .inr hf, .inr hne, rfl⟩
  · rintro ⟨whole, hwhole, f, hf, hne, rfl⟩
    rcases hwhole with rfl | hwhole
    · exact .inr ⟨'.', f, rfl, hf.resolve_left (hne.resolve_left fun h => h rfl), rfl⟩
    · exact .inl ⟨whole, hwhole, '.' :: f, cons_mem_symbol_mul.2 ⟨rfl, hf⟩, rfl⟩

theorem mem_exponent_iff {r : Radix} {cs : List Char} :
    cs ∈ exponent r ↔ ∃ t : Char × List Char, t.1 :: t.2 ∈ exponent r ∧ cs = t.1 :: t.2 := by
  constructor
  · intro h
    cases cs with
    | nil =>
        rw [exponent, mul_assoc] at h
        exact absurd h nil_notMem_symbol_mul
    | cons c cs => exact ⟨(c, cs), h, rfl⟩
  · rintro ⟨t, ht, rfl⟩
    exact ht

/-- Only decimal and hexadecimal numbers have an exponent. -/
theorem radix_of_mem_exponent {r : Radix} {t : Char × List Char} (h : t.1 :: t.2 ∈ exponent r) :
    r = .decimal ∨ r = .hexadecimal := by
  have hopens := (cons_mem_exponent_iff.1 h).1
  cases r with
  | decimal => exact .inl rfl
  | hexadecimal => exact .inr rfl
  | binary | octal => cases hopens

theorem radix_of_isFloat {n : NumberParts} (h : n.Derived) (hfloat : n.isFloat = true) :
    n.radix = .decimal ∨ n.radix = .hexadecimal := by
  by_cases hfraction : n.fraction = none
  · cases hexponent : n.exponent with
    | none => simp [isFloat, hfraction, hexponent] at hfloat
    | some t => exact radix_of_mem_exponent (h.exponent t hexponent)
  · exact (h.point hfraction).imp_right And.left

theorem mem_ending_iff {r : Radix} {cs : List Char} :
    cs ∈ ending r ↔ ∃ e : Option (Char × List Char), (∀ t ∈ e, t.1 :: t.2 ∈ exponent r) ∧
      (r = .decimal ∨ r = .hexadecimal ∧ e ≠ none) ∧ cs = tailText e := by
  unfold ending
  split
  · next hr =>
      rw [mem_optionally, mem_exponent_iff]
      constructor
      · rintro (rfl | ⟨t, ht, rfl⟩)
        · exact ⟨none, nofun, .inl hr, rfl⟩
        · exact ⟨some t, by simpa using ht, .inl hr, rfl⟩
      · rintro ⟨e, he, -, rfl⟩
        cases e with
        | none => exact .inl rfl
        | some t => exact .inr ⟨t, he t rfl, rfl⟩
  · next hr =>
      rw [mem_exponent_iff]
      constructor
      · rintro ⟨t, ht, rfl⟩
        have hhex := (radix_of_mem_exponent ht).resolve_left hr
        exact ⟨some t, by simpa using ht, .inr ⟨hhex, nofun⟩, rfl⟩
      · rintro ⟨e, he, hradix, rfl⟩
        obtain ⟨t, rfl⟩ := Option.ne_none_iff_exists'.1 (hradix.resolve_left hr).2
        exact ⟨t, he t rfl, rfl⟩

/-- Floating-point numbers are put together from pieces of the grammar. -/
theorem mem_floatBody_iff {r : Radix} {after : Bool} {cs : List Char} :
    cs ∈ floatBody r after ↔
      ∃ n : NumberParts, n.Derived ∧ n.radix = r ∧ n.marked = after ∧ n.isFloat = true ∧ cs = n.body := by
  rw [floatBody, Language.mem_add, Language.mem_mul, Language.mem_mul]
  constructor
  · rintro (⟨_, hpointed, _, hending, rfl⟩ | ⟨whole, hwhole, _, hexponent, rfl⟩)
    · obtain ⟨whole, hwhole, f, hf, hne, rfl⟩ := mem_pointed_iff.1 hpointed
      obtain ⟨e, he, hradix, rfl⟩ := mem_ending_iff.1 hending
      refine ⟨{ radix := r, marked := after, whole, fraction := some f, exponent := e }, ?_, rfl, rfl, rfl, rfl⟩
      exact ⟨hwhole, by simpa using hf, he, hne.imp_right fun hf => ⟨f, rfl, hf⟩, fun _ => hradix, nofun⟩
    · obtain ⟨t, ht, rfl⟩ := mem_exponent_iff.1 hexponent
      obtain ⟨d, hd, -⟩ := exists_isDigit_of_mem_run hwhole
      refine ⟨{ radix := r, marked := after, whole, fraction := none, exponent := some t }, ?_, rfl, rfl, rfl, ?_⟩
      · exact ⟨.inr hwhole, nofun, by simpa using ht, .inl (List.ne_nil_of_mem hd), fun h => absurd rfl h, nofun⟩
      · simp [body, tailText]
  · rintro ⟨⟨radix, marked, whole, fraction, exponent⟩, h, rfl, rfl, hfloat, rfl⟩
    cases fraction with
    | some f =>
        have hne : whole ≠ [] ∨ f ≠ [] := by simpa using h.ne_nil
        exact .inl ⟨_, mem_pointed_iff.2 ⟨whole, h.whole, f, h.fraction f rfl, hne, rfl⟩, _,
          mem_ending_iff.2 ⟨exponent, h.exponent, h.point (Option.some_ne_none f), rfl⟩, rfl⟩
    | none =>
        have hne : whole ≠ [] := h.ne_nil.resolve_right (by simp)
        cases exponent with
        | none => cases hfloat
        | some t =>
            refine .inr ⟨whole, h.whole.resolve_left hne, _, h.exponent t rfl, ?_⟩
            simp [body, tailText]

/-- The floating-point numbers of the grammar are put together from its pieces. -/
theorem mem_floatLit_iff {cs : List Char} :
    cs ∈ floatLit ↔ ∃ n : NumberParts, n.Derived ∧ n.Spells cs ∧ n.literalClass = .float := by
  have hclass (n : NumberParts) : n.literalClass = .float ↔ n.isFloat = true := by
    unfold literalClass
    split <;> simp_all
  rw [floatLit, Language.mem_add, decimalFloatLit_eq, hexFloatLit_eq, mem_floatBody_iff]
  simp only [hclass]
  constructor
  · rintro (⟨n, hderived, hradix, hmarked, hfloat, rfl⟩ | h)
    · exact ⟨n, hderived, .unmarked hmarked hradix, hfloat⟩
    · obtain ⟨_, tail, rfl, htail, rfl⟩ := mem_symbol_mul.1 h
      obtain ⟨c, rest, hc, hrest, rfl⟩ := mem_symbol_mul.1 htail
      obtain ⟨n, hderived, hradix, hmarked, hfloat, rfl⟩ := mem_floatBody_iff.1 hrest
      exact ⟨n, hderived, .marked hmarked (hradix ▸ hc), hfloat⟩
  · rintro ⟨n, hderived, hspells, hfloat⟩
    cases hspells with
    | unmarked hmarked hradix => exact .inl ⟨n, hderived, hradix, hmarked, hfloat, rfl⟩
    | @marked c hmarked hc =>
        have hradix : n.radix = .hexadecimal := by
          refine (radix_of_isFloat hderived hfloat).resolve_left fun hdecimal => ?_
          rw [hdecimal] at hc
          cases hc
        have hbody := mem_floatBody_iff.2 ⟨n, hderived, hradix, hmarked, hfloat, rfl⟩
        rw [hradix] at hc
        exact .inr (cons_mem_symbol_mul.2 ⟨rfl, cons_mem_symbol_mul.2 ⟨hc, hbody⟩⟩)

/-! ### All numbers -/

theorem classify?_eq_int_iff {cs : List Char} : classify? cs = some .int ↔ cs ∈ intLit :=
  classify?_iff.trans mem_intLit_iff.symm

theorem classify?_eq_float_iff {cs : List Char} : classify? cs = some .float ↔ cs ∈ floatLit :=
  classify?_iff.trans mem_floatLit_iff.symm

theorem classify?_eq_none_iff {cs : List Char} : classify? cs = none ↔ cs ∉ intLit ∧ cs ∉ floatLit := by
  rw [← classify?_eq_int_iff, ← classify?_eq_float_iff]
  constructor
  · intro h
    rw [h]
    exact ⟨nofun, nofun⟩
  · rintro ⟨hint, hfloat⟩
    cases h : classify? cs with
    | none => rfl
    | some k =>
        obtain ⟨n, -, -, rfl⟩ := classify?_iff.1 h
        have hclass : n.literalClass = .int ∨ n.literalClass = .float := by
          unfold literalClass
          split
          · exact .inr rfl
          · exact .inl rfl
        rcases hclass with hclass | hclass
        · exact absurd (h.trans (congrArg some hclass)) hint
        · exact absurd (h.trans (congrArg some hclass)) hfloat

/-- A number is classified as the grammar derives it: as an integer, as a floating-point number, or not at all. -/
theorem classify?_grammar (cs : List Char) :
    (classify? cs = some .int ↔ cs ∈ intLit) ∧ (classify? cs = some .float ↔ cs ∈ floatLit) ∧
      (classify? cs = none ↔ cs ∉ intLit ∧ cs ∉ floatLit) :=
  ⟨classify?_eq_int_iff, classify?_eq_float_iff, classify?_eq_none_iff⟩

/-! ### Imaginary numbers -/

/-- Decimal digits and underscores in any order. -/
def looseDigits : Language Char :=
  (symbol Radix.decimal.IsDigit + underscore)∗

theorem mem_looseDigits_iff {cs : List Char} : cs ∈ looseDigits ↔ ∀ c ∈ cs, Radix.decimal.IsDigit c ∨ c = '_' := by
  have hpiece (piece : List Char) : piece ∈ symbol Radix.decimal.IsDigit + underscore ↔
      ∃ c, (Radix.decimal.IsDigit c ∨ c = '_') ∧ piece = [c] := by
    rw [Language.mem_add, underscore, mem_symbol, mem_symbol, ← exists_or]
    simp only [or_and_right]
  rw [looseDigits, Language.mem_kstar]
  constructor
  · rintro ⟨pieces, rfl, hpieces⟩ c hc
    obtain ⟨piece, hmem, hc⟩ := List.mem_flatten.1 hc
    obtain ⟨d, hd, rfl⟩ := (hpiece piece).1 (hpieces piece hmem)
    rwa [List.mem_singleton.1 hc]
  · intro h
    refine ⟨cs.map ([·]), (List.flatMap_singleton' cs).symm, ?_⟩
    intro piece hpieces
    obtain ⟨c, hc, rfl⟩ := List.mem_map.1 hpieces
    exact (hpiece [c]).2 ⟨c, h c hc, rfl⟩

theorem mem_looseDigits_of_mem_digits {cs : List Char} (hcs : cs ∈ digits .decimal) : cs ∈ looseDigits := by
  rw [← leading_false_mul (digits .decimal)] at hcs
  exact mem_looseDigits_iff.2 fun c hc => isDigit_or_underscore_of_mem_run hcs hc

/-- Before the suffix of an imaginary number stands an integer, a floating-point number, or digits and underscores. -/
theorem numberClass?_snoc (cs : List Char) :
    numberClass? (cs ++ ['i']) = some .imag ∧ cs ∈ intLit + floatLit + looseDigits ∨
      numberClass? (cs ++ ['i']) = none ∧ cs ∉ intLit + floatLit + looseDigits := by
  have hloose : cs.all (fun c => isDigitOf 10 c || c == '_') = true ↔ cs ∈ looseDigits := by
    rw [List.all_eq_true, mem_looseDigits_iff]
    refine forall_congr' fun c => forall_congr' fun _ => ?_
    rw [Bool.or_eq_true, beq_iff_eq]
    exact or_congr_left (isDigitOf_iff (r := .decimal))
  have hnumber : (classify? cs).isSome = true ↔ cs ∈ intLit ∨ cs ∈ floatLit := by
    rw [Option.isSome_iff_ne_none, Ne, classify?_eq_none_iff, not_and_or, not_not, not_not]
  have haccepted : ((classify? cs).isSome || cs.all fun c => isDigitOf 10 c || c == '_') = true ↔
      cs ∈ intLit + floatLit + looseDigits := by
    rw [Bool.or_eq_true, hnumber, hloose]
    exact Iff.rfl
  rw [numberClass?, List.getLast?_concat, if_pos rfl, List.dropLast_concat, ← haccepted]
  cases h : (classify? cs).isSome || cs.all fun c => isDigitOf 10 c || c == '_' with
  | true => exact .inl ⟨if_pos h, rfl⟩
  | false => exact .inr ⟨if_neg (by simp [h]), Bool.false_ne_true⟩

/-- The class of a number with the suffix `i`.  It is imaginary after every integer and every floating-point number, and
also after decimal digits and underscores: not only after the runs in which an underscore stands between two digits, as
in `0789i`, but in any order.  Nothing else stands before the suffix. -/
theorem numberClass?_imaginary (cs : List Char) :
    (numberClass? (cs ++ ['i']) = some .imag ↔ cs ∈ intLit + floatLit + looseDigits) ∧
      (numberClass? (cs ++ ['i']) = none ↔ cs ∉ intLit + floatLit + looseDigits) ∧
      ∀ ds ∈ digits .decimal, ds ∈ looseDigits := by
  refine ⟨?_, ?_, fun _ => mem_looseDigits_of_mem_digits⟩
  · rcases numberClass?_snoc cs with ⟨hclass, hcs⟩ | ⟨hclass, hcs⟩
    · exact iff_of_true hclass hcs
    · exact iff_of_false (by rw [hclass]; exact nofun) hcs
  · rcases numberClass?_snoc cs with ⟨hclass, hcs⟩ | ⟨hclass, hcs⟩
    · exact iff_of_false (by rw [hclass]; exact nofun) (not_not_intro hcs)
    · exact iff_of_true hclass hcs

/-- Two underscores in a row are let through before the suffix. -/
theorem imaginary_doubled_underscore :
    numberClass? "1__0i".toList = some .imag ∧ "1__0".toList ∉ intLit + floatLit + digits .decimal := by
  refine ⟨by decide +kernel, ?_⟩
  have hnumber : "1__0".toList ∉ intLit ∧ "1__0".toList ∉ floatLit := classify?_eq_none_iff.1 (by decide +kernel)
  have hdigits : "1__0".toList ∉ digits .decimal := by
    rw [← leading_false_mul (digits .decimal), ← wellSeparated_iff (by decide +kernel)]
    decide +kernel
  rintro ((hint | hfloat) | hrun)
  · exact hnumber.1 hint
  · exact hnumber.2 hfloat
  · exact hdigits hrun

end GoSource.Literal
