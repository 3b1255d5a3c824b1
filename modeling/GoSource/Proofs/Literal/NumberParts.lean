import GoSource.Proofs.Literal.NumberGrammar
import GoSource.Proofs.Scanner.Words

/-!
# Numbers and their parts

A number is taken apart at its marker, at the first letter that opens an exponent and at its first point.  Pieces of the
grammar cannot be cut anywhere else.

* **`Derived`**: parts that are pieces of the grammar.  `isWellFormed_iff`: they are what is accepted.
* **`Spells`**: the text that is put together from parts.
* **`classify?_iff`**: a text has a class exactly if it is put together from parts that are pieces of the grammar.
-/

namespace GoSource.Literal

/-! ### Letters in either case -/

theorem toNat_toLower (c : Char) :
    c.toLower.toNat = if 65 ≤ c.toNat ∧ c.toNat ≤ 90 then c.toNat + 32 else c.toNat := by
  unfold Char.toLower
  split
  · next h =>
      have hupper : 65 ≤ c.toNat ∧ c.toNat ≤ 90 := h
      rw [if_pos hupper]
      show (c.val + ('a'.val - 'A'.val)).toNat = c.toNat + 32
      rw [UInt32.toNat_add]
      show (c.toNat + 32) % 4294967296 = c.toNat + 32
      omega
  · next h =>
      have hother : ¬ (65 ≤ c.toNat ∧ c.toNat ≤ 90) := h
      rw [if_neg hother]

/-- A character becomes a lower-case letter if it is that letter in either case. -/
theorem toLower_eq_iff {c lower upper : Char} (hlower : 97 ≤ lower.toNat ∧ lower.toNat ≤ 122)
    (hupper : lower.toNat = upper.toNat + 32) : c.toLower = lower ↔ c = lower ∨ c = upper := by
  rw [← Char.toNat_inj, ← Char.toNat_inj, ← Char.toNat_inj, toNat_toLower]
  split <;> omega

theorem toLower_eq_b (c : Char) : c.toLower = 'b' ↔ c = 'b' ∨ c = 'B' := toLower_eq_iff (by decide) (by decide)

theorem toLower_eq_e (c : Char) : c.toLower = 'e' ↔ c = 'e' ∨ c = 'E' := toLower_eq_iff (by decide) (by decide)

theorem toLower_eq_o (c : Char) : c.toLower = 'o' ↔ c = 'o' ∨ c = 'O' := toLower_eq_iff (by decide) (by decide)

theorem toLower_eq_p (c : Char) : c.toLower = 'p' ↔ c = 'p' ∨ c = 'P' := toLower_eq_iff (by decide) (by decide)

theorem toLower_eq_x (c : Char) : c.toLower = 'x' ↔ c = 'x' ∨ c = 'X' := toLower_eq_iff (by decide) (by decide)

/-- The letter after a zero announces a base. -/
theorem ofMarker?_eq_some_iff {c : Char} {r : Radix} : Radix.ofMarker? c = some r ↔ r.IsMarker c := by
  have hmarkers : Radix.ofMarker? c = some r ↔
      c.toLower = 'x' ∧ r = .hexadecimal ∨ c.toLower = 'o' ∧ r = .octal ∨ c.toLower = 'b' ∧ r = .binary := by
    unfold Radix.ofMarker?
    generalize c.toLower = d
    split
    · simp [eq_comm]
    · simp [eq_comm]
    · simp [eq_comm]
    · next hx ho hb => simpa using ⟨fun h => absurd h hx, fun h => absurd h ho, fun h => absurd h hb⟩
  rw [hmarkers, toLower_eq_b, toLower_eq_o, toLower_eq_x]
  cases r <;> simp [Radix.IsMarker]

/-! ### Cutting -/

/-- A tail that was cut off, with the character at which it was cut. -/
def tailText (tail : Option (Char × List Char)) : List Char :=
  tail.elim [] fun t => t.1 :: t.2

section

variable {p : Char → Bool}

/-- What is cut in two is put together again. -/
theorem append_splitFirst (p : Char → Bool) (cs : List Char) :
    (splitFirst p cs).1 ++ tailText (splitFirst p cs).2 = cs := by
  induction cs with
  | nil => rfl
  | cons c cs ih =>
      cases hc : p c with
      | true => simp [splitFirst, hc, tailText]
      | false => simpa [splitFirst, hc] using ih

theorem splitFirst_tail {cs : List Char} {t : Char × List Char} (h : (splitFirst p cs).2 = some t) :
    p t.1 = true := by
  induction cs with
  | nil => cases h
  | cons c cs ih =>
      cases hc : p c with
      | true =>
          obtain rfl : (c, cs) = t := by simpa [splitFirst, hc] using h
          exact hc
      | false => exact ih (by simpa [splitFirst, hc] using h)

/-- What is put together is cut in two again, if the cut is to be made there and not before. -/
theorem splitFirst_append {cs : List Char} {tail : Option (Char × List Char)} (hcs : ∀ c ∈ cs, p c = false)
    (htail : ∀ t ∈ tail, p t.1 = true) : splitFirst p (cs ++ tailText tail) = (cs, tail) := by
  cases tail with
  | none =>
      rw [tailText, Option.elim_none, List.append_nil]
      exact splitFirst_of_forall hcs
  | some t =>
      rw [tailText, Option.elim_some]
      induction cs with
      | nil => simp [splitFirst, htail t rfl]
      | cons c cs ih =>
          have hrest := ih fun c hc => hcs c (List.mem_cons_of_mem _ hc)
          simp [splitFirst, hcs c List.mem_cons_self, hrest]

end

namespace NumberParts

/-- The text of the parts, without a marker. -/
def body (n : NumberParts) : List Char :=
  n.whole ++ tailText (n.fraction.map ('.', ·)) ++ tailText n.exponent

/-- A number put together from its parts. -/
inductive Spells (n : NumberParts) : List Char → Prop
  | marked {c : Char} : n.marked = true → n.radix.IsMarker c → n.Spells ('0' :: c :: n.body)
  | unmarked : n.marked = false → n.radix = .decimal → n.Spells n.body

/-- Whether a number is cut before `c`. -/
def cutsExponent (r : Radix) (c : Char) : Bool :=
  c.toLower == 'p' || (r != .hexadecimal && c.toLower == 'e')

/-- Takes apart what follows the marker. -/
def ofBody (radix : Radix) (marked : Bool) (cs : List Char) : NumberParts :=
  let ends := splitFirst (cutsExponent radix) cs
  let mantissa := splitFirst (· == '.') ends.1
  { radix, marked, whole := mantissa.1, fraction := mantissa.2.map Prod.snd, exponent := ends.2 }

theorem ofChars_marked {r : Radix} {c : Char} (h : r.IsMarker c) (cs : List Char) :
    ofChars ('0' :: c :: cs) = ofBody r true cs := by
  rw [← ofMarker?_eq_some_iff] at h
  simp only [ofChars, h]
  rfl

theorem ofChars_unmarked {cs : List Char} (h : ∀ c rest, cs = '0' :: c :: rest → ∀ r : Radix, ¬ r.IsMarker c) :
    ofChars cs = ofBody .decimal false cs := by
  unfold ofChars
  split
  rename_i radix marked body hbody
  split at hbody
  · next c rest =>
      cases hmarker : Radix.ofMarker? c with
      | some r => exact absurd (ofMarker?_eq_some_iff.1 hmarker) (h c rest rfl r)
      | none =>
          simp only [hmarker, Prod.mk.injEq] at hbody
          obtain ⟨rfl, rfl, rfl⟩ := hbody
          rfl
  · obtain ⟨rfl, rfl, rfl⟩ := by simpa using hbody
    rfl

theorem body_ofBody (radix : Radix) (marked : Bool) (cs : List Char) : (ofBody radix marked cs).body = cs := by
  have hends := append_splitFirst (cutsExponent radix) cs
  unfold body ofBody
  generalize splitFirst (cutsExponent radix) cs = ends at hends ⊢
  have hmantissa := append_splitFirst (· == '.') ends.1
  have hpoint : ((splitFirst (· == '.') ends.1).2.map Prod.snd).map ('.', ·) = (splitFirst (· == '.') ends.1).2 := by
    cases htail : (splitFirst (· == '.') ends.1).2 with
    | none => rfl
    | some t =>
        have ht : t.1 = '.' := by simpa using splitFirst_tail htail
        rw [Option.map_some, Option.map_some, ← ht]
  dsimp only
  rw [hpoint, hmantissa, hends]

/-- Every text is put together from the parts into which it is taken apart. -/
theorem spells_ofChars (cs : List Char) : (ofChars cs).Spells cs := by
  by_cases h : ∃ c rest, cs = '0' :: c :: rest ∧ ∃ r : Radix, r.IsMarker c
  · obtain ⟨c, rest, rfl, r, hc⟩ := h
    have hspells := Spells.marked (n := ofBody r true rest) rfl hc
    rwa [body_ofBody, ← ofChars_marked hc] at hspells
  · have hnone : ∀ c rest, cs = '0' :: c :: rest → ∀ r : Radix, ¬ r.IsMarker c :=
      fun c rest hcs r hc => h ⟨c, rest, hcs, r, hc⟩
    have hspells := Spells.unmarked (n := ofBody .decimal false cs) rfl rfl
    rwa [body_ofBody, ← ofChars_unmarked hnone] at hspells

/-! ### Pieces of the grammar -/

/-- The parts are pieces of the grammar. -/
structure Derived (n : NumberParts) : Prop where
  whole : n.whole ∈ optionally (leading n.marked * digits n.radix)
  fraction : ∀ f ∈ n.fraction, f ∈ optionally (digits n.radix)
  exponent : ∀ e ∈ n.exponent, e.1 :: e.2 ∈ Literal.exponent n.radix
  ne_nil : n.whole ≠ [] ∨ ∃ f ∈ n.fraction, f ≠ []
  point : n.fraction ≠ none → n.radix = .decimal ∨ n.radix = .hexadecimal ∧ n.exponent ≠ none
  leadingZero : ∀ c rest, n.whole = '0' :: c :: rest → n.marked = false → n.isFloat = false →
    c :: rest ∈ optionally underscore * digits .octal

theorem wellSeparated_iff_optionally {r : Radix} {after : Bool} {cs : List Char} :
    wellSeparated (isDigitOf r.base) after cs = true ↔ cs ∈ optionally (leading after * digits r) := by
  rw [mem_optionally]
  cases cs with
  | nil => simp [wellSeparated]
  | cons c cs => rw [wellSeparated_iff (List.cons_ne_nil c cs), or_iff_right (List.cons_ne_nil c cs)]

/-- A piece that may be missing has a digit if it is there. -/
theorem any_ne_underscore_iff {r : Radix} {after : Bool} {cs : List Char}
    (h : cs ∈ optionally (leading after * digits r)) : cs.any (· != '_') = true ↔ cs ≠ [] := by
  constructor
  · rintro hany rfl
    cases hany
  · intro hne
    obtain ⟨d, hd, hdigit⟩ := exists_isDigit_of_mem_run (h.resolve_left hne)
    exact List.any_eq_true.2 ⟨d, hd, by simpa using isDigit_ne_underscore hdigit⟩

theorem mantissaFits_iff (n : NumberParts) :
    n.mantissaFits = true ↔ n.whole ∈ optionally (leading n.marked * digits n.radix) ∧
      (∀ f ∈ n.fraction, f ∈ optionally (digits n.radix)) ∧ (n.whole ≠ [] ∨ ∃ f ∈ n.fraction, f ≠ []) := by
  have hfraction : n.fraction.all (wellSeparated (isDigitOf n.radix.base) false) = true ↔
      ∀ f ∈ n.fraction, f ∈ optionally (digits n.radix) := by
    rw [Option.all_eq_true]
    simp only [wellSeparated_iff_optionally, leading_false_mul, Option.mem_def]
  rw [mantissaFits, Bool.and_eq_true, Bool.and_eq_true, wellSeparated_iff_optionally, hfraction, and_assoc]
  refine and_congr_right fun hwhole => and_congr_right fun hparts => ?_
  rw [List.any_append, Bool.or_eq_true, any_ne_underscore_iff hwhole]
  refine or_congr_right ?_
  cases hf : n.fraction with
  | none => simp
  | some f =>
      have hpart := hparts f hf
      rw [← leading_false_mul (digits n.radix)] at hpart
      simpa using any_ne_underscore_iff hpart

/-- What follows the letter of an exponent, without its sign. -/
def unsigned : List Char → List Char
  | '+' :: rest => rest
  | '-' :: rest => rest
  | rest => rest

theorem cons_mem_exponent_iff {r : Radix} {c : Char} {cs : List Char} :
    c :: cs ∈ Literal.exponent r ↔ r.OpensExponent c ∧ unsigned cs ∈ digits .decimal := by
  rw [Literal.exponent, mul_assoc, cons_mem_symbol_mul, mem_optionally_mul]
  refine and_congr_right fun _ => ?_
  unfold unsigned
  split
  · next rest =>
      have hplus : '+' :: rest ∉ digits .decimal := fun h => absurd (cons_mem_digits.1 h).1 (by simp [Radix.IsDigit])
      rw [cons_mem_symbol_mul, or_iff_right hplus]
      simp
  · next rest =>
      have hminus : '-' :: rest ∉ digits .decimal := fun h => absurd (cons_mem_digits.1 h).1 (by simp [Radix.IsDigit])
      rw [cons_mem_symbol_mul, or_iff_right hminus]
      simp
  · next hplus hminus =>
      rw [mem_symbol_mul]
      refine or_iff_left ?_
      rintro ⟨c, rest, rfl | rfl, -, rfl⟩
      · exact hplus rest rfl
      · exact hminus rest rfl

theorem exponentLetterFits_iff (n : NumberParts) :
    n.exponentLetterFits = true ↔ ∀ e ∈ n.exponent, n.radix.OpensExponent e.1 := by
  rw [exponentLetterFits, Option.all_eq_true]
  refine forall_congr' fun e => forall_congr' fun _ => ?_
  cases n.radix <;> simp [Radix.OpensExponent, toLower_eq_e, toLower_eq_p]

theorem exponentFits_iff (n : NumberParts) :
    n.exponentFits = true ↔ ∀ e ∈ n.exponent, unsigned e.2 ∈ digits .decimal := by
  rw [exponentFits, Option.all_eq_true]
  refine forall_congr' fun e => forall_congr' fun _ => ?_
  show (!(unsigned e.2).isEmpty && wellSeparated (isDigitOf Radix.decimal.base) false (unsigned e.2)) = true ↔ _
  rw [Bool.and_eq_true, wellSeparated_iff_optionally, leading_false_mul, mem_optionally]
  cases unsigned e.2 <;> simp

/-- The exponent is one of the base: its letter fits and digits follow. -/
theorem mem_exponent_iff_fits (n : NumberParts) :
    n.exponentLetterFits = true ∧ n.exponentFits = true ↔
      ∀ e ∈ n.exponent, e.1 :: e.2 ∈ Literal.exponent n.radix := by
  rw [n.exponentLetterFits_iff, n.exponentFits_iff]
  simp only [cons_mem_exponent_iff, forall_and]

theorem fractionFits_iff (n : NumberParts) (hexponent : ∀ e ∈ n.exponent, e.1 :: e.2 ∈ Literal.exponent n.radix) :
    n.fractionFits = true ↔
      (n.fraction ≠ none → n.radix = .decimal ∨ n.radix = .hexadecimal ∧ n.exponent ≠ none) := by
  have hnone (h : n.radix ≠ .decimal) (h' : n.radix ≠ .hexadecimal) : n.exponent = none := by
    cases he : n.exponent with
    | none => rfl
    | some e =>
        have hopens := (cons_mem_exponent_iff.1 (hexponent e he)).1
        cases hr : n.radix <;> simp_all [Radix.OpensExponent]
  unfold fractionFits
  cases hr : n.radix with
  | decimal => simp
  | hexadecimal => cases n.fraction <;> cases n.exponent <;> simp
  | binary | octal =>
      rw [hnone (by simp [hr]) (by simp [hr])]
      cases n.fraction <;> simp

theorem leadingZeroFits_iff (n : NumberParts) :
    n.leadingZeroFits = true ↔
      ∀ c rest, n.whole = '0' :: c :: rest → n.marked = false → n.isFloat = false →
        c :: rest ∈ optionally underscore * digits .octal := by
  unfold leadingZeroFits
  split
  · next c rest hwhole =>
      have hrun : wellSeparated (isDigitOf 8) true (c :: rest) = true ↔
          c :: rest ∈ optionally underscore * digits .octal :=
        wellSeparated_iff (r := .octal) (List.cons_ne_nil c rest) true
      rw [Bool.or_eq_true, Bool.or_eq_true, hrun]
      cases n.marked <;> cases n.isFloat <;> simp [hwhole]
  · next hwhole => exact iff_of_true rfl fun c rest h => absurd h (hwhole c rest)

/-- Parts are accepted exactly if they are pieces of the grammar. -/
theorem isWellFormed_iff (n : NumberParts) : n.isWellFormed = true ↔ n.Derived := by
  simp only [isWellFormed, Bool.and_eq_true]
  constructor
  · rintro ⟨⟨⟨⟨hletter, hpoint⟩, hmantissa⟩, hzero⟩, hexponent⟩
    have hexponent := n.mem_exponent_iff_fits.1 ⟨hletter, hexponent⟩
    obtain ⟨hwhole, hfraction, hne⟩ := n.mantissaFits_iff.1 hmantissa
    exact ⟨hwhole, hfraction, hexponent, hne, (n.fractionFits_iff hexponent).1 hpoint, n.leadingZeroFits_iff.1 hzero⟩
  · intro h
    obtain ⟨hletter, hexponent⟩ := n.mem_exponent_iff_fits.2 h.exponent
    exact ⟨⟨⟨⟨hletter, (n.fractionFits_iff h.exponent).2 h.point⟩,
      n.mantissaFits_iff.2 ⟨h.whole, h.fraction, h.ne_nil⟩⟩, n.leadingZeroFits_iff.2 h.leadingZero⟩, hexponent⟩

/-! ### Where a number is cut -/

theorem cutsExponent_iff {r : Radix} {c : Char} :
    cutsExponent r c = true ↔ c = 'p' ∨ c = 'P' ∨ r ≠ .hexadecimal ∧ (c = 'e' ∨ c = 'E') := by
  rw [cutsExponent, Bool.or_eq_true, beq_iff_eq, toLower_eq_p, Bool.and_eq_true, bne_iff_ne, beq_iff_eq, toLower_eq_e,
    or_assoc]

theorem cutsExponent_of_opensExponent {r : Radix} {c : Char} (h : r.OpensExponent c) : cutsExponent r c = true := by
  rw [cutsExponent_iff]
  cases r with
  | decimal => exact .inr (.inr ⟨nofun, h⟩)
  | hexadecimal => exact h.imp_right .inl
  | binary | octal => cases h

/-- No number is cut at its digits. -/
theorem ne_cut {r : Radix} {c : Char} (h : r.IsDigit c ∨ c = '_') : cutsExponent r c = false ∧ c ≠ '.' := by
  constructor
  · by_contra hcut
    rw [Bool.not_eq_false, cutsExponent_iff] at hcut
    rcases hcut with rfl | rfl | ⟨hr, rfl | rfl⟩ <;> cases r <;> simp_all [Radix.IsDigit]
  · rintro rfl
    cases r <;> simp [Radix.IsDigit] at h

namespace Derived

variable {n : NumberParts} (h : n.Derived)

include h

theorem mem_whole {c : Char} (hc : c ∈ n.whole) : n.radix.IsDigit c ∨ c = '_' := by
  rcases h.whole with hnil | hrun
  · rw [hnil] at hc
    cases hc
  · exact isDigit_or_underscore_of_mem_run hrun hc

theorem mem_fraction {f : List Char} (hf : f ∈ n.fraction) {c : Char} (hc : c ∈ f) : n.radix.IsDigit c ∨ c = '_' := by
  rcases h.fraction f hf with rfl | hrun
  · cases hc
  · rw [← leading_false_mul (digits n.radix)] at hrun
    exact isDigit_or_underscore_of_mem_run hrun hc

/-- Pieces of the grammar that are put together are taken apart again. -/
theorem ofBody_body : ofBody n.radix n.marked n.body = n := by
  have hwhole : splitFirst (· == '.') (n.whole ++ tailText (n.fraction.map ('.', ·))) =
      (n.whole, n.fraction.map ('.', ·)) := by
    refine splitFirst_append (fun c hc => by simpa using (ne_cut (h.mem_whole hc)).2) fun t ht => ?_
    obtain ⟨f, -, rfl⟩ := Option.map_eq_some_iff.1 ht
    rfl
  have hends : splitFirst (cutsExponent n.radix) n.body =
      (n.whole ++ tailText (n.fraction.map ('.', ·)), n.exponent) := by
    refine splitFirst_append (fun c hc => ?_) fun t ht =>
      cutsExponent_of_opensExponent (cons_mem_exponent_iff.1 (h.exponent t ht)).1
    rcases List.mem_append.1 hc with hc | hc
    · exact (ne_cut (h.mem_whole hc)).1
    · cases hf : n.fraction with
      | none =>
          rw [hf] at hc
          cases hc
      | some f =>
          rw [hf] at hc
          rcases List.mem_cons.1 hc with rfl | hc
          · rw [Bool.eq_false_iff, Ne, cutsExponent_iff]
            simp
          · exact (ne_cut (h.mem_fraction hf hc)).1
  unfold ofBody
  rw [hends]
  dsimp only
  rw [hwhole, Option.map_map]
  show { n with fraction := n.fraction.map id } = n
  rw [Option.map_id]
  rfl

/-- After the first character of a number comes another digit, the point or the exponent. -/
theorem snd_body {c d : Char} {rest : List Char} (hbody : n.body = d :: c :: rest) (hd : d ≠ '.') :
    (n.radix.IsDigit c ∨ c = '_') ∨ c = '.' ∨ n.radix.OpensExponent c := by
  rw [body, List.append_assoc] at hbody
  cases hwhole : n.whole with
  | nil =>
      obtain ⟨f, hf, -⟩ := h.ne_nil.resolve_left fun hne => hne hwhole
      rw [hwhole, Option.mem_def.1 hf] at hbody
      exact absurd (List.cons.inj hbody).1.symm hd
  | cons d' ds =>
      rw [hwhole] at hbody
      have htail := (List.cons.inj hbody).2
      cases ds with
      | cons c' ds =>
          obtain rfl : c' = c := (List.cons.inj htail).1
          exact .inl (h.mem_whole (by simp [hwhole]))
      | nil =>
          cases hf : n.fraction with
          | some f =>
              rw [hf] at htail
              exact .inr (.inl (List.cons.inj htail).1.symm)
          | none =>
              rw [hf] at htail
              cases he : n.exponent with
              | none =>
                  rw [he] at htail
                  cases htail
              | some e =>
                  rw [he] at htail
                  obtain rfl : e.1 = c := (List.cons.inj htail).1
                  exact .inr (.inr (cons_mem_exponent_iff.1 (h.exponent e he)).1)

/-- A number without a marker does not start like one with a marker. -/
theorem unmarked (hradix : n.radix = .decimal) {c : Char} {rest : List Char} (hbody : n.body = '0' :: c :: rest)
    (r : Radix) : ¬ r.IsMarker c := by
  have hc := h.snd_body hbody (by decide)
  rw [hradix] at hc
  intro hmarker
  cases r <;> simp only [Radix.IsMarker] at hmarker <;> rcases hmarker with rfl | rfl <;>
    simp [Radix.IsDigit, Radix.OpensExponent] at hc

end Derived

theorem ofChars_of_spells {n : NumberParts} (h : n.Derived) {cs : List Char} (hcs : n.Spells cs) : ofChars cs = n := by
  cases hcs with
  | marked hmarked hc => rw [ofChars_marked hc, ← hmarked, h.ofBody_body]
  | unmarked hmarked hradix =>
      rw [ofChars_unmarked fun c rest hbody => h.unmarked hradix hbody, ← hradix, ← hmarked, h.ofBody_body]

end NumberParts

open NumberParts

/-- The class of a number that is put together from parts. -/
def NumberParts.literalClass (n : NumberParts) : LiteralClass :=
  if n.isFloat then .float else .int

/-- A text has a class exactly if it is put together from parts that are pieces of the grammar. -/
theorem classify?_iff {cs : List Char} {k : LiteralClass} :
    classify? cs = some k ↔ ∃ n : NumberParts, n.Derived ∧ n.Spells cs ∧ n.literalClass = k := by
  constructor
  · intro h
    unfold classify? at h
    dsimp only at h
    split at h
    · next hfits => exact ⟨ofChars cs, (isWellFormed_iff _).1 hfits, spells_ofChars cs, Option.some.inj h⟩
    · cases h
  · rintro ⟨n, hderived, hspells, rfl⟩
    rw [classify?, ofChars_of_spells hderived hspells]
    exact if_pos ((isWellFormed_iff n).2 hderived)

end GoSource.Literal
