import GoSource.Proofs.Typing.Reachable

/-!
# Structural fingerprints

The fingerprint of a type by its structure alone: parts are mixed in, and declared types count by their names.

* **`Shape.digest`**, **`TypeTable.fingerprint`**: the digest of a shape from those of its parts, and of a type.
* **`Fingerprint.Tracks`**: a digest that is made like another one, from parts that may not be known yet.
* **`Extends.fingerprint_eq`**: fingerprints never change.
-/

namespace GoSource

namespace Fingerprint

variable {h g h' g' : Fingerprint}

/-! ### What is known -/

@[simp] theorem isUnknown_unknown : unknown.isUnknown = true := rfl

@[simp] theorem isUnknown_start : start.isUnknown = false := rfl

@[simp] theorem isUnknown_bytes (h : Fingerprint) (bs : List UInt8) : (h.bytes bs).isUnknown = h.isUnknown := by
  cases hunknown : h.isUnknown with
  | true => rw [bytes, if_pos hunknown, hunknown]
  | false =>
      rw [bytes, hunknown, if_neg Bool.false_ne_true]
      simp only [isUnknown]
      split
      · rfl
      · next hword => exact beq_eq_false_iff_ne.2 hword

@[simp] theorem isUnknown_byte (h : Fingerprint) (n : Nat) : (h.byte n).isUnknown = h.isUnknown :=
  isUnknown_bytes h _

@[simp] theorem isUnknown_word32 (h : Fingerprint) (n : Nat) : (h.word32 n).isUnknown = h.isUnknown :=
  isUnknown_bytes h _

@[simp] theorem isUnknown_word64 (h : Fingerprint) (n : Nat) : (h.word64 n).isUnknown = h.isUnknown :=
  isUnknown_bytes h _

@[simp] theorem isUnknown_bool (h : Fingerprint) (b : Bool) : (h.bool b).isUnknown = h.isUnknown :=
  isUnknown_bytes h _

@[simp] theorem isUnknown_string (h : Fingerprint) (s : String) : (h.string s).isUnknown = h.isUnknown := by
  rw [string, isUnknown_bytes, isUnknown_word64]

@[simp] theorem isUnknown_mix (h g : Fingerprint) : (h.mix g).isUnknown = (h.isUnknown || g.isUnknown) := by
  rw [mix]
  split
  · next hg => rw [hg, Bool.or_true, isUnknown_unknown]
  · next hg => rw [isUnknown_word64, eq_false_of_ne_true hg, Bool.or_false]

/-! ### Digests of parts that may be unknown -/

/-- The digest `h` is made like `g`, from the digests of some parts as far as they are known.  If it is known, it
is `g`, and the parts were `hashed`; and it is known if the parts are sure to be. -/
structure Tracks (sure hashed : TypeId → Prop) (h g : Fingerprint) (parts : List TypeId) : Prop where
  eq_of_known : h.isUnknown = false → h = g
  hashed_of_known : h.isUnknown = false → ∀ part ∈ parts, hashed part
  known_of_sure : (∀ part ∈ parts, sure part) → h.isUnknown = false

namespace Tracks

variable {sure hashed hashed' : TypeId → Prop} {parts parts' : List TypeId}

theorem mono (ht : Tracks sure hashed h g parts) (himp : ∀ part, hashed part → hashed' part) :
    Tracks sure hashed' h g parts :=
  ⟨ht.eq_of_known, fun hknown part hpart => himp part (ht.hashed_of_known hknown part hpart), ht.known_of_sure⟩

/-- A digest that depends on no part. -/
theorem of_known (hknown : h.isUnknown = false) : Tracks sure hashed h h [] :=
  ⟨fun _ => rfl, fun _ _ hpart => (List.not_mem_nil hpart).elim, fun _ => hknown⟩

theorem bytes (ht : Tracks sure hashed h g parts) (bs : List UInt8) :
    Tracks sure hashed (h.bytes bs) (g.bytes bs) parts := by
  refine ⟨fun hknown => ?_, fun hknown => ?_, fun hsure => ?_⟩
  · rw [isUnknown_bytes] at hknown
    rw [ht.eq_of_known hknown]
  · rw [isUnknown_bytes] at hknown
    exact ht.hashed_of_known hknown
  · rw [isUnknown_bytes]
    exact ht.known_of_sure hsure

theorem byte (ht : Tracks sure hashed h g parts) (n : Nat) : Tracks sure hashed (h.byte n) (g.byte n) parts :=
  ht.bytes _

theorem string (ht : Tracks sure hashed h g parts) (s : String) :
    Tracks sure hashed (h.string s) (g.string s) parts :=
  (ht.bytes _).bytes _

/-- The parts of two digests that are mixed. -/
theorem mix (ht : Tracks sure hashed h g parts) (ht' : Tracks sure hashed h' g' parts') :
    Tracks sure hashed (h.mix h') (g.mix g') (parts ++ parts') := by
  refine ⟨fun hknown => ?_, fun hknown part hpart => ?_, fun hsure => ?_⟩
  · rw [isUnknown_mix, Bool.or_eq_false_iff] at hknown
    rw [ht.eq_of_known hknown.1, ht'.eq_of_known hknown.2]
  · rw [isUnknown_mix, Bool.or_eq_false_iff] at hknown
    rcases List.mem_append.1 hpart with hpart | hpart
    · exact ht.hashed_of_known hknown.1 part hpart
    · exact ht'.hashed_of_known hknown.2 part hpart
  · rw [isUnknown_mix, Bool.or_eq_false_iff]
    exact ⟨ht.known_of_sure fun part hpart => hsure part (List.mem_append_left _ hpart),
      ht'.known_of_sure fun part hpart => hsure part (List.mem_append_right _ hpart)⟩

/-- The digests of a list of parts, mixed in one by one. -/
theorem foldl_mix {of : TypeId → Fingerprint} {more : List TypeId} {hs : List Fingerprint}
    (ht : Tracks sure hashed h g parts)
    (hmore : List.Forall₂ (fun part h => Tracks sure hashed h (of part) [part]) more hs) :
    Tracks sure hashed (hs.foldl Fingerprint.mix h) ((more.map of).foldl Fingerprint.mix g) (parts ++ more) := by
  induction hmore generalizing h g parts with
  | nil =>
      rw [List.append_nil]
      exact ht
  | @cons part h' more hs hpart _ ih =>
      have hnext := ih (ht.mix hpart)
      rw [List.append_assoc, List.singleton_append] at hnext
      exact hnext

end Tracks

end Fingerprint

/-! ### Shapes and types -/

/-- The digest of methods after `h`, by the digests of their types. -/
def Fingerprint.ofMethods (of : TypeId → Fingerprint) (h : Fingerprint) : List Method → Fingerprint
  | [] => h
  | m :: rest => Fingerprint.ofMethods of (((h.string m.pkgPath).string m.name).mix (of m.typ)) rest

/-- The digest of a declared type is that of its name. -/
def Fingerprint.ofName (pkgPath name : String) : Fingerprint :=
  (Fingerprint.start.string pkgPath).string name

/-- The digest of a shape, by the digests of its parts.  The invalid type has none. -/
def Shape.digest (of : TypeId → Fingerprint) : Shape → Fingerprint
  | .basic k => if k = .invalid then .unknown else Fingerprint.start.string k.name
  | .array elem length => ((of elem).byte 0x5d).word64 length
  | .slice elem => (of elem).byte 0x5b
  | .pointer elem => (of elem).byte 0x2a
  | .chan elem dir => ((of elem).byte 0x63).byte dir.code
  | .map key elem => ((Fingerprint.start.byte 0x6d).mix (of key)).mix (of elem)
  | .func params results variadic =>
      ((params ++ results).map of).foldl Fingerprint.mix
        ((((Fingerprint.start.string "func").word32 params.length).word32 results.length).bool variadic)
  | .interface methods =>
      Fingerprint.ofMethods of ((Fingerprint.start.string "interface").word64 methods.length) methods
  | .builtin name inputs outputs variadic =>
      (((Fingerprint.start.string name).word32 inputs).word32 outputs).bool variadic
  | .named pkgPath name _ _ => Fingerprint.ofName pkgPath name

@[simp] theorem Fingerprint.isUnknown_ofName (pkgPath name : String) :
    (Fingerprint.ofName pkgPath name).isUnknown = false := by
  simp [Fingerprint.ofName]

theorem Fingerprint.ofMethods_congr {f g : TypeId → Fingerprint} {ms : List Method} (h : Fingerprint)
    (heq : ∀ m ∈ ms, f m.typ = g m.typ) : Fingerprint.ofMethods f h ms = Fingerprint.ofMethods g h ms := by
  induction ms generalizing h with
  | nil => rfl
  | cons m ms ih =>
      rw [Fingerprint.ofMethods, Fingerprint.ofMethods, heq m List.mem_cons_self]
      exact ih _ fun m' hm' => heq m' (List.mem_cons_of_mem m hm')

theorem Shape.digest_congr {f g : TypeId → Fingerprint} {s : Shape} (h : ∀ part ∈ s.components, f part = g part) :
    s.digest f = s.digest g := by
  cases s with
  | basic | builtin | named => rfl
  | array e | slice e | pointer e | chan e =>
      simp only [digest]
      rw [h e (by simp [components])]
  | map k e =>
      simp only [digest]
      rw [h k (by simp [components]), h e (by simp [components])]
  | func ps rs v =>
      have hmap : (ps ++ rs).map f = (ps ++ rs).map g := List.map_congr_left h
      rw [digest, digest, hmap]
  | interface ms =>
      exact Fingerprint.ofMethods_congr _ fun m hm => h m.typ (List.mem_map_of_mem hm)

namespace TypeTable

/-- The fingerprint of a type by its structure.  Parts were made before what is built from them. -/
def fingerprint (tt : TypeTable) (t : TypeId) : Fingerprint :=
  (tt.shape t).digest fun part => if part.index < t.index then tt.fingerprint part else .unknown
termination_by t.index

variable {tt tt' : TypeTable} {t : TypeId}

theorem Sound.fingerprint_eq (h : tt.Sound) (t : TypeId) : tt.fingerprint t = (tt.shape t).digest tt.fingerprint := by
  rw [fingerprint]
  refine Shape.digest_congr fun part hpart => ?_
  rw [if_pos (h.ordered t part hpart)]

theorem Sound.knows_part {part : TypeId} (h : tt.Sound) (ht : tt.Knows t) (hpart : part ∈ (tt.shape t).components) :
    tt.Knows part :=
  Nat.lt_trans (h.ordered t part hpart) ht

theorem Sound.knows_components (h : tt.Sound) (t : TypeId) : ∀ part ∈ (tt.shape t).components, tt.Knows part := by
  intro part hpart
  refine h.knows_part (knows_of_shape_ne fun hs => ?_) hpart
  rw [hs] at hpart
  cases hpart

/-- The element of a type is in the table. -/
theorem Sound.knows_elem {elem : TypeId} (h : tt.Sound) (ht : tt.Knows t) (helem : tt.elem? t = some elem) :
    tt.Knows elem := by
  rw [elem?] at helem
  cases hs : tt.underlyingShape? t with
  | none =>
      rw [hs] at helem
      cases helem
  | some s =>
      obtain ⟨u, hu, rfl⟩ := Option.map_eq_some_iff.1 hs
      refine h.knows_part (h.underlying? ht hu).1 ?_
      rw [hs] at helem
      cases hshape : tt.shape u with
      | array | slice | pointer | chan | map =>
          rw [hshape] at helem
          cases helem
          simp [Shape.components]
      | _ =>
          rw [hshape] at helem
          cases helem

/-- Fingerprints never change: a declared type counts by its name, even while it stands for nothing. -/
theorem Extends.fingerprint_eq (hext : Extends tt tt') (h : tt.Sound) (h' : tt'.Sound) (ht : tt.Knows t) :
    tt'.fingerprint t = tt.fingerprint t := by
  induction hi : t.index using Nat.strongRecOn generalizing t with
  | _ i ih =>
      subst hi
      rw [h.fingerprint_eq, h'.fingerprint_eq]
      cases hdeclared : (tt.shape t).isDeclared with
      | false =>
          rw [hext.shape_eq ht hdeclared]
          exact Shape.digest_congr fun part hpart =>
            ih part.index (h.ordered t part hpart) (h.knows_part ht hpart) rfl
      | true =>
          cases hs : tt.shape t with
          | named pkgPath name bound ms =>
              obtain ⟨bound', ms', hs', -⟩ := hext.named_eq hs
              rw [hs']
              rfl
          | _ =>
              rw [hs] at hdeclared
              cases hdeclared

theorem Extends.digest_eq {s : Shape} (hext : Extends tt tt') (h : tt.Sound) (h' : tt'.Sound)
    (hknown : ∀ part ∈ s.components, tt.Knows part) : s.digest tt'.fingerprint = s.digest tt.fingerprint :=
  Shape.digest_congr fun part hpart => hext.fingerprint_eq h h' (hknown part hpart)

end TypeTable

end GoSource
