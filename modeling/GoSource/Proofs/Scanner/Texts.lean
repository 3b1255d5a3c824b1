import GoSource.Proofs.Grammar.SignatureWords

/-!
# Texts that are cut into words

Texts are put together from pieces, and each piece is cut into its words whatever stands around it, as long as
what follows does not run into it.

* **`Cuts`**: before anything of a given form, the text is cut into the words.
* **`Cuts.append`**: pieces can be put together.
* **`cuts_intercalate`**: pieces with a separator between each two of them.
-/

namespace GoSource.Lexeme

/-- The text is cut into the words `ws` before anything that satisfies `C`. -/
def Cuts (text : String) (ws : List Word) (C : List Char → Prop) : Prop :=
  ∀ rest, C rest → Lexes text.toList ws rest

/-- A text that starts with neither a blank nor an equals sign. -/
def Opens (cs : List Char) : Prop :=
  ∃ c ds, cs = c :: ds ∧ isBlank c = false ∧ c ≠ '='

theorem Opens.append {cs : List Char} (h : Opens cs) (rest : List Char) : Opens (cs ++ rest) := by
  obtain ⟨c, ds, rfl, hblank, hequals⟩ := h
  exact ⟨c, ds ++ rest, rfl, hblank, hequals⟩

variable {a b : String} {ws vs : List Word} {C D : List Char → Prop}

/-- A text and one after it. -/
theorem Cuts.append (h : Cuts a ws C) (h' : Cuts b vs D) (hnext : ∀ rest, D rest → C (b.toList ++ rest)) :
    Cuts (a ++ b) (ws ++ vs) D := by
  intro rest hrest
  rw [String.toList_append]
  exact (h _ (hnext rest hrest)).append (h' rest hrest)

/-- Two texts that make up a third one. -/
theorem Cuts.joined {text : String} (h : Cuts a ws C) (h' : Cuts b vs D) (hnext : ∀ rest, D rest → C (b.toList ++ rest))
    (htext : a ++ b = text) : Cuts text (ws ++ vs) D :=
  htext ▸ h.append h' hnext

theorem cuts_keyword (k : Keyword) : Cuts k.text [(.kw k, "")] Breaks :=
  fun _ hrest => lexes_keyword k hrest

theorem cuts_ident {name : String} (h : IsIdent name) : Cuts name [(.lit .ident, name)] Breaks :=
  fun _ hrest => lexes_ident h hrest

/-- Texts after which anything may stand. -/
abbrev Anything (_ : List Char) : Prop :=
  True

theorem cuts_mark {o : Operator} (hclosed : isClosed o = true)
    (hopens : o.text.toList.head?.any opensOperator = true) : Cuts o.text [(.op o, "")] Anything :=
  fun rest _ => lexes_mark hclosed hopens rest

theorem cuts_blank : Cuts " " [] Opens := by
  rintro rest ⟨c, ds, rfl, hblank, -⟩
  exact lexes_blank hblank

theorem cuts_star : Cuts "*" [(.op .mul, "")] Opens := by
  rintro rest ⟨c, ds, rfl, -, hequals⟩
  exact lexes_star hequals ds

theorem cuts_ellipsis : Cuts "..." [(.op .ellipsis, "")] Anything :=
  fun rest _ => lexes_ellipsis rest

/-- A length in brackets. -/
theorem cuts_length (n : Nat) :
    Cuts ("[" ++ n.repr ++ "]") [(.op .lbrack, ""), (.lit .int, n.repr), (.op .rbrack, "")] Anything := by
  have hopen : Cuts "[" [(.op .lbrack, "")] Anything := cuts_mark (o := .lbrack) (by decide) (by decide)
  have hclose : Cuts "]" [(.op .rbrack, "")] Anything := cuts_mark (o := .rbrack) (by decide) (by decide)
  have hnumber : Cuts n.repr [(.lit .int, n.repr)] fun cs => ∃ rest, cs = ']' :: rest := by
    rintro _ ⟨rest, rfl⟩
    exact lexes_number n rest
  exact (hopen.append hnumber fun _ _ => trivial).append hclose fun rest _ => ⟨rest, rfl⟩

/-! ### Lists -/

/-- A piece of a list. -/
structure Piece (text : String) (ws : List Word) : Prop where
  cuts : Cuts text ws Breaks
  opens : Opens text.toList

theorem Opens.intercalate {text : String} (h : Opens text.toList) (s : String) (texts : List String) :
    Opens (String.intercalate s (text :: texts)).toList := by
  cases texts with
  | nil => exact h
  | cons next texts =>
      rw [String.intercalate_cons_cons, String.append_assoc, String.toList_append]
      exact h.append _

/-- Pieces with a separator between each two of them. -/
theorem cuts_intercalate {o : Operator} (hclosed : isClosed o = true)
    (hopens : o.text.toList.head?.any opensOperator = true) (hbreaks : ∀ rest, Breaks (o.text.toList ++ rest))
    {texts : List String} {wss : List (List Word)} (h : List.Forall₂ Piece texts wss) :
    Cuts (String.intercalate (o.text ++ " ") texts) (Grammar.joinWords o wss) Breaks := by
  induction h with
  | nil => exact fun rest _ => .nil rest
  | @cons text ws texts wss hhead htail ih =>
      cases htail with
      | nil => exact hhead.cuts
      | @cons text' ws' texts wss hnext hrest =>
          have hseparator : Cuts (o.text ++ " ") [(.op o, "")] Opens :=
            (cuts_mark hclosed hopens).append cuts_blank fun _ _ => trivial
          rw [String.intercalate_cons_cons, Grammar.joinWords_cons, List.append_cons]
          refine (hhead.cuts.append hseparator ?_).append ih ?_
          · intro rest _
            rw [String.toList_append, List.append_assoc]
            exact hbreaks _
          · intro rest _
            exact (hnext.opens.intercalate _ texts).append rest

end GoSource.Lexeme
