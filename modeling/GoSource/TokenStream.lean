import GoSource.Lexeme

/-!
# The token stream

Automatic semicolons: a line end, or a bracketed comment with a line end in it, stands for a semicolon after
a token that can end a statement.

* `Item` is an entry of the stream, with its extent in the file.
* `Item.ofLexemes` drops blanks and line ends and puts the semicolons in.
* `TokenStream` is what is left of the stream, with the number of its tokens at hand.
-/

namespace GoSource

/-- An entry of the token stream. -/
structure Item where
  /-- The token's kind. -/
  token : Token
  /-- The token's text; empty for operators and keywords. -/
  literal : String
  /-- Offset of the first byte, from the start of the file. -/
  start : Nat
  /-- Offset just past the last byte; equal to `start` for an inserted semicolon. -/
  stop : Nat
  /-- What is wrong with the token, if anything. -/
  fault : Option LexicalFault := none
  /-- Whether this is a semicolon that holds a comment back: the comment supplies the line end and is the
  next entry. -/
  holdsComment : Bool := false
  deriving DecidableEq, Repr, Inhabited

namespace Item

/-- An inserted semicolon at a line end. -/
def semicolon (offset : Nat) (holdsComment : Bool) : Item :=
  { token := .op .semicolon, literal := "", start := offset, stop := offset, holdsComment }

/-- The entry of a token that starts at `offset`. -/
def ofLexeme (offset : Nat) (token : Token) (l : Lexeme) : Item :=
  { token, literal := l.literal, start := offset, stop := offset + Rune.widths l.runes, fault := l.fault }

/-- The line end in a complete comment. -/
def commentLineEnd? (token : Token) (l : Lexeme) : Option Nat :=
  if token = .comment ∧ l.fault = none then l.lineEnd? else none

/-- The stream of the lexemes that start at `offset`, when `last` is the token before them. -/
def ofLexemes (offset : Nat) (last : Token) : List Lexeme → List Item
  | [] => []
  | l :: rest =>
      let next := offset + Rune.widths l.runes
      match l.kind with
      | .blank => ofLexemes next last rest
      | .newline =>
          if last.endsStatement then
            semicolon offset false :: ofLexemes next (.op .semicolon) rest
          else ofLexemes next last rest
      | .token token =>
          let item := ofLexeme offset token l
          match last.endsStatement, commentLineEnd? token l with
          | true, some n =>
              semicolon (offset + n) true :: item :: ofLexemes next (.op .semicolon) rest
          | _, _ => item :: ofLexemes next (if token = .comment then last else token) rest

/-- The end of the text is not an entry. -/
theorem token_ne_eof_of_mem_ofLexemes {ls : List Lexeme} (hls : ∀ l ∈ ls, l.kind ≠ .token .eof)
    {offset : Nat} {last : Token} {item : Item} (h : item ∈ ofLexemes offset last ls) :
    item.token ≠ .eof := by
  induction ls generalizing offset last with
  | nil => simp [ofLexemes] at h
  | cons l rest ih =>
      have hrest {offset : Nat} {last : Token} (h : item ∈ ofLexemes offset last rest) :
          item.token ≠ .eof :=
        ih (fun l hl => hls l (List.mem_cons_of_mem _ hl)) h
      have hsemi (n : Nat) (b : Bool) : (semicolon n b).token ≠ .eof := nofun
      rw [ofLexemes] at h
      split at h
      · exact hrest h
      · split at h
        · rcases List.mem_cons.1 h with rfl | h
          · exact hsemi _ _
          · exact hrest h
        · exact hrest h
      · rename_i token hk
        have hitem : (ofLexeme offset token l).token ≠ .eof := by
          intro he
          exact hls l List.mem_cons_self (hk.trans (congrArg LexemeKind.token he))
        dsimp only at h
        split at h
        · rcases List.mem_cons.1 h with rfl | h
          · exact hsemi _ _
          · rcases List.mem_cons.1 h with rfl | h
            · exact hitem
            · exact hrest h
        · rcases List.mem_cons.1 h with rfl | h
          · exact hitem
          · exact hrest h

end Item

/-- The entries still to come, and how many of them the parser reads. -/
structure TokenStream where
  /-- The entries. -/
  items : List Item := []
  /-- How many of them are no comments. -/
  count : Nat := 0
  /-- The number is right. -/
  count_eq : count = items.countP (·.token ≠ .comment) := by rfl
  /-- The end of the text is not an entry. -/
  token_ne_eof : ∀ item ∈ items, item.token ≠ .eof := by simp

namespace TokenStream

/-- The stream without entries. -/
def empty : TokenStream :=
  {}

instance : Inhabited TokenStream := ⟨empty⟩

/-- The stream of a text that starts at `offset`. -/
def ofText (offset : Nat) (runes : List Rune) : TokenStream :=
  let items := Item.ofLexemes offset .illegal (Lexeme.split runes)
  { items
    count := items.countP (·.token ≠ .comment)
    token_ne_eof := fun _ h =>
      Item.token_ne_eof_of_mem_ofLexemes (fun _ => Lexeme.kind_ne_eof_of_mem_split) h }

/-- The first entry and the rest. -/
def pop? (s : TokenStream) : Option (Item × TokenStream) :=
  match h : s.items with
  | [] => none
  | item :: rest =>
      some (item,
        { items := rest
          count := if item.token = .comment then s.count else s.count - 1
          count_eq := by
            rw [s.count_eq, h, List.countP_cons]
            by_cases hc : item.token = .comment <;> simp [hc]
          token_ne_eof := fun i hi => s.token_ne_eof i (h ▸ List.mem_cons_of_mem _ hi) })

theorem items_pop? {s s' : TokenStream} {item : Item} (h : s.pop? = some (item, s')) :
    s.items = item :: s'.items := by
  unfold pop? at h
  split at h
  · simp at h
  · rename_i hi
    simp only [Option.some.injEq, Prod.mk.injEq] at h
    rw [hi, ← h.1, ← h.2]

theorem items_eq_nil_of_pop? {s : TokenStream} (h : s.pop? = none) : s.items = [] := by
  unfold pop? at h
  split at h
  · assumption
  · simp at h

/-- Taking an entry leaves one fewer. -/
theorem length_pop? {s s' : TokenStream} {item : Item} (h : s.pop? = some (item, s')) :
    s'.items.length < s.items.length := by
  rw [items_pop? h]
  exact Nat.lt_succ_self _

end TokenStream

end GoSource
