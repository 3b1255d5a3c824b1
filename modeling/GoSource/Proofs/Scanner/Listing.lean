import GoSource.Listing
import GoSource.Proofs.Literal.Quoting
import GoSource.Proofs.Scanner.Positions
import GoSource.Proofs.Scanner.Words

/-!
# Token listings are read back

A listing has a line for each token, and tabs cut the line into fields.  No field has a tab or a line end inside, as
long as the name of the file has none: what a token's own text has of them is escaped.

* **`piecesAt`** cuts a text at a separator; `piecesAt_append` cuts it in front of one.
* **`LineShows`** is what the line of a token says; `shows_listingFields` proves it of the line that is written.
* **`readListing?`** reads a listing field by field, without knowing the name of the file or its text.
* **`tokenListing_reads`**: what is read from a listing is what the scanner found.
-/

namespace GoSource

/-! ### Cutting a text -/

/-- The pieces of a text between the places where `separator` occurs. -/
def piecesAt (separator : Char) (s : String) : List String :=
  (s.toList.splitOn separator).map String.ofList

theorem piecesAt_of_notMem {separator : Char} {s : String} (h : separator ∉ s.toList) :
    piecesAt separator s = [s] := by
  have hother : ∀ c ∈ s.toList, (c == separator) = false := fun c hc => beq_false_of_ne fun heq => h (heq ▸ hc)
  rw [piecesAt, List.splitOn, List.splitOnP_eq_singleton hother, List.map_singleton, String.ofList_toList]

/-- A separator parts the pieces before it from those after it. -/
theorem piecesAt_append (separator : Char) (s rest : String) :
    piecesAt separator (s ++ String.singleton separator ++ rest) = piecesAt separator s ++ piecesAt separator rest := by
  have hlist : (s ++ String.singleton separator ++ rest).toList = s.toList ++ separator :: rest.toList := by simp
  have hcut : (s.toList ++ separator :: rest.toList).splitOn separator =
      s.toList.splitOn separator ++ rest.toList.splitOn separator :=
    List.splitOnP_append_cons _ _ (beq_self_eq_true separator)
  rw [piecesAt, hlist, hcut, List.map_append]
  rfl

/-- The pieces make up the text again. -/
theorem intercalate_piecesAt (separator : Char) (s : String) :
    (String.singleton separator).intercalate (piecesAt separator s) = s := by
  have hpieces : (piecesAt separator s).map String.toList = s.toList.splitOn separator := by
    simp [piecesAt, Function.comp_def]
  rw [← String.toList_inj, String.toList_intercalate, hpieces, String.toList_singleton, List.intercalate_splitOn]

/-- Pieces that have no separator inside are found again. -/
theorem piecesAt_intercalate {separator : Char} {pieces : List String} (h : ∀ s ∈ pieces, separator ∉ s.toList)
    (hsome : pieces ≠ []) : piecesAt separator ((String.singleton separator).intercalate pieces) = pieces := by
  have hlists : ∀ l ∈ pieces.map String.toList, separator ∉ l := by simpa using h
  rw [piecesAt, String.toList_intercalate, String.toList_singleton,
    List.splitOn_intercalate separator hlists (by simpa using hsome), List.map_map]
  simp [Function.comp_def]

/-- What occurs neither in the pieces nor in what stands between them does not occur. -/
theorem notMem_intercalate {c : Char} {between : String} {pieces : List String} (hbetween : c ∉ between.toList)
    (h : ∀ s ∈ pieces, c ∉ s.toList) : c ∉ (between.intercalate pieces).toList := by
  induction pieces with
  | nil => simp
  | cons s rest ih =>
      obtain ⟨hs, hrest⟩ := List.forall_mem_cons.1 h
      cases rest with
      | nil => simpa using hs
      | cons s' rest =>
          rw [String.intercalate_cons_cons, String.toList_append, String.toList_append]
          simp only [List.mem_append, not_or]
          exact ⟨⟨hs, hbetween⟩, ih hrest⟩

/-- Lines that all have an end. -/
theorem piecesAt_join {lines : List String} (h : ∀ line ∈ lines, '\n' ∉ line.toList) :
    piecesAt '\n' (String.join (lines.map (· ++ "\n"))) = lines ++ [""] := by
  induction lines with
  | nil => rfl
  | cons line lines ih =>
      obtain ⟨hline, hlines⟩ := List.forall_mem_cons.1 h
      rw [List.map_cons, String.join_cons]
      refine (piecesAt_append '\n' line _).trans ?_
      rw [piecesAt_of_notMem hline, ih hlines]
      rfl

/-! ### Positions -/

theorem isDigit_of_mem_repr {n : Nat} {c : Char} (h : c ∈ n.repr.toList) : c.isDigit = true := by
  rw [Nat.toList_repr] at h
  exact Nat.isDigit_of_mem_toDigits (by decide) (by decide) h

theorem notMem_repr {c : Char} (h : c.isDigit = false) (n : Nat) : c ∉ n.repr.toList := fun hmem =>
  absurd (isDigit_of_mem_repr hmem) (by rw [h]; decide)

/-- The number that decimal digits stand for. -/
def readNumber? (s : String) : Option Nat :=
  if s ≠ "" ∧ s.toList.all Char.isDigit then some (Nat.ofDigitChars 10 s.toList 0) else none

theorem readNumber?_repr (n : Nat) : readNumber? n.repr = some n := by
  have hsome : n.repr ≠ "" := by
    rw [ne_eq, ← String.toList_inj, Nat.toList_repr]
    exact Nat.toDigits_ne_nil
  have hdigits : n.repr.toList.all Char.isDigit = true := List.all_eq_true.2 fun _ hc => isDigit_of_mem_repr hc
  rw [readNumber?, if_pos ⟨hsome, hdigits⟩, Nat.toList_repr, Nat.ofDigitChars_toDigits (by decide) (by decide)]

/-- The file name, the line and the column of a position that was rendered: what stands before the last colon but one,
and the numbers after the last two. -/
def readPosition? (s : String) : Option (String × Nat × Nat) :=
  match (piecesAt ':' s).reverse with
  | column :: line :: name => do return (":".intercalate name.reverse, ← readNumber? line, ← readNumber? column)
  | _ => none

namespace Position

variable {p : Position}

/-- What is rendered of a position that is valid. -/
theorem render_of_isValid (h : p.isValid = true) :
    p.render = (if p.fileName = "" then "" else p.fileName ++ ":") ++ p.line.repr ++ ":" ++ p.column.repr := by
  rw [render, h]
  by_cases hname : p.fileName = ""
  · rw [if_pos hname, hname]
    rfl
  · have hsome : p.fileName.isEmpty = false := by simpa using hname
    rw [if_neg hname, hsome]
    rfl

theorem notMem_render {c : Char} (h : p.isValid = true) (hname : c ∉ p.fileName.toList) (hcolon : c ≠ ':')
    (hdigit : c.isDigit = false) : c ∉ p.render.toList := by
  have hline := notMem_repr hdigit p.line
  have hcolumn := notMem_repr hdigit p.column
  rw [render_of_isValid h]
  split
  · simp [-Nat.toList_repr, hline, hcolumn, hcolon]
  · simp [-Nat.toList_repr, hname, hline, hcolumn, hcolon]

/-- A colon in the name of the file does no harm. -/
theorem readPosition?_render (h : p.isValid = true) :
    readPosition? p.render = some (p.fileName, p.line, p.column) := by
  have hline := piecesAt_of_notMem (notMem_repr (by decide : ':'.isDigit = false) p.line)
  have hcolumn := piecesAt_of_notMem (notMem_repr (by decide : ':'.isDigit = false) p.column)
  have hpieces : ∃ name, piecesAt ':' p.render = name ++ [p.line.repr, p.column.repr] ∧
      ":".intercalate name = p.fileName := by
    rw [render_of_isValid h]
    split
    · next hname =>
        refine ⟨[], ?_, hname.symm⟩
        rw [String.empty_append]
        exact (piecesAt_append ':' p.line.repr p.column.repr).trans (by rw [hline, hcolumn]; rfl)
    · refine ⟨piecesAt ':' p.fileName, ?_, intercalate_piecesAt ':' p.fileName⟩
      refine (piecesAt_append ':' (p.fileName ++ ":" ++ p.line.repr) p.column.repr).trans ?_
      have hname := piecesAt_append ':' p.fileName p.line.repr
      rw [hcolumn, show ":" = String.singleton ':' from rfl, hname, hline, List.append_assoc]
      rfl
  obtain ⟨name, hpieces, hname⟩ := hpieces
  rw [readPosition?, hpieces, List.reverse_append]
  simp only [List.reverse_cons, List.reverse_nil, List.nil_append, List.cons_append, List.reverse_reverse,
    readNumber?_repr, hname]
  rfl

end Position

namespace SourceFile

theorem fileName_position (f : SourceFile) (pos : Pos) : (f.position pos).fileName = f.name := by
  cases pos with
  | none => rfl
  | «at» offset =>
      rw [position]
      split <;> rfl

/-- In a file that starts at the first offset, the places of its bytes are valid. -/
theorem isValid_position {f : SourceFile} {n size : Nat} (hbase : f.base = 0) (hsize : f.size = some size)
    (hn : n ≤ size) : (f.position (f.pos n)).isValid = true := by
  have hin : f.contains (min (f.base + n) (Pos.limit - 1)) = true := by
    have hle : min n (Pos.limit - 1) ≤ size := Nat.le_trans (Nat.min_le_left _ _) hn
    simpa [contains, hbase, hsize] using hle
  rw [pos, Pos.ofOffset, position, if_pos hin]
  exact decide_eq_true (Nat.succ_pos _)

end SourceFile

/-! ### Kinds of tokens -/

namespace Token

theorem mem_all (t : Token) : t ∈ all := by
  simp only [all, List.mem_append, List.mem_map]
  cases t with
  | illegal | eof | comment => simp
  | lit c => exact .inl (.inl (.inl (.inr ⟨c, by cases c <;> decide, rfl⟩)))
  | op o => exact .inl (.inl (.inr ⟨o, Lexeme.mem_all o, rfl⟩))
  | kw k => exact .inl (.inr ⟨k, by cases k <;> decide, rfl⟩)
  | tag t => exact .inr ⟨t, by cases t <;> decide, rfl⟩

/-- No two kinds have one spelling. -/
theorem ofText?_text (t : Token) : ofText? t.text = some t := by
  have hall : (all.all fun t => ofText? t.text == some t) = true := by decide +kernel
  exact eq_of_beq (List.all_eq_true.1 hall t t.mem_all)

theorem isControl_of_mem_text {t : Token} {c : Char} (h : c ∈ t.text.toList) : Literal.isControl c = false := by
  have hall : (all.all fun t => t.text.toList.all fun c => !Literal.isControl c) = true := by decide +kernel
  simpa using List.all_eq_true.1 (List.all_eq_true.1 hall t t.mem_all) c h

end Token

/-! ### Lines -/

/-- The fields of a token's line. -/
def listingFields (file : SourceFile) (t : Scanned) : List String :=
  (file.position t.pos).render :: t.token.text :: if t.literal = "" then [] else [Literal.quote t.literal]

/-- The text of a line shows a token: it is one line, and tabs cut it into the token's position, its spelling and,
exactly when the token has a text of its own, a literal from which this text is read. -/
def LineShows (file : SourceFile) (t : Scanned) (line : String) : Prop :=
  '\n' ∉ line.toList ∧
    ∃ texts, piecesAt '\t' line = (file.position t.pos).render :: t.token.text :: texts ∧
      if t.literal = "" then texts = [] else ∃ field, texts = [field] ∧ Literal.unquote? field = some t.literal

/-- What a listing tells of a token. -/
structure ListedToken where
  /-- The name of the file. -/
  fileName : String
  /-- Where the token starts. -/
  line : Nat
  column : Nat
  token : Token
  /-- The token's own text, if it has one. -/
  literal : String
  deriving DecidableEq, Repr

/-- A token at its place in a file. -/
def Scanned.listed (file : SourceFile) (t : Scanned) : ListedToken :=
  let position := file.position t.pos
  { fileName := position.fileName
    line := position.line
    column := position.column
    token := t.token
    literal := t.literal }

/-- The text of a token; where the field is missing, there is none. -/
def readTexts? : List String → Option String
  | [] => some ""
  | [field] => Literal.unquote? field
  | _ => none

/-- The token that a line shows. -/
def readLine? (line : String) : Option ListedToken :=
  match piecesAt '\t' line with
  | position :: token :: texts => do
      let (fileName, line, column) ← readPosition? position
      return { fileName, line, column, token := ← Token.ofText? token, literal := ← readTexts? texts }
  | _ => none

/-- The tokens that a listing shows, one a line; each line has an end. -/
def readListing? (listing : String) : Option (List ListedToken) :=
  (piecesAt '\n' listing).dropLast.mapM readLine?

section

variable {file : SourceFile} {t : Scanned} {tokens : List Scanned} {lines : List String}

theorem listingLine_eq (file : SourceFile) (t : Scanned) :
    listingLine file t = "\t".intercalate (listingFields file t) ++ "\n" := by
  by_cases h : t.literal = ""
  · simp [listingLine, listingFields, h]
  · simp [listingLine, listingFields, h, ← String.toList_inj]

/-- The fields of a line have no separators and no line ends, unless the name of the file has one. -/
theorem notMem_listingFields {c : Char} (hvalid : (file.position t.pos).isValid = true)
    (hname : c ∉ file.name.toList) (hcontrol : Literal.isControl c = true) (hcolon : c ≠ ':')
    (hdigit : c.isDigit = false) : ∀ field ∈ listingFields file t, c ∉ field.toList := by
  have hprinted {s : String} (hs : ∀ d ∈ s.toList, Literal.isControl d = false) : c ∉ s.toList := fun hc => by
    rw [hs c hc] at hcontrol
    cases hcontrol
  have hposition : c ∉ (file.position t.pos).render.toList :=
    Position.notMem_render hvalid (by rwa [SourceFile.fileName_position]) hcolon hdigit
  have hspelling : c ∉ t.token.text.toList := hprinted fun _ => Token.isControl_of_mem_text
  have hquoted : c ∉ (Literal.quote t.literal).toList := hprinted fun _ => Literal.isControl_of_mem_quote
  rw [listingFields]
  split
  · simp [hposition, hspelling]
  · simp [hposition, hspelling, hquoted]

/-- The line that is written for a token shows it. -/
theorem shows_listingFields (hvalid : (file.position t.pos).isValid = true) (htab : '\t' ∉ file.name.toList)
    (hnewline : '\n' ∉ file.name.toList) : LineShows file t ("\t".intercalate (listingFields file t)) := by
  have htabs := notMem_listingFields hvalid htab (by decide) (by decide) (by decide)
  have hends := notMem_listingFields hvalid hnewline (by decide) (by decide) (by decide)
  refine ⟨?_, if t.literal = "" then [] else [Literal.quote t.literal], ?_, ?_⟩
  · exact notMem_intercalate (by decide) hends
  · exact piecesAt_intercalate htabs (List.cons_ne_nil _ _)
  · split
    · rfl
    · exact ⟨_, rfl, by rw [Literal.quote, Literal.unquote?_quoteChars, String.ofList_toList]⟩

/-- What a line shows is what is read from it. -/
theorem LineShows.read {line : String} (h : LineShows file t line) (hvalid : (file.position t.pos).isValid = true) :
    readLine? line = some (t.listed file) := by
  obtain ⟨-, texts, hpieces, htexts⟩ := h
  have hliteral : readTexts? texts = some t.literal := by
    split at htexts
    · next hnone => rw [htexts, hnone]; rfl
    · obtain ⟨field, rfl, hfield⟩ := htexts
      exact hfield
  simp only [readLine?, hpieces, Position.readPosition?_render hvalid, Token.ofText?_text, hliteral]
  rfl

/-- Lines that show tokens are read back when each has an end. -/
theorem readListing?_join (h : List.Forall₂ (LineShows file) tokens lines)
    (hvalid : ∀ t ∈ tokens, (file.position t.pos).isValid = true) :
    readListing? (String.join (lines.map (· ++ "\n"))) = some (tokens.map (Scanned.listed file)) := by
  have hends : ∀ line ∈ lines, '\n' ∉ line.toList := by
    clear hvalid
    induction h with
    | nil => exact List.forall_mem_nil _
    | cons hline _ ih => exact List.forall_mem_cons.2 ⟨hline.1, ih⟩
  rw [readListing?, piecesAt_join hends, List.dropLast_concat]
  induction h with
  | nil => rfl
  | cons hline _ ih =>
      obtain ⟨hhead, htail⟩ := List.forall_mem_cons.1 hvalid
      rw [List.mapM_cons, hline.read hhead, ih htail (List.forall_mem_cons.1 hends).2]
      rfl

end

/-! ### Listings -/

namespace Scanner

/-- Handing out tokens does not change the file. -/
theorem file_scanAll (s : Scanner) : s.scanAll.2.file = s.file := by
  fun_induction scanAll s with
  | case1 s item rest hpop delivered tokens s' hall ih =>
      rw [hall] at ih
      exact ih.trans (s.file_deliver item rest)
  | case2 s hpop token s' hend =>
      obtain ⟨rfl, rfl⟩ := Prod.mk.inj hend
      rfl

/-- The tokens of a text have valid positions, however long the text is. -/
theorem isValid_position_tokens (name text : String) :
    ∀ t ∈ (ofString name text).tokens, ((ofString name text).file.position t.pos).isValid = true := by
  have hplaced : Placed name 0 text.toUTF8 _ (ofString name text) :=
    placed_start (r := ({} : Reader).init { name } (.ofString text)) rfl rfl rfl
  intro t ht
  rw [tokens_eq] at ht
  obtain ⟨item, hitem, rfl⟩ := List.mem_map.1 ht
  exact SourceFile.isValid_position hplaced.base_eq hplaced.size_eq
    (Nat.le_trans (hplaced.start_le item hitem) hplaced.reached_le)

end Scanner

/-- A token listing loses nothing.  It has one line for each token before the end of the text, in order, and every line
has an end.  Tabs cut a line into the position of the token, its spelling and, exactly when the token has a text of its
own, a literal that is read as this text.  So the positions, the kinds and the texts of the tokens are read back from
the listing. -/
theorem tokenListing_reads (name text : String) (htab : '\t' ∉ name.toList) (hnewline : '\n' ∉ name.toList) :
    let s := Scanner.ofString name text
    ∃ tokens eof lines, s.scanAll.1 = tokens ++ [eof] ∧ eof.token = .eof ∧ (∀ t ∈ tokens, t.token ≠ .eof) ∧
      (tokenListing name text).1 = String.join (lines.map (· ++ "\n")) ∧
      List.Forall₂ (LineShows s.scanAll.2.file) tokens lines ∧
      readListing? (tokenListing name text).1 = some (tokens.map (Scanned.listed s.scanAll.2.file)) := by
  intro s
  obtain ⟨eof, heof, hall⟩ := s.scanAll_fst
  rw [← s.tokens_eq] at hall
  have hname : s.file.name = name :=
    (Scanner.placed_start (r := ({} : Reader).init { name } (.ofString text)) rfl rfl rfl).name_eq
  have hvalid : ∀ t ∈ s.tokens, (s.file.position t.pos).isValid = true := Scanner.isValid_position_tokens name text
  have hopen : ∀ t ∈ s.tokens, t.token ≠ .eof := by
    intro t ht
    rw [s.tokens_eq] at ht
    obtain ⟨item, hitem, rfl⟩ := List.mem_map.1 ht
    exact s.stream.token_ne_eof item hitem
  have hlisting : (tokenListing name text).1 =
      String.join (((s.tokens.map fun t => "\t".intercalate (listingFields s.file t))).map (· ++ "\n")) := by
    show String.join (s.scanAll.1.dropLast.map (listingLine s.scanAll.2.file)) = _
    rw [hall, List.dropLast_concat, s.file_scanAll, List.map_map, funext (listingLine_eq s.file)]
    rfl
  have hshows : List.Forall₂ (LineShows s.file) s.tokens
      (s.tokens.map fun t => "\t".intercalate (listingFields s.file t)) := by
    rw [List.forall₂_map_right_iff, List.forall₂_same]
    intro t ht
    exact shows_listingFields (hvalid t ht) (by rwa [hname]) (by rwa [hname])
  rw [s.file_scanAll, hlisting]
  exact ⟨s.tokens, eof, _, hall, heof, hopen, rfl, hshows, readListing?_join hshows hvalid⟩

/-- In a file whose name has a colon, a comment with a tab and a line end, and a character literal with a mark.  The
operator and the semicolon that stands for the line end have two fields. -/
theorem tokenListing_reads_marks :
    let s := Scanner.ofString "a:b" "x = /*\t\n*/ '\"'\n"
    '\t' ∉ "a:b".toList ∧ '\n' ∉ "a:b".toList ∧
    (tokenListing "a:b" "x = /*\t\n*/ '\"'\n").1 =
      "a:b:1:1\tIDENT\t\"x\"\na:b:1:3\t=\na:b:1:5\tCOMMENT\t\"/*\\t\\n*/\"\n" ++
        "a:b:2:4\tCHAR\t\"'\\\"'\"\na:b:2:7\t;\n" ∧
    ∃ tokens eof lines, s.scanAll.1 = tokens ++ [eof] ∧ eof.token = .eof ∧ (∀ t ∈ tokens, t.token ≠ .eof) ∧
      (tokenListing "a:b" "x = /*\t\n*/ '\"'\n").1 = String.join (lines.map (· ++ "\n")) ∧
      List.Forall₂ (LineShows s.scanAll.2.file) tokens lines ∧
      readListing? (tokenListing "a:b" "x = /*\t\n*/ '\"'\n").1 =
        some (tokens.map (Scanned.listed s.scanAll.2.file)) :=
  ⟨by decide, by decide, by decide +kernel,
    tokenListing_reads "a:b" "x = /*\t\n*/ '\"'\n" (by decide) (by decide)⟩

end GoSource
