import GoSource.Proofs.Grammar.DeedRuns
import GoSource.Proofs.Grammar.Lookahead
import Mathlib.Data.Multiset.Bind
import Mathlib.Tactic.Abel

/-!
# Where comments go

Comments wait on the current token.  They move to the first atom that is made of it, travel with that atom if it is put
back, and are lost when the token is passed over.

* **`Item.commented`**: the tokens of a stream, each with the comments directly before it.
* **`Parser.comments_attach_once`**: no comment comes to two nodes.  A deed never makes more of the comments there are.
* **`Parser.comments_of_token`**: the comments of a node are those directly before one token.  The node ends where this
  token does, but it may start earlier, where its first part does.
* **`Parser.comments_attach_back`**: so a comment may come to a node that stands before it.
-/

namespace GoSource

/-! ### Comments of a stream -/

/-- The texts of the comments of a stream. -/
def Item.comments (items : List Item) : List String :=
  (items.filter (·.token = .comment)).map (·.literal)

theorem Item.comments_append (items items' : List Item) :
    Item.comments (items ++ items') = Item.comments items ++ Item.comments items' := by
  simp [Item.comments]

/-- The tokens of a stream that are no comments, each with the texts of the comments directly before it; the last one is
the end of the text, which is no entry.  The texts `before` were passed over already. -/
def Item.commented (before : List String) : List Item → List (List String × Option Item)
  | [] => [(before, none)]
  | item :: rest =>
      if item.token = .comment then commented (before ++ [item.literal]) rest
      else (before, some item) :: commented [] rest

namespace Scanner

/-- Where an entry starts and stops; no entry is the end of the text. -/
def extent (s : Scanner) (item : Option Item) : Pos × Pos :=
  (s.file.pos (item.elim s.finish (·.start)), s.file.pos (item.elim s.finish (·.stop)))

theorem extent_deliver (s : Scanner) (item : Item) (rest : TokenStream) :
    (s.deliver item rest).2.extent = s.extent := by
  funext place
  rw [extent, extent, file_deliver, finish_deliver]

/-- Reading past comments collects those that were read. -/
theorem scanPast_comments (s : Scanner) (comments : List String) :
    ∃ read, s.stream.items = read ++ (s.scanPast comments).2.stream.items ∧
      (s.scanPast comments).1.2 = comments ++ Item.comments read := by
  fun_induction scanPast s comments with
  | case1 s comments item rest h delivered hc ih =>
      obtain ⟨read, hitems, hcomments⟩ := ih
      have hcomment : item.token = .comment := hc
      refine ⟨item :: read, ?_, ?_⟩
      · rw [TokenStream.items_pop? h, List.cons_append, ← hitems]
        rfl
      · rw [hcomments, List.append_assoc]
        simp [Item.comments, hcomment, delivered, deliver, place]
  | case2 s comments item rest h delivered hc =>
      have hcomment : item.token ≠ .comment := hc
      refine ⟨[item], TokenStream.items_pop? h, ?_⟩
      simp [Item.comments, hcomment]
  | case3 s comments h token s' heq =>
      obtain ⟨rfl, rfl⟩ := Prod.mk.inj heq
      exact ⟨[], rfl, (List.append_nil _).symm⟩

/-- Reading past comments comes to the first token that is none, and leaves the others. -/
theorem scanPast_commented (s : Scanner) (comments : List String) :
    (∃ item, ((s.scanPast comments).1.2, item) ∈ Item.commented comments s.stream.items ∧
      s.extent item = ((s.scanPast comments).1.1.pos, (s.scanPast comments).1.1.stop)) ∧
    (∀ e ∈ Item.commented [] (s.scanPast comments).2.stream.items, e.1 ≠ [] →
      e ∈ Item.commented comments s.stream.items) ∧
    (s.scanPast comments).2.extent = s.extent := by
  fun_induction scanPast s comments with
  | case1 s comments item rest h delivered hc ih =>
      have hcomment : item.token = .comment := hc
      have hcommented : Item.commented comments s.stream.items =
          Item.commented (comments ++ [delivered.1.literal]) delivered.2.stream.items := by
        rw [TokenStream.items_pop? h, Item.commented, if_pos hcomment]
        rfl
      rw [hcommented, ← s.extent_deliver item rest]
      exact ih
  | case2 s comments item rest h delivered hc =>
      have hcomment : item.token ≠ .comment := hc
      rw [TokenStream.items_pop? h, Item.commented, if_neg hcomment]
      exact ⟨⟨some item, List.mem_cons_self, rfl⟩, fun e he _ => List.mem_cons_of_mem _ he, s.extent_deliver item rest⟩
  | case3 s comments h token s' heq =>
      obtain ⟨rfl, rfl⟩ := Prod.mk.inj heq
      have hitems : s.stream.items = [] := TokenStream.items_eq_nil_of_pop? h
      refine ⟨⟨none, ?_, rfl⟩, fun e he hne => ?_, rfl⟩
      · rw [hitems]
        exact List.mem_singleton.2 rfl
      · have he : e ∈ Item.commented [] s.stream.items := he
        rw [hitems] at he
        exact absurd (congrArg Prod.fst (List.mem_singleton.1 he)) hne

end Scanner

/-! ### No comment comes to two nodes -/

/-- The comments of all nodes. -/
def Tree.comments (t : Tree) : List String :=
  t.nodes.toList.flatMap (·.atom.comments)

namespace Parser

/-- The comments that wait on the tokens looked at. -/
def waiting (p : Parser) : List String :=
  p.curr.comments ++ p.ahead.elim [] (·.comments)

end Parser

namespace Grammar

/-- The comments of atoms in hand. -/
def Hand.comments (hand : Hand) : Multiset String :=
  Multiset.bind hand fun a => (a.comments : Multiset String)

@[simp] theorem Hand.comments_cons (a : Atom) (hand : Hand) :
    Hand.comments (a ::ₘ hand) = a.comments + Hand.comments hand :=
  Multiset.cons_bind ..

/-- All comments that were read and are still somewhere: in the hand of a production, at a node, or waiting. -/
def carried (x : Hand × Parser) : Multiset String :=
  Hand.comments x.1 + (x.2.tree.comments : Multiset String) + (x.2.waiting : Multiset String)

theorem StartsAt.comments_eq {t : Tree} {a b : Atom} {shape : NodeShape} (h : StartsAt t a b shape) :
    b.comments = a.comments := by
  rcases h with rfl | ⟨x, -, -, rfl⟩ <;> rfl

theorem comments_withNode (p : Parser) (a : Atom) (shape : NodeShape) :
    (withNode p a shape).tree.comments = p.tree.comments ++ a.comments := by
  simp [Tree.comments, withNode]

@[simp] theorem carried_cons (a : Atom) (hand : Hand) (p : Parser) :
    carried (a ::ₘ hand, p) = a.comments + carried (hand, p) := by
  simp only [carried, Hand.comments_cons, add_assoc]

/-- Going on keeps the comments of the token that comes next. -/
theorem carried_advance (hand : Hand) (p : Parser) :
    ∃ read, p.scanner.stream.items = read ++ p.advance.scanner.stream.items ∧
      carried (hand, p.advance) ≤ carried (hand, p) + (Item.comments read : Multiset String) := by
  cases hahead : p.ahead with
  | some a =>
      rw [Parser.advance_of_some hahead]
      refine ⟨[], rfl, .trans (add_le_add_right ?_ _) (Multiset.le_add_right _ _)⟩
      rw [Parser.waiting, Parser.waiting, hahead, Option.elim_none, List.append_nil, Option.elim_some,
        ← Multiset.coe_add]
      exact Multiset.le_add_left _ _
  | none =>
      obtain ⟨read, hitems, hcomments⟩ := p.scanner.scanPast_comments []
      rw [Parser.advance_of_none hahead]
      refine ⟨read, hitems, add_le_add (Multiset.le_add_right _ _) ?_⟩
      rw [Parser.waiting, hahead, Option.elim_none, List.append_nil, hcomments, List.nil_append]
      split
      · exact le_rfl
      · exact Multiset.zero_le _

/-- A step leaves at most the comments that were carried before it and those it reads. -/
theorem Deed.carried_le {x y : Hand × Parser} (h : Deed x y) :
    ∃ read, x.2.scanner.stream.items = read ++ y.2.scanner.stream.items ∧
      carried y ≤ carried x + (Item.comments read : Multiset String) := by
  have hstay (hitems : y.2.scanner.stream.items = x.2.scanner.stream.items) (hle : carried y ≤ carried x) :
      ∃ read, x.2.scanner.stream.items = read ++ y.2.scanner.stream.items ∧
        carried y ≤ carried x + (Item.comments read : Multiset String) :=
    ⟨[], hitems.symm, hle.trans (Multiset.le_add_right _ _)⟩
  cases h with
  | advance => exact carried_advance _ _
  | @complain hand p d =>
      rw [Parser.complain_eq] at hstay ⊢
      exact hstay rfl le_rfl
  | @take hand p token =>
      refine hstay rfl (le_of_eq ?_)
      rw [carried_cons]
      simp only [carried, Parser.waiting, ← Multiset.coe_add]
      show (p.curr.comments : Multiset String) + (_ + (0 + _)) = _
      rw [zero_add]
      exact add_left_comm _ _ _
  | @forge hand p a ha =>
      refine hstay rfl (le_of_eq ?_)
      rw [carried_cons, ha]
      exact zero_add _
  | @drop hand p a => exact hstay rfl (carried_cons a hand p ▸ Multiset.le_add_left _ _)
  | @retag hand p a token => exact hstay rfl (by rw [carried_cons, carried_cons])
  | @putBack hand p a =>
      -- The token after the current one makes way for it.
      refine hstay rfl ?_
      rw [carried_cons]
      simp only [carried, Parser.waiting, ← Multiset.coe_add]
      show _ + (a.comments + p.curr.comments : Multiset String) ≤ _
      rw [add_left_comm]
      exact add_le_add_right (add_le_add_right (Multiset.le_add_right _ _) _) _
  | composite => exact hstay rfl le_rfl
  | @make hand p a b shape hstart =>
      refine hstay rfl (le_of_eq ?_)
      rw [carried_cons]
      simp only [carried, comments_withNode, hstart.comments_eq, ← Multiset.coe_add]
      show _ + (p.waiting : Multiset String) = _
      abel

/-- Deeds leave at most the comments that were carried before them and those they read. -/
theorem Deeds.carried_le {x y : Hand × Parser} (h : Deeds x y) :
    ∃ read, x.2.scanner.stream.items = read ++ y.2.scanner.stream.items ∧
      carried y ≤ carried x + (Item.comments read : Multiset String) := by
  induction h with
  | refl => exact ⟨[], rfl, Multiset.le_add_right _ _⟩
  | tail _ hstep ih =>
      obtain ⟨read, hitems, hle⟩ := ih
      obtain ⟨more, hmore, hnext⟩ := hstep.carried_le
      refine ⟨read ++ more, by rw [hitems, hmore, List.append_assoc], hnext.trans ?_⟩
      rw [Item.comments_append, ← Multiset.coe_add, ← add_assoc]
      exact add_le_add_left hle _

end Grammar

namespace Parser

/-- Every comment comes to one node at most.  Whatever was asked of a parser, the comments of all nodes and those that
wait are, each with its number, among the comments of what was read of the last text. -/
theorem comments_attach_once (operations : List Operation) :
    let p := ({} : Parser).operated operations
    ∃ read, ({} : Parser).streamed [] operations = read ++ p.scanner.stream.items ∧
      (p.tree.comments : Multiset String) + (p.waiting : Multiset String) ≤ (Item.comments read : Multiset String) := by
  intro p
  have hcarried : ∃ read, ({} : Parser).streamed [] operations = read ++ p.scanner.stream.items ∧
      Grammar.carried (0, p) ≤ (Item.comments read : Multiset String) := by
    refine operated_induction (I := fun whole p => ∃ read, whole = read ++ p.scanner.stream.items ∧
      Grammar.carried (0, p) ≤ (Item.comments read : Multiset String)) ⟨[], rfl, ?_⟩
      (fun scanner mode => ⟨[], rfl, ?_⟩) (fun h => h) ?_ operations
    · exact le_of_eq rfl
    · exact le_of_eq rfl
    · rintro whole p q hdeeds ⟨read, hwhole, hle⟩
      obtain ⟨more, hitems, hmore⟩ := hdeeds.carried_le
      refine ⟨read ++ more, by rw [hwhole, hitems, List.append_assoc], hmore.trans ?_⟩
      rw [Item.comments_append, ← Multiset.coe_add]
      exact add_le_add_left hle _
  obtain ⟨read, hread, hle⟩ := hcarried
  refine ⟨read, hread, ?_⟩
  rwa [Grammar.carried, Grammar.Hand.comments, Multiset.zero_bind, zero_add] at hle

end Parser

/-! ### Which node a comment comes to -/

section

variable (whole : List Item) (extent : Option Item → Pos × Pos)

/-- The atom has no comments, or those directly before a token of the stream, and it starts and ends where that does. -/
def Atom.Follows (a : Atom) : Prop :=
  a.comments = [] ∨ ∃ e ∈ Item.commented [] whole, a.comments = e.1 ∧ a.pos = (extent e.2).1 ∧ a.stop = (extent e.2).2

/-- The node has no comments, or those directly before a token of the stream; it ends where that does, and starts where
that does or where its own first part does. -/
def Tree.Follows (t : Tree) (id : NodeId) : Prop :=
  (t.node id).atom.comments = [] ∨ ∃ e ∈ Item.commented [] whole, (t.node id).atom.comments = e.1 ∧
    (t.node id).atom.stop = (extent e.2).2 ∧
      (t.pos id = (extent e.2).1 ∨
        ∃ first, (t.children id).head?.join = some first ∧ first.index < t.size ∧ t.pos id = t.pos first)

end

variable {whole : List Item} {extent : Option Item → Pos × Pos}

/-- Nodes that are made later change nothing in this. -/
theorem Tree.Follows.grows {t t' : Tree} {id : NodeId} (h : t.Follows whole extent id) (hgrows : t.Grows t')
    (hnode : t'.node id = t.node id) : t'.Follows whole extent id := by
  rcases h with h | ⟨e, he, hcomments, hstop, hstart⟩
  · exact .inl (hnode ▸ h)
  · refine .inr ⟨e, he, hnode ▸ hcomments, hnode ▸ hstop, ?_⟩
    unfold Tree.children Tree.pos at hstart ⊢
    rw [hnode]
    refine hstart.imp_right ?_
    rintro ⟨first, hfirst, hmade, hpos⟩
    exact ⟨first, hfirst, Nat.lt_of_lt_of_le hmade hgrows.size_le, hgrows.node_eq first hmade ▸ hpos⟩

namespace Grammar

/-- Wherever comments are, they are those directly before one token. -/
structure Following (whole : List Item) (extent : Option Item → Pos × Pos) (x : Hand × Parser) : Prop where
  extent_eq : x.2.scanner.extent = extent
  unread : ∀ e ∈ Item.commented [] x.2.scanner.stream.items, e.1 ≠ [] → e ∈ Item.commented [] whole
  hand : ∀ a ∈ x.1, a.Follows whole extent
  curr : x.2.curr.Follows whole extent
  ahead : ∀ a, x.2.ahead = some a → a.Follows whole extent
  nodes : ∀ id, x.2.tree.Follows whole extent id

variable {hand : Hand} {p : Parser}

/-- The node that an atom becomes. -/
theorem follows_withNode {a b : Atom} {shape : NodeShape} (h : a.Follows whole extent)
    (hstart : StartsAt p.tree a b shape) : (withNode p b shape).tree.Follows whole extent (nextId p) := by
  have hgrows := grows_withNode p b shape
  have hnode := (holds_withNode p b shape).node_eq
  rcases h with h | ⟨e, he, hcomments, hpos, hstop⟩
  · refine .inl ?_
    rw [hnode, hstart.comments_eq, h]
  · refine .inr ⟨e, he, ?_, ?_, ?_⟩
    · rw [hnode, hstart.comments_eq, hcomments]
    · rw [hnode, ← hstop]
      rcases hstart with rfl | ⟨x, -, -, rfl⟩ <;> rfl
    · unfold Tree.children Tree.pos
      rw [hnode]
      rcases hstart with rfl | ⟨x, hfirst, hmade, rfl⟩
      · exact .inl hpos
      · exact .inr ⟨x, hfirst, Nat.lt_of_lt_of_le hmade hgrows.size_le,
          congrArg (·.atom.pos) (hgrows.node_eq x hmade).symm⟩

theorem Following.advance (h : Following whole extent (hand, p)) : Following whole extent (hand, p.advance) := by
  cases hahead : p.ahead with
  | some a =>
      rw [Parser.advance_of_some hahead]
      exact { h with curr := h.ahead a hahead, ahead := fun _ ha => absurd ha.symm (Option.some_ne_none _) }
  | none =>
      obtain ⟨⟨item, hitem, hextent⟩, hunread, hsame⟩ := p.scanner.scanPast_commented []
      rw [Parser.advance_of_none hahead]
      refine { h with extent_eq := hsame.trans h.extent_eq, unread := fun e he hne => ?_, curr := ?_ }
      · exact h.unread e (hunread e he hne) hne
      · by_cases hempty : (p.scanner.scanPast []).1.2 = []
        · refine .inl ?_
          dsimp only
          rw [hempty, ite_self]
        · by_cases hmode : p.mode.comments = true
          · have hextent : extent item = _ := h.extent_eq ▸ hextent
            refine .inr ⟨_, h.unread _ hitem hempty, if_pos hmode, ?_, ?_⟩
            · rw [hextent]
            · rw [hextent]
          · exact .inl (if_neg hmode)

theorem Following.make {a b : Atom} {shape : NodeShape} (h : Following whole extent (a ::ₘ hand, p))
    (hstart : StartsAt p.tree a b shape) : Following whole extent (hand, withNode p b shape) where
  extent_eq := h.extent_eq
  unread := h.unread
  hand c hc := h.hand c (Multiset.mem_cons_of_mem hc)
  curr := h.curr
  ahead := h.ahead
  nodes id := by
    by_cases hid : id = nextId p
    · subst hid
      exact follows_withNode (h.hand a (Multiset.mem_cons_self _ _)) hstart
    · refine (h.nodes id).grows (grows_withNode p b shape) ?_
      rw [node_withNode, if_neg hid]

/-- A step moves comments only from a token to its atom, and from there to its node. -/
theorem Deed.following {x y : Hand × Parser} (h : Deed x y) (hx : Following whole extent x) :
    Following whole extent y := by
  cases h with
  | advance => exact hx.advance
  | complain d =>
      rw [Parser.complain_eq]
      exact { hx with }
  | take token => exact { hx with hand := Multiset.forall_mem_cons.2 ⟨hx.curr, hx.hand⟩, curr := .inl rfl }
  | forge ha => exact { hx with hand := Multiset.forall_mem_cons.2 ⟨.inl ha, hx.hand⟩ }
  | drop => exact { hx with hand := (Multiset.forall_mem_cons.1 hx.hand).2 }
  | retag token =>
      obtain ⟨ha, hhand⟩ := Multiset.forall_mem_cons.1 hx.hand
      exact { hx with hand := Multiset.forall_mem_cons.2 ⟨ha, hhand⟩ }
  | putBack =>
      obtain ⟨ha, hhand⟩ := Multiset.forall_mem_cons.1 hx.hand
      refine { hx with hand := hhand, curr := ha, ahead := ?_ }
      rintro _ ⟨⟩
      exact hx.curr
  | composite => exact { hx with }
  | make hstart => exact hx.make hstart

theorem Deeds.following {x y : Hand × Parser} (h : Deeds x y) (hx : Following whole extent x) :
    Following whole extent y := by
  induction h with
  | refl => exact hx
  | tail _ hstep ih => exact hstep.following ih

theorem following_start (scanner : Scanner) (mode : Mode) (ok : Bool) :
    Following scanner.stream.items scanner.extent (0, { scanner, mode, compositeOk := ok }) where
  extent_eq := rfl
  unread _ he _ := he
  hand _ ha := absurd ha (Multiset.notMem_zero _)
  curr := .inl rfl
  ahead _ ha := absurd ha.symm (Option.some_ne_none _)
  nodes id := .inl (congrArg (·.atom.comments) (Tree.node_empty id))

end Grammar

namespace Parser

/-- The comments of a node are those directly before one token.  Whatever was asked of a parser, a node that has
comments ends where the token after them ends.  It starts where that token does, and then they come before it; or it was
moved to where its first part starts. -/
theorem comments_of_token (operations : List Operation) (id : NodeId) :
    let p := ({} : Parser).operated operations
    p.tree.Follows (({} : Parser).streamed [] operations) p.scanner.extent id := by
  intro p
  have hfollowing : ∃ extent, Grammar.Following (({} : Parser).streamed [] operations) extent (0, p) := by
    refine operated_induction (I := fun whole p => ∃ extent, Grammar.Following whole extent (0, p))
      ?_ ?_ ?_ ?_ operations
    · exact ⟨_, Grammar.following_start {} {} false⟩
    · exact fun scanner mode => ⟨_, Grammar.following_start scanner mode true⟩
    · rintro whole p ⟨extent, h⟩
      exact ⟨extent, { h with }⟩
    · rintro whole p q hdeeds ⟨extent, h⟩
      exact ⟨extent, hdeeds.following h⟩
  obtain ⟨extent, h⟩ := hfollowing
  rw [h.extent_eq]
  exact h.nodes id

/-- A comment comes to a node before it.  In `a, b = /* c */ 1, 2` the list `a, b` is made a node when the sign after it
was passed over, so it gets the comment before the `1`: it starts at 22, and the only comment of the text at 29. -/
theorem comments_attach_back :
    let source : ByteSource := { bytes := "package p\nfunc f() \x7b\n\ta, b = /* c */ 1, 2\n\x7d\n".toUTF8 }
    let operations := [.init {} source { comments := true }, .call .parseFile]
    let root := (({} : Parser).init {} source { comments := true }).parseFile.1
    let p := ({} : Parser).operated operations
    p.journal.entries = #[] ∧ p.tree.Under root ⟨8⟩ ∧ (p.tree.node ⟨8⟩).atom.comments = ["/* c */"] ∧
      p.tree.pos ⟨8⟩ = .ofOffset 22 ∧
      ((({} : Parser).streamed [] operations).filter (·.token = .comment)).map
        (fun item => (item.literal, p.file.pos item.start)) = [("/* c */", .ofOffset 29)] := by
  intro source operations root p
  have h : (⟨14⟩ ∈ p.tree.present root ∧ ⟨13⟩ ∈ p.tree.present ⟨14⟩ ∧ ⟨12⟩ ∈ p.tree.present ⟨13⟩ ∧
      ⟨8⟩ ∈ p.tree.present ⟨12⟩) ∧ p.journal.entries = #[] ∧ (p.tree.node ⟨8⟩).atom.comments = ["/* c */"] ∧
      p.tree.pos ⟨8⟩ = .ofOffset 22 ∧
      ((({} : Parser).streamed [] operations).filter (·.token = .comment)).map
        (fun item => (item.literal, p.file.pos item.start)) = [("/* c */", .ofOffset 29)] := by decide +kernel
  obtain ⟨⟨hfunc, hblock, hassign, hlist⟩, hclean, hcomments⟩ := h
  have hunder : p.tree.Under root ⟨8⟩ := .head hfunc (.head hblock (.head hassign (.single hlist)))
  exact ⟨hclean, hunder, hcomments⟩

end Parser

end GoSource
