import GoSource.Grammar.TypeExpr
import GoSource.Proofs.Grammar.Parameter

/-!
# Type expressions read on

Every type that starts at a token consumes it, and what is in its text is in its node.
-/

namespace GoSource.Grammar

variable {s : Stack × Parser} {n k : Nat} {w : Stack} {t : Token} {g g' : Rules}

/-! ### Type names -/

theorem typeArgumentsLoop_reads (h : g.Close n g') : (typeArgumentsLoop g).Reads n (typeArgumentsLoop g') where
  more_eq := rfl
  round k hk s w args t ht := by
    have hargs (x : NodeId) (p : Parser) (k : Nat) (hp : Within s k (push x (push args w)) p) :
        Within s k (push (args ++ [some x]) w) p := by
      simpa using hp
    refine ((h.type (k + 1) hk s _).pre fun p hp => hp.1).bind fun x => ?_
    refine Agree.tok fun u => Agree.ite (fun _ => ?_) (fun hu => ?_)
    · exact Agree.pure fun p hp => hargs x p (k + 1) hp.1
    · obtain rfl : u = .op .comma := Decidable.of_not_not hu
      refine (next_pass rfl).bind fun _ => Agree.pure fun p hp => ?_
      exact hargs x p k hp

/-- A name with arguments in brackets. -/
theorem typeArguments_reads (h : g.Close n g') (hk : k ≤ n) (name : NodeId) :
    Agree (fun p => Within s k (.node name :: w) p ∧ p.curr.token = .op .lbrack)
      (typeArguments g name) (typeArguments g' name) fun x => Within s k (.node x :: w) := by
  refine Agree.startOf fun pos => Agree.lead_le rfl fun a ha => ?_
  refine ((typeArgumentsLoop_reads h).run hk []).bind fun args => ?_
  refine Agree.ite_bind (Q := fun arg => Within s k (push arg (.node name :: w))) (fun hargs => ?_)
    (fun _ => ?_) fun arg => ?_
  · obtain rfl := List.isEmpty_iff.1 hargs
    exact Agree.map (makeBad_reads _ k hk s _) fun x p hp => hp
  · exact argumentsPart_reads pos args
  · refine Agree.bind (add_node (w := w) ha rfl rfl (by simp)) fun x => ?_
    exact leaveNode_reads rfl x

/-- A name reads on as far as its first identifier does. -/
theorem qualifiedName_agree {P : Parser → Prop} (hk : k ≤ n)
    (hident : Agree P parseIdent parseIdent fun x => Within s k (.node x :: w)) :
    Agree P qualifiedName qualifiedName fun x => Within s k (.node x :: w) := by
  refine hident.bind fun x => Agree.tok fun t => Agree.ite (fun _ => ?_) (fun ht => ?_)
  · exact Agree.pure fun p hp => hp.1
  · obtain rfl : t = .op .period := Decidable.of_not_not ht
    refine (makeAtom_keeps _).bind fun a => Agree.of_fact fun ha => Agree.startOf fun pos => ?_
    refine (next_pass_le rfl).bind fun _ => (parseIdent_reads k hk s _).bind fun y => ?_
    exact add_node ha rfl rfl rfl

theorem typeName_agree (h : g.Close n g') (hk : k ≤ n) {P : Parser → Prop}
    (hident : Agree P parseIdent parseIdent fun x => Within s k (.node x :: w)) :
    Agree P (typeName g) (typeName g') fun x => Within s k (.node x :: w) := by
  refine (qualifiedName_agree hk hident).bind fun x => ?_
  refine Agree.tok fun t => Agree.ite (fun ht => ?_) (fun _ => ?_)
  · subst ht
    exact typeArguments_reads h hk x
  · exact Agree.pure fun p hp => hp.1

theorem typeName_reads (h : g.Close n g') : Reads n (typeName g) (typeName g') :=
  fun k hk s w => typeName_agree h hk (parseIdent_reads k hk s w)

theorem typeName_opens (h : g.Close n g') : Opens (.lit .ident) n (typeName g) (typeName g') :=
  fun k hk s w => typeName_agree h hk (parseIdent_opens k hk s w)

/-! ### Arrays, maps, channels, functions -/

theorem arrayLength_reads (h : g.Close n g') : Reads n (arrayLength g) (arrayLength g') := by
  intro k hk s w
  refine Agree.tok fun t => ?_
  split
  · exact Agree.pure fun p hp => hp.1
  · exact (parseAtom_opens (n := n) (t := .op .ellipsis) nofun).some.reads (Nat.le_succ_of_le hk) s w
  · exact (h.expr.withComposite.some k hk s w).pre fun p hp => hp.1

theorem arrayType_opens (h : g.Close n g') : Opens (.op .lbrack) n (arrayType g) (arrayType g') := by
  intro k hk s w
  refine Agree.lead rfl fun a ha => (arrayLength_reads h k hk s w).bind fun length => ?_
  exact arrayTail_reads h hk ha length

theorem mapType_opens (h : g.Close n g') : Opens (.kw .map) n (mapType g) (mapType g') := by
  intro k hk s w
  refine Agree.lead rfl fun a ha => (expect_reads rfl k hk s w).bind fun _ => ?_
  refine (h.type k hk s _).bind fun x => (expect_reads rfl k hk s _).bind fun _ => ?_
  refine (h.type k hk s _).bind fun y => ?_
  exact add_node ha rfl rfl rfl

theorem chanDirection_reads :
    Agree (Within s k w) chanDirection chanDirection
      fun t p => Within s k w p ∧ (t = .tag .bothDir ∨ t = .tag .sendDir) := by
  refine Agree.tok fun t => Agree.ite (fun _ => ?_) (fun ht => ?_)
  · exact Agree.pure fun p hp => ⟨hp.1, .inl rfl⟩
  · obtain rfl : t = .op .arrow := Decidable.of_not_not ht
    exact (next_pass_le rfl).bind fun _ => Agree.pure fun p hp => ⟨hp, .inr rfl⟩

theorem chanType_opens (h : g.Close n g') : Opens (.kw .chan) n (chanType g) (chanType g') := by
  intro k hk s w
  refine Agree.lead rfl fun a _ => chanDirection_reads.bind fun t => Agree.of_fact fun ht => ?_
  refine (h.type k hk s w).bind fun x => add_node rfl ?_ rfl rfl
  rcases ht with rfl | rfl <;> rfl

theorem recvChanType_reads (h : g.Close n g') (arrow : Atom) :
    Reads n (recvChanType g arrow) (recvChanType g' arrow) := by
  intro k hk s w
  refine (expect_reads rfl k hk s w).bind fun _ => (h.type k hk s w).bind fun x => ?_
  exact add_node rfl rfl rfl rfl

theorem funcType_opens (h : g.Close n g') : Opens (.kw .func) n (funcType g) (funcType g') := by
  intro k hk s w
  exact Agree.lead rfl fun a ha => signature_reads h ha k hk s w

/-! ### Structs and interfaces -/

theorem passSemicolon_reads (bads : List Child) :
    Agree (Within s k (push bads w))
      (do
        if (← tok) = .op .semicolon then next
        return bads)
      (do
        if (← tok) = .op .semicolon then next
        return bads) fun bads => Within s k (push bads w) := by
  refine Agree.tok fun u => Agree.ite_then (Q := Within s k (push bads w)) (fun hu => ?_) (fun _ p hp => hp.1) ?_
  · exact next_pass_le (hu ▸ rfl)
  · exact Agree.pure fun p hp => hp

theorem skipMember_reads (close missing : Operator) :
    Reads n (skipMember close missing) (skipMember close missing) := by
  intro k hk s w
  exact (skipTo_reads _ _ k hk s w).bind fun bads => passSemicolon_reads bads

theorem skipMember_opens {close missing : Operator} (hsemi : t ≠ .op .semicolon) (hclose : t ≠ .op close)
    (hne : t ≠ .eof) : Opens t n (skipMember close missing) (skipMember close missing) := by
  intro k hk s w
  refine (skipTo_opens ?_ hne k hk s w).bind fun bads => passSemicolon_reads bads
  simp [hsemi, hclose]

/-- What follows a member consumes a token, if the member did not. -/
theorem memberEnd_reads {close missing : Operator} {b : Nat} (hclose : t ≠ .op close) (hne : t ≠ .eof) :
    Agree (Counted s b t w) (memberEnd close missing b) (memberEnd close missing b)
      fun bads => Within s b (push bads w) := by
  refine Agree.tok fun u => Agree.ite (fun hu => ?_) (fun hsemi => Agree.ite (fun hend => ?_) (fun hend => ?_))
  · subst hu
    exact ((next_pass rfl).pre fun p hp => ⟨hp.1.within, hp.2⟩).bind fun _ => Agree.pure fun p hp => hp
  · refine Agree.pure fun p hp => hp.1.less fun hb => ?_
    have heq : t = u := (hp.1.token_eq hb).symm.trans hp.2
    rcases hend with rfl | rfl
    · exact hclose heq
    · exact hne heq
  · obtain ⟨hclose', hne'⟩ := not_or.1 hend
    refine Agree.left fun j => Agree.ite (fun hj => ?_) (fun hj => ?_)
    · refine Agree.complain_here (s := s) (k := b) (w := w) _ (fun p hp =>
        hp.1.1.less (by rw [hp.2]; exact hj)) fun d => ?_
      exact (skipMember_reads close missing b (Nat.le_refl b) s w).pre fun p hp => hp.1
    · refine (skipMember_opens hsemi hclose' hne' b (Nat.le_refl b) s w).pre fun p hp => ?_
      exact ⟨hp.1.1.within, hp.1.2⟩

theorem membersLoop_reads {close missing : Operator} {member member' : ParseM NodeId}
    (h : Reads n member member') :
    (membersLoop close missing member).Reads n (membersLoop close missing member') where
  more_eq := rfl
  round k hk s w kids t ht := by
    simp only [membersLoop, Bool.and_eq_true, bne_iff_ne] at ht
    refine Agree.counted h hk ht.2 fun b hb kid => ?_
    refine (memberEnd_reads ht.1 ht.2).bind fun bads => Agree.pure fun p hp => ?_
    show Within s k (push (kids ++ some kid :: bads) w) p
    simpa using hp.weaken hb

theorem members_reads {member member' : ParseM NodeId} (h : Reads n member member') :
    Reads n (members member) (members member') := by
  intro k hk s w
  refine (enter_reads rfl k hk s w).bind fun opened => ?_
  refine ((membersLoop_reads h).run hk opened).bind fun kids => ?_
  refine (leave_reads rfl k hk s _).bind fun bads => Agree.pure fun p hp => ?_
  rw [push_append]
  exact hp

theorem namesLoop_reads : namesLoop.Reads n namesLoop where
  more_eq := rfl
  round k hk s w names t ht := by
    have ht : t = .op .comma := eq_of_beq ht
    refine (next_pass (ht ▸ rfl)).bind fun _ => (parseIdent_reads k (Nat.le_refl k) s _).bind fun x => ?_
    refine Agree.pure fun p hp => ?_
    show Within s k (push (names ++ [x]) w) p
    simpa using hp

/-- The first name and those after it. -/
theorem moreNames_reads (first : NodeId) :
    Agree (Within s k (.node first :: w)) (moreNames first) (moreNames first)
      fun names => Within s k (push names w) :=
  namesLoop_reads.run (Nat.le_refl k) [first]

theorem fieldNamesAndType_reads (h : g.Close n g') :
    Reads n (fieldNamesAndType g) (fieldNamesAndType g') := by
  intro k hk s w
  -- A type after the names.
  have htype {j : Nat} (hj : j ≤ n) (names : List NodeId) :
      Agree (Within s j (push names w)) (do return (names, ← g.type)) (do return (names, ← g'.type))
        fun x => Within s j (push x w) := by
    refine (h.type j hj s _).bind fun x => Agree.pure fun p hp => ?_
    rw [push_pair]
    exact hp
  refine Agree.tok fun t => ?_
  split
  · cases k with
    | zero => exact fun p hp => absurd hp.1.left_lt (Nat.not_lt_zero _)
    | succ k =>
        have hk' : k ≤ n := Nat.le_of_succ_le hk
        refine Agree.lead_ident fun first hfirst => ?_
        have hne : first.token ≠ .eof := by rw [hfirst]; exact nofun
        have hembedded : Agree (Taken s k w first)
            (do putBack first; return (([] : List NodeId), ← typeName g))
            (do putBack first; return (([] : List NodeId), ← typeName g'))
            fun x => Within s (k + 1) (push x w) := by
          refine putBack_taken.bind fun _ => ?_
          refine ((typeName_reads h (k + 1) hk s w).pre fun p hp => hp.1).bind fun x => ?_
          exact Agree.pure fun p hp => hp
        have hleaf : Agree (Taken s k w first) (add first .leaf) (add first .leaf)
            fun name => Within s k (.node name :: w) :=
          (add_leaf [] hne).pre fun p hp => hp.take
        refine Agree.tok fun u => Agree.pre (P := Taken s k w first) ?_ fun p hp => hp.1
        split
        · exact hembedded
        · exact hembedded
        · exact hembedded
        · exact hembedded
        · refine hleaf.bind fun name => ?_
          exact (htype hk' [name]).post fun x p hp => hp.weaken (Nat.le_succ k)
        · refine hleaf.bind fun name => (moreNames_reads name).bind fun names => ?_
          exact (htype hk' names).post fun x p hp => hp.weaken (Nat.le_succ k)
  · refine Agree.lead_le rfl fun a ha => (typeName_reads h k hk s w).bind fun x => ?_
    refine Agree.bind (add_node (w := w) ha rfl rfl rfl) fun y => ?_
    exact Agree.pure fun p hp => hp
  · exact (htype hk []).pre fun p hp => hp.1

theorem structField_reads (h : g.Close n g') : Reads n (structField g) (structField g') := by
  intro k hk s w
  refine (fieldNamesAndType_reads h k hk s w).bind fun (names, typ) => ?_
  refine Agree.tok fun t => Agree.ite_bind
    (Q := fun tag => Within s k (push tag (push typ (push names w)))) (fun ht => ?_) (fun _ => ?_) fun tag => ?_
  · subst ht
    refine ((parseAtom_opens (n := n) (t := .lit .string) nofun).some.reads (Nat.le_succ_of_le hk) s _).pre ?_
    intro p hp
    rw [push_pair] at hp
    exact hp
  · refine Agree.pure fun p hp => ?_
    rw [push_pair] at hp
    exact hp.1
  · exact addField_under [] names typ tag

theorem structType_opens (h : g.Close n g') : Opens (.kw .struct) n (structType g) (structType g') := by
  intro k hk s w
  refine Agree.lead rfl fun a ha => (members_reads (structField_reads h) k hk s w).bind fun kids => ?_
  exact add_node ha rfl rfl rfl

theorem embeddedElem_reads (h : g.Close n g') : Reads n (embeddedElem g) (embeddedElem g') := by
  intro k hk s w
  exact (union_reads h k hk s w).bind fun x => addField_under [] [] x none

theorem interfaceElem_reads (h : g.Close n g') : Reads n (interfaceElem g) (interfaceElem g') := by
  intro k hk s w
  refine Agree.tok fun t => Agree.ite (fun _ => ?_) (fun ht => ?_)
  · exact ((embeddedElem_reads h k hk s w).pre fun p hp => hp.1).bind fun x => Agree.pure fun p hp => hp
  obtain rfl : t = .lit .ident := Decidable.of_not_not ht
  cases k with
  | zero => exact fun p hp => absurd hp.1.left_lt (Nat.not_lt_zero _)
  | succ k =>
      have hk' : k ≤ n := Nat.le_of_succ_le hk
      refine Agree.lead_ident fun ident hident => ?_
      have hne : ident.token ≠ .eof := by rw [hident]; exact nofun
      refine Agree.tok fun u => Agree.ite (fun _ => ?_) (fun _ => ?_)
      · refine (putBack_taken.pre fun p hp => hp.1).bind fun _ => ?_
        exact ((embeddedElem_reads h (k + 1) hk s w).pre fun p hp => hp.1).bind fun x =>
          Agree.pure fun p hp => hp
      · refine ((add_leaf (w := w) [] hne).pre fun p hp => hp.1.take).bind fun name => ?_
        refine (signature_reads h rfl k hk' s _).bind fun sig => ?_
        exact (addField_under [] [name] sig none).post fun x p hp => hp.weaken (Nat.le_succ k)

theorem interfaceType_opens (h : g.Close n g') :
    Opens (.kw .interface) n (interfaceType g) (interfaceType g') := by
  intro k hk s w
  refine Agree.lead rfl fun a ha => (members_reads (interfaceElem_reads h) k hk s w).bind fun kids => ?_
  exact add_node ha rfl rfl rfl

/-! ### Types -/

/-- A type consumes the token that it starts with. -/
theorem typeExpr?_parses (h : g.Close n g') : Parses startsType n (typeExpr? g) (typeExpr? g') := by
  intro k hk s w t
  refine Agree.tok_eq ?_
  split
  · exact (typeName_opens h).some.parses hk s w
  · exact (arrayType_opens h).some.parses hk s w
  · exact (structType_opens h).some.parses hk s w
  · refine Agree.lead rfl fun a ha => (h.type k hk s w).bind fun x => ?_
    exact Agree.map (add_node (w := w) ha rfl rfl rfl) fun y p hp => hp
  · exact (funcType_opens h).some.parses hk s w
  · exact (interfaceType_opens h).some.parses hk s w
  · exact (mapType_opens h).some.parses hk s w
  · exact (chanType_opens h).some.parses hk s w
  · refine Agree.lead rfl fun a _ => ?_
    exact (recvChanType_reads h a).some k hk s w
  · refine (next_pass rfl).bind fun _ => (h.type k hk s w).bind fun x => ?_
    exact Agree.map (leaveNode_reads rfl x) fun y p hp => hp
  · have hleads : startsType t = false := by
      unfold startsType
      split <;> simp_all
    rw [hleads]
    exact Agree.pure fun p hp => hp.1

end GoSource.Grammar
