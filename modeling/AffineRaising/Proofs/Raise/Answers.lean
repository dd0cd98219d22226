/-
# AffineRaising.Proofs.Raise.Answers — the queries of a promotion are answered.

In a store whose parts name each other, where nothing is nested in itself and definitions have
ranks, every query that a promotion makes about something that is there has an answer: whether a
value can stay, whether an operation at most reads memory, what its free operands are, and which of
several places is the latest.

Faults of queries come from references without entry and from recursion that does not end.  The
first kind is excluded by `Linked` and `Grounded`, the second one by ranks that fall from a result
to the operands of its definition (`RanksUpTo`): a query with fuel is answered if the rank of what
it starts at is less than the fuel.  The rank need only fall up to some bound, since a promotion
never looks at anything beyond what it started with.
-/
import AffineRaising.Proofs.Analysis.PointOrder
import AffineRaising.Proofs.Raise.SavedPlace
import AffineRaising.Proofs.Raise.Termination
import AffineRaising.Proofs.Store.Closed

namespace AffineRaising.Raise

open AffineRaising.IR AffineRaising.IR.Store AffineRaising.Ops AffineRaising.Analysis

variable {α β : Type} {s : Store} {o : OpRef} {v : ValueRef}

/-- The query does not fault. -/
def Answers (x : Except Fault α) : Prop := ∃ a, x = .ok a

namespace Answers

theorem pure (a : α) : Answers (pure a : Except Fault α) := ⟨a, rfl⟩

/-- A query is answered if its parts are. -/
theorem bind {x : Except Fault α} {f : α → Except Fault β} (hx : Answers x)
    (hf : ∀ a, x = .ok a → Answers (f a)) : Answers (x >>= f) := by
  obtain ⟨a, ha⟩ := hx
  obtain ⟨b, hb⟩ := hf a ha
  exact ⟨b, by rw [ha, ← hb]; rfl⟩

theorem ite {c : Prop} [Decidable c] {x y : Except Fault α} (hx : c → Answers x)
    (hy : ¬ c → Answers y) : Answers (if c then x else y) := by
  split
  · exact hx ‹_›
  · exact hy ‹_›

/-- A test of a list is answered if the test is, for each member. -/
theorem allInOrder {test : α → Except Fault Bool} {l : List α} (h : ∀ a ∈ l, Answers (test a)) :
    Answers (allInOrder test l) := by
  induction l with
  | nil => exact pure true
  | cons a l ih =>
    refine bind (h a List.mem_cons_self) fun b _ => ite (fun _ => ?_) fun _ => pure false
    exact ih fun x hx => h x (List.mem_cons_of_mem a hx)

end Answers

/-! ## Reading tables -/

theorem op_answers {d : OpData} (hd : s.op? o = some d) : Answers (s.op o) := ⟨d, op_ok.2 hd⟩

theorem nameOf_answers {d : OpData} (hd : s.op? o = some d) : Answers (s.nameOf o) :=
  (op_answers hd).bind fun _ _ => .pure _

theorem isNamed_answers {d : OpData} (hd : s.op? o = some d) (name : OpName) :
    Answers (isNamed s o name) :=
  (nameOf_answers hd).bind fun _ _ => .pure _

theorem operandsOf_answers {d : OpData} (hd : s.op? o = some d) : Answers (s.operandsOf o) :=
  (op_answers hd).bind fun _ _ => .pure _

theorem value_answers {e : ValueData} (hv : s.value? v = some e) : Answers (s.value v) :=
  ⟨e, value_ok.2 hv⟩

theorem definingOp?_answers {e : ValueData} (hv : s.value? v = some e) :
    Answers (s.definingOp? v) :=
  (value_answers hv).bind fun _ _ => .pure _

/-- The block in which a value becomes available. -/
def Lives (s : Store) (v : ValueRef) (b : BlockRef) : Prop :=
  (∃ k, s.originOf v = some (.argument b k)) ∨
    ∃ x k d, s.originOf v = some (.result x k) ∧ s.op? x = some d ∧ d.parent = some b

section Linked

variable (hl : Linked s)

include hl

/-- The block where a value lives is there, and is what is found for its home. -/
theorem Lives.home {b : BlockRef} (h : Lives s v b) :
    s.homeBlock? v = .ok (some b) ∧ ∃ bd, s.block? b = some bd := by
  rcases h with ⟨k, hv⟩ | ⟨x, k, d, hv, hd, hparent⟩
  · exact ⟨homeBlock?_argument hv, block?_of_argument hl hv⟩
  · obtain ⟨bd, hbd, _⟩ := hl.mem_of_parent hd hparent
    exact ⟨hparent ▸ homeBlock?_result hv hd, bd, hbd⟩

/-- A value becomes available in the block where it lives, if it lives in one. -/
theorem homeBlock?_ok {e : ValueData} (hv : s.value? v = some e) :
    ∃ b?, s.homeBlock? v = .ok b? ∧ ∀ b, b? = some b ↔ Lives s v b := by
  have horigin : s.originOf v = some e.origin := by rw [originOf, hv, Option.map_some]
  cases he : e.origin with
  | argument b k =>
    rw [he] at horigin
    have hhome := homeBlock?_argument horigin
    refine ⟨some b, hhome, fun b' => ⟨fun hb => ?_, fun h => ?_⟩⟩
    · cases hb
      exact .inl ⟨k, horigin⟩
    · exact Except.ok.inj (hhome.symm.trans (h.home hl).1)
  | result o k =>
    rw [he] at horigin
    obtain ⟨d, hd⟩ := op?_of_result hl horigin
    have hhome := homeBlock?_result horigin hd
    refine ⟨d.parent, hhome, fun b => ⟨fun hb => .inr ⟨o, k, d, horigin, hd, hb⟩, fun h => ?_⟩⟩
    exact Except.ok.inj (hhome.symm.trans (h.home hl).1)

theorem homeOwner?_answers {e : ValueData} (hv : s.value? v = some e) :
    ∃ owner?, homeOwner? s v = .ok owner? ∧
      ∀ owner, owner? = some owner → ∃ d, s.op? owner = some d := by
  obtain ⟨b?, hb?, hlives⟩ := homeBlock?_ok hl hv
  simp only [homeOwner?, except_bind_ok]
  cases b? with
  | none => exact ⟨none, ⟨none, hb?, rfl⟩, fun _ h => by cases h⟩
  | some b =>
    obtain ⟨-, bd, hbd⟩ := ((hlives b).1 rfl).home hl
    obtain ⟨owner?, howner?, hholds⟩ := blockOwner?_ok hl hbd
    refine ⟨owner?, ⟨some b, hb?, howner?⟩, fun owner howner => ?_⟩
    obtain ⟨d, hd, _⟩ := (hholds owner).1 howner
    exact ⟨d, hd⟩

theorem isTopLevel_answers {e : ValueData} (hv : s.value? v = some e) :
    Answers (isTopLevel s v) := by
  obtain ⟨owner?, howner?, hexists⟩ := homeOwner?_answers hl hv
  refine Answers.bind ⟨owner?, howner?⟩ fun a ha => ?_
  cases howner?.symm.trans ha
  cases owner? with
  | none => exact .pure _
  | some owner =>
    obtain ⟨d, hd⟩ := hexists owner rfl
    exact isNamed_answers hd _

theorem isLoopArg_answers {e : ValueData} (hv : s.value? v = some e) : Answers (isLoopArg s v) := by
  refine (value_answers hv).bind fun e' he' => ?_
  cases hv.symm.trans (value_ok.1 he')
  cases horigin : e.origin with
  | result o k => exact .pure _
  | argument b k =>
    obtain ⟨bd, hbd⟩ := block?_of_argument (v := v) hl (k := k) (b := b)
      (by rw [originOf, hv, Option.map_some, horigin])
    obtain ⟨owner?, howner?, hholds⟩ := blockOwner?_ok hl hbd
    refine Answers.bind ⟨owner?, howner?⟩ fun a ha => ?_
    cases howner?.symm.trans ha
    cases owner? with
    | none => exact .pure _
    | some owner =>
      obtain ⟨d, hd, _⟩ := (hholds owner).1 rfl
      refine (isNamed_answers hd _).bind fun _ _ => .ite (fun _ => .pure _) fun _ => ?_
      exact isNamed_answers hd _

end Linked

/-! ## Values that stay -/

theorem definingOp?_op? (hl : Linked s) (ho : s.definingOp? v = .ok (some o)) :
    ∃ d, s.op? o = some d := by
  obtain ⟨k, hk⟩ := definingOp?_some ho
  exact op?_of_result hl hk

theorem constantOf?_answers (hl : Linked s) {e : ValueData} (hv : s.value? v = some e) :
    Answers (constantOf? s v) := by
  refine (definingOp?_answers hv).bind fun o? ho => ?_
  cases o? with
  | none => exact .pure _
  | some o =>
    obtain ⟨d, hd⟩ := definingOp?_op? hl ho
    have hkind : Answers (arithKind? s o) := (nameOf_answers hd).bind fun _ _ => .pure _
    have hattr : Answers (constValue? s o) :=
      ((op_answers hd).bind fun _ _ => .pure _ : Answers (s.attr? o _)).bind fun _ _ => .pure _
    refine hkind.bind fun kind _ => ?_
    split
    · exact hattr
    · exact .pure _

section Falling

variable {cap : Nat} {rank : OpRef → Nat} (hl : Linked s) (hg : Grounded s)
  (hfalls : ∀ o d v, rank o ≤ cap → s.op? o = some d → v ∈ d.operands →
    valueRank s rank v < rank o)

include hl hg hfalls

/-- By induction on the fuel, which the rank stays below. -/
theorem isScopeSymbolFuel_answers (n : Nat) : ∀ {v : ValueRef} {e : ValueData},
    s.value? v = some e → valueRank s rank v < n → valueRank s rank v ≤ cap →
    Answers (isScopeSymbolFuel s n v) := by
  induction n with
  | zero => intro v e _ hn; omega
  | succ n ih =>
    intro v e hv hn hcap
    refine (isTopLevel_answers hl hv).bind fun _ _ => .ite (fun _ => .pure _) fun _ => ?_
    refine (definingOp?_answers hv).bind fun o? ho => ?_
    cases o? with
    | none => exact .pure _
    | some o =>
      rw [Ranks.value_eq rank ho] at hn hcap
      obtain ⟨d, hd⟩ := definingOp?_op? hl ho
      refine (isNamed_answers hd _).bind fun _ _ => .ite (fun _ => .pure _) fun _ => ?_
      refine (isNamed_answers hd _).bind fun _ _ => .ite (fun _ => ?_) fun _ => .pure _
      refine (operandsOf_answers hd).bind fun vs hvs => .allInOrder fun w hw => ?_
      obtain ⟨d', hd', rfl⟩ := operandsOf_ok.1 hvs
      have hlt := hfalls o d' w hcap hd' hw
      obtain ⟨e', he'⟩ := hg o d' w hd' hw
      exact ih he' (by omega) (by omega)

/-- Whether a value is a symbol is known where operands are of lower ranks than what computes with
them. -/
theorem isSymbol_answers (hbound : cap < s.depthBound) {e : ValueData} (hv : s.value? v = some e)
    (hcap : valueRank s rank v ≤ cap) : Answers (isSymbol s v) := by
  refine (isTopLevel_answers hl hv).bind fun _ _ => .ite (fun _ => .pure _) fun _ => ?_
  refine (definingOp?_answers hv).bind fun o? ho => ?_
  cases o? with
  | none => exact .pure _
  | some o =>
    obtain ⟨d, hd⟩ := definingOp?_op? hl ho
    have hyields : Answers (yieldsSymbol s o) :=
      ((nameOf_answers hd).bind fun _ _ => .pure _ : Answers (arithKind? s o)).bind
        fun _ _ => .pure _
    refine hyields.bind fun _ _ => .ite (fun _ => .pure _) fun _ => ?_
    exact isScopeSymbolFuel_answers hl hg hfalls _ hv (Nat.lt_of_le_of_lt hcap hbound) hcap

end Falling

section Ranks

variable {cap : Nat} {rank : OpRef → Nat} (hl : Linked s) (hg : Grounded s)
  (hr : RanksUpTo s cap rank)

include hl hg hr

/-- Whether a value can stay where it is, is known. -/
theorem staysPut_answers (forIndex : Bool) {e : ValueData} (hv : s.value? v = some e)
    (hcap : valueRank s rank v ≤ cap) : Answers (staysPut s forIndex v) := by
  have hsymbol : Answers (isSymbol s v) :=
    isSymbol_answers hl hg (fun _ _ _ ho hd hw => hr.operand_lt ho hd hw) hr.bound hv hcap
  refine hsymbol.bind fun _ _ => .ite (fun _ => .pure _) fun _ => ?_
  refine .ite (fun _ => ?_) fun _ => .pure _
  exact isLoopArg_answers hl hv

omit hg in
/-- Effects are looked up tree by tree; what is nested in an operation has a lower rank. -/
theorem effectsWithin_answers (accepts : Effect → Bool) (n : Nat) : ∀ {o : OpRef} {d : OpData},
    s.op? o = some d → rank o < n → rank o ≤ cap → Answers (effectsWithin s accepts n o) := by
  induction n with
  | zero => intro o d _ hn; omega
  | succ n ih =>
    intro o d hd hn hcap
    have heffect : Answers (effectOf s o) := (nameOf_answers hd).bind fun _ _ => .pure _
    refine heffect.bind fun _ _ => .ite (fun _ => ?_) fun _ => .pure _
    obtain ⟨os, hos, hchild⟩ := childOps_ok hl hd
    refine Answers.bind ⟨os, hos⟩ fun a ha => .allInOrder fun c hc => ?_
    cases hos.symm.trans ha
    have hlt := hr.falls o c hcap (.inr ((hchild c).1 hc))
    obtain ⟨dc, hdc⟩ := hl.op?_of_within ⟨d, hd⟩ (.single ((hchild c).1 hc))
    exact ih hdc (by omega) (by omega)

omit hg in
/-- Whether an operation only reads is known. -/
theorem isReadOnly_answers {d : OpData} (hd : s.op? o = some d) (ho : rank o ≤ cap) :
    Answers (isReadOnly s o) :=
  effectsWithin_answers hl hr _ _ hd (Nat.lt_of_le_of_lt ho hr.bound) ho

end Ranks

/-! ## Free operands -/

/-- The value is at home somewhere inside the operation. -/
def Inside (s : Store) (x : OpRef) (v : ValueRef) : Prop :=
  ∃ b q, Lives s v b ∧ Holds s q b ∧ Within s x q

/-- A value from outside the operation is used in it. -/
def Free (s : Store) (x : OpRef) (v : ValueRef) : Prop :=
  ∃ z d, Within s x z ∧ s.op? z = some d ∧ v ∈ d.operands ∧ ¬ Inside s x v

/-- What is offered to an operation lives in its block. -/
theorem lives_of_offered (hl : Linked s) {a : OpRef} (h : Offered s v a) :
    ∃ b bd, Lives s v b ∧ s.block? b = some bd ∧ a ∈ bd.ops := by
  rcases h with ⟨b, k, bd, hv, hbd, hmem⟩ | ⟨x, k, hv, b, bd, hbd, hpair⟩
  · exact ⟨b, bd, .inl ⟨k, hv⟩, hbd, hmem⟩
  · obtain ⟨d, hd, hparent⟩ := hl.op?_of_mem hbd (left_mem_of_pair hpair)
    exact ⟨b, bd, .inr ⟨x, k, d, hv, hd, hparent⟩, hbd, right_mem_of_pair hpair⟩

/-- What is seen inside an operation is at home inside it. -/
theorem inside_of_seenInside (hl : Linked s) {x z : OpRef} (h : SeenInside s x z v) :
    Inside s x v := by
  obtain ⟨a, hxa, _, hoffered⟩ := h
  obtain ⟨q, hxq, hqa⟩ := Relation.TransGen.tail'_iff.1 hxa
  obtain ⟨b, bd, hlives, hbd, hmem⟩ := lives_of_offered hl hoffered
  exact ⟨b, q, hlives, (child_iff_holds hl hbd hmem).1 hqa, hxq⟩

/-- What is used from outside is not offered inside. -/
theorem Free.not_seenInside (hl : Linked s) {x : OpRef} (h : Free s x v) (z : OpRef) :
    ¬ SeenInside s x z v := by
  obtain ⟨_, _, _, _, _, hout⟩ := h
  exact fun hseen => hout (inside_of_seenInside hl hseen)

section Free

variable (hl : Linked s) (hac : Acyclic s)

include hl hac

/-- A value is found to be defined inside if it is at home inside. -/
theorem isDefinedInside_iff {e : ValueData} (hv : s.value? v = some e) (x : OpRef) :
    ∃ inside, isDefinedInside s v x = .ok inside ∧ (inside = true ↔ Inside s x v) := by
  obtain ⟨b?, hb?, hlives⟩ := homeBlock?_ok hl hv
  simp only [isDefinedInside, homeOwner?, except_bind_ok]
  cases b? with
  | none =>
    refine ⟨false, ⟨none, ⟨none, hb?, rfl⟩, rfl⟩, by simp, ?_⟩
    rintro ⟨b, _, hb, _⟩
    cases (hlives b).2 hb
  | some b =>
    have hhome := (hlives b).1 rfl
    obtain ⟨-, bd, hbd⟩ := hhome.home hl
    obtain ⟨q?, hq?, hholds⟩ := blockOwner?_ok hl hbd
    cases q? with
    | none =>
      refine ⟨false, ⟨none, ⟨some b, hb?, hq?⟩, rfl⟩, by simp, ?_⟩
      rintro ⟨b', q, hb', hq, _⟩
      cases (hlives b').2 hb'
      cases (hholds q).2 hq
    | some q =>
      obtain ⟨d, hd, _⟩ := (hholds q).1 rfl
      obtain ⟨inside, hinside, hiff⟩ := isWithin_ok hl hac x hd
      refine ⟨inside, ⟨some q, ⟨some b, hb?, hq?⟩, hinside⟩, hiff.trans ⟨fun hw => ?_, ?_⟩⟩
      · exact ⟨b, q, hhome, (hholds q).1 rfl, hw⟩
      · rintro ⟨b', q', hb', hq', hw⟩
        cases (hlives b').2 hb'
        cases (hholds q').2 hq'
        exact hw

/-- Values are added to the list unless they are at home inside or listed already. -/
theorem addFree_iff {vs : List ValueRef} : ∀ {free : List ValueRef}, free.Nodup →
    (∀ v ∈ vs, ∃ e, s.value? v = some e) → ∃ result, addFree s x free vs = .ok result ∧
      result.Nodup ∧ ∀ v, v ∈ result ↔ v ∈ free ∨ v ∈ vs ∧ ¬ Inside s x v := by
  induction vs with
  | nil => exact fun hfree _ => ⟨_, rfl, hfree, by simp⟩
  | cons v vs ih =>
    intro free hfree hvs
    obtain ⟨e, he⟩ := hvs v List.mem_cons_self
    obtain ⟨inside, hinside, hiff⟩ := isDefinedInside_iff hl hac he x
    have hrest : ∀ u ∈ vs, ∃ e, s.value? u = some e := fun u hu =>
      hvs u (List.mem_cons_of_mem v hu)
    simp only [addFree, except_bind_ok]
    by_cases hadd : (!inside && !free.contains v) = true
    · have hadd' := hadd
      simp only [Bool.and_eq_true, Bool.not_eq_true', List.contains_eq_mem,
        decide_eq_false_iff_not] at hadd'
      obtain ⟨hout, hnew⟩ := hadd'
      have hnodup : (free ++ [v]).Nodup := List.nodup_append.2 ⟨hfree, List.nodup_singleton v,
        fun a ha b hb heq => hnew (List.mem_singleton.1 hb ▸ heq ▸ ha)⟩
      obtain ⟨result, hresult, hresultNodup, hmem⟩ := ih hnodup hrest
      refine ⟨result, ⟨inside, hinside, by rw [if_pos hadd]; exact hresult⟩, hresultNodup, ?_⟩
      intro u
      have hv : ¬ Inside s x v := fun h => by rw [hiff.2 h] at hout; cases hout
      rw [hmem, List.mem_append, List.mem_singleton, List.mem_cons, or_assoc]
      refine or_congr_right ⟨?_, ?_⟩
      · rintro (rfl | ⟨hu, hout⟩)
        · exact ⟨.inl rfl, hv⟩
        · exact ⟨.inr hu, hout⟩
      · rintro ⟨rfl | hu, hout⟩
        · exact .inl rfl
        · exact .inr ⟨hu, hout⟩
    · have hskip : Inside s x v ∨ v ∈ free := by
        by_contra hnot
        rw [not_or] at hnot
        refine hadd ?_
        have hout : inside = false := Bool.eq_false_iff.2 fun h => hnot.1 (hiff.1 h)
        simp [hout, hnot.2]
      obtain ⟨result, hresult, hresultNodup, hmem⟩ := ih hfree hrest
      refine ⟨result, ⟨inside, hinside, by rw [if_neg hadd]; exact hresult⟩, hresultNodup, ?_⟩
      intro u
      rw [hmem, List.mem_cons]
      constructor
      · rintro (hu | ⟨hu, hinside⟩)
        · exact .inl hu
        · exact .inr ⟨.inr hu, hinside⟩
      · rintro (hu | ⟨rfl | hu, hout⟩)
        · exact .inl hu
        · exact .inl (hskip.resolve_left hout)
        · exact .inr ⟨hu, hout⟩

/-- The free operands are listed once each. -/
theorem freeOperands_iff (hg : Grounded s) {d : OpData} (hd : s.op? x = some d) :
    ∃ free, freeOperands s x = .ok free ∧ free.Nodup ∧ ∀ v, v ∈ free ↔ Free s x v := by
  obtain ⟨seen, hwalk, hseen⟩ := walk_ok hl hac hd
  have hunder : opsUnder s x = .ok seen := by
    simp only [opsUnder, except_bind_ok]
    exact ⟨_, hwalk, rfl⟩
  obtain ⟨operands, hoperands⟩ : ∃ operands, seen.mapM s.operandsOf = .ok operands := by
    refine mapM_total fun z hz => ?_
    obtain ⟨e, he⟩ := hl.op?_of_within ⟨d, hd⟩ ((hseen z).1 hz)
    exact operandsOf_answers he
  have hflatten : ∀ v, v ∈ operands.flatten ↔ ∃ z e, Within s x z ∧ s.op? z = some e ∧
      v ∈ e.operands := by
    intro v
    constructor
    · intro hv
      obtain ⟨vs, hvs, hmem⟩ := List.mem_flatten.1 hv
      obtain ⟨z, hz, hzvs⟩ := (mem_of_mapM_ok hoperands vs).1 hvs
      obtain ⟨e, he, rfl⟩ := operandsOf_ok.1 hzvs
      exact ⟨z, e, (hseen z).1 hz, he, hmem⟩
    · rintro ⟨z, e, hz, he, hmem⟩
      refine List.mem_flatten.2 ⟨e.operands, ?_, hmem⟩
      exact (mem_of_mapM_ok hoperands _).2 ⟨z, (hseen z).2 hz, operandsOf_ok.2 ⟨e, he, rfl⟩⟩
  obtain ⟨free, hfree, hnodup, hmem⟩ := addFree_iff (x := x) hl hac List.nodup_nil fun v hv => by
    obtain ⟨z, e, _, he, hve⟩ := (hflatten v).1 hv
    exact hg z e v he hve
  refine ⟨free, ?_, hnodup, fun v => ?_⟩
  · simp only [freeOperands, except_bind_ok]
    exact ⟨seen, hunder, operands, hoperands, hfree⟩
  · rw [hmem, hflatten]
    constructor
    · rintro (hnil | ⟨⟨z, e, hw, he, hve⟩, hout⟩)
      · cases hnil
      · exact ⟨z, e, hw, he, hve, hout⟩
    · rintro ⟨z, e, hw, he, hve, hout⟩
      exact .inr ⟨⟨z, e, hw, he, hve⟩, hout⟩

/-! ## Places -/

/-- Places in blocks that are there can be compared. -/
theorem latest?_answers {ps : List Point}
    (hps : ∀ p ∈ ps, ∃ bd, s.block? p.block = some bd) : Answers (latest? s ps) := by
  by_cases hne : ps = []
  · subst hne
    exact .pure _
  · obtain ⟨p?, hp?, _⟩ := latest?_ok (forest_of_linked hl hac) hne hps
    exact ⟨p?, hp?⟩

end Free

end AffineRaising.Raise
