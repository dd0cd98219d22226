/-
# AffineRaising.Proofs.Raise.Termination — classification comes to an end.

The queries that classify values follow definitions and look into conditionals, and give up after as
many steps as there are operations.  Where no operation needs itself, they never give up: a rank
that falls with every step bounds the steps that are left (`Ranks`), and the number of operations
that can still be met is such a rank (`AcyclicDefinitions.ranks`).  Where every operation sees its
operands no operation needs itself (`AcyclicDefinitions.of_sees`).

A store in the middle of a raising holds more than its module: operations that an earlier pattern
has taken out, or that were built and not placed.  What these read is not known, and they may read
each other in a circle.  So the queries are also bounded from below a point: `RanksUpTo` asks the
rank to fall only below a cap, which is enough for a query that starts there (`RanksUpTo.mono`,
`RanksUpTo.within_le`).  `SeesOperands` is what gives such a rank: every operation that is not
removed sees its operands, none of them stands inside the tree of a removed one, and the removed
ones stand in no block (`SeesOperands.exists_ranks`).
-/
import AffineRaising.Proofs.Analysis.Nesting
import AffineRaising.Proofs.Raise.Chain
import AffineRaising.Raise.Guard

namespace AffineRaising.Raise

open AffineRaising.IR AffineRaising.IR.Store AffineRaising.Ops AffineRaising.Analysis

variable {α β : Type} {s : Store}

/-! ## Queries that do not give up -/

/-- The query does not give up for lack of steps; it may still fault for another reason. -/
def Ends (x : Except Fault α) : Prop := x ≠ .error .cyclic

namespace Ends

theorem pure (a : α) : Ends (pure a : Except Fault α) := by
  intro h
  cases h

theorem throw {e : Fault} (he : e ≠ .cyclic) : Ends (throw e : Except Fault α) := by
  intro h
  exact he (Except.error.inj h)

/-- What a query goes on with has to end for each of its results. -/
theorem bind {x : Except Fault α} {f : α → Except Fault β} (hx : Ends x)
    (hf : ∀ a, x = .ok a → Ends (f a)) : Ends (x >>= f) := by
  cases hrun : x with
  | error e =>
    intro h
    exact hx (hrun.trans (congrArg Except.error (Except.error.inj h)))
  | ok a => exact hf a hrun

theorem ite {c : Prop} [Decidable c] {x y : Except Fault α} (hx : c → Ends x) (hy : ¬ c → Ends y) :
    Ends (if c then x else y) := by
  split
  · exact hx ‹_›
  · exact hy ‹_›

theorem mapM {f : α → Except Fault β} {l : List α} (hf : ∀ a ∈ l, Ends (f a)) :
    Ends (l.mapM f) := by
  induction l with
  | nil => exact pure []
  | cons a l ih =>
    rw [List.mapM_cons]
    refine bind (hf a List.mem_cons_self) fun b _ => ?_
    exact bind (ih fun x hx => hf x (List.mem_cons_of_mem a hx)) fun _ _ => pure _

/-- A test of a list ends if the test of each member does. -/
theorem allInOrder {test : α → Except Fault Bool} {l : List α} (h : ∀ a ∈ l, Ends (test a)) :
    Ends (allInOrder test l) := by
  induction l with
  | nil => exact pure true
  | cons a l ih =>
    refine bind (h a List.mem_cons_self) fun b _ => ite (fun _ => ?_) fun _ => pure false
    exact ih fun x hx => h x (List.mem_cons_of_mem a hx)

end Ends

/-! ## Reading tables -/

section Tables

variable (s) (o : OpRef) (v : ValueRef)

theorem op_ends : Ends (s.op o) := by
  unfold Store.op
  split <;> exact fun h => nomatch h

theorem value_ends : Ends (s.value v) := by
  unfold Store.value
  split <;> exact fun h => nomatch h

theorem block_ends (b : BlockRef) : Ends (s.block b) := by
  unfold Store.block
  split <;> exact fun h => nomatch h

theorem region_ends (r : RegionRef) : Ends (s.region r) := by
  unfold Store.region
  split <;> exact fun h => nomatch h

theorem operandsOf_ends : Ends (s.operandsOf o) := (op_ends s o).bind fun _ _ => .pure _

theorem definingOp?_ends : Ends (s.definingOp? v) := (value_ends s v).bind fun _ _ => .pure _

theorem attr?_ends (key : String) : Ends (s.attr? o key) := (op_ends s o).bind fun _ _ => .pure _

theorem isNamed_ends (name : OpName) : Ends (isNamed s o name) :=
  ((op_ends s o).bind fun _ _ => .pure _ : Ends (s.nameOf o)).bind fun _ _ => .pure _

theorem arithKind?_ends : Ends (arithKind? s o) :=
  ((op_ends s o).bind fun _ _ => .pure _ : Ends (s.nameOf o)).bind fun _ _ => .pure _

theorem operand_ends (i : Nat) : Ends (s.operand o i) := by
  refine (op_ends s o).bind fun d _ => ?_
  split
  · exact .pure _
  · exact .throw (by simp)

theorem blockOwner?_ends (b : BlockRef) : Ends (s.blockOwner? b) := by
  refine (block_ends s b).bind fun d _ => ?_
  split
  · exact .pure _
  · exact (region_ends s _).bind fun _ _ => .pure _

theorem isTopLevel_ends : Ends (isTopLevel s v) := by
  have hhome : Ends (s.homeBlock? v) := by
    refine (value_ends s v).bind fun d _ => ?_
    split
    · exact (op_ends s _).bind fun _ _ => .pure _
    · exact .pure _
  have howner : Ends (homeOwner? s v) := by
    refine hhome.bind fun b? _ => ?_
    split
    · exact .pure _
    · exact blockOwner?_ends s _
  refine howner.bind fun owner? _ => ?_
  split
  · exact .pure _
  · exact isNamed_ends s _ _

theorem childOps_ends : Ends (s.childOps o) := by
  refine (op_ends s o).bind fun d _ => ?_
  refine (Ends.mapM fun r _ => region_ends s r).bind fun rds _ => ?_
  exact (Ends.mapM fun b _ => block_ends s b).bind fun _ _ => .pure _

/-- Whether a value is a constant is read off one entry. -/
theorem constantOf?_ends : Ends (constantOf? s v) := by
  refine (definingOp?_ends s v).bind fun o? _ => ?_
  split
  · exact .pure _
  · refine (arithKind?_ends s _).bind fun kind _ => ?_
    split
    · exact (attr?_ends s _ _).bind fun _ _ => .pure _
    · exact .pure _

theorem boundMap?_ends (side : BoundSide) : Ends (boundMap? s o side) :=
  (attr?_ends s o _).bind fun _ _ => .pure _

theorem cmpPredicate?_ends : Ends (cmpPredicate? s o) :=
  (attr?_ends s o _).bind fun _ _ => .pure _

end Tables

/-! ## Ranks -/

/-- Operation `o` computes with a result of `p`. -/
def ComputesWith (s : Store) (o p : OpRef) : Prop :=
  ∃ d v k, s.op? o = some d ∧ v ∈ d.operands ∧ s.originOf v = some (.result p k)

/-- Operation `o` computes with what `p` yields or holds: `p` defines an operand of `o`, or it is
nested directly in `o`. -/
def Needs (s : Store) (o p : OpRef) : Prop :=
  (∃ d v k, s.op? o = some d ∧ v ∈ d.operands ∧ s.originOf v = some (.result p k)) ∨ Child s o p

/-- No operation needs itself, directly or through others. -/
def AcyclicDefinitions (s : Store) : Prop := ∀ o, ¬ Relation.TransGen (Needs s) o o

/-- A rank of operations that falls from every operation to those that it needs. -/
structure Ranks (s : Store) (rank : OpRef → Nat) : Prop where
  pos : ∀ o d, s.op? o = some d → 0 < rank o
  falls : ∀ o p, Needs s o p → rank p < rank o
  bound : ∀ o, rank o < s.depthBound

/-- The operations that can still be met are a rank. -/
theorem AcyclicDefinitions.ranks (h : AcyclicDefinitions s) :
    Ranks s fun o => (metFrom s (Needs s) o).card where
  pos o d hd := Finset.card_pos.2 ⟨o.index, index_mem_metFrom hd⟩
  falls o p hp := by
    have hd : ∃ d, s.op? o = some d := by
      obtain ⟨d, _, _, hd, _⟩ | hchild := hp
      · exact ⟨d, hd⟩
      · exact op?_of_child hchild
    obtain ⟨d, hd⟩ := hd
    exact card_metFrom_lt hd hp (h o)
  bound o := Nat.lt_succ_of_le (card_metFrom_le s _ o)

/-- A rank of operations that falls from every operation of rank `cap` at most to those that it
needs.  What is of a higher rank is left out of account. -/
structure RanksUpTo (s : Store) (cap : Nat) (rank : OpRef → Nat) : Prop where
  pos : ∀ o d, s.op? o = some d → 0 < rank o
  falls : ∀ o p, rank o ≤ cap → Needs s o p → rank p < rank o
  bound : cap < s.depthBound

/-- The rank of the operation that defines a value; none for arguments. -/
def valueRank (s : Store) (rank : OpRef → Nat) (v : ValueRef) : Nat :=
  match s.originOf v with
  | some (.result o _) => rank o
  | _ => 0

/-- A rank of operations that falls from every operation to those that it computes with. -/
structure Descending (s : Store) (rank : OpRef → Nat) : Prop where
  pos : ∀ o d, s.op? o = some d → 0 < rank o
  falls : ∀ o p, ComputesWith s o p → rank p < rank o

/-- The operands of an operation are of a lower rank than the operation. -/
theorem Descending.operand_lt {rank : OpRef → Nat} (h : Descending s rank) {o : OpRef} {d : OpData}
    (hd : s.op? o = some d) {v : ValueRef} (hv : v ∈ d.operands) :
    valueRank s rank v < rank o := by
  unfold valueRank
  split
  · rename_i p k hk
    exact h.falls o p ⟨d, v, k, hd, hv, hk⟩
  · exact h.pos o d hd

/-- Where no operation computes with itself, directly or through others, the operations that can
still be met are such a rank. -/
theorem descending_of_acyclic (h : ∀ o, ¬ Relation.TransGen (ComputesWith s) o o) :
    Descending s fun o => (metFrom s (ComputesWith s) o).card where
  pos o d hd := Finset.card_pos.2 ⟨o.index, index_mem_metFrom hd⟩
  falls o p hp := by
    obtain ⟨d, v, k, hd, hv, hk⟩ := hp
    exact card_metFrom_lt hd ⟨d, v, k, hd, hv, hk⟩ (h o)

theorem AcyclicDefinitions.computesWith (h : AcyclicDefinitions s) (o : OpRef) :
    ¬ Relation.TransGen (ComputesWith s) o o :=
  fun hcycle => h o (Relation.TransGen.mono (r := ComputesWith s) (fun _ _ hneeds => .inl hneeds)
    _ _ hcycle)

theorem Ranks.descending {rank : OpRef → Nat} (h : Ranks s rank) : Descending s rank :=
  ⟨h.pos, fun o p hp => h.falls o p (.inl hp)⟩

namespace RanksUpTo

variable {cap : Nat} {rank : OpRef → Nat} (h : RanksUpTo s cap rank)

include h

/-- A lower cap asks for less. -/
theorem mono {cap' : Nat} (hcap : cap' ≤ cap) : RanksUpTo s cap' rank :=
  ⟨h.pos, fun o p ho => h.falls o p (Nat.le_trans ho hcap), Nat.lt_of_le_of_lt hcap h.bound⟩

/-- The operands of an operation are of a lower rank than the operation. -/
theorem operand_lt {o : OpRef} {d : OpData} (ho : rank o ≤ cap) (hd : s.op? o = some d)
    {v : ValueRef} (hv : v ∈ d.operands) : valueRank s rank v < rank o := by
  unfold valueRank
  split
  · rename_i p k hk
    exact h.falls o p ho (.inl ⟨d, v, k, hd, hv, hk⟩)
  · exact h.pos o d hd

/-- What is nested in an operation is of no higher rank. -/
theorem within_le {x z : OpRef} (hx : rank x ≤ cap) (hw : Within s x z) : rank z ≤ rank x := by
  induction hw with
  | refl => exact Nat.le_refl _
  | @tail y z _ hc ih =>
    exact Nat.le_trans (Nat.le_of_lt (h.falls y z (Nat.le_trans ih hx) (.inr hc))) ih

end RanksUpTo

namespace Ranks

variable {rank : OpRef → Nat} (h : Ranks s rank)

omit h in
variable (rank) in
theorem value_eq {v : ValueRef} {o : OpRef} (ho : s.definingOp? v = .ok (some o)) :
    valueRank s rank v = rank o := by
  obtain ⟨k, hk⟩ := definingOp?_some ho
  rw [valueRank, hk]

include h

theorem value_bound (v : ValueRef) : valueRank s rank v < s.depthBound := by
  unfold valueRank
  split
  · exact h.bound _
  · exact Nat.succ_pos _

/-- The operands of an operation are of a lower rank than the operation. -/
theorem operand_lt {o : OpRef} {d : OpData} (hd : s.op? o = some d) {v : ValueRef}
    (hv : v ∈ d.operands) : valueRank s rank v < rank o :=
  h.descending.operand_lt hd hv

theorem operandsOf_lt {o : OpRef} {vs : List ValueRef} (ho : s.operandsOf o = .ok vs)
    {v : ValueRef} (hv : v ∈ vs) : valueRank s rank v < rank o := by
  obtain ⟨d, hd, rfl⟩ := operandsOf_ok.1 ho
  exact h.operand_lt hd hv

theorem operandAt_lt {o : OpRef} {i : Nat} {v : ValueRef} (ho : s.operand o i = .ok v) :
    valueRank s rank v < rank o := by
  obtain ⟨d, hd, hi⟩ := operand_ok.1 ho
  exact h.operand_lt hd (List.mem_of_getElem? hi)

/-- What stands in an operation is of a lower rank. -/
theorem child_lt {o c : OpRef} {os : List OpRef} (ho : s.childOps o = .ok os) (hc : c ∈ os) :
    rank c < rank o :=
  h.falls o c (.inr (child_of_childOps ho hc))

/-! ## Symbols -/

/-- The rank of the value falls with each step, so more steps than the rank are enough. -/
theorem isScopeSymbolFuel_ends (n : Nat) :
    ∀ v : ValueRef, valueRank s rank v < n → Ends (isScopeSymbolFuel s n v) := by
  induction n with
  | zero => intro v hv; omega
  | succ n ih =>
    intro v hv
    refine (isTopLevel_ends s v).bind fun _ _ => .ite (fun _ => .pure _) fun _ => ?_
    refine (definingOp?_ends s v).bind fun o? ho => ?_
    cases o? with
    | none => exact .pure _
    | some o =>
      rw [value_eq rank ho] at hv
      refine (isNamed_ends s o _).bind fun _ _ => .ite (fun _ => .pure _) fun _ => ?_
      refine (isNamed_ends s o _).bind fun _ _ => .ite (fun _ => ?_) fun _ => .pure _
      refine (operandsOf_ends s o).bind fun vs hvs => .allInOrder fun w hw => ih w ?_
      have := h.operandsOf_lt hvs hw
      omega

theorem isSymbolWith_ends {symbolOp : OpRef → Except Fault Bool} {v : ValueRef}
    (hop : ∀ o, s.definingOp? v = .ok (some o) → Ends (symbolOp o)) :
    Ends (isSymbolWith symbolOp s v) := by
  refine (isTopLevel_ends s v).bind fun _ _ => .ite (fun _ => .pure _) fun _ => ?_
  refine (definingOp?_ends s v).bind fun o? ho => ?_
  cases o? with
  | none => exact .pure _
  | some o =>
    refine (hop o ho).bind fun _ _ => .ite (fun _ => .pure _) fun _ => ?_
    exact h.isScopeSymbolFuel_ends _ v (h.value_bound v)

/-- The same for operations, by way of branches and operands. -/
theorem computesSymbolFuel_ends (n : Nat) :
    ∀ o : OpRef, rank o < n → Ends (computesSymbolFuel s n o) := by
  induction n with
  | zero => intro o ho; omega
  | succ n ih =>
    intro o ho
    -- what the operation needs is of a lower rank, so the rest of the fuel suffices there
    have hsymbol : ∀ v, valueRank s rank v < rank o →
        Ends (isSymbolWith (computesSymbolFuel s n) s v) := by
      intro v hv
      refine h.isSymbolWith_ends fun p hp => ih p ?_
      rw [← value_eq rank hp]
      omega
    have hall : Ends (do allInOrder (isSymbolWith (computesSymbolFuel s n) s) (← s.operandsOf o)) :=
      (operandsOf_ends s o).bind fun vs hvs =>
        .allInOrder fun w hw => hsymbol w (h.operandsOf_lt hvs hw)
    have hbranches : Ends (branchesSatisfy (computesSymbolFuel s n) s o) := by
      refine (childOps_ends s o).bind fun os hos => .allInOrder fun c hc => ?_
      have hyield : Ends (isYield s c) :=
        ((op_ends s c).bind fun _ _ => .pure _ : Ends (s.nameOf c)).bind fun _ _ => .pure _
      refine hyield.bind fun _ _ => .ite (fun _ => .pure _) fun _ => ih c ?_
      have := h.child_lt hos hc
      omega
    refine (arithKind?_ends s o).bind fun kind _ => ?_
    rcases kind with _ | kind
    · refine (isNamed_ends s o _).bind fun _ _ => .ite (fun _ => ?_) fun _ => ?_
      · refine (operand_ends s o 0).bind fun v hv => ?_
        refine (hsymbol v (h.operandAt_lt hv)).bind fun _ _ => ?_
        exact .ite (fun _ => hbranches) fun _ => .pure _
      · refine (isNamed_ends s o _).bind fun _ _ => .ite (fun _ => ?_) fun _ => .pure _
        refine (operandsOf_ends s o).bind fun vs hvs => ?_
        refine (Ends.allInOrder fun w hw => hsymbol w (h.operandsOf_lt hvs hw)).bind fun _ _ => ?_
        exact .ite (fun _ => hbranches) fun _ => .pure _
    · cases kind <;> first | exact .pure _ | exact hall

theorem isRecursiveSymbol_ends (v : ValueRef) : Ends (isRecursiveSymbol s v) :=
  h.isSymbolWith_ends fun o _ => h.computesSymbolFuel_ends _ o (h.bound o)

/-! ## Indices -/

theorem computesIndexWith_ends {index : ValueRef → Except Fault Bool} {o : OpRef}
    (hindex : ∀ v, valueRank s rank v < rank o → Ends (index v)) :
    Ends (computesIndexWith index s o) := by
  have hsymbol := h.isRecursiveSymbol_ends
  have hconst : ∀ b : ValueRef, Ends (do return (← constantOf? s b).isSome) := fun b =>
    (constantOf?_ends s b).bind fun _ _ => .pure _
  have hleft : ∀ {a : ValueRef} {x : Except Fault Bool}, Ends (index a) → Ends x →
      Ends (do if ← index a then x else return false) := fun ha hx =>
    ha.bind fun _ _ => .ite (fun _ => hx) fun _ => .pure _
  refine (arithKind?_ends s o).bind fun kind _ => (operandsOf_ends s o).bind fun vs hvs => ?_
  have hin : ∀ v ∈ vs, Ends (index v) := fun v hv => hindex v (h.operandsOf_lt hvs hv)
  rcases kind with _ | kind
  · exact .pure _
  · rcases vs with _ | ⟨a, _ | ⟨b, _ | ⟨c, rest⟩⟩⟩
    · cases kind <;> exact .pure _
    · have ha := hin a (by simp)
      cases kind <;> first | exact .pure _ | exact ha
    · have ha := hin a (by simp)
      have hb := hin b (by simp)
      have hright : Ends (do if ← index b then isRecursiveSymbol s a else return false) :=
        hleft hb (hsymbol a)
      cases kind <;> first
        | exact .pure _
        | exact hleft ha hb
        | exact hleft ha (hsymbol b)
        | exact hleft ha (hconst b)
        | exact ha.bind fun _ _ => .ite
            (fun _ => (hsymbol b).bind fun _ _ => .ite (fun _ => .pure _) fun _ => hright)
            fun _ => hright
    · cases kind <;> exact .pure _

theorem isIndexFuel_ends (n : Nat) :
    ∀ v : ValueRef, valueRank s rank v < n → Ends (isIndexFuel s n v) := by
  induction n with
  | zero => intro v hv; omega
  | succ n ih =>
    intro v hv
    refine (h.isRecursiveSymbol_ends v).bind fun _ _ => .ite (fun _ => .pure _) fun _ => ?_
    refine (value_ends s v).bind fun vd hvd => ?_
    split
    · rename_i o k horigin
      have hrank : valueRank s rank v = rank o := by
        rw [valueRank, originOf, value_ok.1 hvd, Option.map_some, horigin]
      exact h.computesIndexWith_ends fun w hw => ih w (by omega)
    · refine (blockOwner?_ends s _).bind fun owner? _ => ?_
      split
      · exact .pure _
      · refine (isNamed_ends s _ _).bind fun _ _ => .ite (fun _ => .pure _) fun _ => ?_
        refine (isNamed_ends s _ _).bind fun _ _ => .ite (fun _ => .pure _) fun _ => ?_
        exact isNamed_ends s _ _

/-- Whether a value is an index is found in as many steps as there are operations. -/
theorem isIndex_ends (v : ValueRef) : Ends (isIndex s v) :=
  h.isIndexFuel_ends _ v (h.value_bound v)

/-! ## Signs -/

theorem isNonNegativeFuel_ends (n : Nat) :
    ∀ v : ValueRef, valueRank s rank v < n → Ends (isNonNegativeFuel s n v) := by
  induction n with
  | zero => intro v hv; omega
  | succ n ih =>
    intro v hv
    refine (constantOf?_ends s v).bind fun c? _ => ?_
    split
    · exact .pure _
    refine (value_ends s v).bind fun vd hvd => ?_
    split
    · refine (blockOwner?_ends s _).bind fun owner? _ => ?_
      split
      · exact .pure _
      · refine (isNamed_ends s _ _).bind fun _ _ => (isNamed_ends s _ _).bind fun _ _ => ?_
        refine .ite (fun _ => .ite (fun _ => ?_) fun _ => .pure _) fun _ =>
          .ite (fun _ => ?_) fun _ => .pure _
        · exact (boundMap?_ends s _ _).bind fun _ _ => .pure _
        · exact (boundMap?_ends s _ _).bind fun _ _ => .pure _
    · rename_i o k horigin
      have hrank : valueRank s rank v = rank o := by
        rw [valueRank, originOf, value_ok.1 hvd, Option.map_some, horigin]
      refine (arithKind?_ends s o).bind fun kind _ => ?_
      split
      · exact .pure _
      · exact .pure _
      · refine .ite (fun _ => ?_) fun _ => .pure _
        refine (operandsOf_ends s o).bind fun vs hvs => .allInOrder fun w hw => ih w ?_
        have := h.operandsOf_lt hvs hw
        omega

theorem isNonNegative_ends (v : ValueRef) : Ends (isNonNegative s v) :=
  h.isNonNegativeFuel_ends _ v (h.value_bound v)

end Ranks

/-! ## Definitions that are seen -/

section Order

variable {a o p q x z : OpRef}

/-- The first operation comes to its end before the second one does: it is nested in it, or it is
nested in something in front of it. -/
def EndsBefore (s : Store) (x o : OpRef) : Prop :=
  Relation.TransGen (Child s) o x ∨ ∃ a p, Within s a o ∧ Precedes s p a ∧ Within s p x

/-- What encloses one of two neighbours properly encloses the other one properly. -/
theorem precedes_transGen_iff (hl : Linked s) (h : Precedes s p a) :
    Relation.TransGen (Child s) z p ↔ Relation.TransGen (Child s) z a := by
  rw [Relation.TransGen.tail'_iff, Relation.TransGen.tail'_iff]
  exact exists_congr fun q => and_congr_right fun _ => h.child_iff hl

/-- The order in which operations come to their ends is transitive. -/
theorem EndsBefore.trans (hl : Linked s) (hx : EndsBefore s x o) (ho : EndsBefore s o z) :
    EndsBefore s x z := by
  rcases hx with hx | ⟨a, p, ha, hpa, hx⟩
  · rcases ho with ho | ⟨a, p, ha, hpa, ho⟩
    · exact .inl (ho.trans hx)
    · exact .inr ⟨a, p, ha, hpa, ho.trans hx.to_reflTransGen⟩
  · rcases ho with ho | ⟨a', p', ha', hpa', ho⟩
    · -- both `a` and `z` enclose `o`
      rcases within_or_within hl ha ho.to_reflTransGen with hw | hw
      · exact .inr ⟨a, p, hw, hpa, hx⟩
      · rcases Relation.reflTransGen_iff_eq_or_transGen.1 hw with rfl | hw
        · exact .inr ⟨a, p, .refl, hpa, hx⟩
        · exact .inl (((precedes_transGen_iff hl hpa).2 hw).trans_left hx)
    · -- both `a` and `p'` enclose `o`
      rcases within_or_within hl ha ho with hw | hw
      · rcases Relation.reflTransGen_iff_eq_or_transGen.1 hw with rfl | hw
        · exact .inr ⟨a', p, ha', hpa.trans hl hpa', hx⟩
        · have haa' := (precedes_transGen_iff hl hpa').1 hw
          exact .inr ⟨a, p, haa'.to_reflTransGen.trans ha', hpa, hx⟩
      · rcases Relation.reflTransGen_iff_eq_or_transGen.1 hw with rfl | hw
        · exact .inr ⟨a', p, ha', hpa.trans hl hpa', hx⟩
        · have hp := (precedes_transGen_iff hl hpa).2 hw
          exact .inr ⟨a', p', ha', hpa', hp.to_reflTransGen.trans hx⟩

/-- No operation comes to its end before itself. -/
theorem EndsBefore.irrefl (hl : Linked s) (hac : Acyclic s) : ¬ EndsBefore s x x := by
  rintro (hx | ⟨a, p, ha, hpa, hx⟩)
  · exact hac x hx
  · rcases within_or_within hl ha hx with hw | hw
    · rcases Relation.reflTransGen_iff_eq_or_transGen.1 hw with rfl | hw
      · exact hpa.ne hl rfl
      · exact hac a ((precedes_transGen_iff hl hpa).1 hw)
    · exact hpa.not_within hl (hac p) hw

theorem EndsBefore.op? (hl : Linked s) (h : EndsBefore s x o) : ∃ d, s.op? o = some d := by
  rcases h with hx | ⟨a, p, ha, ⟨b, bd, hb, hpa⟩, _⟩
  · obtain ⟨q, hq, _⟩ := Relation.TransGen.head'_iff.1 hx
    exact op?_of_child hq
  · obtain ⟨d, hd, _⟩ := hl.op?_of_mem hb (right_mem_of_pair hpa)
    exact hl.op?_of_within ⟨d, hd⟩ ha

/-- The operations that come to their end before an operation, and the operation itself, are
counted by a rank. -/
theorem exists_rank_endsBefore (hl : Linked s) (hac : Acyclic s) : ∃ rank : OpRef → Nat,
    (∀ o d, s.op? o = some d → 0 < rank o) ∧ (∀ x o, EndsBefore s x o → rank x < rank o) ∧
      ∀ o, rank o < s.depthBound := by
  have hbefore : ∀ o x, Relation.TransGen (fun o x => EndsBefore s x o) o x →
      EndsBefore s x o := by
    intro o x hx
    induction hx with
    | single h => exact h
    | tail _ h ih => exact h.trans hl ih
  refine ⟨fun o => (metFrom s (fun o x => EndsBefore s x o) o).card, fun o d hd => ?_,
    fun x o hx => ?_, fun o => Nat.lt_succ_of_le (card_metFrom_le s _ o)⟩
  · exact Finset.card_pos.2 ⟨o.index, index_mem_metFrom hd⟩
  · obtain ⟨d, hd⟩ := hx.op? hl
    exact card_metFrom_lt hd hx fun hcycle => EndsBefore.irrefl hl hac (hbefore o o hcycle)

/-- What comes to its end before something stands in a block. -/
theorem EndsBefore.attached (hl : Linked s) (h : EndsBefore s x o) :
    ∃ d b, s.op? x = some d ∧ d.parent = some b := by
  have hchild : ∀ {q}, Child s q x → ∃ d b, s.op? x = some d ∧ d.parent = some b := by
    intro q hq
    obtain ⟨b, bd, _, hb, hmem⟩ := child_iff.1 hq
    obtain ⟨d, hd, hparent⟩ := hl.op?_of_mem hb hmem
    exact ⟨d, b, hd, hparent⟩
  rcases h with hx | ⟨_, p, _, ⟨b, bd, hb, hpair⟩, hw⟩
  · obtain ⟨_, _, hq⟩ := Relation.TransGen.tail'_iff.1 hx
    exact hchild hq
  · rcases Relation.ReflTransGen.cases_tail hw with rfl | ⟨_, _, hq⟩
    · obtain ⟨d, hd, hparent⟩ := hl.op?_of_mem hb (left_mem_of_pair hpair)
      exact ⟨d, b, hd, hparent⟩
    · exact hchild hq

/-- What was removed stands in no block, and everything else sees its operands. -/
structure SeesOperands (removed : OpRef → Prop) (s : Store) : Prop where
  detached : ∀ x d, removed x → s.op? x = some d → d.parent = none
  sees : ∀ x d v, ¬ removed x → s.op? x = some d → v ∈ d.operands → Sees s v x

/-- What an operation needs comes to its end before it, if it sees its operands. -/
theorem Needs.endsBefore (hsees : ∀ d v, s.op? o = some d → v ∈ d.operands → Sees s v o)
    (h : Needs s o p) : EndsBefore s p o := by
  obtain ⟨d, v, k, hd, hv, hk⟩ | hchild := h
  · obtain ⟨a, ha, hpa⟩ := (hsees d v hd hv).reaches hk
    exact .inr ⟨a, p, ha, hpa, .refl⟩
  · exact .inl (.single hchild)

/-- Where every operation sees its operands no operation needs itself. -/
theorem AcyclicDefinitions.of_sees (hl : Linked s) (hac : Acyclic s)
    (hsees : ∀ x d v, s.op? x = some d → v ∈ d.operands → Sees s v x) : AcyclicDefinitions s := by
  obtain ⟨rank, _, hfalls, _⟩ := exists_rank_endsBefore hl hac
  intro o hcycle
  have hlt : ∀ p, Relation.TransGen (Needs s) o p → rank p < rank o := by
    intro p hp
    induction hp with
    | single h => exact hfalls _ _ (h.endsBefore (hsees o))
    | @tail q _ _ h ih => exact Nat.lt_trans (hfalls _ _ (h.endsBefore (hsees q))) ih
  exact Nat.lt_irrefl _ (hlt o hcycle)

namespace SeesOperands

variable {removed : OpRef → Prop} (h : SeesOperands removed s)

include h

/-- What stands in a block was not removed. -/
theorem not_removed {d : OpData} {b : BlockRef} (hd : s.op? x = some d)
    (hparent : d.parent = some b) : ¬ removed x := by
  intro hx
  cases (h.detached x d hx hd).symm.trans hparent

/-- Nothing was removed from inside of what was not removed. -/
theorem not_removed_within (hl : Linked s) (hx : ¬ removed x) (hw : Within s x z) :
    ¬ removed z := by
  rcases Relation.ReflTransGen.cases_tail hw with rfl | ⟨_, _, hq⟩
  · exact hx
  · obtain ⟨b, bd, _, hb, hmem⟩ := child_iff.1 hq
    obtain ⟨d, hd, hparent⟩ := hl.op?_of_mem hb hmem
    exact h.not_removed hd hparent

/-- The order in which operations come to their ends gives ranks, out of which what was removed is
left. -/
theorem exists_ranks (hl : Linked s) (hac : Acyclic s) : ∃ cap rank, RanksUpTo s cap rank ∧
    (∀ x, rank x ≤ cap ↔ ¬ removed x) ∧ ∀ x o, EndsBefore s x o → rank x < rank o := by
  classical
  obtain ⟨rank, hpos, hfalls, hbound⟩ := exists_rank_endsBefore hl hac
  have hle : ∀ x, (if removed x then s.depthBound else rank x) ≤ s.ops.size ↔ ¬ removed x := by
    intro x
    split
    · exact iff_of_false (Nat.not_succ_le_self _) (not_not_intro ‹_›)
    · exact iff_of_true (Nat.le_of_lt_succ (hbound x)) ‹_›
  have horder : ∀ x o, EndsBefore s x o → (if removed x then s.depthBound else rank x) <
      if removed o then s.depthBound else rank o := by
    intro x o hx
    obtain ⟨d, b, hd, hparent⟩ := hx.attached hl
    rw [if_neg (h.not_removed hd hparent)]
    split
    · exact hbound x
    · exact hfalls x o hx
  refine ⟨s.ops.size, fun x => if removed x then s.depthBound else rank x,
    ⟨fun o d hd => ?_, fun o p ho hp => ?_, Nat.lt_succ_self _⟩, hle, horder⟩
  · split
    · exact Nat.succ_pos _
    · exact hpos o d hd
  · exact horder p o (hp.endsBefore fun d v => h.sees o d v ((hle o).1 ho))

end SeesOperands

end Order

end AffineRaising.Raise
