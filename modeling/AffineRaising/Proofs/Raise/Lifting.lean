/-
# AffineRaising.Proofs.Raise.Lifting — what can be moved into the body of a function.

A promotion moves a computation out of the loops around it when all that it draws on can be had in
the body of a function: each of its free operands is there already, or can be moved there before it
(`Liftable`).  The places to which something is moved are in front of operations that enclose where
the promotion began, the *anchors*; they stand in bodies of functions, enclose one another and stay
where they are (`Staged`).  The place behind whatever is offered to an anchor is such a place, and
of several of them one is the latest (`Staged.latest?`).
-/
import AffineRaising.Proofs.Raise.LostPlace
import AffineRaising.Proofs.Raise.Writes

namespace AffineRaising.Raise

open AffineRaising.IR AffineRaising.IR.Store AffineRaising.Ops AffineRaising.Analysis

variable {s t : Store} {v u w : ValueRef} {x y o : OpRef} {b : BlockRef}

/-! ## Homes of values -/

/-- The block is one of a function. -/
def InFunction (s : Store) (b : BlockRef) : Prop :=
  ∃ q d, Holds s q b ∧ s.op? q = some d ∧ d.name = funcName

/-- The operation stands in a block that is not one of a function. -/
def Outside (s : Store) (x : OpRef) : Prop :=
  ∃ d b, s.op? x = some d ∧ d.parent = some b ∧ ¬ InFunction s b

section Homes

variable (hl : Linked s)

include hl

/-- A value is at the top level exactly if it lives in a block of a function. -/
theorem Lives.isTopLevel (h : Lives s v b) :
    ∃ top, Raise.isTopLevel s v = .ok top ∧ (top = true ↔ InFunction s b) := by
  obtain ⟨hhome, bd, hbd⟩ := h.home hl
  obtain ⟨q?, hq?, hholds⟩ := blockOwner?_ok hl hbd
  have howner : homeOwner? s v = .ok q? := by
    simp only [homeOwner?, except_bind_ok]
    exact ⟨some b, hhome, hq?⟩
  simp only [Raise.isTopLevel, except_bind_ok]
  cases q? with
  | none =>
    refine ⟨false, ⟨none, howner, rfl⟩, by simp, ?_⟩
    rintro ⟨q, _, hq, _⟩
    cases (hholds q).2 hq
  | some q =>
    obtain ⟨d, hd, _⟩ := (hholds q).1 rfl
    refine ⟨d.name == funcName, ⟨some q, howner, isNamed_ok.2 ⟨d, hd, rfl⟩⟩, ?_⟩
    rw [beq_iff_eq]
    constructor
    · exact fun hname => ⟨q, d, (hholds q).1 rfl, hd, hname⟩
    · rintro ⟨q', d', hq', hd', hname⟩
      cases (hholds q').2 hq'
      cases hd.symm.trans hd'
      exact hname

theorem Outside.isTopLevel {k : Nat} (h : Outside s x) (hv : s.originOf v = some (.result x k)) :
    Raise.isTopLevel s v = .ok false := by
  obtain ⟨d, b, hd, hparent, hout⟩ := h
  obtain ⟨top, htop, hiff⟩ := Lives.isTopLevel hl (.inr ⟨x, k, d, hv, hd, hparent⟩)
  cases top with
  | true => exact absurd (hiff.1 rfl) hout
  | false => exact htop

end Homes

/-! ## What has to be moved -/

/-- Operation `y` has to be moved if the value is to be had in the body of a function: it defines
the value, or a free operand of the definition needs it, and so on. -/
inductive Lifts (s : Store) : ValueRef → OpRef → Prop
  | self {v x k} : s.originOf v = some (.result x k) → Outside s x → Lifts s v x
  | free {v x k u y} : s.originOf v = some (.result x k) → Outside s x → Free s x u →
      Lifts s u y → Lifts s v y

/-- What is in the operation does not write, and it is neither a constant nor applies a map. -/
def Movable (s : Store) (x : OpRef) : Prop :=
  (∃ d, s.op? x = some d ∧ d.name ≠ ArithKind.const.opName ∧ d.name ≠ applyName) ∧ ¬ MayWrite s x

/-- To have one free operand of an operation, no operation has to be moved that defines another. -/
def Unshared (s : Store) (x : OpRef) : Prop :=
  ∀ u w y k, Free s x u → Free s x w → u ≠ w → s.originOf w = some (.result y k) → ¬ Lifts s u y

/-- The value is offered to an anchor, or an operation that can be moved defines it, and all free
operands of that, of which there are some, can be lifted one after the other. -/
inductive Liftable (anchor : OpRef → Prop) (s : Store) : ValueRef → Prop
  | ready {a v} : anchor a → Offered s v a → Liftable anchor s v
  | moved {v x k} : s.originOf v = some (.result x k) → Outside s x → Movable s x →
      (∃ u, Free s x u) → (∀ u, Free s x u → Liftable anchor s u) → Unshared s x →
      Liftable anchor s v

section Ranks

variable {cap : Nat} {rank : OpRef → Nat} (hr : RanksUpTo s cap rank)

include hr

theorem Free.valueRank_lt (h : Free s x v) (hx : rank x ≤ cap) : valueRank s rank v < rank x := by
  obtain ⟨z, d, hw, hd, hv, _⟩ := h
  have hle := hr.within_le hx hw
  exact Nat.lt_of_lt_of_le (hr.operand_lt (Nat.le_trans hle hx) hd hv) hle

/-- What has to be moved for a value is of no higher rank than its definition. -/
theorem Lifts.rank_le (h : Lifts s v y) (hv : valueRank s rank v ≤ cap) :
    rank y ≤ valueRank s rank v := by
  induction h with
  | self horigin _ => rw [valueRank, horigin]
  | @free v x k u y horigin _ hu _ ih =>
    have hvx : valueRank s rank v = rank x := by rw [valueRank, horigin]
    have hlt := hu.valueRank_lt hr (hvx ▸ hv)
    exact Nat.le_trans (ih (by omega)) (by omega)

end Ranks

/-! ## Anchors -/

/-- A promotion can go on from here, with the anchors in place. -/
structure Staged (spine : BlockRef → Prop) (anchor : OpRef → Prop) (top : Nat) (rank : OpRef → Nat)
    (s : Store) : Prop extends Framed spine top rank s where
  kept : ∃ gone, Kept s gone ∧ ∀ x, rank x ≤ top → ¬ gone x
  stands : ∀ a, anchor a → ∃ d b, s.op? a = some d ∧ d.parent = some b ∧ spine b ∧ InFunction s b
  higher : ∀ a, anchor a → top < rank a
  chain : ∀ a a', anchor a → anchor a' → Within s a a' ∨ Within s a' a

/-- The place is in front of an anchor or of an operation that precedes one. -/
def AtAnchor (anchor : OpRef → Prop) (s : Store) (p : Point) : Prop :=
  ∃ a bd q, anchor a ∧ s.block? p.block = some bd ∧ p.before = some q ∧ q ∈ bd.ops ∧
    (q = a ∨ Precedes s q a)

variable {spine : BlockRef → Prop} {anchor : OpRef → Prop} {top : Nat} {rank rank' : OpRef → Nat}

theorem Staged.inFunction (h : Staged spine anchor top rank s) {a : OpRef} (ha : anchor a)
    {bd : BlockData} (hbd : s.block? b = some bd) (hmem : a ∈ bd.ops) :
    spine b ∧ InFunction s b := by
  obtain ⟨d, b', hd, hparent, hspine, hfunction⟩ := h.stands a ha
  obtain ⟨d', hd', hparent'⟩ := h.consistent.linked.op?_of_mem hbd hmem
  cases hd.symm.trans hd'
  cases hparent.symm.trans hparent'
  exact ⟨hspine, hfunction⟩

/-- What is offered to an anchor is a symbol. -/
theorem Staged.isTopLevel (h : Staged spine anchor top rank s) {a : OpRef} (ha : anchor a)
    (hv : Offered s v a) : Raise.isTopLevel s v = .ok true := by
  have hl := h.consistent.linked
  obtain ⟨b, bd, hlives, hbd, hmem⟩ := lives_of_offered hl hv
  obtain ⟨top, htop, hiff⟩ := hlives.isTopLevel hl
  rw [htop, hiff.2 (h.inFunction ha hbd hmem).2]

/-- The first of some operations is a given one of them or stands in front of it. -/
theorem head?_of_mem {l : List OpRef} {a : OpRef} (ha : a ∈ l) :
    ∃ q, l.head? = some q ∧ q ∈ l ∧ (q = a ∨ [q, a].Sublist l) := by
  cases l with
  | nil => cases ha
  | cons q rest =>
    refine ⟨q, rfl, List.mem_cons_self, ?_⟩
    rcases List.mem_cons.1 ha with rfl | ha
    · exact .inl rfl
    · exact .inr (List.cons_sublist_cons.2 (List.singleton_sublist.2 ha))

/-- The place behind what is offered to an anchor is in front of the anchor. -/
theorem afterDefinition?_of_offered (hl : Linked s) {a : OpRef} (ha : anchor a)
    (hv : Offered s v a) : ∃ p, Point.afterDefinition? s v = .ok (some p) ∧
      AtAnchor anchor s p := by
  rcases hv with ⟨b, k, bd, hv, hbd, hmem⟩ | ⟨x, k, hv, b, bd, hbd, hpair⟩
  · obtain ⟨e, he, horigin⟩ := Option.map_eq_some_iff.1 hv
    obtain ⟨q, hq, hqmem, hqa⟩ := head?_of_mem hmem
    refine ⟨⟨b, some q⟩, ?_, a, bd, q, ha, hbd, rfl, hqmem, hqa.imp_right fun h => ⟨b, bd, hbd, h⟩⟩
    simp only [Point.afterDefinition?, except_bind_ok, value_ok]
    refine ⟨e, he, ?_⟩
    simp only [horigin, Point.start, bind_pure_comp, except_map_ok, block_ok]
    exact ⟨_, ⟨bd, hbd, rfl⟩, by rw [hq]⟩
  · obtain ⟨e, he, horigin⟩ := Option.map_eq_some_iff.1 hv
    obtain ⟨d, hd, hparent⟩ := hl.op?_of_mem hbd (left_mem_of_pair hpair)
    obtain ⟨next, hnext⟩ := next?_total hl hd
    obtain ⟨front, back, hops, hhead⟩ := next?_ok hd hparent hbd (left_mem_of_pair hpair) hnext
    have hback : a ∈ back := mem_back_of_pair (hops ▸ hl.ops_nodup hbd) (hops ▸ hpair)
    obtain ⟨q, hq, hqmem, hqa⟩ := head?_of_mem hback
    have hsub : back.Sublist bd.ops := by
      rw [hops]
      exact (List.sublist_cons_self x back).trans (List.sublist_append_right front _)
    refine ⟨⟨b, some q⟩, ?_, a, bd, q, ha, hbd, rfl, hsub.subset hqmem,
      hqa.imp_right fun h => ⟨b, bd, hbd, h.trans hsub⟩⟩
    simp only [Point.afterDefinition?, except_bind_ok, value_ok]
    refine ⟨e, he, ?_⟩
    simp only [horigin, Point.after?, except_bind_ok, op_ok]
    refine ⟨d, hd, ?_⟩
    simp only [hparent, except_bind_ok]
    exact ⟨next, hnext, by rw [← hhead, hq]; rfl⟩

/-! ## Comparing places -/

/-- The anchor of a place is in the block of the place, at its operation or behind it. -/
theorem AtAnchor.index {p : Point} (hl : Linked s) (hf : Forest s) (h : AtAnchor anchor s p) :
    ∃ a i j, anchor a ∧ p.index s = .ok i ∧ StandsAt s a p.block j ∧ i ≤ j := by
  obtain ⟨a, bd, q, ha, hbd, hq, hmem, hqa⟩ := h
  have hblock : a ∈ bd.ops ∧ (q = a ∨ Precedes s q a) := by
    rcases hqa with rfl | ⟨b, bd', hbd', hpair⟩
    · exact ⟨hmem, .inl rfl⟩
    · cases hl.block_unique hbd hmem hbd' (left_mem_of_pair hpair)
      cases hbd.symm.trans hbd'
      exact ⟨right_mem_of_pair hpair, .inr ⟨p.block, bd, hbd, hpair⟩⟩
  obtain ⟨hamem, hqa⟩ := hblock
  obtain ⟨_, i, _, _, hfront⟩ := hf.standsAt (opParent_of_mem hl hbd hmem)
  obtain ⟨_, j, _, _, hplace⟩ := hf.standsAt (opParent_of_mem hl hbd hamem)
  have hi : p.index s = .ok i := by
    have hindex := hfront.index hf
    rwa [← hq] at hindex
  refine ⟨a, i, j, ha, hi, hplace, ?_⟩
  rcases hqa with rfl | hprecedes
  · exact Nat.le_of_eq (hfront.unique hplace).2
  · exact Nat.le_of_lt ((hfront.lt_iff hl hplace).2 hprecedes)

/-- Of two places at anchors one is visible at the other. -/
theorem Staged.comparable (h : Staged spine anchor top rank s) {p p' : Point}
    (hp : AtAnchor anchor s p) (hp' : AtAnchor anchor s p') : Comparable s p p' := by
  have hl := h.consistent.linked
  have hf := forest_of_linked hl h.acyclic
  obtain ⟨a, i, j, ha, hi, hplace, hle⟩ := hp.index hl hf
  obtain ⟨a', i', j', ha', hi', hplace', hle'⟩ := hp'.index hl hf
  -- both places dominate the one in front of the inner anchor
  rcases h.chain a a' ha ha' with hw | hw
  · have hout : LeadsBehind s a' p.block i := ⟨a, j, (stepsOut_iff_within hl).2 hw, hplace, hle⟩
    have hout' : LeadsBehind s a' p'.block i' := ⟨a', j', .refl, hplace', hle'⟩
    exact ((dominates_before_iff hf hi hplace').2 hout).total
      ((dominates_before_iff hf hi' hplace').2 hout')
  · have hout : LeadsBehind s a p.block i := ⟨a, j, .refl, hplace, hle⟩
    have hout' : LeadsBehind s a p'.block i' :=
      ⟨a', j', (stepsOut_iff_within hl).2 hw, hplace', hle'⟩
    exact ((dominates_before_iff hf hi hplace).2 hout).total
      ((dominates_before_iff hf hi' hplace).2 hout')

theorem Staged.latest? (h : Staged spine anchor top rank s) {ps : List Point} (hne : ps ≠ [])
    (hps : ∀ p ∈ ps, AtAnchor anchor s p) : ∃ p, Analysis.latest? s ps = .ok (some p) := by
  have hf := forest_of_linked h.consistent.linked h.acyclic
  have hplaced : ∀ p ∈ ps, Analysis.Placed s p := by
    intro p hp
    obtain ⟨_, bd, _, _, hbd, _⟩ := hps p hp
    exact ⟨bd, hbd⟩
  obtain ⟨p?, hp?, hfound, _⟩ := latest?_ok hf hne hplaced
  obtain ⟨p, rfl⟩ := Option.isSome_iff_exists.1 (hfound.2 fun p hp q hq =>
    h.comparable (hps p hp) (hps q hq))
  exact ⟨p, hp?⟩

end AffineRaising.Raise
