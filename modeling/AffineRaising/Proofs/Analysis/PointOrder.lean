/-
# AffineRaising.Proofs.Analysis.PointOrder — dominance of points is an order along the way out.

From a place the way out leads through the operations that hold its block, one after the other, and
crosses each block at most once.  A point dominates another one exactly if the way out of the other
one crosses its block at the point or behind it (`dominates_ok`).  The way out is a chain, so the
points that dominate a common point can be compared, and the latest of several points does not
depend on their order.
-/
import AffineRaising.Proofs.Resolve.Module

namespace AffineRaising.Analysis

open AffineRaising.IR AffineRaising.IR.Store
open Relation (ReflTransGen TransGen)

variable {s : Store} {a h o u : OpRef} {b c : BlockRef} {i j k : Nat} {p q r : Point}
  {v : ValueRef}

/-! ## The way out -/

/-- The second place is that of the operation that holds the block of the first one. -/
def Outward (s : Store) (x y : BlockRef × Nat) : Prop :=
  ∃ h, s.blockOwner? x.1 = .ok (some h) ∧ StandsAt s h y.1 y.2

theorem outward_unique : Relator.RightUnique (Outward s) := by
  rintro x y z ⟨h, hh, hy⟩ ⟨h', hh', hz⟩
  cases hh.symm.trans hh'
  obtain ⟨hblock, hindex⟩ := hy.unique hz
  exact Prod.ext hblock hindex

/-- Where the way out leads depends on the block alone, except that it starts at the place. -/
theorem outward_from {x : BlockRef × Nat} (hout : TransGen (Outward s) (b, i) x) (j : Nat) :
    TransGen (Outward s) (b, j) x := by
  obtain ⟨y, hstep, hrest⟩ := TransGen.head'_iff.1 hout
  exact TransGen.head' hstep hrest

/-- The way out of an operation leads through the operations that enclose it. -/
theorem reach_iff (hf : Forest s) (ho : StandsAt s o b i) :
    ReflTransGen (Outward s) (b, i) (c, k) ↔
      ∃ a, ReflTransGen (StepsOut s) o a ∧ StandsAt s a c k := by
  constructor
  · intro hout
    generalize hx : (b, i) = x at hout
    generalize hy : (c, k) = y at hout
    induction hout using ReflTransGen.head_induction_on generalizing o b i with
    | refl =>
      cases hx.trans hy.symm
      exact ⟨o, .refl, ho⟩
    | head hstep _ ih =>
      cases hx
      obtain ⟨h, hh, hplace⟩ := hstep
      obtain ⟨a, hha, ha⟩ := ih hplace rfl
      have hstep : StepsOut s o h := (enclosingOp?_attached ho.parent).trans hh
      exact ⟨a, .head hstep hha, ha⟩
  · rintro ⟨a, hoa, ha⟩
    induction hoa using ReflTransGen.head_induction_on generalizing b i with
    | refl =>
      obtain ⟨rfl, rfl⟩ := ho.unique ha
      exact .refl
    | head hstep hrest ih =>
      rename_i o h
      -- the next operation is in a block, since the way goes on from it or ends there
      obtain ⟨b', hb'⟩ : ∃ b', s.opParent h = some (some b') := by
        rcases ReflTransGen.cases_head hrest with rfl | ⟨x, hx, -⟩
        · exact ⟨c, ha.parent⟩
        · exact hx.attached
      obtain ⟨-, i', -, -, hplace⟩ := hf.standsAt hb'
      have hholder : s.blockOwner? b = .ok (some h) :=
        (enclosingOp?_attached ho.parent).symm.trans hstep
      exact .head ⟨h, hholder, hplace⟩ (ih hplace)

theorem out_iff (hf : Forest s) : TransGen (Outward s) (b, i) (c, k) ↔
    ∃ h a, s.blockOwner? b = .ok (some h) ∧ ReflTransGen (StepsOut s) h a ∧ StandsAt s a c k := by
  rw [TransGen.head'_iff]
  constructor
  · rintro ⟨⟨b', i'⟩, ⟨h, hh, hplace⟩, hrest⟩
    obtain ⟨a, hha, ha⟩ := (reach_iff hf hplace).1 hrest
    exact ⟨h, a, hh, hha, ha⟩
  · rintro ⟨h, a, hh, hha, ha⟩
    obtain ⟨b', hb'⟩ : ∃ b', s.opParent h = some (some b') := by
      rcases ReflTransGen.cases_head hha with rfl | ⟨x, hx, -⟩
      · exact ⟨c, ha.parent⟩
      · exact hx.attached
    obtain ⟨-, i', -, -, hplace⟩ := hf.standsAt hb'
    exact ⟨(b', i'), ⟨h, hh, hplace⟩, (reach_iff hf hplace).2 ⟨a, hha, ha⟩⟩

/-- The way out does not come back to a block. -/
theorem out_irrefl (hf : Forest s) : ¬ TransGen (Outward s) (b, i) (b, k) := by
  intro hout
  obtain ⟨h, a, hh, hha, ha⟩ := (out_iff hf).1 hout
  have hah : StepsOut s a h := (enclosingOp?_attached ha.parent).trans hh
  exact hf.acyclic h (TransGen.tail' hha hah)

/-! ## Points -/

/-- The block of a point exists.  A point in front of an operation that is not in its block stands
at the end of the block. -/
def Placed (s : Store) (p : Point) : Prop :=
  ∃ bd, s.block? p.block = some bd

theorem Placed.index_ok (hp : Placed s p) : ∃ i, p.index s = .ok i := by
  obtain ⟨bd, hbd⟩ := hp
  rw [Point.index, block_ok.2 hbd]
  cases p.before with
  | none => exact ⟨_, rfl⟩
  | some o => exact ⟨_, rfl⟩

/-- The way out of the second point crosses the block of the first one there or behind it. -/
def Dominates (s : Store) (p q : Point) : Prop :=
  ∃ i j k, p.index s = .ok i ∧ q.index s = .ok j ∧
    ReflTransGen (Outward s) (q.block, j) (p.block, k) ∧ i ≤ k

/-- The dominance check decides dominance. -/
theorem dominates_ok (hf : Forest s) (hp : Placed s p) (hq : Placed s q) :
    ∃ w, dominates s p q = .ok w ∧ (w = true ↔ Dominates s p q) := by
  obtain ⟨i, hi⟩ := hp.index_ok
  obtain ⟨j, hj⟩ := hq.index_ok
  have hdominates : ∀ n, (∀ k, ReflTransGen (Outward s) (q.block, j) (p.block, k) ↔ k = n) →
      (Dominates s p q ↔ i ≤ n) := by
    intro n hn
    constructor
    · rintro ⟨i', j', k, hi', hj', hout, hle⟩
      cases hi.symm.trans hi'
      cases hj.symm.trans hj'
      exact (hn k).1 hout ▸ hle
    · exact fun hle => ⟨i, j, n, hi, hj, (hn n).2 rfl, hle⟩
  have hnever : (∀ k, ¬ ReflTransGen (Outward s) (q.block, j) (p.block, k)) →
      ¬ Dominates s p q := by
    rintro hno ⟨i', j', k, -, hj', hout, -⟩
    cases hj.symm.trans hj'
    exact hno k hout
  unfold dominates
  by_cases hsame : p.block = q.block
  · rw [if_pos hsame, hi, hj]
    refine ⟨_, rfl, decide_eq_true_iff.trans (hdominates j fun k => ⟨fun hout => ?_, ?_⟩).symm⟩
    · rcases Relation.reflTransGen_iff_eq_or_transGen.1 hout with heq | hout
      · exact congrArg Prod.snd heq
      · exact absurd (hsame ▸ hout) (out_irrefl hf)
    · rintro rfl
      rw [hsame]
  · have hout_iff : ∀ k, ReflTransGen (Outward s) (q.block, j) (p.block, k) ↔
        ∃ h a, s.blockOwner? q.block = .ok (some h) ∧ ReflTransGen (StepsOut s) h a ∧
          StandsAt s a p.block k := by
      intro k
      rw [← out_iff hf, Relation.reflTransGen_iff_eq_or_transGen]
      exact or_iff_right fun heq => hsame (congrArg Prod.fst heq)
    obtain ⟨bd, hbd⟩ := hq
    obtain ⟨h?, hh, hentry⟩ := hf.blockOwner?_ok hbd
    rw [if_neg hsame, hh]
    cases h? with
    | none =>
      refine ⟨false, rfl, iff_of_false Bool.false_ne_true (hnever fun k hout => ?_)⟩
      obtain ⟨h, -, hh', -⟩ := (hout_iff k).1 hout
      cases hh.symm.trans hh'
    | some h =>
      obtain ⟨d, hd⟩ := hentry h rfl
      obtain ⟨a?, ha, hanchor⟩ := hf.ancestorIn?_ok p.block hd
      show ∃ w, (ancestorIn? s p.block h >>= _) = .ok w ∧ _
      rw [ha]
      cases a? with
      | none =>
        refine ⟨false, rfl, iff_of_false Bool.false_ne_true (hnever fun k hout => ?_)⟩
        obtain ⟨h', a, hh', hha, hplace⟩ := (hout_iff k).1 hout
        cases hh.symm.trans hh'
        cases (hanchor a).2 ⟨hha, hplace.parent⟩
      | some a =>
        obtain ⟨hha, hparent⟩ := (hanchor a).1 rfl
        obtain ⟨-, n, -, -, hplace⟩ := hf.standsAt hparent
        show ∃ w, (s.position? a >>= _) = .ok w ∧ _
        rw [hplace.position]
        show ∃ w, (p.index s >>= _) = .ok w ∧ _
        rw [hi]
        refine ⟨_, rfl, decide_eq_true_iff.trans (hdominates n fun k => ⟨fun hout => ?_, ?_⟩).symm⟩
        · obtain ⟨h', a', hh', hha', hplace'⟩ := (hout_iff k).1 hout
          cases hh.symm.trans hh'
          cases (hanchor a').2 ⟨hha', hplace'.parent⟩
          exact (hplace'.unique hplace).2
        · rintro rfl
          exact (hout_iff k).2 ⟨h, a, hh, hha, hplace⟩

theorem dominates_iff (hf : Forest s) (hp : Placed s p) (hq : Placed s q) :
    dominates s p q = .ok true ↔ Dominates s p q := by
  obtain ⟨w, hw, hiff⟩ := dominates_ok hf hp hq
  rw [hw, ← hiff, Except.ok.injEq]

/-! ## The order -/

theorem Dominates.refl (hp : Placed s p) : Dominates s p p := by
  obtain ⟨i, hi⟩ := hp.index_ok
  exact ⟨i, i, i, hi, hi, .refl, Nat.le_refl i⟩

theorem Dominates.trans (hpq : Dominates s p q) (hqr : Dominates s q r) : Dominates s p r := by
  obtain ⟨i, j, k, hi, hj, hout, hle⟩ := hpq
  obtain ⟨j', l, m, hj', hl, hout', hle'⟩ := hqr
  cases hj.symm.trans hj'
  rcases Relation.reflTransGen_iff_eq_or_transGen.1 hout with heq | hout
  · obtain ⟨hblock, rfl⟩ := Prod.ext_iff.1 heq
    have hblock : p.block = q.block := hblock
    exact ⟨i, l, m, hi, hl, hblock ▸ hout', hle.trans hle'⟩
  · exact ⟨i, l, k, hi, hl, hout'.trans (outward_from hout m).to_reflTransGen, hle⟩

/-- Points that dominate a common point dominate each other one way or the other. -/
theorem Dominates.total (hpr : Dominates s p r) (hqr : Dominates s q r) :
    Dominates s p q ∨ Dominates s q p := by
  obtain ⟨i, l, k, hi, hl, hout, hle⟩ := hpr
  obtain ⟨j, l', m, hj, hl', hout', hle'⟩ := hqr
  cases hl.symm.trans hl'
  -- of two crossings on one way out the inner one leads to the outer one
  have hinner : ∀ {p q : Point} {i j k m : Nat}, p.index s = .ok i → q.index s = .ok j → i ≤ k →
      j ≤ m → ReflTransGen (Outward s) (p.block, k) (q.block, m) →
      Dominates s p q ∨ Dominates s q p := by
    intro p q i j k m hi hj hle hle' hout
    rcases Relation.reflTransGen_iff_eq_or_transGen.1 hout with heq | hout
    · have hblock : q.block = p.block := congrArg Prod.fst heq
      rcases Nat.le_total i j with hij | hji
      · exact .inl ⟨i, j, j, hi, hj, hblock ▸ .refl, hij⟩
      · exact .inr ⟨j, i, i, hj, hi, hblock ▸ .refl, hji⟩
    · exact .inr ⟨j, i, m, hj, hi, (outward_from hout i).to_reflTransGen, hle'⟩
  rcases ReflTransGen.total_of_right_unique outward_unique hout hout' with h | h
  · exact hinner hi hj hle hle' h
  · exact (hinner hj hi hle' hle h).symm

/-! ## The latest point -/

/-- One of two points dominates the other. -/
def Comparable (s : Store) (p q : Point) : Prop :=
  Dominates s p q ∨ Dominates s q p

/-- The comparison finds an order for comparable points, and the later one is dominated. -/
theorem comparePoints?_ok (hf : Forest s) (hp : Placed s p) (hq : Placed s q) :
    ∃ order, comparePoints? s p q = .ok order ∧ (order.isSome ↔ Comparable s p q) ∧
      (order = some .lt → Dominates s p q) ∧
      ((order = some .eq ∨ order = some .gt) → Dominates s q p) := by
  obtain ⟨w, hw, hpq⟩ := dominates_ok hf hp hq
  obtain ⟨w', hw', hqp⟩ := dominates_ok hf hq hp
  rw [Comparable, ← hpq, ← hqp, comparePoints?, hw]
  show ∃ order, (dominates s q p >>= _) = .ok order ∧ _
  rw [hw']
  cases w <;> cases w' <;> exact ⟨_, rfl, by simp⟩

theorem comparable_iff (hf : Forest s) (hp : Placed s p) (hq : Placed s q) :
    (∃ order, comparePoints? s p q = .ok (some order)) ↔ Comparable s p q := by
  obtain ⟨order, horder, hiff, -⟩ := comparePoints?_ok hf hp hq
  rw [← hiff, Option.isSome_iff_exists, horder]
  simp only [Except.ok.injEq]

/-- A point is one of several and dominated by all of them. -/
structure Latest (s : Store) (ps : List Point) (p : Point) : Prop where
  mem : p ∈ ps
  dominated : ∀ q ∈ ps, Dominates s q p

theorem Latest.comparable {ps : List Point} (h : Latest s ps r) :
    ∀ p ∈ ps, ∀ q ∈ ps, Comparable s p q :=
  fun p hp q hq => (h.dominated p hp).total (h.dominated q hq)

/-- What is latest behind the later of two points is latest behind both. -/
theorem Latest.cons {ps : List Point} (h : Latest s (q :: ps) r) (hp : Dominates s p q) :
    Latest s (p :: q :: ps) r := by
  have hq := h.dominated q List.mem_cons_self
  exact ⟨List.mem_cons_of_mem p h.mem, List.forall_mem_cons.2 ⟨hp.trans hq, h.dominated⟩⟩

theorem Latest.perm {ps qs : List Point} (h : Latest s ps r) (hperm : ps.Perm qs) :
    Latest s qs r :=
  ⟨hperm.mem_iff.1 h.mem, fun p hp => h.dominated p (hperm.mem_iff.2 hp)⟩

/-- The fold comes to a latest point, or to nothing where two points cannot be compared. -/
theorem latestFrom?_ok (hf : Forest s) (ps : List Point) :
    ∀ p, (∀ q ∈ p :: ps, Placed s q) → ∃ r?, latestFrom? s p ps = .ok r? ∧
      (∀ r, r? = some r → Latest s (p :: ps) r) ∧
      ((∀ q ∈ p :: ps, ∀ q' ∈ p :: ps, Comparable s q q') → r?.isSome = true) := by
  induction ps with
  | nil =>
    intro p hplaced
    refine ⟨some p, rfl, fun r hr => ?_, fun _ => rfl⟩
    cases hr
    refine ⟨List.mem_cons_self, fun q hq => ?_⟩
    cases List.mem_singleton.1 hq
    exact .refl (hplaced p List.mem_cons_self)
  | cons q ps ih =>
    intro p hplaced
    obtain ⟨hp, hrest⟩ := List.forall_mem_cons.1 hplaced
    obtain ⟨hq, hps⟩ := List.forall_mem_cons.1 hrest
    obtain ⟨order, horder, hsome, hlt, hge⟩ := comparePoints?_ok hf hp hq
    have hswap := List.Perm.swap p q ps
    -- the point that is kept is as late as the other one
    have hkeep : Dominates s q p → ∃ r?, latestFrom? s p ps = .ok r? ∧
        (∀ r, r? = some r → Latest s (p :: q :: ps) r) ∧
        ((∀ x ∈ p :: q :: ps, ∀ y ∈ p :: q :: ps, Comparable s x y) → r?.isSome = true) := by
      intro hqp
      obtain ⟨r?, hr, hlatest, hfound⟩ := ih p (List.forall_mem_cons.2 ⟨hp, hps⟩)
      refine ⟨r?, hr, fun r h => ((hlatest r h).cons hqp).perm hswap, fun h => hfound ?_⟩
      intro x hx y hy
      exact h x (hswap.mem_iff.1 (List.mem_cons_of_mem q hx)) y
        (hswap.mem_iff.1 (List.mem_cons_of_mem q hy))
    rw [latestFrom?, horder]
    rcases order with _ | _ | _ | _
    · refine ⟨none, rfl, fun r h => (by cases h), fun h => ?_⟩
      exact hsome.2 (h p (by simp) q (by simp))
    · obtain ⟨r?, hr, hlatest, hfound⟩ := ih q hrest
      refine ⟨r?, hr, fun r h => (hlatest r h).cons (hlt rfl), fun h => hfound ?_⟩
      exact fun x hx y hy => h x (List.mem_cons_of_mem p hx) y (List.mem_cons_of_mem p hy)
    · exact hkeep (hge (.inl rfl))
    · exact hkeep (hge (.inr rfl))

/-- Of points in any order the latest one is found if they can all be compared. -/
theorem latest?_ok (hf : Forest s) {ps : List Point} (hne : ps ≠ [])
    (hplaced : ∀ p ∈ ps, Placed s p) : ∃ r?, latest? s ps = .ok r? ∧
      (r?.isSome = true ↔ ∀ p ∈ ps, ∀ q ∈ ps, Comparable s p q) ∧
      ∀ r, r? = some r → Latest s ps r := by
  obtain ⟨p, ps, rfl⟩ := List.exists_cons_of_ne_nil hne
  obtain ⟨r?, hr, hlatest, hfound⟩ := latestFrom?_ok hf ps p hplaced
  refine ⟨r?, hr, ⟨fun hsome => ?_, hfound⟩, hlatest⟩
  obtain ⟨r, rfl⟩ := Option.isSome_iff_exists.1 hsome
  exact (hlatest r rfl).comparable

/-! ## Values -/

/-- The point in front of operation `n` of a block, or behind the last one, has number `n`. -/
theorem index_getElem? (hf : Forest s) {bd : BlockData} (hb : s.block? b = some bd) {n : Nat}
    (hn : n ≤ bd.ops.length) : Point.index s ⟨b, bd.ops[n]?⟩ = .ok n := by
  rw [Point.index, block_ok.2 hb]
  by_cases hlt : n < bd.ops.length
  · have hidx : bd.ops.idxOf? bd.ops[n] = some n := by
      refine List.idxOf?_eq_some_iff.2 ⟨hlt, rfl, fun j hj heq => ?_⟩
      have hsame := ((hf.once hb).getElem_inj_iff).1 heq
      omega
    rw [List.getElem?_eq_getElem hlt]
    show Except.ok ((bd.ops.idxOf? bd.ops[n]).getD bd.ops.length) = _
    rw [hidx]
    rfl
  · have hend : n = bd.ops.length := by omega
    subst hend
    rw [List.getElem?_eq_none (Nat.le_refl _)]
    rfl

theorem StandsAt.index (hf : Forest s) (h : StandsAt s o b i) :
    Point.index s ⟨b, some o⟩ = .ok i := by
  obtain ⟨bd, i', hbd, hidx, hplace⟩ := hf.standsAt h.parent
  obtain ⟨-, rfl⟩ := h.unique hplace
  rw [Point.index, block_ok.2 hbd]
  show Except.ok ((bd.ops.idxOf? o).getD bd.ops.length) = _
  rw [hidx]
  rfl

/-- A point with number `n` dominates the place of an operation that leads out behind it. -/
theorem dominates_before_iff (hf : Forest s) {before : Option OpRef} {n : Nat}
    (hn : Point.index s ⟨b, before⟩ = .ok n) (hu : StandsAt s u c j) :
    Dominates s ⟨b, before⟩ ⟨c, some u⟩ ↔ LeadsBehind s u b n := by
  constructor
  · rintro ⟨n', j', k, hn', hj, hout, hle⟩
    cases hn.symm.trans hn'
    cases (hu.index hf).symm.trans hj
    obtain ⟨a, hua, ha⟩ := (reach_iff hf hu).1 hout
    exact ⟨a, k, hua, ha, hle⟩
  · rintro ⟨a, k, hua, ha, hle⟩
    exact ⟨n, j, k, hn, hu.index hf, (reach_iff hf hu).2 ⟨a, hua, ha⟩, hle⟩

/-- A value is visible at an operation exactly if it can be used in front of it. -/
theorem visible_iff_available (hf : Forest s) {e : ValueData} (hv : s.value? v = some e)
    (hu : StandsAt s u c j) :
    ∃ w, valueDominates s v u = .ok w ∧ availableAt s v ⟨c, some u⟩ = .ok w := by
  obtain ⟨d, hd, -⟩ := opParent_eq_some.1 hu.parent
  obtain ⟨cd, -, hcd, -⟩ := hf.standsAt hu.parent
  -- both queries are about the way out of the user, from the first point behind the definition
  have hagree : ∀ {b : BlockRef} {bd : BlockData} {n : Nat}, s.block? b = some bd →
      n ≤ bd.ops.length → s.homeBlock? v = .ok (some b) →
      Point.afterDefinition? s v = .ok (some ⟨b, bd.ops[n]?⟩) →
      (∃ w, visibleFrom s v u b = .ok w ∧ (w = true ↔ LeadsBehind s u b n)) →
      ∃ w, valueDominates s v u = .ok w ∧ availableAt s v ⟨c, some u⟩ = .ok w := by
    intro b bd n hb hn hhome hdefinition hvisible
    obtain ⟨w, hw, hiff⟩ := hvisible
    obtain ⟨w', hw', hiff'⟩ := dominates_ok (p := ⟨b, bd.ops[n]?⟩) (q := ⟨c, some u⟩) hf
      ⟨bd, hb⟩ ⟨cd, hcd⟩
    have hsame : w' = w := by
      rw [Bool.eq_iff_iff, hiff, hiff', dominates_before_iff hf (index_getElem? hf hb hn) hu]
    refine ⟨w, (valueDominates_eq hhome).trans hw, ?_⟩
    rw [availableAt, hdefinition, ← hsame]
    exact hw'
  have horigin : s.originOf v = some e.origin := by rw [originOf, hv, Option.map_some]
  cases he : e.origin with
  | argument b n =>
    rw [he] at horigin
    obtain ⟨bd, hbd⟩ := hf.binder hv he
    refine hagree hbd (Nat.zero_le _) (homeBlock?_argument horigin) ?_
      (visibleFrom_argument hf hv he hd)
    simp only [Point.afterDefinition?, except_bind_ok, value_ok]
    refine ⟨e, hv, ?_⟩
    simp only [he, Point.start, except_bind_ok, block_ok]
    exact ⟨_, ⟨bd, hbd, rfl⟩, by rw [List.head?_eq_getElem?]; rfl⟩
  | result o n =>
    rw [he] at horigin
    obtain ⟨od, hod⟩ := hf.definer hv he
    have hhome := homeBlock?_result horigin hod
    cases hop : od.parent with
    | none =>
      rw [hop] at hhome
      refine ⟨false, valueDominates_eq hhome, ?_⟩
      have hnowhere : Point.afterDefinition? s v = .ok none := by
        simp only [Point.afterDefinition?, except_bind_ok, value_ok]
        refine ⟨e, hv, ?_⟩
        simp only [he, Point.after?, except_bind_ok, op_ok]
        exact ⟨od, hod, by rw [hop]; rfl⟩
      rw [availableAt, hnowhere]
      rfl
    | some b =>
      rw [hop] at hhome
      obtain ⟨bd, i, hbd, hidx, hplace⟩ := hf.standsAt (opParent_eq_some.2 ⟨od, hod, hop⟩)
      obtain ⟨hlt, -⟩ := List.idxOf?_eq_some_iff.1 hidx
      refine hagree hbd hlt hhome ?_ (visibleFrom_result hf hv he hplace hd)
      simp only [Point.afterDefinition?, except_bind_ok, value_ok]
      refine ⟨e, hv, ?_⟩
      simp only [he, Point.after?, except_bind_ok, op_ok]
      refine ⟨od, hod, ?_⟩
      simp only [hop, next?, except_bind_ok, op_ok]
      refine ⟨_, ⟨od, hod, ?_⟩, rfl⟩
      simp only [hop, except_bind_ok, block_ok]
      exact ⟨bd, hbd, by rw [hidx]; rfl⟩

/-! ## All queries -/

/-- In a forest of parent links the dominance of points is a preorder in which all points that
dominate a common one are comparable; the latest of several points is found if they can all be
compared, is one of them behind all others, and is the same up to dominance in any order; and a
value dominates an operation exactly if it is available in front of it. -/
theorem dominance_queries_consistent (hf : Forest s) :
    (∀ p, Placed s p → dominates s p p = .ok true) ∧
    (∀ p q r, Placed s p → Placed s q → Placed s r → dominates s p q = .ok true →
      dominates s q r = .ok true → dominates s p r = .ok true) ∧
    (∀ p q r, Placed s p → Placed s q → Placed s r → dominates s p r = .ok true →
      dominates s q r = .ok true → ∃ order, comparePoints? s p q = .ok (some order)) ∧
    (∀ ps, ps ≠ [] → (∀ p ∈ ps, Placed s p) → ∃ r?, latest? s ps = .ok r? ∧
      (r?.isSome = true ↔
        ∀ p ∈ ps, ∀ q ∈ ps, ∃ order, comparePoints? s p q = .ok (some order)) ∧
      ∀ r, r? = some r → r ∈ ps ∧ (∀ p ∈ ps, dominates s p r = .ok true) ∧
        ∀ qs, ps.Perm qs → ∃ r', latest? s qs = .ok (some r') ∧
          dominates s r r' = .ok true ∧ dominates s r' r = .ok true) ∧
    ∀ v e u p, s.value? v = some e → Point.before? s u = .ok (some p) →
      ∃ w, valueDominates s v u = .ok w ∧ availableAt s v p = .ok w := by
  refine ⟨fun p hp => (dominates_iff hf hp hp).2 (.refl hp), fun p q r hp hq hr hpq hqr => ?_,
    fun p q r hp hq hr hpr hqr => ?_, fun ps hne hps => ?_, fun v e u p hv hu => ?_⟩
  · exact (dominates_iff hf hp hr).2
      (((dominates_iff hf hp hq).1 hpq).trans ((dominates_iff hf hq hr).1 hqr))
  · exact (comparable_iff hf hp hq).2
      (((dominates_iff hf hp hr).1 hpr).total ((dominates_iff hf hq hr).1 hqr))
  · obtain ⟨r?, hr, hsome, hlatest⟩ := latest?_ok hf hne hps
    refine ⟨r?, hr, hsome.trans ?_, fun r h => ?_⟩
    · exact forall₂_congr fun p hp => forall₂_congr fun q hq =>
        (comparable_iff hf (hps p hp) (hps q hq)).symm
    · have hfirst := hlatest r h
      refine ⟨hfirst.mem, fun p hp => ?_, fun qs hperm => ?_⟩
      · exact (dominates_iff hf (hps p hp) (hps r hfirst.mem)).2 (hfirst.dominated p hp)
      · have hagain := hfirst.perm hperm
        have hqs : ∀ q ∈ qs, Placed s q := fun q hq => hps q (hperm.mem_iff.2 hq)
        have hne' : qs ≠ [] := List.ne_nil_of_mem hagain.mem
        obtain ⟨r?', hr', hsome', hlatest'⟩ := latest?_ok hf hne' hqs
        obtain ⟨r', rfl⟩ := Option.isSome_iff_exists.1 (hsome'.2 hagain.comparable)
        have hsecond := hlatest' r' rfl
        have hplaced := hps r hfirst.mem
        have hplaced' := hqs r' hsecond.mem
        exact ⟨r', hr', (dominates_iff hf hplaced hplaced').2 (hsecond.dominated r hagain.mem),
          (dominates_iff hf hplaced' hplaced).2 (hagain.dominated r' hsecond.mem)⟩
  · simp only [Point.before?, except_bind_ok, op_ok, except_pure, Except.ok.injEq] at hu
    obtain ⟨d, hd, hp⟩ := hu
    obtain ⟨c, hc, rfl⟩ := Option.map_eq_some_iff.1 hp
    obtain ⟨-, j, -, -, hplace⟩ := hf.standsAt (opParent_eq_some.2 ⟨d, hd, hc⟩)
    exact visible_iff_available hf hv hplace

/-- A result is used in the block of an operation behind its definition. -/
theorem inner_use_read :
    let written (name : String) (results operands : List String) (types : List Ty)
        (body : Option (List Surface.TypedName × List Surface.Op)) : Surface.Op :=
      .mk ⟨results, "test", name, none, [], operands, [], none, [], types⟩
        (body.toList.map fun b => .mk [.mk "body" b.1 b.2])
    let use := written "use" [] ["x"] [] none
    let scope := written "scope" [] [] [] (some ([⟨"i", .index⟩], [use]))
    let tree := written "root" [] [] [] (some ([], [written "def" ["x"] [] [.index] none, scope]))
    ∃ root scope s bd bd', buildOp Scope.empty tree Store.empty = .ok (.ok (root, scope), s) ∧
      s.block? ⟨0⟩ = some bd ∧ s.block? ⟨1⟩ = some bd' ∧
      latest? s [⟨⟨0⟩, some ⟨2⟩⟩, ⟨⟨1⟩, some ⟨1⟩⟩, ⟨⟨0⟩, some ⟨0⟩⟩] =
        .ok (some ⟨⟨1⟩, some ⟨1⟩⟩) ∧
      (∃ e, s.value? ⟨0⟩ = some e) ∧ Point.before? s ⟨1⟩ = .ok (some ⟨⟨1⟩, some ⟨1⟩⟩) ∧
      valueDominates s ⟨0⟩ ⟨1⟩ = .ok true :=
  ⟨_, _, _, _, _, by cbv, by cbv, by cbv, by cbv, ⟨_, by cbv⟩, by cbv, by cbv⟩

/-- The point in front of the inner use is the latest one also if it is asked for first, and the
result is available there. -/
theorem dominance_queries_consistent_inner_use :
    ∃ s r, Forest s ∧ latest? s [⟨⟨1⟩, some ⟨1⟩⟩, ⟨⟨0⟩, some ⟨2⟩⟩, ⟨⟨0⟩, some ⟨0⟩⟩] = .ok (some r) ∧
      dominates s ⟨⟨1⟩, some ⟨1⟩⟩ r = .ok true ∧ dominates s r ⟨⟨1⟩, some ⟨1⟩⟩ = .ok true ∧
      availableAt s ⟨0⟩ ⟨⟨1⟩, some ⟨1⟩⟩ = .ok true := by
  obtain ⟨_, _, s, bd, bd', hread, hb, hb', hlatest, ⟨e, he⟩, hpoint, hvisible⟩ := inner_use_read
  have hf : Forest s := forest_of_read hread
  obtain ⟨-, -, -, hlast, hvalues⟩ := dominance_queries_consistent hf
  obtain ⟨r?, hr, -, hfound⟩ := hlast [⟨⟨0⟩, some ⟨2⟩⟩, ⟨⟨1⟩, some ⟨1⟩⟩, ⟨⟨0⟩, some ⟨0⟩⟩] (by simp)
    (by simp [Placed, hb, hb'])
  cases hr.symm.trans hlatest
  obtain ⟨-, -, hpermuted⟩ := hfound _ rfl
  obtain ⟨r, hr, hback, hforth⟩ := hpermuted _ (.swap _ _ _)
  obtain ⟨w, hw, havailable⟩ := hvalues ⟨0⟩ e ⟨1⟩ _ he hpoint
  cases hw.symm.trans hvisible
  exact ⟨s, r, hf, hr, hback, hforth, havailable⟩

end AffineRaising.Analysis
