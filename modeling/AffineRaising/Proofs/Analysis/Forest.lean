/-
# AffineRaising.Proofs.Analysis.Forest — climbs along parent links.

Operations name their block, blocks their region and regions the operation that holds them.  Where
these links lead to entries and never back to where they started, a climb comes to an end: each step
leaves an operation behind for good, so the number of operations that can still be met decreases.
It finds the one operation of a block that is the given one or encloses it, if there is one.
-/
import AffineRaising.Analysis.Dominance
import AffineRaising.Proofs.Store.Links
import Mathlib.Data.Finset.Card
import Mathlib.Logic.Relation

namespace AffineRaising.Analysis

open AffineRaising.IR AffineRaising.IR.Store

variable {s : Store} {a c o p x y : OpRef} {b : BlockRef} {i j : Nat}

/-! ## What can still be met -/

open scoped Classical in
/-- The operations to which steps of a relation lead, by number. -/
noncomputable def metFrom (s : Store) (R : OpRef → OpRef → Prop) (x : OpRef) : Finset Nat :=
  (Finset.range s.ops.size).filter fun i => Relation.ReflTransGen R x ⟨i⟩

/-- Only numbers of operations that are there are counted. -/
theorem mem_metFrom {R : OpRef → OpRef → Prop} {i : Nat} :
    i ∈ metFrom s R x ↔ i < s.ops.size ∧ Relation.ReflTransGen R x ⟨i⟩ := by
  simp [metFrom]

/-- There are no more of them than entries in the table. -/
theorem card_metFrom_le (s : Store) (R : OpRef → OpRef → Prop) (x : OpRef) :
    (metFrom s R x).card ≤ s.ops.size := by
  have hsub : metFrom s R x ⊆ Finset.range s.ops.size := fun i hi =>
    Finset.mem_range.2 (mem_metFrom.1 hi).1
  simpa using Finset.card_le_card hsub

theorem index_mem_metFrom {R : OpRef → OpRef → Prop} {d : OpData} (hd : s.op? x = some d) :
    x.index ∈ metFrom s R x :=
  mem_metFrom.2 ⟨(Array.getElem?_eq_some_iff.1 hd).1, .refl⟩

/-- A step off a cycle leaves its start behind. -/
theorem card_metFrom_lt {R : OpRef → OpRef → Prop} {d : OpData} (hd : s.op? x = some d)
    (hstep : R x y) (hcycle : ¬ Relation.TransGen R x x) :
    (metFrom s R y).card < (metFrom s R x).card := by
  refine Finset.card_lt_card ⟨fun i hi => ?_, fun hsub => ?_⟩
  · obtain ⟨hlt, hreach⟩ := mem_metFrom.1 hi
    exact mem_metFrom.2 ⟨hlt, .head hstep hreach⟩
  · obtain ⟨_, hreach⟩ := mem_metFrom.1 (hsub (index_mem_metFrom hd))
    exact hcycle (Relation.TransGen.head' hstep hreach)

/-! ## Parent links -/

/-- By the parent links, the first operation is in a block of the second one. -/
def StepsOut (s : Store) (o p : OpRef) : Prop :=
  s.enclosingOp? o = .ok (some p)

/-- Parent links lead to entries and never in a circle, values come from entries, and a block lists
the operations that name it, none of them twice. -/
structure Forest (s : Store) : Prop where
  attached : ∀ {o d b}, s.op? o = some d → d.parent = some b →
    ∃ bd, s.block? b = some bd ∧ o ∈ bd.ops
  once : ∀ {b bd}, s.block? b = some bd → bd.ops.Nodup
  region : ∀ {b bd r}, s.block? b = some bd → bd.parent = some r → ∃ rd, s.region? r = some rd
  owner : ∀ {r rd p}, s.region? r = some rd → rd.parent = some p → ∃ d, s.op? p = some d
  definer : ∀ {v e o k}, s.value? v = some e → e.origin = .result o k → ∃ d, s.op? o = some d
  binder : ∀ {v e b k}, s.value? v = some e → e.origin = .argument b k →
    ∃ bd, s.block? b = some bd
  acyclic : ∀ o, ¬ Relation.TransGen (StepsOut s) o o

/-- The block of an operation is read off its entry. -/
theorem opParent_eq_some {p? : Option BlockRef} :
    s.opParent o = some p? ↔ ∃ d, s.op? o = some d ∧ d.parent = p? :=
  Option.map_eq_some_iff

theorem enclosingOp?_attached (h : s.opParent o = some (some b)) :
    s.enclosingOp? o = s.blockOwner? b := by
  obtain ⟨d, hd, hp⟩ := opParent_eq_some.1 h
  simp only [enclosingOp?, op_ok.2 hd, bind, Except.bind, hp]

theorem enclosingOp?_detached (h : s.opParent o = some none) : s.enclosingOp? o = .ok none := by
  obtain ⟨d, hd, hp⟩ := opParent_eq_some.1 h
  simp only [enclosingOp?, op_ok.2 hd, bind, Except.bind, hp]
  rfl

/-- An operation that something encloses is in a block. -/
theorem StepsOut.attached (h : StepsOut s o p) : ∃ b, s.opParent o = some (some b) := by
  obtain ⟨d, hd, -⟩ := except_bind_ok.1 h
  have hd := op_ok.1 hd
  cases hp : d.parent with
  | some b => exact ⟨b, opParent_eq_some.2 ⟨d, hd, hp⟩⟩
  | none =>
    have hnone := enclosingOp?_detached (opParent_eq_some.2 ⟨d, hd, hp⟩)
    cases h.symm.trans hnone

/-- The way out of an operation is unique. -/
theorem stepsOut_unique : Relator.RightUnique (StepsOut s) :=
  fun _ _ _ h h' => Option.some.inj (Except.ok.inj (h.symm.trans h'))

/-- The operation is number `i` of the block that it names. -/
structure StandsAt (s : Store) (o : OpRef) (b : BlockRef) (i : Nat) : Prop where
  parent : s.opParent o = some (some b)
  position : s.position? o = .ok (some i)

/-- An operation stands at one place. -/
theorem StandsAt.unique {b' : BlockRef} (h : StandsAt s o b i) (h' : StandsAt s o b' j) :
    b = b' ∧ i = j := by
  refine ⟨Option.some.inj (Option.some.inj (h.parent.symm.trans h'.parent)), ?_⟩
  exact Option.some.inj (Except.ok.inj (h.position.symm.trans h'.position))

theorem position?_attached {bd : BlockData} (h : s.opParent o = some (some b))
    (hb : s.block? b = some bd) : s.position? o = .ok (bd.ops.idxOf? o) := by
  obtain ⟨d, hd, hp⟩ := opParent_eq_some.1 h
  simp only [position?, except_bind_ok, op_ok]
  refine ⟨d, hd, ?_⟩
  simp only [hp, except_bind_ok, block_ok, except_pure, Except.ok.injEq]
  exact ⟨bd, hb, rfl⟩

namespace Forest

/-- An operation that names a block stands at some place of it. -/
theorem standsAt (hf : Forest s) (h : s.opParent o = some (some b)) :
    ∃ bd i, s.block? b = some bd ∧ bd.ops.idxOf? o = some i ∧ StandsAt s o b i := by
  obtain ⟨d, hd, hp⟩ := opParent_eq_some.1 h
  obtain ⟨bd, hbd, ho⟩ := hf.attached hd hp
  have hposition := position?_attached h hbd
  cases hi : bd.ops.idxOf? o with
  | none => exact absurd ho (List.idxOf?_eq_none_iff.1 hi)
  | some i => exact ⟨bd, i, hbd, hi, h, hi ▸ hposition⟩

/-- The operation that holds a block is found, if there is one, and is there. -/
theorem blockOwner?_ok (hf : Forest s) {bd : BlockData} (hb : s.block? b = some bd) :
    ∃ p?, s.blockOwner? b = .ok p? ∧ ∀ p, p? = some p → ∃ d, s.op? p = some d := by
  cases hp : bd.parent with
  | none =>
    refine ⟨none, ?_, fun p h => by cases h⟩
    simp only [blockOwner?, except_bind_ok, block_ok]
    exact ⟨bd, hb, by rw [hp]; rfl⟩
  | some r =>
    obtain ⟨rd, hrd⟩ := hf.region hb hp
    refine ⟨rd.parent, ?_, fun p h => hf.owner hrd h⟩
    simp only [blockOwner?, except_bind_ok, block_ok]
    refine ⟨bd, hb, ?_⟩
    simp only [hp, except_bind_ok, region_ok]
    exact ⟨rd, hrd, rfl⟩

/-- The operation that encloses another one is found, if there is one, and is there. -/
theorem enclosingOp?_ok (hf : Forest s) {d : OpData} (hd : s.op? o = some d) :
    ∃ p?, s.enclosingOp? o = .ok p? ∧ ∀ p, p? = some p → ∃ d, s.op? p = some d := by
  have hparent : s.opParent o = some d.parent := opParent_eq_some.2 ⟨d, hd, rfl⟩
  cases hp : d.parent with
  | none => exact ⟨none, enclosingOp?_detached (hp ▸ hparent), fun p h => by cases h⟩
  | some b =>
    rw [hp] at hparent
    obtain ⟨bd, -, hbd, -⟩ := hf.standsAt hparent
    rw [enclosingOp?_attached hparent]
    exact hf.blockOwner?_ok hbd

end Forest

/-! ## Climbs -/

theorem ancestorInFuel?_here (h : s.opParent o = some (some b)) (n : Nat) :
    ancestorInFuel? s b (n + 1) o = .ok (some o) := by
  obtain ⟨d, hd, hp⟩ := opParent_eq_some.1 h
  simp only [ancestorInFuel?, op_ok.2 hd, except_bind_ok]
  exact ⟨d, rfl, by simp [hp]⟩

/-- From an operation that is not in the block, the climb goes on at what encloses it. -/
theorem ancestorInFuel?_onward {p? : Option OpRef} (h : s.opParent o ≠ some (some b))
    (hp : s.enclosingOp? o = .ok p?) (n : Nat) :
    ancestorInFuel? s b (n + 1) o = p?.elim (.ok none) (ancestorInFuel? s b n) := by
  simp only [enclosingOp?, except_bind_ok, op_ok] at hp
  obtain ⟨d, hd, hp⟩ := hp
  have hparent : s.opParent o = some d.parent := opParent_eq_some.2 ⟨d, hd, rfl⟩
  simp only [ancestorInFuel?, op_ok.2 hd, bind, Except.bind]
  cases hd : d.parent with
  | none =>
    rw [hd] at hp
    cases hp
    rfl
  | some b' =>
    rw [hd] at hp hparent
    have hne : b' ≠ b := by
      rintro rfl
      exact h hparent
    have hp : s.blockOwner? b' = .ok p? := hp
    simp only [if_neg hne, hp]
    cases p? <;> rfl

namespace Forest

/-- Of the operations of one block at most one is on the way out of a given operation. -/
theorem anchor_unique (hf : Forest s) (ha : Relation.ReflTransGen (StepsOut s) o a)
    (hc : Relation.ReflTransGen (StepsOut s) o c) (hab : s.opParent a = some (some b))
    (hcb : s.opParent c = some (some b)) : a = c := by
  -- an operation farther out in the same block would be enclosed by the same one
  have hsame : ∀ {a c}, s.opParent a = some (some b) → s.opParent c = some (some b) →
      Relation.ReflTransGen (StepsOut s) a c → a = c := by
    intro a c hab hcb hac
    rcases Relation.ReflTransGen.cases_head hac with heq | ⟨x, hax, hxc⟩
    · exact heq
    · have hcx : StepsOut s c x :=
        (enclosingOp?_attached hcb).trans ((enclosingOp?_attached hab).symm.trans hax)
      exact absurd (Relation.TransGen.tail' hxc hcx) (hf.acyclic x)
  rcases Relation.ReflTransGen.total_of_right_unique stepsOut_unique ha hc with h | h
  · exact hsame hab hcb h
  · exact (hsame hcb hab h).symm

/-- By induction on the bound: every step out leaves an operation behind. -/
theorem ancestorInFuel?_ok (hf : Forest s) (b : BlockRef) (n : Nat) :
    ∀ {o d}, s.op? o = some d → (metFrom s (StepsOut s) o).card ≤ n →
      ∃ a?, ancestorInFuel? s b n o = .ok a? ∧ ∀ a, a? = some a ↔
        Relation.ReflTransGen (StepsOut s) o a ∧ s.opParent a = some (some b) := by
  induction n with
  | zero =>
    intro o d hd hn
    have hpos := Finset.card_pos.2 ⟨o.index, index_mem_metFrom (R := StepsOut s) hd⟩
    omega
  | succ n ih =>
    intro o d hd hn
    by_cases hb : s.opParent o = some (some b)
    · refine ⟨some o, ancestorInFuel?_here hb n, fun a => ⟨?_, ?_⟩⟩
      · rintro heq
        cases heq
        exact ⟨.refl, hb⟩
      · rintro ⟨hout, ha⟩
        rw [hf.anchor_unique .refl hout hb ha]
    · obtain ⟨p?, hp, hentry⟩ := hf.enclosingOp?_ok hd
      rw [ancestorInFuel?_onward hb hp]
      -- what is on the way out in the block is on the way out of the enclosing operation
      have honward : ∀ a, Relation.ReflTransGen (StepsOut s) o a ∧ s.opParent a = some (some b) ↔
          ∃ p, p? = some p ∧ Relation.ReflTransGen (StepsOut s) p a ∧
            s.opParent a = some (some b) := by
        intro a
        constructor
        · rintro ⟨hout, ha⟩
          rcases Relation.ReflTransGen.cases_head hout with rfl | ⟨p, hop, hpa⟩
          · exact absurd ha hb
          · exact ⟨p, Except.ok.inj (hp.symm.trans hop), hpa, ha⟩
        · rintro ⟨p, rfl, hpa, ha⟩
          exact ⟨.head hp hpa, ha⟩
      cases p? with
      | none => exact ⟨none, rfl, fun a => by rw [honward]; simp⟩
      | some p =>
        obtain ⟨pd, hpd⟩ := hentry p rfl
        have hlt := card_metFrom_lt hd (show StepsOut s o p from hp) (hf.acyclic o)
        obtain ⟨a?, ha?, hiff⟩ := ih hpd (by omega)
        exact ⟨a?, ha?, fun a => by rw [hiff, honward]; simp⟩

/-- Climbing to a block finds the operation of the block that is the given one or encloses it. -/
theorem ancestorIn?_ok (hf : Forest s) (b : BlockRef) {d : OpData} (hd : s.op? o = some d) :
    ∃ a?, ancestorIn? s b o = .ok a? ∧ ∀ a, a? = some a ↔
      Relation.ReflTransGen (StepsOut s) o a ∧ s.opParent a = some (some b) :=
  hf.ancestorInFuel?_ok b s.depthBound hd ((card_metFrom_le s _ o).trans (Nat.le_succ _))

end Forest

end AffineRaising.Analysis
