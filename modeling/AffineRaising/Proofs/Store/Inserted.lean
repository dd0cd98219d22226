/-
# AffineRaising.Proofs.Store.Inserted — putting an operation in front of another one.

An operation that was in no block is put in front of another one (`InsertedBefore`).  Nothing else
moves, so all that is nested anew is the operation with what it holds, and it is nested where the
other one is.  It sees what the other one sees, and the other one comes after it, with everything
from which that one was reached.
-/
import AffineRaising.Proofs.Analysis.Visibility
import AffineRaising.Proofs.Raise.Answers

namespace AffineRaising.IR

open Store AffineRaising.Analysis AffineRaising.Raise

variable {s t : Store} {u v : ValueRef} {c o q x y z : OpRef} {b : BlockRef}

/-! ## Operations in no block -/

theorem not_child_of_opParent (hl : Linked s) (hx : s.opParent x = some none) :
    ¬ Child s y x := by
  obtain ⟨d, hd, hparent⟩ := opParent_eq_some.1 hx
  exact not_child_of_detached hl hd hparent

/-- Nothing but itself encloses an operation that stands in no block. -/
theorem eq_of_within_detached (hl : Linked s) (hx : s.opParent x = some none)
    (h : Within s y x) : y = x := by
  rcases Relation.ReflTransGen.cases_tail h with rfl | ⟨p, _, hc⟩
  · rfl
  · exact absurd hc (not_child_of_opParent hl hx)

/-! ## Insertions -/

/-- Operation `c`, which was in no block, now stands in block `b`, right in front of `q`. -/
structure InsertedBefore (s : Store) (c q : OpRef) (b : BlockRef) (t : Store) : Prop where
  entry : ∃ d, s.op? c = some d ∧ d.parent = none ∧
    ∀ x, t.op? x = if x = c then some { d with parent := some b } else s.op? x
  block : ∃ bd front back, s.block? b = some bd ∧ bd.ops = front ++ q :: back ∧
    ∀ x, t.block? x = if x = b then some { bd with ops := front ++ c :: q :: back }
      else s.block? x
  regions : t.regions = s.regions
  values : t.values = s.values
  uses : t.uses = s.uses

theorem insertedBefore_of_ok {u : Unit} (h : insertOp b (some q) c s = .ok (u, t)) :
    InsertedBefore s c q b t := by
  obtain ⟨d, bd, front, back, hd, hparent, hbd, hsplit, hhead, _, rfl⟩ := insertOp_ok h
  obtain ⟨back', rfl⟩ : ∃ back', back = q :: back' := by
    cases back with
    | nil => cases hhead
    | cons z back' =>
      cases hhead
      exact ⟨back', rfl⟩
  exact ⟨⟨d, hd, hparent, op?_attach hd _⟩, ⟨bd, front, back', hbd, hsplit, block?_attach hbd _⟩,
    rfl, rfl, rfl⟩

namespace InsertedBefore

variable (h : InsertedBefore s c q b t)

include h

theorem region?_eq (r : RegionRef) : t.region? r = s.region? r := by
  rw [region?, region?, h.regions]

theorem originOf_eq (v : ValueRef) : t.originOf v = s.originOf v := by
  rw [originOf, originOf, value?, value?, h.values]

/-- No other entry of an operation changes. -/
theorem op?_other (hx : x ≠ c) : t.op? x = s.op? x := by
  obtain ⟨d, _, _, hop⟩ := h.entry
  rw [hop, if_neg hx]

/-- Entries change at most the name of the block. -/
theorem op?_cases {e : OpData} (he : t.op? x = some e) :
    ∃ d, s.op? x = some d ∧ e = { d with parent := e.parent } := by
  obtain ⟨d, hd, _, hop⟩ := h.entry
  rw [hop] at he
  split at he
  · rename_i hx
    cases he
    exact ⟨d, hx ▸ hd, rfl⟩
  · exact ⟨e, he, rfl⟩

theorem opParent_other (hx : x ≠ c) : t.opParent x = s.opParent x := by
  rw [opParent, opParent, h.op?_other hx]

theorem detached : s.opParent c = some none := by
  obtain ⟨d, hd, hparent, _⟩ := h.entry
  exact opParent_eq_some.2 ⟨d, hd, hparent⟩

/-- Nothing but the new operation moves. -/
theorem grows : Grows s t := by
  obtain ⟨d, hd, _, hop⟩ := h.entry
  obtain ⟨bd, front, back, hbd, hsplit, hblock⟩ := h.block
  refine ⟨fun x e he => ?_, fun r e he => ⟨e, by rw [h.region?_eq, he], rfl⟩, fun x e he => ?_,
    fun v a ha => by rw [h.originOf_eq, ha]⟩
  · rw [hop]
    split
    · rename_i hx
      cases (hx ▸ he).symm.trans hd
      exact ⟨_, rfl, rfl⟩
    · exact ⟨e, he, rfl⟩
  · rw [hblock]
    split
    · rename_i hx
      cases (hx ▸ he).symm.trans hbd
      refine ⟨_, rfl, ?_⟩
      rw [hsplit]
      exact (List.Sublist.refl front).append (List.sublist_cons_self c _)
    · exact ⟨e, he, .refl _⟩

theorem holds_iff {a : BlockRef} : Holds t x a ↔ Holds s x a := by
  constructor
  · rintro ⟨e, he, r, hr, rd, hrd, ha⟩
    obtain ⟨d, hd, hed⟩ := h.op?_cases he
    rw [hed] at hr
    exact ⟨d, hd, r, hr, rd, by rw [← h.region?_eq, hrd], ha⟩
  · rintro ⟨d, hd, r, hr, rd, hrd, ha⟩
    obtain ⟨e, he, hregions⟩ := h.grows.op? x d hd
    exact ⟨e, he, r, hregions ▸ hr, rd, by rw [h.region?_eq, hrd], ha⟩

/-- What stands in an operation stood there, or is the new one in its block. -/
theorem child_cases (hc : Child t x z) : z = c ∧ Holds s x b ∨ Child s x z := by
  obtain ⟨a, be, hholds, hbe, hz⟩ := child_iff.1 hc
  rw [h.holds_iff] at hholds
  obtain ⟨bd, front, back, hbd, hsplit, hblock⟩ := h.block
  rw [hblock] at hbe
  split at hbe
  · rename_i hab
    cases hbe
    rw [hab] at hholds
    simp only [List.mem_append, List.mem_cons] at hz
    rcases hz with hz | rfl | hz
    · exact .inr (child_iff.2 ⟨b, bd, hholds, hbd, by simp [hsplit, hz]⟩)
    · exact .inl ⟨rfl, hholds⟩
    · exact .inr (child_iff.2 ⟨b, bd, hholds, hbd, by simp [hsplit, hz]⟩)
  · exact .inr (child_iff.2 ⟨a, be, hholds, hbe, hz⟩)

theorem child_new (hx : Holds s x b) : Child t x c := by
  obtain ⟨bd, front, back, hbd, hsplit, hblock⟩ := h.block
  exact child_iff.2 ⟨b, _, h.holds_iff.2 hx, by rw [hblock, if_pos rfl], by simp⟩

/-- What is nested in an operation was nested there, or came with the new one. -/
theorem within_cases (hw : Within t x z) : Within s x z ∨
    Within s c z ∧ (x = c ∨ ∃ p, Within s x p ∧ Holds s p b) := by
  induction hw with
  | refl => exact .inl .refl
  | tail _ hc ih =>
    rcases h.child_cases hc with ⟨rfl, hholds⟩ | hc
    · rcases ih with hw | ⟨_, hx⟩
      · exact .inr ⟨.refl, .inr ⟨_, hw, hholds⟩⟩
      · exact .inr ⟨.refl, hx⟩
    · exact ih.imp (·.tail hc) fun ⟨hw, hx⟩ => ⟨hw.tail hc, hx⟩

/-- What does not enclose the place holds what it held. -/
theorem within_old (hx : ∀ p, Holds s p b → ¬ Within s x p) (hw : Within t x z) :
    Within s x z := by
  rcases h.within_cases hw with hw | ⟨hw, rfl | ⟨p, hxp, hp⟩⟩
  · exact hw
  · exact hw
  · exact absurd hxp (hx p hp)

/-- The new operation stands where the other one stands. -/
theorem child_iff_other (hl : Linked s) : Child t x c ↔ Child s x q := by
  obtain ⟨bd, front, back, hbd, hsplit, _⟩ := h.block
  rw [child_iff_holds hl hbd (by simp [hsplit])]
  refine ⟨fun hc => ?_, h.child_new⟩
  rcases h.child_cases hc with ⟨_, hholds⟩ | hc
  · exact hholds
  · exact absurd hc (not_child_of_opParent hl h.detached)

/-- Nothing is nested in itself if the new operation does not hold the place. -/
theorem acyclic (hac : Acyclic s) (hapart : ∀ p, Holds s p b → ¬ Within s c p) :
    Acyclic t := by
  intro x hx
  obtain ⟨y, hxy, hyx⟩ := Relation.TransGen.head'_iff.1 hx
  rcases h.within_cases hyx with hyx | ⟨hcx, _⟩
  · rcases h.child_cases hxy with ⟨rfl, hholds⟩ | hxy
    · exact hapart x hholds hyx
    · exact hac x (.head' hxy hyx)
  · rcases h.child_cases hxy with ⟨rfl, hholds⟩ | hxy
    · exact hapart x hholds hcx
    · -- below the new operation nothing changed
      refine hac x (.head' hxy (h.within_old (fun p hp hyp => ?_) hyx))
      exact hapart p hp ((hcx.tail hxy).trans hyp)

section Seen

variable (hl : Linked s)

include hl

/-- The new operation sees what the other one sees. -/
theorem sees_new (hu : Sees s u q) : Sees t u c := by
  obtain ⟨a, haq, hoffered⟩ := hu
  rcases Relation.ReflTransGen.cases_tail haq with rfl | ⟨p, hap, hpq⟩
  · obtain ⟨bd, front, back, hbd, hsplit, hblock⟩ := h.block
    have hbt : t.block? b = some { bd with ops := front ++ c :: q :: back } := by
      rw [hblock, if_pos rfl]
    have hmem : q ∈ bd.ops := by simp [hsplit]
    refine ⟨c, .refl, ?_⟩
    rcases hoffered with ⟨b', k, bd', hv, hbd', hmem'⟩ | ⟨o, k, hv, b', bd', hbd', hpair⟩
    · cases hl.block_unique hbd' hmem' hbd hmem
      exact .inl ⟨b, k, _, by rw [h.originOf_eq, hv], hbt, by simp⟩
    · cases hl.block_unique hbd' (right_mem_of_pair hpair) hbd hmem
      cases hbd.symm.trans hbd'
      have hnd := hl.ops_nodup hbd
      rw [hsplit] at hnd hpair
      exact .inr ⟨o, k, by rw [h.originOf_eq, hv], b, _, hbt,
        pair_sublist_of_mem (mem_front_of_pair hnd hpair) (by simp)⟩
  · exact ⟨a, (h.grows.nests.within hap).tail ((h.child_iff_other hl).2 hpq),
      h.grows.offered hoffered⟩

/-- What was reached from the other operation comes after the new one. -/
theorem precedes_new (hx : Reaches s q x) : ∃ a, Within s a x ∧ Precedes t c a := by
  obtain ⟨bd, front, back, hbd, hsplit, hblock⟩ := h.block
  have hbt : t.block? b = some { bd with ops := front ++ c :: q :: back } := by
    rw [hblock, if_pos rfl]
  obtain ⟨a, hax, hqa⟩ := hx
  have hmem : a ∈ q :: back := by
    rcases hqa with rfl | ⟨b', bd', hbd', hpair⟩
    · simp
    · cases hl.block_unique hbd' (left_mem_of_pair hpair) hbd (by simp [hsplit])
      cases hbd.symm.trans hbd'
      have hnd := hl.ops_nodup hbd
      rw [hsplit] at hnd hpair
      exact List.mem_cons_of_mem _ (mem_back_of_pair hnd hpair)
  exact ⟨a, hax, b, _, hbt, (pair_sublist_of_mem (List.mem_singleton_self c) hmem).trans
    (List.sublist_append_right front (c :: q :: back))⟩

/-- What was reached from the other operation sees the results of the new one. -/
theorem sees_result (hx : Reaches s q x) {k : Nat} (hv : s.originOf v = some (.result c k)) :
    Sees t v x := by
  obtain ⟨a, hax, hca⟩ := h.precedes_new hl hx
  exact ⟨a, h.grows.nests.within hax, .inr ⟨c, k, by rw [h.originOf_eq, hv], hca⟩⟩

end Seen

end InsertedBefore

end AffineRaising.IR
