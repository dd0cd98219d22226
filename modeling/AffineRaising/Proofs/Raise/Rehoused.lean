/-
# AffineRaising.Proofs.Raise.Rehoused — regions that go over to another operation.

An operation gives its regions to a new one that stands in no block (`Rehoused`).  What was nested
in the old operation is nested in the new one then, in the same order, and everything else stays
where it was.  What moved sees what the old operation sees, or what is inside of the new one; so the
module stays sound, with the new operation on its way.
-/
import AffineRaising.Proofs.Raise.SoundEdits
import AffineRaising.Proofs.Raise.Spared

namespace AffineRaising.Raise

open AffineRaising.IR AffineRaising.IR.Store AffineRaising.Ops AffineRaising.Analysis

variable {sided : Prop} {gone out : OpRef → Prop} {s t : Store} {v w : ValueRef}
  {root a c p x y z : OpRef}

/-- In the second store the new operation `c` has the regions that `x` had.  It may have another
one, in which new operations stand that hold nothing. -/
structure Rehoused (x c : OpRef) (s t : Store) : Prop where
  new : s.op? c = none
  op? : ∀ y d, s.op? y = some d → t.op? y = some (if y = x then { d with regions := [] } else d)
  block? : ∀ b d, s.block? b = some d → ∃ e, t.block? b = some e ∧ e.ops = d.ops
  originOf : ∀ v k, s.originOf v = some k → t.originOf v = some k
  child_iff : ∀ p y, Child t p y ↔ p ≠ x ∧ Child s p y ∨
    p = c ∧ (Child s x y ∨ y ≠ c ∧ s.op? y = none ∧ ∃ e, t.op? y = some e)

namespace Rehoused

variable (h : Rehoused x c s t)

include h

theorem op?_other (hy : y ≠ x) {d : OpData} (hd : s.op? y = some d) : t.op? y = some d := by
  rw [h.op? y d hd, if_neg hy]

theorem opParent {p? : Option BlockRef} (hy : s.opParent y = some p?) :
    t.opParent y = some p? := by
  obtain ⟨d, hd, hparent⟩ := opParent_eq_some.1 hy
  refine opParent_eq_some.2 ⟨_, h.op? y d hd, ?_⟩
  split <;> exact hparent

theorem offered (hv : Offered s v a) : Offered t v a := by
  rcases hv with ⟨b, k, bd, hv, hb, hmem⟩ | ⟨o, k, hv, b, bd, hb, hpair⟩
  · obtain ⟨e, he, hops⟩ := h.block? b bd hb
    exact .inl ⟨b, k, e, h.originOf v _ hv, he, hops ▸ hmem⟩
  · obtain ⟨e, he, hops⟩ := h.block? b bd hb
    exact .inr ⟨o, k, h.originOf v _ hv, b, e, he, hops ▸ hpair⟩

/-! ### What is nested where -/

theorem child_old (hp : p ≠ c) (hc : Child t p y) : p ≠ x ∧ Child s p y :=
  ((h.child_iff p y).1 hc).resolve_right fun hc => hp hc.1

theorem within_kept (hw : Within s a y) (hy : ¬ Nested s x y) : Within t a y := by
  induction hw with
  | refl => exact .refl
  | @tail p z _ hc ih =>
    have hp : p ≠ x := fun hpx => hy (.single (hpx ▸ hc))
    exact (ih fun hxp => hy (hxp.tail hc)).tail ((h.child_iff p z).2 (.inl ⟨hp, hc⟩))

theorem within_inside (hac : Acyclic s) (ha : Nested s x a) (hw : Within s a y) :
    Within t a y := by
  induction hw with
  | refl => exact .refl
  | @tail p z hap hc ih =>
    have hp : p ≠ x := fun hpx => hac x (hpx ▸ ha.trans_left hap)
    exact ih.tail ((h.child_iff p z).2 (.inl ⟨hp, hc⟩))

theorem nested_moved (hac : Acyclic s) (hy : Nested s x y) : Nested t c y := by
  obtain ⟨z, hxz, hzy⟩ := Relation.TransGen.head'_iff.1 hy
  exact .head' ((h.child_iff c z).2 (.inr ⟨rfl, .inl hxz⟩))
    (h.within_inside hac (.single hxz) hzy)

variable (hl : Linked s)

include hl

theorem not_child_new : ¬ Child t p c := by
  have hnot : ∀ q, ¬ Child s q c := fun q hc => by
    obtain ⟨d, hd⟩ := hl.op?_of_within (op?_of_child hc) (.single hc)
    cases h.new.symm.trans hd
  intro hc
  rcases (h.child_iff p c).1 hc with ⟨_, hc⟩ | ⟨_, hc | ⟨hne, _⟩⟩
  · exact hnot p hc
  · exact hnot x hc
  · exact hne rfl

theorem within_old (hp : p ≠ c) (hw : Within t p y) : Within s p y ∧ y ≠ c := by
  induction hw with
  | refl => exact ⟨.refl, hp⟩
  | tail _ hc ih =>
    exact ⟨ih.1.tail (h.child_old ih.2 hc).2, fun hz => h.not_child_new hl (hz ▸ hc)⟩

theorem nested_old (hp : p ≠ c) (hy : Nested t p y) : Nested s p y := by
  obtain ⟨z, hpz, hzy⟩ := Relation.TransGen.tail'_iff.1 hy
  obtain ⟨hpz', hz⟩ := h.within_old hl hp hpz
  exact .tail' hpz' (h.child_old hz hzy).2

theorem acyclic (hac : Acyclic s) : Acyclic t := by
  intro y hy
  by_cases hyc : y = c
  · obtain ⟨z, _, hzy⟩ := Relation.TransGen.tail'_iff.1 hy
    exact h.not_child_new hl (hyc ▸ hzy)
  · exact hac y (h.nested_old hl hyc hy)

/-- What is nested in the new operation was nested in the old one, or is new. -/
theorem within_new (hw : Within t c y) : y = c ∨ Nested s x y ∨ s.op? y = none := by
  rcases hw.cases_head with rfl | ⟨z, hcz, hzy⟩
  · exact .inl rfl
  · have hz : z ≠ c := fun hz => h.not_child_new hl (hz ▸ hcz)
    obtain ⟨hzy', _⟩ := h.within_old hl hz hzy
    rcases (h.child_iff c z).1 hcz with ⟨_, d, hd, _⟩ | ⟨_, hxz | ⟨_, hnone, _⟩⟩
    · cases h.new.symm.trans hd
    · exact .inr (.inl (.head' hxz hzy'))
    · rcases hzy'.cases_head with rfl | ⟨_, ⟨d, hd, _⟩, _⟩
      · exact .inr (.inr hnone)
      · cases hnone.symm.trans hd

/-- What is nested in the module and not in the old operation stays where it is. -/
theorem nested_iff (htop : s.opParent root = some none) (hx : Nested s root x) :
    Nested t root y ↔ Nested s root y ∧ ¬ Nested s x y := by
  have hroot : root ≠ c := by
    rintro rfl
    obtain ⟨d, hd, _⟩ := opParent_eq_some.1 htop
    cases h.new.symm.trans hd
  have hout : ¬ Nested s x root := fun hxr =>
    hx.ne_root hl htop (eq_of_within_detached hl htop hxr.within)
  constructor
  · intro hy
    refine ⟨h.nested_old hl hroot hy, ?_⟩
    -- each step of the way leads from something that is not the old operation
    induction hy with
    | single hc =>
      obtain ⟨hne, hc'⟩ := h.child_old hroot hc
      intro hxy
      obtain ⟨p, hxp, hpy⟩ := Relation.TransGen.tail'_iff.1 hxy
      cases hpy.unique hl hc'
      exact (Relation.reflTransGen_iff_eq_or_transGen.1 hxp).elim hne hout
    | tail hrp hc ih =>
      obtain ⟨_, hp⟩ := h.within_old hl hroot hrp.to_reflTransGen
      obtain ⟨hne, hc'⟩ := h.child_old hp hc
      intro hxy
      obtain ⟨p, hxp, hpy⟩ := Relation.TransGen.tail'_iff.1 hxy
      cases hpy.unique hl hc'
      exact (Relation.reflTransGen_iff_eq_or_transGen.1 hxp).elim hne ih
  · rintro ⟨hy, hxy⟩
    have hne : y ≠ root := hy.ne_root hl htop
    exact nested_of_within (h.within_kept hy.within hxy) hne

/-! ### What is seen -/

omit hl in
theorem sees (hv : Sees s v y) (hy : ¬ Nested s x y) : Sees t v y := by
  obtain ⟨a, hay, hoffered⟩ := hv
  exact ⟨a, h.within_kept hay hy, h.offered hoffered⟩

omit hl in
theorem seenInside (hac : Acyclic s) (hv : SeenInside s x y v) : SeenInside t c y v := by
  obtain ⟨a, hxa, hay, hoffered⟩ := hv
  exact ⟨a, h.nested_moved hac hxa, h.within_inside hac hxa hay, h.offered hoffered⟩

end Rehoused

/-- A tree to which an operation does not belong is left alone when its regions go over to a new
one. -/
theorem Rehoused.sameTree {o : OpRef} (h : Rehoused x c s t) (hs : Linked s) (ht : Linked t)
    {e : OpData} (he : s.op? o = some e) (hx : ¬ Within s o x) : SameTree s t o := by
  have hold : ∀ y, Within s o y → y ≠ x ∧ ∃ d, s.op? y = some d := fun y hy =>
    ⟨fun heq => hx (heq ▸ hy), hs.op?_of_within ⟨e, he⟩ hy⟩
  refine ⟨fun y z hy => ?_, fun y v _ hv => h.offered hv, fun y v k hy => ?_⟩
  · obtain ⟨hyx, d, hd⟩ := hold y hy
    rw [h.child_iff]
    refine ⟨fun hc => ?_, fun hc => .inl ⟨hyx, hc⟩⟩
    rcases hc with ⟨_, hc⟩ | ⟨rfl, _⟩
    · exact hc
    · cases h.new.symm.trans hd
  · obtain ⟨hyx, d, hd⟩ := hold y hy
    exact SameTree.results_iff hs ht hd (h.op?_other hyx hd) rfl k

/-! ## Soundness -/

section Sound

variable (h : Rehoused x c s t) (hs : Sound sided root gone out s) (hx : Nested s root x)

include h hs hx

/-- When the regions of an operation go over to a new one, the module stays sound. -/
theorem Rehoused.sound (htidy : Tidy gone t) (hsized : Sized t)
    (hfits : ∀ y e, t.op? y = some e → s.op? y = none ∨ y = x → Fitted sided e) :
    Sound sided root gone (fun y => out y ∨ y = c) t := by
  have hl := hs.linked
  have hnested := fun {y} => h.nested_iff (y := y) hl hs.top hx
  refine ⟨htidy, hsized, h.acyclic hl hs.acyclic, h.opParent hs.top, fun y e v hy he hv => ?_,
    fun y e he hlive => ?_, fun y e hne hlive he => ?_, fun e he => ?_⟩
  · obtain ⟨hy', hxy⟩ := hnested.1 hy
    obtain ⟨b, hb⟩ := hy'.attached hl
    obtain ⟨d, hd, _⟩ := opParent_eq_some.1 hb
    refine h.sees (hs.visible y d v hy' hd ?_) hxy
    cases (h.op? y d hd).symm.trans he
    split at hv <;> exact hv
  · by_cases hd : s.op? y = none
    · refine .inr ⟨c, .inr rfl, ?_⟩
      by_cases hyc : y = c
      · exact hyc ▸ .refl
      · exact .single ((h.child_iff c y).2 (.inr ⟨rfl, .inr ⟨hyc, hd, e, he⟩⟩))
    · obtain ⟨d, hd⟩ := Option.ne_none_iff_exists'.1 hd
      by_cases hxy : Nested s x y
      · exact .inr ⟨c, .inr rfl, (h.nested_moved hs.acyclic hxy).within⟩
      · exact (hs.accounted y d hd hlive).imp (h.within_kept · hxy)
          fun ⟨o, ho, hoy⟩ => ⟨o, .inl ho, h.within_kept hoy hxy⟩
  · by_cases hd : s.op? y = none
    · exact hfits y e he (.inl hd)
    · obtain ⟨d, hd⟩ := Option.ne_none_iff_exists'.1 hd
      by_cases hyx : y = x
      · exact hfits y e he (.inr hyx)
      · cases (h.op?_other hyx hd).symm.trans he
        exact hs.fitting y e hne hlive hd
  · obtain ⟨d, hd, _⟩ := opParent_eq_some.1 hs.top
    cases (h.op? root d hd).symm.trans he
    split <;> exact hs.bare d hd

/-- What went over uses what the old operation sees, and what is seen inside of the new one. -/
theorem Rehoused.uses {e : OpData} (hz : Nested s x z) (he : t.op? z = some e)
    (hw : w ∈ e.operands) : Sees t w x ∨ SeenInside t c z w := by
  have hl := hs.linked
  have hne : z ≠ x := fun hzx => hs.acyclic x (hzx ▸ hz)
  obtain ⟨b, hb⟩ := hz.attached hl
  obtain ⟨d, hd, _⟩ := opParent_eq_some.1 hb
  cases (h.op?_other hne hd).symm.trans he
  rcases free_or_seenInside hl hs.visible hx hz.within hd hw with hfree | hinside
  · exact .inl (h.sees (hs.visible.free_seen hl hx hfree) (hs.acyclic x))
  · exact .inr (h.seenInside hs.acyclic hinside)

end Sound

end AffineRaising.Raise
