/-
# AffineRaising.Proofs.Raise.SoundRollback — a rollback leaves a sound module.

A rollback restores what was there; what was made meanwhile is left in the tables, but it is gone
and holds nothing any more (`Leftover`).  This is what undoing a step keeps, and where nothing else
is left over the module is as sound as it was.
-/
import AffineRaising.Proofs.Raise.SoundComposition

/-! ## What a store keeps that has everything as it was -/

namespace AffineRaising.IR.Restores

open AffineRaising.IR.Store

variable {s t : Store} {x y : OpRef}

theorem grows (h : Restores s t) : Grows s t := by
  refine ⟨fun x d hd => ⟨d, h.op? x d hd, rfl⟩, fun r d hd => ⟨d, h.region? r d hd, rfl⟩,
    fun b d hd => ⟨d, h.block? b d hd, .refl _⟩, fun v a ha => ?_⟩
  obtain ⟨d, hd, rfl⟩ := Option.map_eq_some_iff.1 ha
  rw [originOf, h.value? v d hd, Option.map_some]

/-- What was there holds nothing new. -/
theorem child (h : Restores s t) (hl : Linked s) {d : OpData} (hd : s.op? x = some d)
    (hc : Child t x y) : Child s x y := by
  obtain ⟨e, he, r, hr, rd, hrd, b', hb', bd, hbd, hy⟩ := hc
  cases he.symm.trans (h.op? x d hd)
  obtain ⟨rd', hrd', _⟩ := Analysis.region?_of_op hl hd hr
  cases hrd.symm.trans (h.region? r rd' hrd')
  obtain ⟨bd', hbd', _⟩ := Analysis.block?_of_region hl hrd' hb'
  cases hbd.symm.trans (h.block? b' bd' hbd')
  exact ⟨d, hd, r, hr, rd, hrd', b', hb', bd, hbd', hy⟩

theorem nested (h : Restores s t) (hl : Linked s) {d : OpData} (hd : s.op? x = some d)
    (hxy : Relation.TransGen (Child t) x y) : Relation.TransGen (Child s) x y := by
  induction hxy with
  | single hc => exact .single (h.child hl hd hc)
  | tail _ hc ih =>
    obtain ⟨e, he⟩ := hl.op?_of_within ⟨d, hd⟩ ih.to_reflTransGen
    exact ih.tail (h.child hl he hc)

end AffineRaising.IR.Restores

namespace AffineRaising.Raise

open AffineRaising.IR AffineRaising.IR.Store AffineRaising.Ops AffineRaising.Analysis

variable {sided : Prop} {gone gone₀ gone' : OpRef → Prop} {a b : Journal × Store}
  {s s₁ t t' : Store}
  {root o c x y : OpRef}

/-! ## What is left over -/

/-- The second store has everything as it was in the first one; all that it has besides is gone and
holds nothing. -/
structure Leftover (gone₀ : OpRef → Prop) (s : Store) (gone : OpRef → Prop) (t : Store) :
    Prop where
  restores : Restores s t
  tidy : Tidy gone t
  sized : Sized t
  lost : ∀ x e, t.op? x = some e → s.op? x = none → gone x
  barren : ∀ x y, s.op? x = none → ¬ Child t x y
  old : ∀ x, gone x → s.op? x = none ∨ gone₀ x
  stays : ∀ x, gone₀ x → gone x

namespace Leftover

theorem refl (htidy : Tidy gone s) (hsized : Sized s) : Leftover gone s gone s where
  restores := .refl s
  tidy := htidy
  sized := hsized
  lost x e he hx := by
    cases hx.symm.trans he
  barren x y hx hc := by
    obtain ⟨d, hd, _⟩ := hc
    cases hx.symm.trans hd
  old x hx := .inr hx
  stays x hx := hx

/-- What stands in something that is left over is left over too. -/
theorem new_of_child (hs : Linked s) (hr : Restores s t) (ht : Linked t) (hc : Child t x y)
    (hx : s.op? x = none) : s.op? y = none :=
  op?_none_of_child hs ht (fun x d hd => ⟨d, hr.op? x d hd, rfl⟩)
    (fun b d hd => ⟨d, hr.block? b d hd, rfl⟩) (fun r d hd => hr.region? r d hd) hc hx

end Leftover

/-! ## Undoing steps -/

/-- When the last step is an erasure of a tree that holds all that the step had made, nothing else
is left over. -/
theorem Leftover.erase {t₂ : Store} (h : Leftover gone₀ s₁ gone t) (hs : Linked s)
    (hrestores : Restores s t') (htidy : Tidy gone t₂) (hsized : Sized t₂) {u : Unit}
    (herase : eraseOp c t₂ = .ok (u, t'))
    (hentries : ∀ x e, t₂.op? x = some e → ∃ d, t.op? x = some d)
    (hkeeps : ∀ x d, s.op? x = some d → ∃ e, s₁.op? x = some e)
    (hchild : ∀ x y, Child t₂ x y → Child t x y ∨ ∃ d, s.op? y = some d)
    (hmade : ∀ x e, s₁.op? x = some e → s.op? x = none → Within t₂ c x)
    (hnew : ∀ x, Within t₂ c x → s.op? x = none) :
    Leftover gone₀ s (fun x => gone x ∨ Within t₂ c x) t' := by
  have hl₂ : Linked t₂ := htidy.kept.linked
  obtain ⟨tree, he, htree⟩ := eraseOp_ok hl₂ htidy.kept.uses.pointsBack herase
  have htidy' := htidy.erased herase
  refine ⟨hrestores, htidy', (SameSizes.erased he).sized hsized, fun x e hx hnone => ?_,
    fun x y hnone hc => ?_, fun x hx => ?_, fun x hx => .inl (h.stays x hx)⟩
  · rw [he.op?] at hx
    obtain ⟨e₂, he₂, _⟩ := Option.map_eq_some_iff.1 hx
    cases hx₁ : s₁.op? x with
    | none =>
      obtain ⟨d, hd⟩ := hentries x e₂ he₂
      exact .inl (h.lost x d hd hx₁)
    | some d => exact .inr (hmade x d hx₁ hnone)
  · have hy := Leftover.new_of_child hs hrestores htidy'.kept.linked hc hnone
    obtain ⟨hc₂, hstays⟩ := he.child_iff.1 hc
    cases hx₁ : s₁.op? x with
    | none =>
      rcases hchild x y hc₂ with hct | ⟨d, hd⟩
      · exact h.barren x y hx₁ hct
      · cases hy.symm.trans hd
    | some d => exact hstays ((htree y).2 ((hmade x d hx₁ hnone).tail hc₂))
  · rcases hx with hx | hx
    · refine (h.old x hx).imp_left fun hnone => ?_
      by_contra hold
      obtain ⟨d, hd⟩ := Option.ne_none_iff_exists'.1 hold
      obtain ⟨e, he⟩ := hkeeps x d hd
      cases hnone.symm.trans he
    · exact .inl (hnew x hx)

/-- What is nested in an operation after an insertion was nested there, or is what was put in. -/
theorem child_of_insertOp {blk : BlockRef} {before : Option OpRef} {u : Unit}
    (h : insertOp blk before c s = .ok (u, t)) (hc : Child t x y) : y = c ∨ Child s x y := by
  obtain ⟨d, bd, front, back, hd, _, hbd, hsplit, _, _, rfl⟩ := insertOp_ok h
  obtain ⟨e, he, r, hr, rd, hrd, b', hb', bd', hbd', hy⟩ := hc
  have hentry : ∃ e', s.op? x = some e' ∧ e'.regions = e.regions := by
    rw [op?_attach hd] at he
    split at he
    · rename_i hxc
      cases he
      exact ⟨d, hxc ▸ hd, rfl⟩
    · exact ⟨e, he, rfl⟩
  obtain ⟨e', he', hregions⟩ := hentry
  rw [block?_attach hbd] at hbd'
  split at hbd'
  · rename_i hb
    cases hbd'
    rcases List.mem_append.1 hy with hy | hy
    · exact .inr ⟨e', he', r, hregions ▸ hr, rd, hrd, b', hb', bd, hb ▸ hbd, by simp [hsplit, hy]⟩
    · rcases List.mem_cons.1 hy with rfl | hy
      · exact .inl rfl
      · exact .inr ⟨e', he', r, hregions ▸ hr, rd, hrd, b', hb', bd, hb ▸ hbd, by simp [hsplit, hy]⟩
  · exact .inr ⟨e', he', r, hregions ▸ hr, rd, hrd, b', hb', bd', hbd', hy⟩

/-- Undoing a hoist leaves nothing else over. -/
theorem Drawing.undo {q : OpRef} {p : Point} {blk : BlockRef} {before : Option OpRef}
    {sc si sr : Store} {m : Renaming} (h : Drawing root gone₀ s o q c p blk before sc si sr s₁ m)
    (hleft : Leftover gone₀ s₁ gone t) {u : Unit}
    (hundo : Journal.undo (.hoisted o blk before c) t = .ok (u, t')) :
    ∃ gone', Leftover gone₀ s gone' t' := by
  have htidy := hleft.tidy
  obtain ⟨t₁, t₂, hback, hk₁, hg₁, hinsert, herase⟩ :=
    h.hoisted.undo_ok hleft.restores htidy.kept htidy.grounded hundo
  have hr := h.hoisted.reinserted hleft.restores hback hinsert
  obtain ⟨d, hd, hparent⟩ := h.hoisted.entry
  have hkeeps : ∀ x d, s.op? x = some d → ∃ e, s₁.op? x = some e := fun x d hd => by
    obtain ⟨e, he⟩ := h.hoisted.fixed_of_op? (h.copied.op? x d hd)
    exact ⟨e, he.1⟩
  have hlive : ¬ gone o := fun hgone => by
    rcases hleft.old o hgone with hnone | hgone
    · obtain ⟨e, he⟩ := hkeeps o d hd
      cases hnone.symm.trans he
    · rw [h.tidy.removed o d hgone hd] at hparent
      cases hparent
  have hvalues : s₁.values = si.values := by rw [h.leaves.values, h.same.values]
  have htidy₁ : Tidy gone t₁ := htidy.redirected hback hk₁ fun pair hpair => by
    obtain ⟨pair', hpair', rfl⟩ := List.mem_map.1 hpair
    obtain ⟨⟨e, he⟩, _⟩ := resultPairs_values h.hoisted.placed.kept_after.linked hpair'
    refine ⟨e, hleft.restores.value? _ e ?_⟩
    rw [Store.value?, hvalues]
    exact he
  have htidy₂ := htidy₁.inserted hlive hinsert
  have hl₂ : Linked t₂ := htidy₂.kept.linked
  obtain ⟨tree, he, htree⟩ := eraseOp_ok hl₂ htidy₂.kept.uses.pointsBack herase
  refine ⟨_, hleft.erase h.linked
    (h.hoisted.undoes hleft.restores ⟨⟨gone, htidy.kept⟩, htidy.grounded⟩ hundo).1 htidy₂
    (((SameSizes.redirectedAll hback).sized hleft.sized).insertOp hinsert) herase
    (fun x e hx => ?_) hkeeps (fun x y hc => ?_) (fun x e hx hnone => ?_) fun x hw =>
      (h.hoisted.restoredBut hr hl₂ htree).new x ((htree x).2 hw)⟩
  · obtain ⟨d₁, bd₁, _, _, hd₁, _, _, _, _, _, rfl⟩ := insertOp_ok hinsert
    have hx₁ : ∃ e₁, t₁.op? x = some e₁ := by
      rw [op?_attach hd₁] at hx
      split at hx
      · rename_i hxo
        exact ⟨d₁, hxo ▸ hd₁⟩
      · exact ⟨e, hx⟩
    obtain ⟨e₁, he₁⟩ := hx₁
    rw [hback.op?] at he₁
    obtain ⟨d', hd', _⟩ := Option.map_eq_some_iff.1 he₁
    exact ⟨d', hd'⟩
  · rcases child_of_insertOp hinsert hc with rfl | hc
    · exact .inr ⟨d, hd⟩
    · exact .inl ((SameNesting.redirectedAll hback).symm.grows.nests.child hc)
  · obtain ⟨e', he', _⟩ := h.hoisted.op?_of_fixed hx
    obtain ⟨y, rfl, hw⟩ := h.hoisted.placed.under x e' he' hnone
    exact hr.nests.within (h.inserted.grows.nests.within hw)

/-- The step is written down, and undoing it leaves nothing else over. -/
def LeavesNothing (gone₀ : OpRef → Prop) (a b : Journal × Store) : Prop :=
  ∃ e, b.1 = a.1 ++ [e] ∧ ∀ {gone t t' u}, Leftover gone₀ b.2 gone t →
    Journal.undo e t = .ok (u, t') → ∃ gone', Leftover gone₀ a.2 gone' t'

/-- Undoing a cast leaves nothing else over. -/
theorem CastAhead.undo (h : CastAhead x a b) (ha : Underway sided root gone₀ a) :
    LeavesNothing gone₀ a b := by
  obtain ⟨v, p, cast, s₁, hv, hp, hcreate, hinsert, hJ⟩ := h
  obtain ⟨e, hJ', hstep⟩ := CastStep.undoable ⟨v, p, cast, s₁, hp, hcreate, hinsert, hJ⟩
  cases List.append_cancel_left (hJ.symm.trans hJ')
  refine ⟨.inserted cast, hJ, fun {gone t t' u} hleft hundo => ?_⟩
  have hc := createOp_ok hcreate
  have htidy := hleft.tidy
  obtain ⟨_, hundoes⟩ := hstep ha.sound.consistent
  obtain ⟨d, bd, front, back, hd, _, hbd, hsplit, _, _, hb⟩ := insertOp_ok hinsert
  have hentry : ∀ y, y ≠ cast → b.2.op? y = a.2.op? y := fun y hy => by
    rw [hb, op?_attach hd, if_neg hy, hc.op?, if_neg hy]
  -- the cast has no regions
  have hself : ∀ y, Within t cast y → y = cast := by
    intro y hw
    rcases hw.cases_head with rfl | ⟨z, ⟨e, he, r, hr, _⟩, _⟩
    · rfl
    · have hcast : b.2.op? cast = some { d with parent := some p.block } := by
        rw [hb, op?_attach hd, if_pos rfl]
      cases he.symm.trans (hleft.restores.op? cast _ hcast)
      rw [hc.op?, if_pos rfl] at hd
      cases hd
      cases hr
  refine ⟨_, hleft.erase ha.sound.linked
    (hundoes hleft.restores ⟨⟨gone, htidy.kept⟩, htidy.grounded⟩ hundo).1 htidy hleft.sized hundo
    (fun y e he => ⟨e, he⟩) (fun y d' hd' => ?_) (fun y z hchild => .inl hchild)
    (fun y e hy hnone => ?_) fun y hw => hself y hw ▸ hc.new⟩
  · by_cases hy : y = cast
    · rw [hy, hc.new] at hd'
      cases hd'
    · exact ⟨d', (hentry y hy).trans hd'⟩
  · by_cases hyc : y = cast
    · exact hyc ▸ .refl
    · rw [hentry y hyc, hnone] at hy
      cases hy

/-! ## Rollbacks -/

/-- A rollback of hoists and casts ahead of an anchor leaves nothing but what is gone. -/
theorem rollback_leftover (ha : Underway sided root gone₀ ([], s)) (hx : Nested s root x)
    (h : Prepares root gone₀ x ([], s) b) : ∀ {gone t t' u}, Leftover gone₀ b.2 gone t →
      Journal.rollback b.1 t = .ok (u, t') → ∃ gone', Leftover gone₀ s gone' t' := by
  induction h with
  | refl =>
    intro gone t t' u hleft hrun
    cases hrun
    exact ⟨gone, hleft⟩
  | @tail b c hrun hstep ih =>
    intro gone t t' u hleft hrollback
    obtain ⟨hb, hxb⟩ := Prepares.sound hrun ha hx
    have hundo : LeavesNothing gone₀ b c := by
      rcases hstep with ⟨o, q, c', p, blk, before, sc, si, sr, m, hd, _, hJ⟩ | hcast
      · exact ⟨_, hJ, fun hleft hundo => hd.undo hleft hundo⟩
      · exact hcast.undo hb
    obtain ⟨e, hJ, hundo⟩ := hundo
    rw [hJ, Journal.rollback, List.reverse_append, List.forM_eq_forM] at hrollback
    simp only [List.reverse_cons, List.reverse_nil, List.nil_append, List.cons_append,
      List.forM_cons, Edit.bind_ok] at hrollback
    obtain ⟨_, t₁, hfirst, hrest⟩ := hrollback
    obtain ⟨gone', hleft'⟩ := hundo hleft hfirst
    rw [← List.forM_eq_forM] at hrest
    exact ih hleft' hrest

/-- Where nothing is left over but what is gone, a module is as sound as it was. -/
theorem Sound.leftover {out : OpRef → Prop} (h : Sound sided root gone₀ out s)
    (hleft : Leftover gone₀ s gone t) : Sound sided root gone out t := by
  have hl : Linked s := h.linked
  have hr := hleft.restores
  have hnests := hr.grows.nests
  obtain ⟨d, hd, hparent⟩ := Option.map_eq_some_iff.1 h.top
  have hold : ∀ {x e}, t.op? x = some e → ¬ gone x → s.op? x = some e ∧ ¬ gone₀ x := by
    intro x e he hx
    cases hs : s.op? x with
    | none => exact absurd (hleft.lost x e he hs) hx
    | some d =>
      cases he.symm.trans (hr.op? x d hs)
      exact ⟨rfl, fun hgone => hx (hleft.stays x hgone)⟩
  refine ⟨hleft.tidy, hleft.sized, fun x hx => ?_, ?_, fun x e v hx he hv => ?_,
    fun x e he hx => ?_, fun x e hx hgone he => ?_, fun e he => ?_⟩
  · cases hs : s.op? x with
    | none =>
      obtain ⟨y, hc, _⟩ := Relation.TransGen.head'_iff.1 hx
      exact hleft.barren x y hs hc
    | some e => exact h.acyclic x (hr.nested hl hs hx)
  · rw [opParent, hr.op? root d hd, Option.map_some, hparent]
  · have hx' : Nested s root x := hr.nested hl hd hx
    obtain ⟨e', he'⟩ := hl.op?_of_within ⟨d, hd⟩ hx'.within
    cases he.symm.trans (hr.op? x e' he')
    exact hr.grows.sees (h.visible x e v hx' he' hv)
  · obtain ⟨hs, hlive⟩ := hold he hx
    exact (h.accounted x e hs hlive).imp hnests.within
      (Exists.imp fun o => And.imp_right hnests.within)
  · obtain ⟨hs, hlive⟩ := hold he hgone
    exact h.fitting x e hx hlive hs
  · cases (hr.op? root d hd).symm.trans he
    exact h.bare d hd

end AffineRaising.Raise
