/-
# AffineRaising.Proofs.Raise.VisibleEdits — edits after which everything still sees its operands.

One section for each kind of edit: something new that stands apart, an operation put in front of
another one, uses that go over to other values, and operations that leave their blocks.  Each says
when everything in a module still sees its operands, and what an operation can still look at.

The hypothesis that recurs is on the place of an edit: whoever saw what is taken away sees what is
put in its stead.  What an operation can look at (`InReach`) includes values that are free in
something that is away, such as a pattern's new operation, so each section also says what happens to
these.
-/
import AffineRaising.Proofs.Raise.Visible

namespace AffineRaising.Raise

open AffineRaising.IR AffineRaising.IR.Store AffineRaising.Analysis

variable {s t : Store} {away : OpRef → Prop} {u v w : ValueRef} {root a c o q x y z : OpRef}
  {b : BlockRef}

/-! ## Growing -/

section Grows

variable (hg : Grows s t)

include hg

/-- What is nested in the module stays there. -/
theorem Nested.grows (h : Nested s root x) : Nested t root x :=
  Relation.TransGen.mono (fun _ _ hc => hg.nests.child hc) _ _ h

theorem Holds.grows (h : Holds s x b) : Holds t x b := by
  obtain ⟨d, hd, r, hr, rd, hrd, hb⟩ := h
  obtain ⟨e, he, hregions⟩ := hg.op? x d hd
  obtain ⟨re, hre, hblocks⟩ := hg.region? r rd hrd
  exact ⟨e, he, r, hregions ▸ hr, re, hre, hblocks ▸ hb⟩

/-- What is at home inside an operation stays so. -/
theorem Inside.grows (hs : Linked s) (ht : Linked t) (h : Inside s x v) : Inside t x v := by
  obtain ⟨b, q, hlives, hq, hw⟩ := h
  refine ⟨b, q, ?_, Holds.grows hg hq, hg.nests.within hw⟩
  rcases hlives with ⟨k, hv⟩ | ⟨y, k, d, hv, hd, hparent⟩
  · exact .inl ⟨k, hg.originOf v _ hv⟩
  · obtain ⟨bd, hbd, hmem⟩ := hs.mem_of_parent hd hparent
    obtain ⟨be, hbe, hsub⟩ := hg.block? b bd hbd
    obtain ⟨e, he, hep⟩ := ht.op?_of_mem hbe (hsub.subset hmem)
    exact .inr ⟨y, k, e, hg.originOf v _ hv, he, hep⟩

/-- What an operation can look at stays so in a store that grows, if what is away stays away and
uses nothing new, except in the place of something that was seen and by something that is. -/
theorem InReach.grows (ht : Linked t) (h : InReach away s x v)
    (haway : ∀ o, away o → s.opParent o = some none → t.opParent o = some none)
    (hback : ∀ o z d u, away o → s.opParent o = some none → Within t o z → t.op? z = some d →
      u ∈ d.operands → z = o ∨ ¬ Inside t o u → ∃ e u₀, Within s o z ∧ s.op? z = some e ∧
        u₀ ∈ e.operands ∧ (z = o ∨ ¬ Inside s o u₀) ∧
        (u = u₀ ∨ ¬ Adrift s u₀ ∧ (Sees s u₀ x → Sees t u x))) : InReach away t x v := by
  refine Traced.later h (fun w hw => .inl (hg.sees hw)) ?_
    (fun w hw => not_adrift_of_sees ht hw) ?_
  · rintro w ⟨o, k, hw, hnone, ho⟩
    exact ⟨o, k, hg.originOf w _ hw, haway o ho hnone, ho⟩
  · rintro w u htraced hadrift ⟨o, k, z, d, hw, hz, hd, hu, hout⟩
    obtain ⟨o', k', hw', hnone, ho⟩ := htraced.holds.resolve_left fun hsees =>
      not_adrift_of_sees ht (hg.sees hsees) hadrift
    cases hw.symm.trans (hg.originOf w _ hw')
    obtain ⟨e, u₀, hz', he, hu₀, hout', hcase⟩ := hback o z d u ho hnone hz hd hu hout
    have htraced₀ := htraced.computedFrom ⟨o, k, hw', hnone⟩ ⟨o, k, z, e, hw', hz', he, hu₀, hout'⟩
    rcases hcase with rfl | ⟨hstands, hsees⟩
    · exact .inr htraced₀
    · exact .inl (hsees (InReach.sees htraced₀ hstands))

end Grows

/-! ## Something new that stands apart -/

section Copied

variable (hcopied : Copied s t) (hs : Linked s)

include hcopied hs

/-- Nothing new is nested in what is old. -/
theorem within_of_copied {d : OpData} (hd : s.op? y = some d) (hw : Within t y x) :
    Within s y x := by
  induction hw with
  | refl => exact .refl
  | tail _ hc ih =>
    obtain ⟨e, he⟩ := hs.op?_of_within ⟨d, hd⟩ ih
    exact ih.tail ((hcopied.child_iff hs he).1 hc)

theorem nested_of_copied {d : OpData} (hd : s.op? root = some d) (hx : Nested t root x) :
    Nested s root x := by
  obtain ⟨p, hp, hc⟩ := Relation.TransGen.tail'_iff.1 hx
  have hp' := within_of_copied hcopied hs hd hp
  obtain ⟨e, he⟩ := hs.op?_of_within ⟨d, hd⟩ hp'
  exact .tail' hp' ((hcopied.child_iff hs he).1 hc)

/-- Something new that stands apart uses nothing of the module and is not in it. -/
theorem Visible.copied {d : OpData} (hd : s.op? root = some d) (h : Visible s root) :
    Visible t root := by
  intro x e v hx he hv
  have hx' := nested_of_copied hcopied hs hd hx
  obtain ⟨e', he'⟩ := hs.op?_of_within ⟨d, hd⟩ hx'.within
  cases (hcopied.op? x e' he').symm.trans he
  exact hcopied.grows.sees (h x e v hx' he' hv)

/-- What could be looked at still can. -/
theorem InReach.copied (ht : Linked t) (h : InReach away s x v) : InReach away t x v := by
  refine InReach.grows hcopied.grows ht h (fun o _ hnone => ?_)
    fun o z d u _ hnone hz hd hu hout => ?_
  · obtain ⟨d, hd, hparent⟩ := opParent_eq_some.1 hnone
    exact opParent_eq_some.2 ⟨d, hcopied.op? o d hd, hparent⟩
  · obtain ⟨od, hod, _⟩ := opParent_eq_some.1 hnone
    have hz' := within_of_copied hcopied hs hod hz
    obtain ⟨e, he⟩ := hs.op?_of_within ⟨od, hod⟩ hz'
    cases (hcopied.op? z e he).symm.trans hd
    exact ⟨d, u, hz', he, hu, hout.imp_right (mt (Inside.grows hcopied.grows hs ht)), .inl rfl⟩

end Copied

/-! ## An operation in front of another one -/

section Inserted

variable (hi : InsertedBefore s c q b t) (hs : Linked s) (htop : s.opParent root = some none)
  (hq : Nested s root q)

include hi

/-- What is nested in the module was nested there, or came with the new operation. -/
theorem nested_of_inserted (hx : Nested t root x) : Nested s root x ∨ Within s c x := by
  obtain ⟨p, hp, hc⟩ := Relation.TransGen.tail'_iff.1 hx
  rcases hi.within_cases hp with hp | ⟨hp, _⟩ <;>
    rcases hi.child_cases hc with ⟨rfl, _⟩ | hc
  · exact .inr .refl
  · exact .inl (.tail' hp hc)
  · exact .inr .refl
  · exact .inr (hp.tail hc)

include hs hq

/-- The new operation is in the module, as its place is. -/
theorem nested_new : Nested t root c := by
  obtain ⟨p, hp, hc⟩ := Relation.TransGen.tail'_iff.1 hq
  exact .tail' (hi.grows.nests.within hp) ((hi.child_iff_other hs).2 hc)

omit hq in
/-- Each operand of what is new is seen from the place, or offered in the new operation. -/
theorem Visible.inserted (h : Visible s root)
    (hnew : ∀ x d w, Within s c x → s.op? x = some d → w ∈ d.operands →
      Sees s w q ∨ SeenInside s c x w) : Visible t root := by
  intro x e w hx he hw
  obtain ⟨d, hd, hed⟩ := hi.op?_cases he
  rw [hed] at hw
  rcases nested_of_inserted hi hx with hx | hx
  · exact hi.grows.sees (h x d w hx hd hw)
  · rcases hnew x d w hx hd hw with hsees | ⟨a, _, hax, hoffered⟩
    · exact (hi.sees_new hs hsees).within (hi.grows.nests.within hx)
    · exact hi.grows.sees ⟨a, hax, hoffered⟩

include htop

/-- What stands in no block does not hold the place. -/
theorem apart_of_nested {p : OpRef} (hx : s.opParent x = some none) (hne : x ≠ root)
    (hp : Holds s p b) : ¬ Within s x p := by
  obtain ⟨bd, front, back, hbd, hsplit, _⟩ := hi.block
  exact fun hw => hq.not_within_detached hs htop hx hne
    (hw.tail ((child_iff_holds hs hbd (by simp [hsplit])).2 hp))

/-- What could be looked at still can when something is put into the module. -/
theorem InReach.inserted (ht : Linked t) (h : InReach away s x v) (hroot : ¬ away root)
    (hc : ¬ away c) : InReach away t x v := by
  refine InReach.grows hi.grows ht h (fun o ho hnone => ?_) fun o z e u ho hnone hz he hu hout => ?_
  · rw [hi.opParent_other fun heq => hc (heq ▸ ho), hnone]
  · have hz' := hi.within_old (fun p hp => apart_of_nested hi hs htop hq hnone
      (fun heq => hroot (heq ▸ ho)) hp) hz
    obtain ⟨d, hd, hed⟩ := hi.op?_cases he
    rw [hed] at hu
    exact ⟨d, u, hz', hd, hu, hout.imp_right (mt (Inside.grows hi.grows hs ht)), .inl rfl⟩

end Inserted

/-! ## Uses that go over to other values -/

/-- The stores differ in operands, attributes and uses at most. -/
structure SameNesting (s t : Store) : Prop where
  op? : ∀ x, (t.op? x).map (fun d => (d.parent, d.regions)) =
    (s.op? x).map fun d => (d.parent, d.regions)
  blocks : t.blocks = s.blocks
  regions : t.regions = s.regions
  values : t.values = s.values

namespace SameNesting

theorem symm (h : SameNesting s t) : SameNesting t s :=
  ⟨fun x => (h.op? x).symm, h.blocks.symm, h.regions.symm, h.values.symm⟩

/-- Nesting, order and origins are as they were. -/
theorem grows (h : SameNesting s t) : Grows s t := by
  refine ⟨fun x d hd => ?_, fun r d hd => ⟨d, ?_, rfl⟩, fun b d hd => ⟨d, ?_, .refl _⟩,
    fun v a ha => ?_⟩
  · have hx := h.op? x
    rw [hd] at hx
    obtain ⟨e, he, heq⟩ := Option.map_eq_some_iff.1 hx
    exact ⟨e, he, (Prod.mk.inj heq).2⟩
  · rw [region?, h.regions]
    exact hd
  · rw [block?, h.blocks]
    exact hd
  · rw [originOf, value?, h.values]
    exact ha

theorem opParent_eq (h : SameNesting s t) (x : OpRef) : t.opParent x = s.opParent x := by
  have hx := congrArg (Option.map Prod.fst) (h.op? x)
  rw [Option.map_map, Option.map_map] at hx
  exact hx

theorem setOp {d e : OpData} (hd : s.op? o = some d) (hparent : e.parent = d.parent)
    (hregions : e.regions = d.regions) : SameNesting s (s.setOp o e) := by
  refine ⟨fun x => ?_, rfl, rfl, rfl⟩
  rw [op?_setOp hd]
  split
  · rename_i hx
    rw [hx, hd, Option.map_some, Option.map_some, hparent, hregions]
  · rfl

theorem operandsSet {d : OpData} {operands : List ValueRef} (hd : s.op? o = some d)
    (h : OperandsSet s o d operands t) : SameNesting s t := by
  refine ⟨fun x => ?_, h.blocks, h.regions, h.values⟩
  rw [h.op? hd]
  split
  · rename_i hx
    rw [hx, hd]
    rfl
  · rfl

theorem redirectedAll {ps : List (ValueRef × ValueRef)} (h : RedirectedAll s ps t) :
    SameNesting s t := by
  refine ⟨fun x => ?_, h.blocks, h.regions, h.values⟩
  rw [h.op?, Option.map_map]
  rfl

theorem nested_iff (h : SameNesting s t) : Nested t root x ↔ Nested s root x :=
  ⟨Nested.grows h.symm.grows, Nested.grows h.grows⟩

/-- What is seen is as it was. -/
theorem sees_iff (h : SameNesting s t) : Sees t v x ↔ Sees s v x :=
  ⟨h.symm.grows.sees, h.grows.sees⟩

end SameNesting

/-- A value is redirected to itself or by one of the pairs. -/
theorem redirected_cases (ps : List (ValueRef × ValueRef)) (v : ValueRef) :
    redirected ps v = v ∨ (v, redirected ps v) ∈ ps := by
  unfold redirected
  cases h : ps.lookup v with
  | none => exact .inl rfl
  | some w =>
    obtain ⟨l, l', hsplit, _⟩ := List.lookup_eq_some_iff.1 h
    exact .inr (by simp [hsplit])

/-- An operand afterwards was one before, or replaces one. -/
theorem mem_redirectedOperands {ps : List (ValueRef × ValueRef)} {operands : List ValueRef}
    (h : u ∈ redirectedOperands s ps x operands) :
    ∃ u₀ ∈ operands, u = u₀ ∨ (u₀, u) ∈ ps := by
  obtain ⟨i, hi⟩ := List.mem_iff_getElem?.1 h
  rw [getElem?_redirectedOperands] at hi
  obtain ⟨u₀, hu₀, rfl⟩ := Option.map_eq_some_iff.1 hi
  refine ⟨u₀, List.mem_of_getElem? hu₀, ?_⟩
  split
  · exact (redirected_cases ps u₀).imp_right id
  · exact .inl rfl

section Redirected

variable {ps : List (ValueRef × ValueRef)} (hr : RedirectedAll s ps t)

include hr

/-- Whoever sees a value that is replaced sees what replaces it. -/
theorem Visible.redirected (h : Visible s root)
    (hps : ∀ p ∈ ps, ∀ x, Nested s root x → Sees s p.1 x → Sees s p.2 x) : Visible t root := by
  have hsame := SameNesting.redirectedAll hr
  intro x e u hx he hu
  rw [hr.op?] at he
  obtain ⟨d, hd, rfl⟩ := Option.map_eq_some_iff.1 he
  rw [hsame.nested_iff] at hx
  obtain ⟨u₀, hu₀, rfl | hp⟩ := mem_redirectedOperands hu
  · exact hsame.grows.sees (h x d _ hx hd hu₀)
  · exact hsame.grows.sees (hps _ hp x hx (h x d u₀ hx hd hu₀))

/-- What replaces a result of an operation of the module is seen where the result was. -/
theorem InReach.redirected (hs : Linked s) (ht : Linked t) (htop : s.opParent root = some none)
    (hps : ∀ p ∈ ps, ∃ o k, s.originOf p.1 = some (.result o k) ∧ Nested s root o)
    (hsees : ∀ p ∈ ps, Sees s p.1 x → Sees s p.2 x) (h : InReach away s x v)
    (hroot : ¬ away root) : InReach away t x v := by
  have hsame := SameNesting.redirectedAll hr
  refine InReach.grows hsame.grows ht h (fun o _ hnone => (hsame.opParent_eq o).trans hnone)
    fun o z e u ho hnone hz he hu hout => ?_
  rw [hr.op?] at he
  obtain ⟨d, hd, rfl⟩ := Option.map_eq_some_iff.1 he
  obtain ⟨u₀, hu₀, rfl | hp⟩ := mem_redirectedOperands hu
  · exact ⟨d, _, hsame.symm.grows.nests.within hz, hd, hu₀,
      hout.imp_right (mt (Inside.grows hsame.grows hs ht)), .inl rfl⟩
  · obtain ⟨y, k, hy, hny⟩ := hps _ hp
    obtain ⟨by', hby⟩ := hny.attached hs
    refine ⟨d, u₀, hsame.symm.grows.nests.within hz, hd, hu₀, .inr ?_, .inr ⟨?_, fun h =>
      hsame.grows.sees (hsees _ hp h)⟩⟩
    · -- the operation that is replaced stands in the module, not in what is away
      rintro ⟨b, q, ⟨k', hv⟩ | ⟨y', k', yd, hv, hyd, hparent⟩, hq, hw⟩
      · cases hy.symm.trans hv
      · cases hy.symm.trans hv
        obtain ⟨bd, hbd, hmem⟩ := hs.mem_of_parent hyd hparent
        exact hny.not_within_detached hs htop hnone (fun heq => hroot (heq ▸ ho))
          (hw.tail ((child_iff_holds hs hbd hmem).2 hq))
    · rintro ⟨y', k', hv, hnone'⟩
      cases hy.symm.trans hv
      cases hby.symm.trans hnone'

end Redirected

/-! ## Operations that leave their blocks -/

/-- The operations of a list left their blocks, and nothing else moved. -/
structure LeftBlocks (s : Store) (out : List OpRef) (t : Store) : Prop where
  op? : ∀ x, t.op? x =
    (s.op? x).map fun d => if x ∈ out then { d with parent := none } else d
  block? : ∀ b, t.block? b =
    (s.block? b).map fun d => { d with ops := d.ops.filter (· ∉ out) }
  regions : t.regions = s.regions
  values : t.values = s.values

/-- Erasing takes operations out of their blocks. -/
theorem LeftBlocks.of_erased {out : List OpRef} (h : Erased s out t) : LeftBlocks s out t :=
  ⟨h.op?, h.block?, h.regions, h.values⟩

theorem LeftBlocks.of_unlink (hs : Linked s) {d : OpData} {bd : BlockData} (hd : s.op? o = some d)
    (hparent : d.parent = some b) (hb : s.block? b = some bd) :
    LeftBlocks s [o] (s.unlink o d b bd) := by
  refine ⟨fun x => ?_, fun x => ?_, rfl, rfl⟩
  · rw [op?_unlink hd]
    by_cases hx : x = o
    · rw [if_pos hx, hx, hd]
      simp
    · rw [if_neg hx]
      simp [hx]
  · rw [block?_unlink hb]
    by_cases hx : x = b
    · rw [if_pos hx, hx, hb, Option.map_some]
      congr 2
      exact List.filter_congr fun y _ => by simp [bne, beq_eq_decide]
    · rw [if_neg hx]
      cases hxb : s.block? x with
      | none => rfl
      | some xd =>
        -- the operation is listed in its own block only
        have hnot : o ∉ xd.ops := by
          intro hmem
          obtain ⟨d', hd', hx'⟩ := hs.op?_of_mem hxb hmem
          cases hd.symm.trans hd'
          exact hx (Option.some.inj (hx'.symm.trans hparent))
        rw [Option.map_some, List.filter_eq_self.2 fun y hy => ?_]
        simpa using fun h : y = o => hnot (h ▸ hy)

namespace LeftBlocks

variable {out : List OpRef} (h : LeftBlocks s out t)

include h

theorem op?_cases {e : OpData} (he : t.op? x = some e) :
    ∃ d, s.op? x = some d ∧ e = { d with parent := e.parent } := by
  rw [h.op?] at he
  obtain ⟨d, hd, rfl⟩ := Option.map_eq_some_iff.1 he
  refine ⟨d, hd, ?_⟩
  split <;> rfl

theorem region?_eq (r : RegionRef) : t.region? r = s.region? r := by
  rw [region?, region?, h.regions]

theorem originOf_eq (v : ValueRef) : t.originOf v = s.originOf v := by
  rw [originOf, originOf, value?, value?, h.values]

theorem opParent_other (hx : x ∉ out) : t.opParent x = s.opParent x := by
  rw [opParent, opParent, h.op?, Option.map_map]
  cases s.op? x with
  | none => rfl
  | some d => simp [hx]

theorem opParent_out (hx : x ∈ out) {d : OpData} (hd : s.op? x = some d) :
    t.opParent x = some none := by
  rw [opParent, h.op?, hd]
  simp [hx]

/-- Blocks keep what did not leave, in its order. -/
theorem thinned : Thinned s (· ∈ out) t where
  op? x d hd := ⟨_, (h.op? x).trans (congrArg _ hd), by split <;> rfl⟩
  region? := h.region?_eq
  block? b d hd := by
    refine ⟨_, (h.block? b).trans (congrArg _ hd), List.filter_sublist, fun l hl hout => ?_⟩
    have hkept := hl.filter (· ∉ out)
    rwa [List.filter_eq_self.2 fun y hy => by simpa using hout y hy] at hkept
  originOf := h.originOf_eq

theorem holds_iff : Holds t x b ↔ Holds s x b := by
  constructor
  · rintro ⟨e, he, r, hr, rd, hrd, hb⟩
    obtain ⟨d, hd, hed⟩ := h.op?_cases he
    rw [hed] at hr
    exact ⟨d, hd, r, hr, rd, by rw [← h.region?_eq, hrd], hb⟩
  · rintro ⟨d, hd, r, hr, rd, hrd, hb⟩
    obtain ⟨e, he, hregions⟩ := h.thinned.op? x d hd
    exact ⟨e, he, r, hregions ▸ hr, rd, by rw [h.region?_eq, hrd], hb⟩

/-- What stood in an operation stands there unless it left. -/
theorem child_iff : Child t x z ↔ Child s x z ∧ z ∉ out := by
  constructor
  · intro hc
    obtain ⟨a, be, hholds, hbe, hz⟩ := IR.child_iff.1 hc
    rw [h.block?] at hbe
    obtain ⟨bd, hbd, rfl⟩ := Option.map_eq_some_iff.1 hbe
    obtain ⟨hz, hzout⟩ := List.mem_filter.1 hz
    exact ⟨IR.child_iff.2 ⟨a, bd, h.holds_iff.1 hholds, hbd, hz⟩, by simpa using hzout⟩
  · rintro ⟨hc, hz⟩
    exact h.thinned.child hc hz

/-- What is nested afterwards was nested before. -/
theorem within_of (hw : Within t x z) : Within s x z :=
  Relation.ReflTransGen.mono (fun _ _ hc => (h.child_iff.1 hc).1) _ _ hw

/-- What is inside an operation stays there, if nothing nested in it leaves. -/
theorem inside (hs : Linked s) (hy : ∀ p, Relation.TransGen (Child s) y p → p ∉ out)
    (hu : Inside s y u) : Inside t y u := by
  obtain ⟨a, q, hlives, hq, hyq⟩ := hu
  refine ⟨a, q, ?_, h.holds_iff.2 hq, ?_⟩
  · rcases hlives with ⟨k, hu⟩ | ⟨p, k, pd, hu, hpd, hpa⟩
    · exact .inl ⟨k, by rw [h.originOf_eq, hu]⟩
    · obtain ⟨ad, had, hmem⟩ := hs.mem_of_parent hpd hpa
      have hpout := hy p (.tail' hyq ((child_iff_holds hs had hmem).2 hq))
      exact .inr ⟨p, k, pd, by rw [h.originOf_eq, hu], by rw [h.op?, hpd]; simp [hpout], hpa⟩
  · clear hq
    induction hyq with
    | refl => exact .refl
    | tail hyp hc ih =>
      exact ih.tail (h.child_iff.2 ⟨hc, hy _ (.tail' hyp hc)⟩)

variable (hs : Linked s) (htop : s.opParent root = some none) (hroot : root ∉ out)

include hs htop hroot

/-- What is still nested in the module was nested there, and nothing around it left. -/
theorem nested_cases (hx : Nested t root x) :
    Nested s root x ∧ ∀ y, Within s y x → y ∉ out := by
  have hpath : ∀ z, Within t root z → ∀ y, Within s y z → y ∉ out := by
    intro z hz
    induction hz with
    | refl =>
      intro y hy
      rwa [eq_of_within_detached hs htop hy]
    | tail _ hc ih =>
      intro y hy
      obtain ⟨hc, hz⟩ := h.child_iff.1 hc
      rcases Relation.ReflTransGen.cases_tail hy with rfl | ⟨p, hyp, hpz⟩
      · exact hz
      · exact ih y (hpz.unique hs hc ▸ hyp)
  exact ⟨Relation.TransGen.mono (fun _ _ hc => (h.child_iff.1 hc).1) _ _ hx, hpath x hx.within⟩

omit hs htop hroot in
/-- Where nothing around it left, what was nested in the module still is. -/
theorem nested_of (hx : Nested s root x) (hstays : ∀ y, Within s y x → y ∉ out) :
    Nested t root x := by
  obtain ⟨p, hp, hc⟩ := Relation.TransGen.tail'_iff.1 hx
  refine .tail' (h.thinned.within hp fun y hy => hstays y (hy.tail hc)) (h.child_iff.2 ⟨hc, ?_⟩)
  exact hstays x .refl

/-- What leaves has no results that are still used in the module. -/
theorem visible (hvisible : Visible s root)
    (hunused : ∀ x d v o k, Nested t root x → s.op? x = some d → v ∈ d.operands →
      s.originOf v = some (.result o k) → o ∉ out) : Visible t root := by
  intro x e v hx he hv
  obtain ⟨d, hd, hed⟩ := h.op?_cases he
  rw [hed] at hv
  obtain ⟨hx', hstays⟩ := h.nested_cases hs htop hroot hx
  exact h.thinned.sees (hvisible x d v hx' hd hv) hstays fun o k hvo =>
    hunused x d v o k hx hd hv hvo

end LeftBlocks

/-- When an operation of the module leaves its block, whatever is not nested in it can look at what
it could look at before. -/
theorem InReach.detached (h : LeftBlocks s [o] t) (hs : Linked s) (ht : Linked t) (hac : Acyclic s)
    (htop : s.opParent root = some none) (hvisible : Visible s root) (ho : Nested s root o)
    (hstays : ¬ Within s o x) (hroot : ¬ away root) (hv : InReach away s x v) :
    InReach (fun y => away y ∨ y = o) t x v := by
  obtain ⟨b, hob⟩ := ho.attached hs
  obtain ⟨od, hod, _⟩ := opParent_eq_some.1 hob
  have hout : ∀ y, Within s y x → y ∉ [o] := by
    intro y hy hyo
    exact hstays (List.mem_singleton.1 hyo ▸ hy)
  have hsees : ∀ w, Sees s w x → Sees t w x ∨ AdriftOf (fun y => away y ∨ y = o) t w := by
    intro w hw
    by_cases hresult : ∃ k, s.originOf w = some (.result o k)
    · obtain ⟨k, hk⟩ := hresult
      exact .inr ⟨o, k, by rw [h.originOf_eq, hk], h.opParent_out (by simp) hod, .inr rfl⟩
    · refine .inl (h.thinned.sees hw hout fun y k hy hyo => hresult ⟨k, ?_⟩)
      rw [hy, List.mem_singleton.1 hyo]
  refine hv.later hsees ?_ (fun w hw => not_adrift_of_sees ht hw) ?_
  · rintro w ⟨y, k, hw, hnone, hy⟩
    have hne : y ∉ [o] := by
      intro hyo
      rw [List.mem_singleton.1 hyo, hob] at hnone
      cases hnone
    exact ⟨y, k, by rw [h.originOf_eq, hw], by rw [h.opParent_other hne, hnone], .inl hy⟩
  rintro w u htraced ⟨y, k, hw, hnone⟩ ⟨y', k', z, e, hw', hz, he, hu, huout⟩
  cases hw.symm.trans hw'
  rw [h.originOf_eq] at hw
  obtain ⟨d, hd, hed⟩ := h.op?_cases he
  rw [hed] at hu
  have hz' := h.within_of hz
  by_cases hyo : y = o
  · -- what has just left saw what it is computed from
    subst hyo
    have hnested : ∀ p, Relation.TransGen (Child s) y p → p ∉ [y] := by
      intro p hp hpy
      rw [List.mem_singleton.1 hpy] at hp
      exact hac y hp
    have huz := hvisible z d u (ho.trans_within hz') hd hu
    have huy : Sees s u y := by
      rcases huout with rfl | huout
      · exact huz
      · exact sees_of_inside hs huz hz' (mt (h.inside hs hnested) huout)
    have hwx : Sees s w x := htraced.holds.resolve_right fun ⟨y', k', hw', hnone', _⟩ => by
      cases hw.symm.trans hw'
      cases hob.symm.trans hnone'
    refine .inl (h.thinned.sees (huy.of_definition hs hwx hw) hout fun y' k' hu' hy' => ?_)
    rw [List.mem_singleton.1 hy'] at hu'
    exact ne_result_of_reaches hs hac huy ⟨y, .refl, .inl rfl⟩ k' hu'
  · -- what had left before uses what it used
    rw [h.opParent_other (by simpa using hyo)] at hnone
    obtain ⟨y', k', hw', _, hy⟩ := htraced.holds.resolve_left fun hwx =>
      not_adrift_of_sees hs hwx ⟨y, k, hw, hnone⟩
    cases hw.symm.trans hw'
    have hnested : ∀ p, Relation.TransGen (Child s) y p → p ∉ [o] := by
      intro p hp hpo
      rw [List.mem_singleton.1 hpo] at hp
      exact ho.not_within_detached hs htop hnone (fun heq => hroot (heq ▸ hy)) hp.to_reflTransGen
    exact .inr (htraced.computedFrom ⟨y, k, hw, hnone⟩
      ⟨y, k, z, d, hw, hz', hd, hu, huout.imp_right (mt (h.inside hs hnested))⟩)

end AffineRaising.Raise
