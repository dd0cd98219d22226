/-
# AffineRaising.Proofs.Raise.SoundEdits — edits that keep a module sound.

One theorem for each edit that raising makes besides hoisting: an operation is created, put in front
of another one, given other operands, or erased, and uses go over to other values.  Each says what
the edit needs so that a sound module stays sound, and what it does to the operations on their way.
-/
import AffineRaising.Proofs.Raise.Sound

namespace AffineRaising.IR

open AffineRaising.IR.Store AffineRaising.Analysis AffineRaising.Raise

variable {s t : Store} {c x : OpRef}

/-! ## New operations without regions -/

namespace Created

variable {spec : OpSpec} (hc : Created s spec c t)

include hc

theorem copied_self (hregions : spec.regions = []) : Copied s t where
  op? x d hd := by
    rw [hc.op?, if_neg, hd]
    rintro rfl
    rw [hc.eq_next, Store.op?, Array.getElem?_eq_none (Nat.le_refl _)] at hd
    cases hd
  block? b d hd := by rw [Store.block?, hc.blocks]; exact hd
  region? r d hd := by rw [hc.region?, hregions, if_neg List.not_mem_nil, hd]
  value? v d hd := value?_append hc.values hd
  usesOf v := ⟨operandUses c spec.operands v, hc.usesOf v, fun u hu => by
    rw [(mem_operandUses.1 hu).1, hc.eq_next, Store.op?, Array.getElem?_eq_none (Nat.le_refl _)]⟩

theorem new : s.op? c = none := by
  rw [hc.eq_next, Store.op?, Array.getElem?_eq_none (Nat.le_refl _)]

theorem not_child (hregions : spec.regions = []) : ¬ Child t c x := by
  rintro ⟨d, hd, r, hr, _⟩
  rw [hc.op?, if_pos rfl] at hd
  cases hd
  rw [show (spec.entry s).regions = [] from hregions] at hr
  cases hr

theorem within_self (hregions : spec.regions = []) (hw : Within t c x) : x = c := by
  rcases hw.cases_head with rfl | ⟨y, hcy, _⟩
  · rfl
  · exact absurd hcy (hc.not_child hregions)

theorem acyclic (hl : Linked s) (hregions : spec.regions = []) (hac : Acyclic s) :
    Acyclic t := by
  intro x hx
  by_cases hnew : s.op? x = none
  · obtain ⟨y, hxy, _⟩ := Relation.TransGen.head'_iff.1 hx
    obtain ⟨d, hd, _⟩ := id hxy
    rw [hc.op?, hnew] at hd
    split at hd
    · rename_i h
      exact hc.not_child hregions (h ▸ hxy)
    · cases hd
  · obtain ⟨d, hd⟩ := Option.ne_none_iff_exists'.1 hnew
    exact hac x (nested_of_copied (hc.copied_self hregions) hl hd hx)

end Created

end AffineRaising.IR

namespace AffineRaising.Raise

open AffineRaising.IR AffineRaising.IR.Store AffineRaising.Ops AffineRaising.Analysis

variable {sided : Prop} {gone out away : OpRef → Prop} {s t : Store} {u v w : ValueRef}
  {root a c o q x y z : OpRef} {b : BlockRef}

/-! ## Creating -/

theorem value?_of_sees (h : Sees s v x) : ∃ e, s.value? v = some e := by
  obtain ⟨_, _, ⟨_, _, _, hv, _⟩ | ⟨_, _, hv, _⟩⟩ := h <;>
  · obtain ⟨e, he, _⟩ := Option.map_eq_some_iff.1 hv
    exact ⟨e, he⟩

theorem Tidy.created (h : Tidy gone s) {spec : OpSpec} (hcreate : createOp spec s = .ok (c, t))
    (hoperands : ∀ v ∈ spec.operands, ∃ e, s.value? v = some e) : Tidy gone t where
  kept := (Kept.copyStepsKeep gone).createOp spec s c t h.kept hcreate
  grounded := by
    have hc := createOp_ok hcreate
    intro x d v hd hv
    have hvalue : ∀ {v e}, s.value? v = some e → ∃ e, t.value? v = some e := fun he =>
      ⟨_, value?_append hc.values he⟩
    rw [hc.op?] at hd
    split at hd
    · cases hd
      obtain ⟨e, he⟩ := hoperands v hv
      exact hvalue he
    · obtain ⟨e, he⟩ := h.grounded x d v hd hv
      exact hvalue he
  typed := Typed.copyStepsKeep.createOp spec s c t h.typed hcreate
  removed o d hgone hd := by
    have hc := createOp_ok hcreate
    rw [hc.op?] at hd
    split at hd
    · cases hd
      rfl
    · exact h.removed o d hgone hd

/-- New blocks and regions leave operations alone. -/
theorem Tidy.of_ops_eq (h : Tidy gone s) (hk : Kept t gone) (htyped : Typed t)
    (hops : t.ops = s.ops) (hvalues : ∀ v e, s.value? v = some e → t.value? v = some e) :
    Tidy gone t where
  kept := hk
  grounded x d v hd hv := by
    rw [Store.op?, hops] at hd
    obtain ⟨e, he⟩ := h.grounded x d v hd hv
    exact ⟨e, hvalues v e he⟩
  typed := htyped
  removed o d hgone hd := by
    rw [Store.op?, hops] at hd
    exact h.removed o d hgone hd

theorem Tidy.createBlock (h : Tidy gone s) {types : List Ty} {b : BlockRef}
    (hrun : createBlock types s = .ok (b, t)) : Tidy gone t :=
  h.of_ops_eq ((Kept.copyStepsKeep gone).createBlock types s b t h.kept hrun)
    (Typed.copyStepsKeep.createBlock types s b t h.typed hrun) (createBlock_ok hrun).ops
    fun v e he => (value?_copyStepsKeep v e).createBlock types s b t he hrun

theorem Tidy.createRegion (h : Tidy gone s) {bs : List BlockRef} {r : RegionRef}
    (hrun : createRegion bs s = .ok (r, t)) : Tidy gone t :=
  h.of_ops_eq ((Kept.copyStepsKeep gone).createRegion bs s r t h.kept hrun)
    (Typed.copyStepsKeep.createRegion bs s r t h.typed hrun) (createRegion_ok hrun).ops
    fun v e he => (value?_copyStepsKeep v e).createRegion bs s r t he hrun

/-- A new operation without regions is on its way. -/
theorem Sound.created (h : Sound sided root gone out s) {spec : OpSpec}
    (hcreate : createOp spec s = .ok (c, t)) (hregions : spec.regions = [])
    (hoperands : ∀ v ∈ spec.operands, ∃ e, s.value? v = some e)
    (hfits : Fitted sided (spec.entry s)) :
    Sound sided root gone (fun y => out y ∨ y = c) t := by
  have hc := createOp_ok hcreate
  have hcopied := hc.copied_self hregions
  obtain ⟨d, hd, hparent⟩ := Option.map_eq_some_iff.1 h.top
  refine ⟨h.tidy.created hcreate hoperands, Sized.copyStepsKeep.createOp spec s c t h.sized hcreate,
    hc.acyclic h.linked hregions h.acyclic, ?_, h.visible.copied hcopied h.linked hd,
    h.accounted.copied hcopied fun x e he hx => ?_, fun x e hx hlive he => ?_, fun e he => ?_⟩
  · rw [opParent, hcopied.op? root d hd, Option.map_some, hparent]
  · rw [hc.op?, hx] at he
    split at he
    · rename_i hxc
      exact ⟨c, rfl, hxc ▸ .refl⟩
    · cases he
  · rw [hc.op?] at he
    split at he
    · cases he
      exact hfits
    · exact h.fitting x e hx hlive he
  · cases (hcopied.op? root d hd).symm.trans he
    exact h.bare d hd

/-! ## Putting in place -/

theorem Tidy.inserted (h : Tidy gone s) (hlive : ¬ gone c) {before : Option OpRef}
    (hrun : insertOp b before c s = .ok ((), t)) : Tidy gone t where
  kept := h.kept.insertOp hrun
  grounded := h.grounded.insertOp hrun
  typed := by
    obtain ⟨d, bd, front, back, hd, _, _, _, _, _, rfl⟩ := insertOp_ok hrun
    exact h.typed.setOp (e := { d with parent := some b }) hd rfl rfl
  removed o e hgone he := by
    obtain ⟨d, bd, front, back, hd, _, _, _, _, _, rfl⟩ := insertOp_ok hrun
    rw [op?_attach hd, if_neg (fun hoc : o = c => hlive (hoc ▸ hgone))] at he
    exact h.removed o e hgone he

/-- An operation on its way arrives in front of one that sees what it uses from outside. -/
theorem Sound.inserted (h : Sound sided root gone out s) (hlive : ¬ gone c) (hne : c ≠ root)
    (hrun : insertOp b (some q) c s = .ok ((), t)) (hq : Nested s root q)
    (hsees : ∀ x d w, Within s c x → s.op? x = some d → w ∈ d.operands →
      Sees s w q ∨ SeenInside s c x w) : Sound sided root gone (fun y => out y ∧ y ≠ c) t := by
  have hi := insertedBefore_of_ok hrun
  refine ⟨h.tidy.inserted hlive hrun, h.sized.insertOp hrun, hi.acyclic h.acyclic fun p hp =>
    apart_of_nested hi h.linked h.top hq hi.detached hne hp, ?_,
    h.visible.inserted hi h.linked hsees, h.accounted.inserted h.linked hi hq, ?_, fun e he => ?_⟩
  · rw [hi.opParent_other hne.symm, h.top]
  · refine h.fitting.of_entries fun x e hx hgone he => .inr ?_
    obtain ⟨d, hd, hed⟩ := hi.op?_cases he
    rw [hed]
    exact ⟨x, d, hx, hgone, hd, rfl, rfl, rfl, rfl, rfl⟩
  · obtain ⟨d, hd, hed⟩ := hi.op?_cases he
    rw [hed]
    exact h.bare d hd

/-! ## Changes in place -/

/-- Operands, attributes and uses may change as long as everything in the module sees its operands
and binds what it takes. -/
theorem Sound.same (h : Sound sided root gone out s) (hsame : SameNesting s t) (htidy : Tidy gone t)
    (hsized : Sized t) (hvisible : Visible t root) (hfitting : Fitting sided root gone t)
    (hbare : ∀ d, t.op? root = some d → d.operands = []) : Sound sided root gone out t where
  tidy := htidy
  sized := hsized
  acyclic x hx := h.acyclic x (hsame.nested_iff.1 hx)
  top := by rw [hsame.opParent_eq, h.top]
  visible := hvisible
  accounted := h.accounted.same hsame
  fitting := hfitting
  bare := hbare

/-- Gives an operation an attribute and other operands. -/
def respecify (o : OpRef) (key : String) (attr : Attr) (operands : List ValueRef) : Edit Unit := do
  setAttr o key attr
  setOperands o operands

/-- The operation has another entry, and nothing else changed but uses. -/
structure Respecified (s : Store) (o : OpRef) (e : OpData) (t : Store) : Prop where
  op? : ∀ x, t.op? x = if x = o then some e else s.op? x
  blocks : t.blocks = s.blocks
  regions : t.regions = s.regions
  values : t.values = s.values

theorem Respecified.sameNesting {d e : OpData} (h : Respecified s o e t) (hd : s.op? o = some d)
    (hparent : e.parent = d.parent) (hregions : e.regions = d.regions) : SameNesting s t := by
  refine ⟨fun x => ?_, h.blocks, h.regions, h.values⟩
  rw [h.op?]
  split
  · rename_i hx
    rw [hx, hd, Option.map_some, Option.map_some, hparent, hregions]
  · rfl

section Respecified

variable {d : OpData} {key : String} {attr : Attr} {operands : List ValueRef} {u : Unit}
  (hd : s.op? x = some d) (hrun : respecify x key attr operands s = .ok (u, t))

include hd hrun

/-- The attribute is set first. -/
theorem respecify_ok : OperandsSet (s.setOp x { d with attrs := d.attrs.insert key attr }) x
    { d with attrs := d.attrs.insert key attr } operands t := by
  obtain ⟨_, s₁, hattr, hoperands⟩ := Edit.bind_ok.1 hrun
  obtain ⟨d', hd', rfl⟩ := setAttr_ok hattr
  cases hd.symm.trans hd'
  obtain ⟨d', hd', hset⟩ := setOperands_ok hoperands
  rw [op?_setOp hd, if_pos rfl] at hd'
  cases hd'
  exact hset

theorem respecified_of_ok : Respecified s x
    { d with attrs := d.attrs.insert key attr, operands := operands } t := by
  have hset := respecify_ok hd hrun
  refine ⟨fun y => ?_, hset.blocks, hset.regions, hset.values⟩
  rw [hset.op? ((op?_setOp hd).trans (if_pos rfl)), op?_setOp hd]
  split <;> rfl

theorem Tidy.respecified (h : Tidy gone s) (hlive : ¬ gone x)
    (hoperands : ∀ v ∈ operands, ∃ e, s.value? v = some e) : Tidy gone t := by
  have hset := respecify_ok hd hrun
  have hr := respecified_of_ok hd hrun
  have hd₁ : (s.setOp x { d with attrs := d.attrs.insert key attr }).op? x =
      some { d with attrs := d.attrs.insert key attr } := (op?_setOp hd).trans (if_pos rfl)
  have hkept : Kept (s.setOp x { d with attrs := d.attrs.insert key attr }) gone :=
    h.kept.of_size (h.kept.linked.setOp hd rfl) (h.kept.uses.setOp hd rfl) (by simp [Store.setOp])
  refine ⟨hkept.operandsSet hd₁ hlive hset, fun y e v he hv => ?_, ?_, fun y e hgone he => ?_⟩
  · rw [Store.value?, hr.values]
    rw [hr.op?] at he
    split at he
    · cases he
      exact hoperands v hv
    · exact h.grounded y e v he hv
  · refine h.typed.of_entries hr.values fun y e he => ?_
    rw [hr.op?] at he
    split at he
    · rename_i hyx
      cases he
      exact ⟨d, hyx ▸ hd, rfl, rfl⟩
    · exact ⟨e, he, rfl, rfl⟩
  · rw [hr.op?, if_neg (fun hyx : y = x => hlive (hyx ▸ hgone))] at he
    exact h.removed y e hgone he

/-- In a sound module an operation can get operands that it sees, if they are as many as it takes
then. -/
theorem Sound.respecified (h : Sound sided root gone out s) (hx : Nested s root x)
    (hsees : ∀ v ∈ operands, Sees s v x)
    (hfits : Fitted sided { d with attrs := d.attrs.insert key attr, operands := operands }) :
    Sound sided root gone out t := by
  have hr := respecified_of_ok hd hrun
  have hsame := hr.sameNesting hd rfl rfl
  have hset := respecify_ok hd hrun
  refine h.same hsame (h.tidy.respecified hd hrun (h.tidy.not_gone hx) fun v hv =>
    value?_of_sees (hsees v hv)) ?_ (fun y e v hy he hv => ?_) (fun y e hy hlive he => ?_)
    fun e he => ?_
  · exact ((SameSizes.setOp (e := { d with attrs := d.attrs.insert key attr }) hd rfl rfl).trans
      (.operandsSet ((op?_setOp hd).trans (if_pos rfl)) hset)).sized h.sized
  · rw [hsame.sees_iff]
    rw [hr.op?] at he
    split at he
    · rename_i hyx
      cases he
      exact hyx ▸ hsees v hv
    · exact h.visible y e v (hsame.nested_iff.1 hy) he hv
  · rw [hr.op?] at he
    split at he
    · cases he
      exact hfits
    · exact h.fitting y e hy hlive he
  · rw [hr.op?, if_neg (hx.ne_root h.linked h.top).symm] at he
    exact h.bare e he

end Respecified

/-! ## Redirecting -/

theorem Tidy.redirected (h : Tidy gone s) {ps : List (ValueRef × ValueRef)}
    (hr : RedirectedAll s ps t) (hk : Kept t gone)
    (hnews : ∀ p ∈ ps, ∃ e, s.value? p.2 = some e) : Tidy gone t where
  kept := hk
  grounded := hr.grounded h.grounded hnews
  typed := by
    refine h.typed.of_entries hr.values fun x e he => ?_
    rw [hr.op?] at he
    obtain ⟨d, hd, rfl⟩ := Option.map_eq_some_iff.1 he
    exact ⟨d, hd, rfl, rfl⟩
  removed o e hgone he := by
    rw [hr.op?] at he
    obtain ⟨d, hd, rfl⟩ := Option.map_eq_some_iff.1 he
    exact h.removed o d hgone hd

/-- Uses go over to values that are seen wherever the old ones were. -/
theorem Sound.redirected (h : Sound sided root gone out s) {ps : List (ValueRef × ValueRef)}
    (hr : RedirectedAll s ps t) (hk : Kept t gone) (hnews : ∀ p ∈ ps, ∃ e, s.value? p.2 = some e)
    (hps : ∀ p ∈ ps, ∀ x, Nested s root x → Sees s p.1 x → Sees s p.2 x) :
    Sound sided root gone out t := by
  refine h.same (.redirectedAll hr) (h.tidy.redirected hr hk hnews)
    ((SameSizes.redirectedAll hr).sized h.sized) (h.visible.redirected hr hps) ?_ fun e he => ?_
  · refine h.fitting.of_entries fun x e hx hgone he => .inr ?_
    rw [hr.op?] at he
    obtain ⟨d, hd, rfl⟩ := Option.map_eq_some_iff.1 he
    exact ⟨x, d, hx, hgone, hd, rfl, rfl, by simp [redirectedOperands], rfl, rfl⟩
  · rw [hr.op?] at he
    obtain ⟨d, hd, rfl⟩ := Option.map_eq_some_iff.1 he
    simp [redirectedOperands, h.bare d hd]

/-! ## Erasing -/

theorem Tidy.erased (h : Tidy gone s) {u : Unit} (hrun : eraseOp o s = .ok (u, t)) :
    Tidy (fun x => gone x ∨ Within s o x) t := by
  obtain ⟨tree, he, htree⟩ := eraseOp_ok h.kept.linked h.kept.uses.pointsBack hrun
  have hentry : ∀ {x e}, t.op? x = some e → ∃ d, s.op? x = some d ∧
      e = if x ∈ tree then { d with parent := none } else d := fun hx => by
    rw [he.op?] at hx
    obtain ⟨d, hd, rfl⟩ := Option.map_eq_some_iff.1 hx
    exact ⟨d, hd, rfl⟩
  refine ⟨h.kept.eraseOp hrun, he.grounded h.grounded, h.typed.of_entries he.values
    fun x e hx => ?_, fun x e hgone hx => ?_⟩
  · obtain ⟨d, hd, rfl⟩ := hentry hx
    refine ⟨d, hd, ?_⟩
    split <;> exact ⟨rfl, rfl⟩
  · obtain ⟨d, hd, rfl⟩ := hentry hx
    split
    · rfl
    · rename_i hstays
      exact h.removed x d (hgone.resolve_right fun hw => hstays ((htree x).2 hw)) hd

/-- An operation other than the module that can be erased leaves a sound module. -/
theorem Sound.erased (h : Sound sided root gone out s) (hne : o ≠ root) {u : Unit}
    (hrun : eraseOp o s = .ok (u, t)) :
    Sound sided root (fun x => gone x ∨ Within s o x) (fun y => out y ∧ y ≠ o) t := by
  have hl : Linked s := h.linked
  have hpoints := h.tidy.kept.uses.pointsBack
  obtain ⟨tree, he, htree⟩ := eraseOp_ok hl hpoints hrun
  have hleft := LeftBlocks.of_erased he
  have hroot : root ∉ tree := fun hr =>
    hne (eq_of_within_detached hl h.top ((htree root).1 hr))
  obtain ⟨d, hd⟩ := eraseOp_op? hrun
  refine ⟨h.tidy.erased hrun, (SameSizes.erased he).sized h.sized, fun x hx => h.acyclic x
    (Relation.TransGen.mono (fun _ _ hc => (hleft.child_iff.1 hc).1) _ _ hx), ?_,
    hleft.visible hl h.top hroot h.visible fun x e v p k hx hxe hv hvp hp => ?_,
    h.accounted.erased hleft htree, ?_, fun e he => ?_⟩
  · rw [hleft.opParent_other hroot, h.top]
  · -- whoever uses a result of what is erased is erased with it
    obtain ⟨hnested, hstays⟩ := hleft.nested_cases hl h.top hroot hx
    refine hstays x .refl ((htree x).2 ?_)
    rcases ((htree p).1 hp).cases_tail with rfl | ⟨p', hop', hc⟩
    · obtain ⟨i, hi⟩ := List.mem_iff_getElem?.1 hv
      have huse := (h.tidy.kept.uses.mem_iff v ⟨x, i⟩).2
        ⟨h.tidy.not_gone hnested, by rw [slot?_eq hxe, hi]⟩
      have hresult : d.results[k]? = some v :=
        (hl.results.mem_iff (a := p) (by rw [resultsIn, hd]; rfl) k v).2 hvp
      exact within_of_eraseOp hl hpoints hd hrun (List.mem_of_getElem? hresult) huse
    · obtain ⟨a, hax, hpa⟩ := (h.visible x e v hnested hxe hv).reaches hvp
      exact (hop'.tail ((hpa.child_iff hl).1 hc)).trans hax
  · refine h.fitting.of_entries fun x e hx hgone hxe => .inr ?_
    obtain ⟨d', hd', hed⟩ := hleft.op?_cases hxe
    rw [hed]
    exact ⟨x, d', hx, fun hx' => hgone (.inl hx'), hd', rfl, rfl, rfl, rfl, rfl⟩
  · obtain ⟨d', hd', hed⟩ := hleft.op?_cases he
    rw [hed]
    exact h.bare d' hd'

end AffineRaising.Raise
