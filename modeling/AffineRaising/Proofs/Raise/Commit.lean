/-
# AffineRaising.Proofs.Raise.Commit — when a journal can be committed.

A commit erases the originals of the moves, so it faults if anybody still uses one of their results.
A composition leaves no such use behind (`Abandoned`): every hoist gives the uses of an original to
its copy, and neither later copies nor casts name a value that has no uses and whose definition is
in no block.  But an operation that is built afterwards from operands that were read before may name
one; then, and for originals without regions only then, the commit faults:
`raised_access_commits`.
-/
import AffineRaising.Proofs.Raise.Decline
import AffineRaising.Proofs.Raise.Promoted
import AffineRaising.Proofs.Store.EraseOrder
import AffineRaising.Proofs.Store.Provenance

namespace AffineRaising.Raise

open AffineRaising.IR AffineRaising.IR.Store AffineRaising.Ops AffineRaising.Analysis
open AffineRaising.Transform
open AffineRaising.Affine (Map)

variable {J J' : Journal} {s s₁ t t' : Store}

/-! ## Erasing -/

namespace Journal

/-- The operations that were moved. -/
def originals (J : Journal) : List OpRef :=
  J.filterMap fun
    | .hoisted source _ _ _ => some source
    | .inserted _ => none

theorem originals_hoisted (source : OpRef) (b : BlockRef) (before : Option OpRef) (c : OpRef) :
    originals (J ++ [.hoisted source b before c]) = originals J ++ [source] := by
  simp [originals]

theorem originals_inserted (o : OpRef) : originals (J ++ [.inserted o]) = originals J := by
  simp [originals]

end Journal

/-- If a commit comes to an end, whoever used a result of an original was erased with one. -/
theorem commit_users (hl : Linked t) (hp : PointsBack t) {u : Unit}
    (h : Journal.commit J t = .ok (u, t')) : ∀ o ∈ J.originals, ∀ v ∈ t.resultsOf o,
      ∀ u ∈ t.usesOf v, ∃ o' ∈ J.originals, Within t o' u.user := by
  induction J generalizing t with
  | nil =>
    intro o ho
    cases ho
  | cons e J ih =>
    cases e with
    | inserted c => exact ih hl hp h
    | hoisted source b before c =>
      rw [Journal.commit, Edit.bind_ok] at h
      obtain ⟨_, t₁, herase, hrest⟩ := h
      obtain ⟨out, he, hout⟩ := eraseOp_ok hl hp herase
      -- a use is by an operation that goes now, or it is still there
      have hcases : ∀ v, ∀ u ∈ t.usesOf v, Within t source u.user ∨ u ∈ t₁.usesOf v := by
        intro v u hu
        by_cases hmem : u.user ∈ out
        · exact .inl ((hout u.user).1 hmem)
        · right
          rw [he.usesOf]
          exact List.mem_filter.2 ⟨hu, by simpa using hmem⟩
      intro o ho v hv u hu
      rcases hcases v u hu with hw | hu₁
      · exact ⟨source, List.mem_cons_self, hw⟩
      · rcases List.mem_cons.1 ho with rfl | ho
        · rw [eraseOp_unused herase (he.resultsOf o ▸ hv)] at hu₁
          cases hu₁
        · obtain ⟨o', ho', hw⟩ :=
            ih (he.linked hl) (he.pointsBack hp) hrest o ho v (he.resultsOf o ▸ hv) u hu₁
          exact ⟨o', List.mem_cons_of_mem _ ho', he.within_of_within hw⟩

/-- The operation is in no block, has no regions, and nobody uses its results. -/
def Erasable (s : Store) (o : OpRef) : Prop :=
  ∃ d, s.op? o = some d ∧ d.parent = none ∧ d.regions = [] ∧ ∀ v ∈ d.results, s.usesOf v = []

theorem Erasable.erase {o : OpRef} (h : Erasable s o) : ∃ t, eraseOp o s = .ok ((), t) := by
  obtain ⟨d, hd, hparent, hregions, hunused⟩ := h
  have hdetach : detach o s = .ok ((), s) := by
    rw [detach, Edit.query_bind]
    exact ⟨d, op_ok.2 hd, by rw [hparent]; rfl⟩
  obtain ⟨t, hremove⟩ := removeOp_total hd hparent hunused
  refine ⟨t, ?_⟩
  simp only [eraseOp, Edit.get_bind, Store.depthBound, eraseWithin, Edit.query_bind]
  refine ⟨d, op_ok.2 hd, ?_⟩
  rw [hregions, Edit.bind_ok]
  refine ⟨⟨⟩, s, rfl, ?_⟩
  rw [Edit.bind_ok]
  exact ⟨(), s, hdetach, hremove⟩

/-- A journal whose originals can all be erased can be committed. -/
theorem commit_total (hl : Linked t) (hp : PointsBack t)
    (h : ∀ o ∈ J.originals, Erasable t o) : ∃ t', Journal.commit J t = .ok ((), t') := by
  induction J generalizing t with
  | nil => exact ⟨t, rfl⟩
  | cons e J ih =>
    cases e with
    | inserted c => exact ih hl hp h
    | hoisted source b before c =>
      obtain ⟨t₁, herase⟩ := (h source List.mem_cons_self).erase
      obtain ⟨out, he, _⟩ := eraseOp_ok hl hp herase
      obtain ⟨t', hrest⟩ := ih (he.linked hl) (he.pointsBack hp) fun o ho => by
        obtain ⟨d, hd, hparent, hregions, hunused⟩ := h o (List.mem_cons_of_mem _ ho)
        have hd₁ : t₁.op? o = some d := by
          rw [he.op?, hd, Option.map_some, ← hparent, ite_self]
        refine ⟨d, hd₁, hparent, hregions, fun v hv => ?_⟩
        rw [he.usesOf, hunused v hv]
        rfl
      refine ⟨t', ?_⟩
      rw [Journal.commit, Edit.bind_ok]
      exact ⟨(), t₁, herase, hrest⟩

/-! ## Compositions abandon the originals -/

/-- Links and uses are consistent, operands are values, results have the types that are listed for
them, and what was removed is in no block. -/
structure Tidy (gone : OpRef → Prop) (s : Store) : Prop where
  kept : Kept s gone
  grounded : Grounded s
  typed : Typed s
  removed : ∀ o d, gone o → s.op? o = some d → d.parent = none

/-- The originals are in no block, and nobody uses their results. -/
def Abandoned (J : Journal) (s : Store) : Prop :=
  ∀ o ∈ J.originals, ∃ d, s.op? o = some d ∧ d.parent = none ∧ ∀ v ∈ d.results, s.usesOf v = []

variable {gone : OpRef → Prop}

theorem Tidy.attached_of_within (h : Tidy gone s) {o x : OpRef} {d : OpData} {b : BlockRef}
    (hd : s.op? o = some d) (hp : d.parent = some b) (hw : Within s o x) : ¬ gone x := by
  intro hgone
  rcases hw.cases_tail with rfl | ⟨y, _, hchild⟩
  · have hnone := h.removed x d hgone hd
    rw [hp] at hnone
    cases hnone
  · obtain ⟨_, _, r, _, rd, _, b', _, bd, hbd, hx⟩ := hchild
    obtain ⟨e, he, hparent⟩ := h.kept.linked.op?_of_mem hbd hx
    have hnone := h.removed x e hgone he
    rw [hparent] at hnone
    cases hnone

/-- What stands in a block has no operand that has no uses. -/
theorem Tidy.ignores (h : Tidy gone s) {o : OpRef} {d : OpData} {b : BlockRef}
    (hd : s.op? o = some d) (hp : d.parent = some b) {v : ValueRef} (hv : s.usesOf v = []) :
    Ignores s v o := by
  refine ⟨⟨d, hd⟩, fun y e hw he hmem => ?_⟩
  obtain ⟨i, hi⟩ := List.mem_iff_getElem?.1 hmem
  have huse : (⟨y, i⟩ : Use) ∈ s.usesOf v :=
    (h.kept.uses.mem_iff v ⟨y, i⟩).2 ⟨h.attached_of_within hd hp hw, (slot?_eq he).trans hi⟩
  rw [hv] at huse
  cases huse

theorem Typed.of_entries (h : Typed s) (hvalues : t.values = s.values)
    (hentries : ∀ x e, t.op? x = some e →
      ∃ d, s.op? x = some d ∧ e.results = d.results ∧ e.resultTypes = d.resultTypes) : Typed t := by
  intro x e he
  obtain ⟨d, hd, hresults, htypes⟩ := hentries x e he
  rw [hresults, htypes]
  refine typeOf_later (fun v a ha => ?_) (h x d hd)
  rw [Store.value?, hvalues]
  exact ha

namespace Hoisted

variable {o c : OpRef} {p : Point} {b : BlockRef} {before : Option OpRef} {sc si sr : Store}
  {m : Renaming} (h : Hoisted gone s o p b before c sc si sr t)

include h

theorem typed_after (hs : Typed s) (hclone : cloneOp [] o s = .ok ((c, m), sc)) : Typed t := by
  have hsc : Typed sc := Typed.copyStepsKeep.cloneOp [] o s _ sc hs hclone
  obtain ⟨d, _, _, _, hd, _, _, _, _, _, hinsert⟩ := insertOp_ok h.placed.insert
  have hsi : Typed si := by
    rw [hinsert]
    exact hsc.setOp (e := { d with parent := some p.block }) hd rfl rfl
  obtain ⟨hr, _, _⟩ := h.redirected
  have hsr : Typed sr := by
    refine hsi.of_entries hr.values fun x e he => ?_
    rw [hr.op?] at he
    obtain ⟨d, hd, rfl⟩ := Option.map_eq_some_iff.1 he
    exact ⟨d, hd, rfl, rfl⟩
  obtain ⟨_, e, _, _, _, he, _, rfl⟩ := h.detached
  exact Typed.setOp (s := sr.setBlock b _) (e := { e with parent := none }) hsr he rfl rfl

theorem tidy (hs : Tidy gone s) (hclone : cloneOp [] o s = .ok ((c, m), sc)) : Tidy gone t := by
  refine ⟨h.kept_after, h.consistent.grounded, h.typed_after hs.typed hclone, ?_⟩
  intro x e hgone he
  obtain ⟨d, hd⟩ : ∃ d, s.op? x = some d :=
    ⟨_, Array.getElem?_eq_getElem (hs.kept.created x hgone)⟩
  obtain ⟨e', he', _, _, hparent⟩ := h.op? hd
  cases he.symm.trans he'
  rw [hparent, hs.removed x d hgone hd, ite_self]

/-- What is abandoned stays so. -/
theorem abandoned_other (hs : Tidy gone s) (hclone : cloneOp [] o s = .ok ((c, m), sc)) {x : OpRef}
    {d : OpData} (hd : s.op? x = some d) (hp : d.parent = none)
    (hunused : ∀ v ∈ d.results, s.usesOf v = []) :
    ∃ e, t.op? x = some e ∧ e.parent = none ∧ ∀ v ∈ e.results, t.usesOf v = [] := by
  obtain ⟨d', hd', hparent'⟩ := h.entry
  have hne : x ≠ o := by
    rintro rfl
    cases hd.symm.trans hd'
    rw [hp] at hparent'
    cases hparent'
  obtain ⟨e, he, hresults, _, hparent⟩ := h.op? hd
  refine ⟨e, he, by rw [hparent, hp, ite_self], fun v hv => ?_⟩
  rw [hresults] at hv
  have hmem : v ∈ s.resultsOf x := resultsOf_eq hd ▸ hv
  obtain ⟨k, hk⟩ := originOf_of_mem_results hs.kept.linked hmem
  rw [h.usesOf_other hne hk, cloneOp_usesOf hs.kept
    (value?_of_mem_resultsOf hs.kept.linked hmem) (hs.ignores hd' hparent' (hunused v hv)) hclone,
    hunused v hv]

/-- The original itself is abandoned: each of its results has a counterpart that takes the uses. -/
theorem abandoned_source (hs : Tidy gone s) (hclone : cloneOp [] o s = .ok ((c, m), sc)) :
    ∃ e, t.op? o = some e ∧ e.parent = none ∧ ∀ v ∈ e.results, t.usesOf v = [] := by
  obtain ⟨d, hd, _⟩ := h.entry
  obtain ⟨e, he, hresults, _, hparent⟩ := h.op? hd
  refine ⟨e, he, by rw [hparent, if_pos rfl], fun v hv => ?_⟩
  rw [hresults] at hv
  obtain ⟨k, hk⟩ := List.mem_iff_getElem?.1 hv
  obtain ⟨w, hw, _⟩ := typed_pair (hs.typed o d hd) (h.typed hd hclone) hk
  have hpair := h.resultPairs_mem (by rw [resultsOf_eq hd, hk]) hw
  obtain ⟨_, _, _, _, _, _, _, rfl⟩ := h.detached
  exact h.redirected.1.usesOf_old (v, w) hpair

end Hoisted

theorem HoistStep.abandoned {x y : Journal × Store} (h : HoistStep x y) (hx : Tidy gone x.2)
    (ha : Abandoned x.1 x.2) : Tidy gone y.2 ∧ Abandoned y.1 y.2 := by
  obtain ⟨o, p, c, _, h⟩ := h
  obtain ⟨b, before, sc, si, sr, m, h, hclone, hJ⟩ := hoist_hoisted hx.kept hx.grounded h
  refine ⟨h.tidy hx hclone, fun o' ho' => ?_⟩
  rw [hJ, Journal.originals_hoisted, List.mem_append, List.mem_singleton] at ho'
  rcases ho' with ho' | rfl
  · obtain ⟨d, hd, hp, hunused⟩ := ha o' ho'
    exact h.abandoned_other hx hclone hd hp hunused
  · exact h.abandoned_source hx hclone

/-- A cast is of a value whose definition is in a block, hence of no result of an original. -/
theorem CastStep.abandoned {x y : Journal × Store} (h : CastStep x y) (hx : Tidy gone x.2)
    (ha : Abandoned x.1 x.2) : Tidy gone y.2 ∧ Abandoned y.1 y.2 := by
  have hkept := h.kept hx.kept
  have hextends := h.extend
  obtain ⟨_, hJ, hstep⟩ := h.undoable
  have hgrounded := (hstep ⟨⟨gone, hx.kept⟩, hx.grounded⟩).1.grounded
  obtain ⟨v, p, c, sc, hv, hcreate, hinsert, hJ⟩ := h
  have hc := createOp_ok hcreate
  obtain ⟨d, _, _, _, hd, _, _, _, _, _, hy⟩ := insertOp_ok hinsert
  have htyped : Typed y.2 := by
    rw [hy]
    exact (Typed.copyStepsKeep.createOp _ _ _ _ hx.typed hcreate).setOp
      (e := { d with parent := some p.block }) hd rfl rfl
  refine ⟨⟨hkept, hgrounded, htyped, fun o e hgone he => ?_⟩, fun o ho => ?_⟩
  · obtain ⟨d', hd'⟩ : ∃ d', x.2.op? o = some d' :=
      ⟨_, Array.getElem?_eq_getElem (hx.kept.created o hgone)⟩
    cases he.symm.trans (hextends.op? o d' hd')
    exact hx.removed o e hgone hd'
  · rw [hJ, Journal.originals_inserted] at ho
    obtain ⟨e, he, hp, hunused⟩ := ha o ho
    refine ⟨e, hextends.op? o e he, hp, fun w hw => ?_⟩
    have hne : w ≠ v := by
      rintro rfl
      obtain ⟨k, hk⟩ := originOf_of_mem_results hx.kept.linked (resultsOf_eq he ▸ hw)
      obtain ⟨a, ha, horigin⟩ := Option.map_eq_some_iff.1 hk
      simp only [Point.afterDefinition?, except_bind_ok, value_ok] at hv
      obtain ⟨a', ha', hv⟩ := hv
      cases ha.symm.trans ha'
      simp only [horigin, Point.after?, except_bind_ok, op_ok] at hv
      obtain ⟨e', he', hv⟩ := hv
      cases he.symm.trans he'
      rw [hp] at hv
      cases hv
    have hnone : operandUses c [v] w = [] := by
      refine List.eq_nil_iff_forall_not_mem.2 fun u hu => ?_
      exact hne (List.mem_singleton.1 (List.mem_of_getElem? (mem_operandUses.1 hu).2))
    rw [hy]
    show sc.usesOf w = []
    rw [hc.usesOf, hunused w hw]
    exact hnone

/-- When a composition ends, nobody uses a result of an original. -/
theorem composed_abandoned {x : Journal × Store} (hs : Tidy gone s)
    (h : Relation.ReflTransGen ComposeStep ([], s) x) : Tidy gone x.2 ∧ Abandoned x.1 x.2 := by
  induction h with
  | refl => exact ⟨hs, fun o ho => by cases ho⟩
  | tail _ hstep ih => exact hstep.elim (·.abandoned ih.1 ih.2) (·.abandoned ih.1 ih.2)

theorem Abandoned.usesOf (h : Abandoned J s) {o : OpRef} (ho : o ∈ J.originals) {v : ValueRef}
    (hv : v ∈ s.resultsOf o) : s.usesOf v = [] := by
  obtain ⟨d, hd, _, hunused⟩ := h o ho
  exact hunused v (resultsOf_eq hd ▸ hv)

/-! ## What is built after a composition -/

/-- A body that ends by asking for a change is committed. -/
theorem transaction_commits {body : Compose Change} {change r : Change} (hchange : change ≠ .none)
    (h : body [] s = .ok ((.ok change, J), s₁)) :
    transaction body s = .ok (r, t) ↔ Journal.commit J s₁ = .ok ((), t) ∧ r = change := by
  rw [transaction_ok]
  constructor
  · rintro ⟨r', J', s', hrun, hend⟩
    cases h.symm.trans hrun
    obtain ⟨hnone, _⟩ | ⟨heq, _, hcommit⟩ := hend
    · exact absurd (hnone change rfl) hchange
    · exact ⟨hcommit, (Except.ok.inj heq).symm⟩
  · rintro ⟨hcommit, rfl⟩
    exact ⟨.ok r, J, s₁, h, .inr ⟨rfl, hchange, hcommit⟩⟩

section Built

variable {spec : OpSpec} {c : OpRef} (hs : Tidy gone s₁) (ha : Abandoned J s₁)
  (hcreate : createOp spec s₁ = .ok (c, t))

include hs ha hcreate

/-- With a new operation that names a result of an original no commit comes to an end. -/
theorem commit_faults_of_named {o : OpRef} (ho : o ∈ J.originals) {v : ValueRef}
    (hv : v ∈ s₁.resultsOf o) (hnamed : v ∈ spec.operands) (u : Unit) :
    Journal.commit J t ≠ .ok (u, t') := by
  intro hcommit
  have hc := createOp_ok hcreate
  have hkept := (Kept.copyStepsKeep gone).createOp _ _ _ _ hs.kept hcreate
  have hentry : t.op? c = some (spec.entry s₁) := (hc.op? c).trans (if_pos rfl)
  have hold : ∀ x ∈ J.originals, x ≠ c ∧ t.op? x = s₁.op? x := by
    intro x hx
    obtain ⟨d, hd, _⟩ := ha x hx
    have hne : x ≠ c := by
      rintro rfl
      rw [hc.eq_next, op?_next] at hd
      cases hd
    exact ⟨hne, (hc.op? x).trans (if_neg hne)⟩
  obtain ⟨i, hi⟩ := List.mem_iff_getElem?.1 hnamed
  have huse : (⟨c, i⟩ : Use) ∈ t.usesOf v := by
    rw [hc.usesOf, ha.usesOf ho hv]
    exact mem_operandUses.2 ⟨rfl, hi⟩
  have hvt : v ∈ t.resultsOf o := by
    obtain ⟨d, hd, _⟩ := ha o ho
    rw [resultsOf_eq ((hold o ho).2.trans hd), ← resultsOf_eq hd]
    exact hv
  -- the new operation is in no block, so it is not erased with an original
  obtain ⟨o', ho', hw⟩ :=
    commit_users hkept.linked hkept.uses.pointsBack hcommit o ho v hvt ⟨c, i⟩ huse
  rcases hw.cases_tail with heq | ⟨y, _, hchild⟩
  · exact (hold o' ho').1 heq.symm
  · exact not_child_of_detached hkept.linked hentry rfl hchild

/-- With a new operation that names no result of an original, originals without regions are erased
and the commit comes to an end. -/
theorem commit_total_of_unnamed
    (hplain : ∀ o ∈ J.originals, ∀ d, s₁.op? o = some d → d.regions = [])
    (hunnamed : ∀ o ∈ J.originals, ∀ v ∈ s₁.resultsOf o, v ∉ spec.operands) :
    ∃ t', Journal.commit J t = .ok ((), t') := by
  have hc := createOp_ok hcreate
  have hkept := (Kept.copyStepsKeep gone).createOp _ _ _ _ hs.kept hcreate
  refine commit_total hkept.linked hkept.uses.pointsBack fun o ho => ?_
  obtain ⟨d, hd, hparent, hunused⟩ := ha o ho
  have hne : o ≠ c := by
    rintro rfl
    rw [hc.eq_next, op?_next] at hd
    cases hd
  refine ⟨d, (hc.op? o).trans ((if_neg hne).trans hd), hparent, hplain o ho d hd, fun v hv => ?_⟩
  rw [hc.usesOf, hunused v hv, List.nil_append]
  refine List.eq_nil_iff_forall_not_mem.2 fun u hu => ?_
  exact hunnamed o ho v (resultsOf_eq hd ▸ hv) (List.mem_of_getElem? (mem_operandUses.1 hu).2)

end Built

/-- Without regions an operation can always be created. -/
theorem createOp_total {spec : OpSpec} (h : spec.regions = []) (s : Store) :
    ∃ c t, createOp spec s = .ok (c, t) := by
  unfold createOp
  rw [h]
  exact ⟨_, _, rfl⟩

/-- Raising an access normalizes its subscripts and then builds a new access from the binding and
from other operands of the old one.  The normalization leaves no use of a result of an operation
that it moved.  If the new access names such a result, raising faults; if it does not, and the
operations that were moved have no regions, raising comes to an end. -/
theorem raised_access_commits {limit : Nat} {op : OpRef} {indices : List ValueRef} {b : Binding}
    (build : Binding → OpSpec) (hbuild : (build b).regions = []) (hs : Tidy gone s)
    (hrun : normalizeMap op limit ⟨Map.symbolIdentity indices.length, indices⟩ [] s =
      .ok ((.ok b, J), s₁)) :
    (∀ o ∈ J.originals, ∀ v ∈ s₁.resultsOf o, s₁.usesOf v = []) ∧
    ((∃ o ∈ J.originals, ∃ v ∈ s₁.resultsOf o, v ∈ (build b).operands) →
      ∃ f, raiseSubscripts limit op indices build s = .error f) ∧
    ((∀ o ∈ J.originals, ∀ d, s₁.op? o = some d → d.regions = []) →
      (∀ o ∈ J.originals, ∀ v ∈ s₁.resultsOf o, v ∉ (build b).operands) →
      ∃ c t, raiseSubscripts limit op indices build s = .ok (.replaceBy c, t)) := by
  obtain ⟨htidy, ha⟩ := composed_abandoned hs (normalizeMap_steps op limit _ [] s _ J s₁ hrun)
  obtain ⟨c, s₂, hcreate⟩ := createOp_total hbuild s₁
  have hbody : (normalizeMap op limit ⟨Map.symbolIdentity indices.length, indices⟩ >>= fun b =>
      Compose.lift (createOp (build b)) >>= fun c => pure (Change.replaceBy c)) [] s =
      .ok ((.ok (.replaceBy c), J), s₂) :=
    Compose.bind_ok.2 ⟨b, J, s₁, hrun, Compose.lift_bind.2 ⟨c, s₂, hcreate, rfl⟩⟩
  have hcommits := fun {r t} =>
    transaction_commits (r := r) (t := t) (by simp : Change.replaceBy c ≠ .none) hbody
  refine ⟨fun o ho v hv => ha.usesOf ho hv, ?_, fun hplain hunnamed => ?_⟩
  · rintro ⟨o, ho, v, hv, hnamed⟩
    cases hraise : raiseSubscripts limit op indices build s with
    | error f => exact ⟨f, rfl⟩
    | ok p =>
      have hcommit := (hcommits.1 hraise).1
      exact absurd hcommit (commit_faults_of_named htidy ha hcreate ho hv hnamed ())
  · obtain ⟨t, hcommit⟩ := commit_total_of_unnamed htidy ha hcreate hplain hunnamed
    exact ⟨c, t, hcommits.2 ⟨hcommit, rfl⟩⟩

theorem Tidy.of_built {tree : Surface.Op} {root : OpRef} {scope : Scope}
    (h : buildOp Scope.empty tree Store.empty = .ok (.ok (root, scope), s)) :
    Tidy (fun _ => False) s :=
  ⟨kept_of_read h, grounded_of_read h, Typed.of_built h, fun _ _ => False.elim⟩

/-- A product is stored at the place with its own number.  Normalizing the subscript moves the
product, but the new store would write the result of the original. -/
theorem stored_product :
    let product := Surface.Op.plain ArithKind.mul.opName ["x"] ["a", "a"] [.index] []
    let store := Surface.Op.plain storeName [] ["x", "m", "x"] [] []
    let yield := Surface.Op.plain scfYieldName [] [] [] []
    let conditional := Surface.Op.plain scfIfName [] ["c"] [] [[product, store, yield]]
    let tree := Surface.Op.program [⟨"a", .index⟩, ⟨"m", .mk "mem" "ref" [.index] []⟩, ⟨"c", .i1⟩]
      [conditional]
    ∃ root scope s b J s₁, buildOp Scope.empty tree Store.empty = .ok (.ok (root, scope), s) ∧
      check s root = .ok ⟨[], [], []⟩ ∧
      normalizeMap ⟨1⟩ 32 ⟨Map.symbolIdentity [(⟨3⟩ : ValueRef)].length, [⟨3⟩]⟩ [] s =
        .ok ((.ok b, J), s₁) ∧
      ⟨0⟩ ∈ J.originals ∧ ⟨3⟩ ∈ s₁.resultsOf ⟨0⟩ ∧
      raiseStore 32 ⟨1⟩ s = .error (.valueInUse ⟨3⟩) :=
  ⟨⟨5⟩, _, _, _, _, _, by cbv, by cbv, by cbv, by decide, by decide, by cbv⟩

theorem raised_access_commits_product :
    ∃ s b J s₁, Tidy (fun _ => False) s ∧
      normalizeMap ⟨1⟩ 32 ⟨Map.symbolIdentity [(⟨3⟩ : ValueRef)].length, [⟨3⟩]⟩ [] s =
        .ok ((.ok b, J), s₁) ∧
      s₁.usesOf ⟨3⟩ = [] ∧ ∃ f, raiseSubscripts 32 ⟨1⟩ [⟨3⟩]
        (fun b => affineStoreSpec ⟨3⟩ ⟨1⟩ b.map b.operands) s = .error f := by
  obtain ⟨root, scope, s, b, J, s₁, hbuild, _, hrun, ho, hv, _⟩ := stored_product
  have hs := Tidy.of_built hbuild
  obtain ⟨hunused, hfaults, _⟩ := raised_access_commits
    (fun b => affineStoreSpec ⟨3⟩ ⟨1⟩ b.map b.operands) rfl hs hrun
  exact ⟨s, b, J, s₁, hs, hrun, hunused _ ho _ hv,
    hfaults ⟨_, ho, _, hv, by simp [affineStoreSpec]⟩⟩

/-- In a program that passes every check, a pattern can fault because a result of an operation that
it moved is in use when it commits. -/
theorem commit_finds_result_in_use :
    ¬ ∀ {tree : Surface.Op} {root op : OpRef} {scope : Scope} {s : Store} {limit : Nat}
        {v : ValueRef}, buildOp Scope.empty tree Store.empty = .ok (.ok (root, scope), s) →
      check s root = .ok ⟨[], [], []⟩ → raiseStore limit op s ≠ .error (.valueInUse v) := by
  intro hclaim
  obtain ⟨root, scope, s, _, _, _, hbuild, hcheck, _, _, _, hfault⟩ := stored_product
  exact hclaim hbuild hcheck hfault

end AffineRaising.Raise
