/-
# AffineRaising.Proofs.Raise.Promoted — which value a promotion returns.

A hoist gives every result of an operation to the copy: result `k` of the copy takes over the uses
of result `k`.  The promotion that asked for the hoist then returns the first result of the copy.
So it returns what took over the uses of the value that was promoted exactly if that value was a
first result (`promoted_value_is_first_result`), and a conditional with two results shows that it
may be another one (`promoted_value_differs`).
-/
import AffineRaising.Proofs.Raise.Undo
import AffineRaising.Proofs.Resolve.Module

namespace AffineRaising.Raise

open AffineRaising.IR AffineRaising.IR.Store AffineRaising.Ops AffineRaising.Analysis

variable {J J' : Journal} {s s₁ t : Store}

/-! ## Types of results -/

/-- The results of every operation are of the types that it lists. -/
def Typed (s : Store) : Prop :=
  ∀ o d, s.op? o = some d → List.Forall₂ (fun v ty => s.typeOf v = .ok ty) d.results d.resultTypes

theorem typeOf_ok {v : ValueRef} {ty : Ty} :
    s.typeOf v = .ok ty ↔ ∃ d, s.value? v = some d ∧ d.ty = ty := by
  simp only [Store.typeOf, bind_pure_comp, except_map_ok, value_ok]

theorem typeOf_later (hvalues : ∀ v a, s.value? v = some a → t.value? v = some a)
    {vs : List ValueRef} {types : List Ty}
    (h : List.Forall₂ (fun v ty => s.typeOf v = .ok ty) vs types) :
    List.Forall₂ (fun v ty => t.typeOf v = .ok ty) vs types := by
  refine h.imp fun v ty hty => ?_
  obtain ⟨a, ha, hty⟩ := typeOf_ok.1 hty
  exact typeOf_ok.2 ⟨a, hvalues v a ha, hty⟩

theorem Created.typed {spec : OpSpec} {o : OpRef} (hc : Created s spec o t) :
    List.Forall₂ (fun v ty => t.typeOf v = .ok ty) (spec.entry s).results spec.resultTypes := by
  rw [List.forall₂_iff_get]
  refine ⟨by simp [OpSpec.entry, Store.nextValues], fun k hk hk' => ?_⟩
  have hindex : ((spec.entry s).results.get ⟨k, hk⟩).index = s.values.size + k := by
    simp [OpSpec.entry, Store.nextValues]
  rw [typeOf_ok, Store.value?, hc.values, hindex]
  simp [resultEntries, hk']

/-- A copy lists the types of what it was copied from, and its results are of these types. -/
theorem cloneOp_typed {m m' : Renaming} {o c : OpRef} {d : OpData} (hd : s.op? o = some d)
    (h : cloneOp m o s = .ok ((c, m'), t)) :
    List.Forall₂ (fun v ty => t.typeOf v = .ok ty) (t.resultsOf c) d.resultTypes := by
  rw [cloneOp, Edit.get_bind] at h
  generalize s.depthBound = n at h
  cases n with
  | zero => cases h
  | succ n =>
    obtain ⟨d', rs, m₁, s₁, hd', _, hcreate, _⟩ := cloneWithin_parts h
    cases hd.symm.trans hd'
    have hc := createOp_ok hcreate
    rw [resultsOf_eq ((hc.op? c).trans (if_pos rfl))]
    exact Created.typed hc

/-- Along lists of equal types the `k`-th members correspond. -/
theorem typed_pair {vs ws : List ValueRef} {types : List Ty}
    (hv : List.Forall₂ (fun v ty => s.typeOf v = .ok ty) vs types)
    (hw : List.Forall₂ (fun w ty => t.typeOf w = .ok ty) ws types) {k : Nat} {v : ValueRef}
    (hk : vs[k]? = some v) : ∃ w, ws[k]? = some w ∧ t.typeOf w = s.typeOf v := by
  rw [List.forall₂_iff_get] at hv hw
  obtain ⟨hlt, rfl⟩ := List.getElem?_eq_some_iff.1 hk
  have htypes : k < types.length := hv.1 ▸ hlt
  have hlt' : k < ws.length := hw.1.symm ▸ htypes
  refine ⟨ws[k], List.getElem?_eq_getElem hlt', ?_⟩
  exact (hw.2 k hlt' htypes).trans (hv.2 k hlt htypes).symm

/-! ## What a hoist does to results and their uses -/

namespace Hoisted

variable {gone : OpRef → Prop} {o c : OpRef} {p : Point} {b : BlockRef} {before : Option OpRef}
  {sc si sr : Store} (h : Hoisted gone s o p b before c sc si sr t)

include h

/-- Old operations keep their entries, except that uses go over to the copy and that the one that
was moved leaves its block. -/
theorem entry_after {x : OpRef} {d : OpData} (hd : s.op? x = some d) : t.op? x = some { d with
    operands := redirectedOperands si (resultPairs si o c) x d.operands
    parent := if x = o then none else d.parent } := by
  obtain ⟨_, e', _, _, _, he', _, rfl⟩ := h.detached
  obtain ⟨hr, _, _⟩ := h.redirected
  have hsr : sr.op? x =
      some { d with operands := redirectedOperands si (resultPairs si o c) x d.operands } := by
    rw [hr.op?, h.placed.op? hd]
    rfl
  rw [op?_unlink he']
  by_cases hx : x = o
  · subst hx
    cases hsr.symm.trans he'
    rw [if_pos rfl, if_pos rfl]
  · rw [if_neg hx, if_neg hx, hsr]

theorem op? {x : OpRef} {d : OpData} (hd : s.op? x = some d) :
    ∃ e, t.op? x = some e ∧ e.results = d.results ∧ e.resultTypes = d.resultTypes ∧
      e.parent = if x = o then none else d.parent :=
  ⟨_, h.entry_after hd, rfl, rfl, rfl⟩

/-- The results of an operation that stays keep the uses that they have after the copying. -/
theorem usesOf_other {x : OpRef} (hx : x ≠ o) {k : Nat} {v : ValueRef}
    (hv : s.originOf v = some (.result x k)) : t.usesOf v = sc.usesOf v := by
  obtain ⟨_, _, _, _, _, _, _, rfl⟩ := h.detached
  obtain ⟨hr, _, _⟩ := h.redirected
  obtain ⟨a, ha, horigin⟩ := Option.map_eq_some_iff.1 hv
  have hsi : si.originOf v = some (.result x k) := by
    rw [Store.originOf, h.placed.value? ha, Option.map_some, horigin]
  -- the value is a result of neither the moved operation nor its copy
  have hnot : ∀ y, x ≠ y → v ∉ si.resultsOf y := by
    intro y hne hmem
    obtain ⟨j, hj⟩ := originOf_of_mem_results h.placed.kept_after.linked hmem
    exact hne (Origin.result.inj (Option.some.inj (hsi.symm.trans hj))).1
  have hc : x ≠ c := by
    obtain ⟨d, hd⟩ := op?_of_result h.placed.kept.linked hv
    exact h.placed.old_ne hd
  have hold : v ∉ (resultPairs si o c).map Prod.fst := fun hmem => by
    obtain ⟨q, hq, rfl⟩ := List.mem_map.1 hmem
    exact hnot o hx (List.of_mem_zip hq).1
  have hnew : v ∉ (resultPairs si o c).map Prod.snd := fun hmem => by
    obtain ⟨q, hq, rfl⟩ := List.mem_map.1 hmem
    exact hnot c hc (List.of_mem_zip hq).2
  show sr.usesOf v = sc.usesOf v
  rw [hr.usesOf_other v hold hnew, h.placed.usesOf]

theorem resultPairs_mem {k : Nat} {v w : ValueRef} (hv : (s.resultsOf o)[k]? = some v)
    (hw : (t.resultsOf c)[k]? = some w) : (v, w) ∈ resultPairs si o c := by
  obtain ⟨d, hd, _⟩ := h.entry
  obtain ⟨e, he, _⟩ := h.placed.op?_new
  obtain ⟨e', he', hresults⟩ := h.results he
  apply List.mem_of_getElem? (i := k)
  rw [resultPairs, List.getElem?_zip_eq_some, resultsOf_eq (h.placed.op? hd), resultsOf_eq he,
    ← hresults, ← resultsOf_eq hd, ← resultsOf_eq he']
  exact ⟨hv, hw⟩

/-- Result `k` of the copy has the uses that result `k` of the moved operation had. -/
theorem usesOf_moved {k : Nat} {v w : ValueRef} (hv : (s.resultsOf o)[k]? = some v)
    (hw : (t.resultsOf c)[k]? = some w) : ∃ added, t.usesOf w = s.usesOf v ++ added := by
  have hpair := h.resultPairs_mem hv hw
  have hunused : si.usesOf w = [] := h.unused hpair
  obtain ⟨_, _, _, _, _, _, _, rfl⟩ := h.detached
  obtain ⟨hr, _, _⟩ := h.redirected
  obtain ⟨added, hadded, _⟩ := h.placed.cloned.copied.usesOf v
  refine ⟨added, ?_⟩
  show sr.usesOf w = s.usesOf v ++ added
  rw [hr.usesOf_new (v, w) hpair, hunused, List.nil_append, h.placed.usesOf, hadded]

theorem typed {m : Renaming} {d : OpData} (hd : s.op? o = some d)
    (hclone : cloneOp [] o s = .ok ((c, m), sc)) :
    List.Forall₂ (fun v ty => t.typeOf v = .ok ty) (t.resultsOf c) d.resultTypes := by
  obtain ⟨e, he, hsc⟩ := h.placed.op?_new
  obtain ⟨e', he', hresults⟩ := h.results he
  rw [resultsOf_eq he', hresults, ← hsc]
  obtain ⟨_, _, _, _, _, _, _, rfl⟩ := h.detached
  obtain ⟨hr, _, _⟩ := h.redirected
  obtain ⟨_, _, _, _, _, _, _, _, _, _, rfl⟩ := insertOp_ok h.placed.insert
  refine typeOf_later (fun v a ha => ?_) (cloneOp_typed hd hclone)
  show sr.values[v.index]? = some a
  rw [hr.values]
  exact ha

end Hoisted

/-! ## Operations that stay while others are hoisted -/

/-- As long as an operation is in a block, it keeps its results, and the uses of these stand in
front of those that came. -/
def Rests (o : OpRef) (s t : Store) : Prop :=
  ∀ d, s.op? o = some d → ∃ e, t.op? o = some e ∧ e.results = d.results ∧
    e.resultTypes = d.resultTypes ∧ (e.parent ≠ none → d.parent ≠ none ∧
      ∀ v ∈ d.results, ∃ added, t.usesOf v = s.usesOf v ++ added)

theorem Rests.trans {o : OpRef} (h : Rests o s s₁) (h' : Rests o s₁ t) : Rests o s t := by
  intro d hd
  obtain ⟨d₁, hd₁, hresults, htypes, huses⟩ := h d hd
  obtain ⟨e, he, hresults', htypes', huses'⟩ := h' d₁ hd₁
  refine ⟨e, he, hresults'.trans hresults, htypes'.trans htypes, fun hattached => ?_⟩
  have hattached₁ := (huses' hattached).1
  refine ⟨(huses hattached₁).1, fun v hv => ?_⟩
  obtain ⟨added, heq⟩ := (huses hattached₁).2 v hv
  obtain ⟨added', heq'⟩ := (huses' hattached).2 v (hresults ▸ hv)
  exact ⟨added ++ added', by rw [heq', heq, List.append_assoc]⟩

/-- One hoist. -/
theorem HoistStep.rests {x y : Journal × Store} (h : HoistStep x y) (hx : Consistent x.2)
    (o : OpRef) : Consistent y.2 ∧ Rests o x.2 y.2 := by
  obtain ⟨source, p, c, _, h⟩ := h
  obtain ⟨⟨gone, hkept⟩, hg⟩ := hx
  obtain ⟨b, before, sc, si, sr, m, h, _, _⟩ := hoist_hoisted hkept hg h
  refine ⟨h.consistent, fun d hd => ?_⟩
  obtain ⟨e, he, hresults, htypes, hparent⟩ := h.op? hd
  refine ⟨e, he, hresults, htypes, fun hattached => ?_⟩
  have hne : o ≠ source := fun heq => hattached (hparent.trans (if_pos heq))
  refine ⟨fun hnone => hattached (hparent.trans ((if_neg hne).trans hnone)), fun v hv => ?_⟩
  obtain ⟨k, hk⟩ := originOf_of_mem_results h.placed.kept.linked (resultsOf_eq hd ▸ hv)
  obtain ⟨added, hadded, _⟩ := h.placed.cloned.copied.usesOf v
  exact ⟨added, (h.usesOf_other hne hk).trans hadded⟩

/-- Any number of hoists. -/
theorem Hoists.rests {x y : Journal × Store} (h : Hoists x y) (hx : Consistent x.2) (o : OpRef) :
    Consistent y.2 ∧ Rests o x.2 y.2 := by
  induction h with
  | refl =>
    refine ⟨hx, fun d hd => ⟨d, hd, rfl, rfl, fun hattached => ⟨hattached, fun v _ => ?_⟩⟩⟩
    exact ⟨[], (List.append_nil _).symm⟩
  | tail _ hstep ih =>
    obtain ⟨hy, hrests⟩ := ih
    obtain ⟨hz, hrests'⟩ := hstep.rests hy o
    exact ⟨hz, hrests.trans hrests'⟩

/-! ## The promoted value -/

/-- A promotion that succeeds leaves everything as it is, or its last step moves the operation that
defines the value. -/
theorem promote_some {v p : ValueRef} {forIndex : Bool}
    (h : promote v forIndex J s = .ok ((some p, J'), t)) :
    (p = v ∧ J' = J ∧ t = s) ∨ ∃ o k q c J₁ s₁, s.originOf v = some (.result o k) ∧
      Hoists (J, s) (J₁, s₁) ∧ hoist o q J₁ s₁ = .ok ((some c, J'), t) ∧
      (t.resultsOf c).head? = some p := by
  simp only [promote, Draft.bind_ok, Draft.lift_ok, Edit.get_run] at h
  obtain ⟨_, _, _, ⟨hget, rfl⟩, h⟩ := h
  cases hget
  generalize s.depthBound = n at h
  cases n with
  | zero => exact absurd h Draft.throw_ne_ok
  | succ n =>
    obtain ⟨hJ, ht, hr⟩ | ⟨o, free, points, J₁, s₁, hdef, _, _, havail, hrest⟩ := promoteFuel_ok h
    · rcases hr with hr | hr
      · cases hr
      · exact .inl ⟨Option.some.inj hr, hJ, ht⟩
    · obtain ⟨_, _, hr⟩ | ⟨ps, q, clone, _, _, hhoist, hr⟩ := hrest
      · cases hr
      · cases clone with
        | none => cases hr
        | some c =>
          obtain ⟨k, hk⟩ := definingOp?_some hdef
          exact .inr ⟨o, k, q, c, J₁, s₁, hk, (availabilityWith_ok (promoteFuel_hoists n) havail).1,
            hhoist, hr.symm⟩

/-- A promotion that succeeds has left everything as it is and returns the value itself; or it has
moved the operation that defines the value last.  Then result `k` of the copy has the type and all
uses of the value, where the value was result `k`; but what is returned is the first result of the
copy, so it is the one with the uses exactly if `k` is 0. -/
theorem promoted_value_is_first_result {v p : ValueRef} {forIndex : Bool} (hs : Consistent s)
    (hty : Typed s) (h : promote v forIndex J s = .ok ((some p, J'), t)) :
    (p = v ∧ J' = J ∧ t = s) ∨
      ∃ o k J₁ b before c w, s.originOf v = some (.result o k) ∧
        J' = J₁ ++ [.hoisted o b before c] ∧ (t.resultsOf c)[0]? = some p ∧
        (t.resultsOf c)[k]? = some w ∧ t.typeOf w = s.typeOf v ∧
        (∀ u ∈ s.usesOf v, t.slot? u = some w) ∧ (p = w ↔ k = 0) := by
  refine (promote_some h).imp id ?_
  rintro ⟨o, k, q, c, J₁, s₁, hv, hmoves, hhoist, hhead⟩
  obtain ⟨gone, hkept⟩ := hs.kept
  obtain ⟨hs₁, hrests⟩ := hmoves.rests hs o
  obtain ⟨⟨_, hkept₁⟩, hg₁⟩ := hs₁
  obtain ⟨b, before, sc, si, sr, m, h, hclone, hJ'⟩ := hoist_hoisted hkept₁ hg₁ hhoist
  have hkept' := h.kept_after
  -- the definition is still in its block when its turn comes, with its results as they were
  obtain ⟨l, hl⟩ := hkept.linked.results.holder hv
  obtain ⟨d, hd, rfl⟩ := Option.map_eq_some_iff.1 hl
  obtain ⟨d₁, hd₁, hresults, htypes, huses⟩ := hrests d hd
  have hattached : d₁.parent ≠ none := by
    obtain ⟨d', hd', hparent⟩ := h.entry
    cases hd₁.symm.trans hd'
    simp [hparent]
  have hvk : d.results[k]? = some v := (hkept.linked.results.mem_iff hl k v).2 hv
  obtain ⟨added, hadded⟩ := (huses hattached).2 v (List.mem_of_getElem? hvk)
  obtain ⟨w, hw, htype⟩ := typed_pair (hty o d hd) (htypes ▸ h.typed hd₁ hclone) hvk
  obtain ⟨added', hadded'⟩ := h.usesOf_moved (by rw [resultsOf_eq hd₁, hresults, hvk]) hw
  have hp : (t.resultsOf c)[0]? = some p := by rw [← List.head?_eq_getElem?, hhead]
  refine ⟨o, k, J₁, b, before, c, w, hv, hJ', hp, hw, htype, fun u hu => ?_, fun hpw => ?_,
    fun hk => ?_⟩
  · apply hkept'.uses.pointsBack w u
    rw [hadded', hadded]
    simp [hu]
  · have hlt : 0 < (t.resultsOf c).length := (List.getElem?_eq_some_iff.1 hp).1
    have hsame : (t.resultsOf c)[0]? = (t.resultsOf c)[k]? := by rw [hp, hw, hpw]
    exact ((List.getElem?_inj hlt (results_nodup hkept'.linked c)).1 hsame).symm
  · subst hk
    exact Option.some.inj (hp.symm.trans hw)

/-! ## Programs that were built -/

theorem Typed.setOp (h : Typed s) {o : OpRef} {d e : OpData} (hd : s.op? o = some d)
    (hresults : e.results = d.results) (htypes : e.resultTypes = d.resultTypes) :
    Typed (s.setOp o e) := by
  intro x dx hx
  rw [op?_setOp hd] at hx
  split at hx
  · cases hx
    rw [hresults, htypes]
    exact h o d hd
  · exact h x dx hx

theorem Typed.copyStepsKeep : CopyStepsKeep Typed where
  createOp spec s o t hs h := by
    have hc := createOp_ok h
    intro x e he
    rw [hc.op?] at he
    split at he
    · cases he
      exact Created.typed hc
    · exact typeOf_later (fun v a => value?_append hc.values) (hs x e he)
  createBlock types s b t hs h := by
    have hc := createBlock_ok h
    intro x e he
    rw [Store.op?, hc.ops] at he
    exact typeOf_later (fun v a => value?_append hc.values) (hs x e he)
  createRegion bs s r t hs h := by
    have hc := createRegion_ok h
    intro x e he
    rw [Store.op?, hc.ops] at he
    refine typeOf_later (fun v a ha => ?_) (hs x e he)
    rw [Store.value?, hc.values]
    exact ha
  pushOp b o s u t hs h := by
    rw [pushOp_eq_insertOp] at h
    obtain ⟨d, _, _, _, hd, _, _, _, _, _, rfl⟩ := insertOp_ok h
    exact hs.setOp (e := { d with parent := some b }) hd rfl rfl
  retargetSuccessors pairs o s u t hs h := by
    obtain ⟨d, successors, hd, rfl⟩ := retargetSuccessors_ok h
    exact hs.setOp hd rfl rfl

section Built

variable {tree : Surface.Op} {root : OpRef} {scope : Scope}
  (h : buildOp Scope.empty tree Store.empty = .ok (.ok (root, scope), s))

include h

theorem Consistent.of_built : Consistent s :=
  ⟨⟨_, kept_of_read h⟩, grounded_of_read h⟩

theorem Typed.of_built : Typed s := by
  refine Typed.copyStepsKeep.buildOp tree Scope.empty _ _ s (fun o d hd => ?_) h
  rw [op?_empty] at hd
  cases hd

end Built

/-- The second result of a conditional in a loop, of type `core.i1`, is promoted: what is returned
is the first one, an index. -/
theorem conditional_promoted :
    let yield := Surface.Op.plain scfYieldName [] ["a", "b"] [] []
    let conditional := Surface.Op.plain scfIfName ["x", "y"] ["b"] [.index, .i1] [[yield], [yield]]
    let use := Surface.Op.plain ⟨"test", "use"⟩ [] ["y"] [] []
    let loop := Surface.Op.plain ⟨"test", "loop"⟩ [] [] [] [[conditional, use]]
    let tree := Surface.Op.program [⟨"a", .index⟩, ⟨"b", .i1⟩] [loop]
    ∃ root scope s J t, buildOp Scope.empty tree Store.empty = .ok (.ok (root, scope), s) ∧
      promote ⟨3⟩ false [] s = .ok ((some ⟨4⟩, J), t) ∧
      s.originOf ⟨3⟩ = some (.result ⟨2⟩ 1) ∧ t.originOf ⟨4⟩ = some (.result ⟨9⟩ 0) :=
  ⟨⟨6⟩, _, _, _, _, by cbv, by cbv, by cbv, by cbv⟩

theorem promoted_value_is_first_result_conditional :
    ∃ s J t, Consistent s ∧ Typed s ∧ promote ⟨3⟩ false [] s = .ok ((some ⟨4⟩, J), t) ∧
      ∃ c w, (t.resultsOf c)[0]? = some ⟨4⟩ ∧ (t.resultsOf c)[1]? = some w ∧ w ≠ ⟨4⟩ ∧
        t.typeOf w = s.typeOf ⟨3⟩ ∧ ∀ u ∈ s.usesOf ⟨3⟩, t.slot? u = some w := by
  obtain ⟨root, scope, s, J, t, hbuild, hpromote, hv, _⟩ := conditional_promoted
  have hs := Consistent.of_built hbuild
  have hty := Typed.of_built hbuild
  refine ⟨s, J, t, hs, hty, hpromote, ?_⟩
  obtain ⟨hp, _⟩ | ⟨o, k, _, _, _, c, w, hv', _, hp, hw, htype, huses, hsame⟩ :=
    promoted_value_is_first_result hs hty hpromote
  · cases hp
  · cases hv.symm.trans hv'
    refine ⟨c, w, hp, hw, fun heq => ?_, htype, huses⟩
    exact absurd (hsame.1 heq.symm) (by decide)

/-- A promotion need not return the copy of the value that it was asked for: not the result with the
same number. -/
theorem promoted_value_differs :
    ¬ ∀ {s t : Store} {v p : ValueRef} {forIndex : Bool} {J J' : Journal}, Consistent s → Typed s →
      promote v forIndex J s = .ok ((some p, J'), t) →
      p = v ∨ ∃ o c k, s.originOf v = some (.result o k) ∧ t.originOf p = some (.result c k) := by
  intro hclaim
  obtain ⟨root, scope, s, J, t, hbuild, hpromote, hv, hp⟩ := conditional_promoted
  obtain hsame | ⟨o, c, k, hv', hp'⟩ :=
    hclaim (Consistent.of_built hbuild) (Typed.of_built hbuild) hpromote
  · cases hsame
  · rw [hv] at hv'
    rw [hp] at hp'
    cases hv'
    cases hp'

end AffineRaising.Raise
