/-
# AffineRaising.Proofs.Transform.DeadCode — removing dead code is exact.

In a module that passes the check, the first sweep takes all operations that nobody needs, and what
it leaves passes the check again.  So the second sweep finds nothing: removing dead code comes to an
end after two sweeps at most, and it takes exactly the trees of removable operations whose results
no operation that is left uses (`dead_code_removed_exactly`).
-/
import AffineRaising.Proofs.Transform.Sweep

namespace AffineRaising.Transform

open AffineRaising.IR AffineRaising.IR.Store AffineRaising.Ops AffineRaising.Analysis

variable {gone Q : OpRef → Prop} {s t : Store} {root o x : OpRef} {v : ValueRef} {n : Nat}

/-! ## Modules that pass the check -/

section Checked

variable (hl : Linked s) (hp : PointsBack s) (hac : Acyclic s)
  (hcheck : check s root = .ok ⟨[], [], []⟩)

include hcheck in
theorem root_of_check : ∃ d, s.op? root = some d := by
  obtain ⟨huses, _⟩ := check_eq_clean.1 hcheck
  simp only [useFlaws, bodyOps, except_bind_ok, op_ok] at huses
  obtain ⟨_, ⟨d, hd, _⟩, _⟩ := huses
  exact ⟨d, hd⟩

include hl hp hac hcheck

/-- In a module that passes the check, whoever uses a result sees it. -/
theorem resultsSeen_of_check (hx : InBody s root x) : ResultsSeen s x := by
  obtain ⟨huses, hvisible, _⟩ := check_eq_clean.1 hcheck
  intro v hv u hu
  obtain ⟨d, hd⟩ := op?_of_inBody hl hx
  have hmentions : Mentions s x v := ⟨d, hd, .inr (.inl (resultsOf_eq hd ▸ hv))⟩
  obtain ⟨e, he, hslot⟩ := Option.bind_eq_some_iff.1 (hp v u hu)
  exact sees_of_visibilityFlaws hl hac hvisible (inBody_of_useFlaws hl hac huses hx hmentions hu) he
    (List.mem_of_getElem? hslot)

end Checked

/-! ## What a sweep leaves -/

theorem thinned_of_erased {out : List OpRef} (he : Erased s out t) : Thinned s (· ∈ out) t where
  op? x d hd := ⟨_, (he.op? x).trans (congrArg _ hd), by split <;> rfl⟩
  region? := he.region?
  block? b d hd := by
    refine ⟨_, (he.block? b).trans (congrArg _ hd), List.filter_sublist, fun l hl hout => ?_⟩
    have hkept := hl.filter (· ∉ out)
    rwa [List.filter_eq_self.2 fun y hy => by simpa using hout y hy] at hkept
  originOf := he.originOf

/-- What is left mentions what it did before. -/
theorem mentions_of_erased {out : List OpRef} (he : Erased s out t) (h : Mentions t x v) :
    Mentions s x v := by
  have hentry : ∀ {y e}, t.op? y = some e → ∃ d, s.op? y = some d ∧ d.operands = e.operands ∧
      d.results = e.results ∧ d.regions = e.regions := by
    intro y e hy
    rw [he.op?] at hy
    obtain ⟨d, hd, rfl⟩ := Option.map_eq_some_iff.1 hy
    split <;> exact ⟨d, hd, rfl, rfl, rfl⟩
  obtain ⟨e, hx, hv⟩ := h
  obtain ⟨d, hd, hoperands, hresults, _⟩ := hentry hx
  refine ⟨d, hd, ?_⟩
  rw [hoperands, hresults]
  refine hv.imp_right (Or.imp_right ?_)
  rintro ⟨b, bd, ⟨e', hx', r, hr, rd, hrd, hb⟩, hbd, harg⟩
  obtain ⟨d', hd', _, _, hregions⟩ := hentry hx'
  rw [he.region?] at hrd
  rw [he.block?] at hbd
  obtain ⟨bd', hbd', rfl⟩ := Option.map_eq_some_iff.1 hbd
  exact ⟨b, bd', ⟨d', hd', r, hregions ▸ hr, rd, hrd, hb⟩, hbd', harg⟩

namespace Swept

section Left

variable (h : Swept s Q t)

include h

theorem op?_left (hx : ¬ UnderAny s Q x) : t.op? x = s.op? x := by
  obtain ⟨out, he, hout⟩ := h.clears
  exact he.op?_left fun hmem => hx ((hout x).1 hmem)

/-- What is left in the body is what was not taken out of it. -/
theorem inBody_iff : InBody t root x ↔ InBody s root x ∧ ¬ UnderAny s Q x := by
  obtain ⟨out, he, hout⟩ := h.clears
  have hout : ∀ y, y ∈ out ↔ UnderAny s Q y := hout
  constructor
  · rintro ⟨e, hroot, r, hr, y, hy, hyx⟩
    obtain ⟨hy', hyout⟩ := he.inRegions_iff.1 hy
    rw [he.op?] at hroot
    obtain ⟨d, hd, rfl⟩ := Option.map_eq_some_iff.1 hroot
    refine ⟨⟨d, hd, r, by split at hr <;> exact hr, y, hy', he.within_of_within hyx⟩, ?_⟩
    rw [← hout]
    rcases Relation.ReflTransGen.cases_tail hyx with rfl | ⟨z, _, hzx⟩
    · exact hyout
    · exact (he.child_iff.1 hzx).2
  · rintro ⟨⟨d, hd, r, hr, y, hy, hyx⟩, hx⟩
    have hyout : y ∉ out := fun hmem => hx (((hout y).1 hmem).within hyx)
    refine ⟨_, (he.op? root).trans (congrArg _ hd), r, by split <;> exact hr, y,
      he.inRegions_iff.2 ⟨hy, hyout⟩, (h.within_or_gone hyx).resolve_right hx⟩

/-- Whoever uses a result of what is gone is gone. -/
theorem user_gone (hl : Linked s) (hseen : ResultsSeen s o) (ho : UnderAny s Q o)
    (hv : v ∈ s.resultsOf o) {u : Use} (hu : u ∈ s.usesOf v) : UnderAny s Q u.user := by
  obtain ⟨p, hpp, hpo⟩ := ho
  rcases Relation.reflTransGen_iff_eq_or_transGen.1 hpo with rfl | hproper
  · exact h.users o hpp v hv u hu
  · obtain ⟨k, hk⟩ := originOf_of_mem_results hl hv
    obtain ⟨a, hau, hoa⟩ := (hseen v hv u hu).reaches hk
    exact ⟨p, hpp, (Behind.enclosed hl ⟨a, hoa, hau⟩ hproper).to_reflTransGen⟩

/-- Nothing can go in the store that is left but what could go in the state of the sweep. -/
theorem doomed_left (hx : Doomed t (fun _ => False) x) : Doomed s Q x := by
  refine ⟨h.removable_iff.1 hx.1, fun v hv => h.usesOf_eq_nil.1 ?_⟩
  rw [← h.resultsOf] at hv
  exact (Swept.refl t).usesOf_eq_nil.2 (hx.2 v hv)

end Left

section Checked

variable (hk : Kept s gone) (hac : Acyclic s) (hcheck : check s root = .ok ⟨[], [], []⟩)
  (h : Swept s Q t) (hbody : ∀ p, Q p → InBody s root p)

include hk hac hcheck h

/-- An operation that is left uses no result of one that is gone. -/
theorem operand_left (ho : InBody s root o) (hgone : UnderAny s Q o) (hv : v ∈ s.resultsOf o)
    (hx : InBody t root x) {e : OpData} (he : t.op? x = some e) : v ∉ e.operands := by
  intro hmem
  have hp := hk.uses.pointsBack
  obtain ⟨hxs, hleft⟩ := h.inBody_iff.1 hx
  rw [h.op?_left hleft] at he
  obtain ⟨i, hi⟩ := List.mem_iff_getElem?.1 hmem
  have hused := recorded_of_useFlaws hk.linked hac (check_eq_clean.1 hcheck).1 hxs he hi
  exact hleft (h.user_gone hk.linked (resultsSeen_of_check hk.linked hp hac hcheck ho) hgone hv
    hused)

/-- What an operation sees that is left, it sees again. -/
theorem sees_left (hbody : ∀ o, UnderAny s Q o → InBody s root o) (hx : InBody t root x)
    {e : OpData} (he : t.op? x = some e) (hv : v ∈ e.operands) : Sees t v x := by
  obtain ⟨hxs, hleft⟩ := h.inBody_iff.1 hx
  have he' := (h.op?_left hleft).symm.trans he
  have hsees := sees_of_visibilityFlaws hk.linked hac (check_eq_clean.1 hcheck).2.1 hxs he' hv
  obtain ⟨out, hout, hmem⟩ := h.clears
  refine (thinned_of_erased hout).sees hsees (fun y hyx hy => ?_) fun o k ho hgone => ?_
  · have hygone : UnderAny s Q y := (hmem y).1 hy
    exact hleft (hygone.within hyx)
  · have hogone : UnderAny s Q o := (hmem o).1 hgone
    obtain ⟨l, hlist⟩ := hk.linked.results.holder ho
    obtain ⟨d, hd, rfl⟩ := Option.map_eq_some_iff.1 hlist
    have hres : v ∈ s.resultsOf o := by
      rw [resultsOf_eq hd]
      exact List.mem_of_getElem? ((hk.linked.results.mem_iff (a := o) hlist k v).2 ho)
    exact h.operand_left hk hac hcheck (hbody o hogone) hogone hres hx he hv

include hbody

/-- What a sweep leaves of a module that passes the check passes it again. -/
theorem check_left : check t root = .ok ⟨[], [], []⟩ := by
  have hl := hk.linked
  have hp := hk.uses.pointsBack
  have hl' := h.clears.linked hl
  have hac' := h.acyclic hac
  have hunder : ∀ o, UnderAny s Q o → InBody s root o := by
    rintro o ⟨p, hpp, hpo⟩
    obtain ⟨d, hd, r, hr, y, hy, hyp⟩ := hbody p hpp
    exact ⟨d, hd, r, hr, y, hy, hyp.trans hpo⟩
  obtain ⟨huses, hvisible, harity⟩ := check_eq_clean.1 hcheck
  obtain ⟨out, he, hmem⟩ := id h.clears
  have hmem : ∀ y, y ∈ out ↔ UnderAny s Q y := hmem
  obtain ⟨d, hd⟩ := root_of_check hcheck
  have hd' := (he.op? root).trans (congrArg _ hd)
  refine check_eq_clean.2 ⟨?_, ?_, ?_⟩
  · refine useFlaws_eq_nil hl' hac' (h.clears.pointsBack hp) hd' (fun x e i v hx hxe hv => ?_)
      fun x v u hx hv hu => ?_
    · obtain ⟨hxs, hleft⟩ := h.inBody_iff.1 hx
      rw [h.op?_left hleft] at hxe
      have hused := recorded_of_useFlaws hl hac huses hxs hxe hv
      rw [he.usesOf]
      exact List.mem_filter.2 ⟨hused, by simpa [hmem] using hleft⟩
    · obtain ⟨hxs, hleft⟩ := h.inBody_iff.1 hx
      rw [he.usesOf] at hu
      obtain ⟨hused, hstays⟩ := List.mem_filter.1 hu
      have hinside := inBody_of_useFlaws hl hac huses hxs (mentions_of_erased he hv) hused
      exact h.inBody_iff.2 ⟨hinside, by simpa [hmem] using hstays⟩
  · exact visibilityFlaws_eq_nil hl' hac' hd' fun x e v hx hxe hv =>
      h.sees_left hk hac hcheck hunder hx hxe hv
  · refine arityFlaws_eq_nil hl' hac' hd' fun x hx => ?_
    obtain ⟨hxs, hleft⟩ := h.inBody_iff.1 hx
    obtain ⟨e, hxe⟩ := op?_of_inBody hl hxs
    rw [affineArity_congr hxe ((h.op?_left hleft).trans hxe)]
    exact affineArity_of_arityFlaws hl hac harity hxs

end Checked

end Swept

/-! ## Exactness -/

section Exact

variable (hk : Kept s gone) (hac : Acyclic s) (hcheck : check s root = .ok ⟨[], [], []⟩)

include hk hac hcheck

/-- The first sweep takes everything that is dead, so the second one finds nothing. -/
theorem removeDeadCode_sweeps : ∃ report t Q n, removeDeadCode defaultSweeps true root s =
      .ok (report, t) ∧ report.reachedFixpoint = true ∧ report.iterations ≤ 2 ∧
      Takes s (InBody s root) (fun _ => False) Q n t := by
  have hp := hk.uses.pointsBack
  obtain ⟨d, hd⟩ := root_of_check hcheck
  obtain ⟨n, t, Q, hfirst, htakes⟩ := sweepModule_sweeps hk.linked hp hac hd fun x hx =>
    resultsSeen_of_check hk.linked hp hac hcheck hx
  by_cases hn : n = 0
  · subst hn
    exact ⟨⟨0, 1, true⟩, t, Q, 0, sweepUntilClean_last 99 0 0 hfirst, rfl, by decide, htakes⟩
  have hs := htakes.swept
  have hbody : ∀ p, Q p → InBody s root p := fun p hpp => (htakes.only p hpp).resolve_left id
  have hl' := hs.clears.linked hk.linked
  have hp' := hs.clears.pointsBack hp
  have hcheck' := hs.check_left hk hac hcheck hbody
  obtain ⟨d', hd'⟩ := root_of_check hcheck'
  obtain ⟨n', t', Q', hsecond, htakes'⟩ := sweepModule_sweeps hl' hp' (hs.acyclic hac) hd'
    fun x hx => resultsSeen_of_check hl' hp' (hs.acyclic hac) hcheck' hx
  obtain ⟨rfl, -⟩ := htakes'.idle fun x hx hdoomed => by
    obtain ⟨hxs, hleft⟩ := hs.inBody_iff.1 hx
    exact (htakes.quiet x hxs).resolve_left hleft (hs.doomed_left hdoomed)
  cases sweepModule_same hsecond
  refine ⟨⟨0 + n, 2, true⟩, t, Q, n, ?_, rfl, Nat.le_refl 2, htakes⟩
  exact (sweepUntilClean_next 99 0 0 hfirst hn).trans (sweepUntilClean_last 98 (0 + n) 1 hsecond)

/-- Removing dead code from a module that passes the check reaches its fixpoint with the second
sweep at the latest.  It leaves no removable operation whose results are all unused; what it takes
lies in the trees of removable operations whose results nobody uses who is left; all other
operations keep their entries, with blocks, operands and attributes, and their order; and the check
passes again. -/
theorem dead_code_removed_exactly :
    ∃ report t, removeDeadCode defaultSweeps true root s = .ok (report, t) ∧
      report.reachedFixpoint = true ∧ report.iterations ≤ 2 ∧
      (∀ x, InBody t root x → Removable t x → ∃ v ∈ t.resultsOf x, t.usesOf v ≠ []) ∧
      (∃ removed : List OpRef,
        (∀ x, InBody t root x ↔ InBody s root x ∧ x ∉ removed) ∧
        (∀ x ∈ removed, InBody s root x ∧ ∃ p ∈ removed, Within s p x ∧ Removable s p ∧
          ∀ v ∈ s.resultsOf p, ∀ y e, InBody t root y → t.op y = .ok e → v ∉ e.operands) ∧
        (∀ x d, x ∉ removed → s.op x = .ok d → t.op x = .ok d) ∧
        ∀ b bd, s.block b = .ok bd → t.block b =
          .ok { bd with ops := bd.ops.filter (· ∉ removed) }) ∧
      check t root = .ok ⟨[], [], []⟩ := by
  obtain ⟨report, t, Q, n, hrun, hfix, hiterations, htakes⟩ := removeDeadCode_sweeps hk hac hcheck
  have hs := htakes.swept
  have hbody : ∀ p, Q p → InBody s root p := fun p hpp => (htakes.only p hpp).resolve_left id
  obtain ⟨removed, he, hremoved⟩ := id hs.clears
  have hremoved : ∀ x, x ∈ removed ↔ UnderAny s Q x := hremoved
  refine ⟨report, t, hrun, hfix, hiterations, fun x hx hremovable => ?_, ⟨removed, fun x => ?_,
    fun x hx => ?_, fun x d hx hd => ?_, fun b bd hb => ?_⟩, hs.check_left hk hac hcheck hbody⟩
  · obtain ⟨hxs, hleft⟩ := hs.inBody_iff.1 hx
    by_contra hunused
    refine (htakes.quiet x hxs).resolve_left hleft (hs.doomed_left ⟨hremovable, fun v hv => ?_⟩)
    have hnil : t.usesOf v = [] := by
      by_contra hne
      exact hunused ⟨v, hv, hne⟩
    simp [hnil]
  · rw [hs.inBody_iff, hremoved]
  · obtain ⟨p, hpp, hpx⟩ := (hremoved x).1 hx
    obtain ⟨d, hd, r, hr, y, hy, hyp⟩ := hbody p hpp
    have hpgone : UnderAny s Q p := ⟨p, hpp, .refl⟩
    refine ⟨⟨d, hd, r, hr, y, hy, hyp.trans hpx⟩, p, (hremoved p).2 hpgone, hpx,
      hs.removable p hpp, fun v hv y e hy hye => ?_⟩
    exact hs.operand_left hk hac hcheck (hbody p hpp) hpgone hv hy (op_ok.1 hye)
  · rw [op_ok] at hd ⊢
    rw [hs.op?_left fun hgone => hx ((hremoved x).2 hgone), hd]
  · rw [block_ok] at hb ⊢
    rw [he.block?, hb]
    rfl

end Exact

/-- A dead conditional uses the first sum in its regions, and a dead product in a loop uses the
second one: with them the sums go. -/
theorem cascade_swept :
    let first := Surface.Op.plain ArithKind.add.opName ["x"] ["a", "a"] [.index] []
    let yield := Surface.Op.plain scfYieldName [] ["x"] [] []
    let conditional := Surface.Op.plain scfIfName ["r"] ["c"] [.index] [[yield], [yield]]
    let second := Surface.Op.plain ArithKind.add.opName ["k"] ["a", "a"] [.index] []
    let product := Surface.Op.plain ArithKind.mul.opName ["p"] ["k", "i"] [.index] []
    let tree := Surface.Op.program [⟨"a", .index⟩, ⟨"c", .i1⟩]
      [first, conditional, second, Surface.Op.loop [product],
        Surface.Op.plain returnName [] ["a"] [] []]
    ∃ root scope s t, buildOp Scope.empty tree Store.empty = .ok (.ok (root, scope), s) ∧
      check s root = .ok ⟨[], [], []⟩ ∧
      removeDeadCode defaultSweeps true root s = .ok (⟨4, 2, true⟩, t) :=
  ⟨⟨10⟩, _, _, _, by cbv, by cbv, by cbv⟩

theorem dead_code_removed_exactly_cascade :
    ∃ tree root scope s t, buildOp Scope.empty tree Store.empty = .ok (.ok (root, scope), s) ∧
      check s root = .ok ⟨[], [], []⟩ ∧
      removeDeadCode defaultSweeps true root s = .ok (⟨4, 2, true⟩, t) ∧
      (∀ x, InBody t root x → Removable t x → ∃ v ∈ t.resultsOf x, t.usesOf v ≠ []) ∧
      check t root = .ok ⟨[], [], []⟩ := by
  obtain ⟨root, scope, s, t, hbuild, hcheck, hswept⟩ := cascade_swept
  obtain ⟨report, t', hrun, _, _, hnone, _, hcheck'⟩ :=
    dead_code_removed_exactly (kept_of_read hbuild) (acyclic_of_read hbuild) hcheck
  cases hrun.symm.trans hswept
  exact ⟨_, root, scope, s, t, hbuild, hcheck, hswept, hnone, hcheck'⟩

end AffineRaising.Transform
