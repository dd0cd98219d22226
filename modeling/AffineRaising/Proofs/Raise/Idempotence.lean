/-
# AffineRaising.Proofs.Raise.Idempotence — raising what is raised changes nothing.

A run ends with a visit in which no pattern applies, and then removes dead operations.  A second run
begins with a visit to what is left.

* If nothing was removed, this visit is the last one of the first run again, but for entries that
  tried and undone moves have left in the tables (`applyPatterns_again`).
* If something was removed that no pattern looked at (`TakesUnseen`), the patterns find in what is
  left what they found before (`visitModule_pruned`).  The arithmetic of a subscript that was folded
  into a map goes in this way: nobody uses it any more, and it stands in no operation that a pattern
  has to judge as a whole.

In both cases the second run makes one visit and one sweep, and changes nothing: `legalize_again`.
In general it does not, since nothing goes back to the patterns after the removal
(`legalize_again_changes`): a conditional counts as a symbol once the dead operation in it is gone.

The proof that the visit can be repeated follows the visit.  Its parts leave the store as it is,
because the visit as a whole does and each part restores what it found; so each pattern rests, and
rests in the pruned module too (`patterns_resting`).  What went is passed over.
-/
import AffineRaising.Proofs.Raise.Fixpoint
import AffineRaising.Proofs.Raise.Resting
import AffineRaising.Proofs.Store.Printed

namespace AffineRaising.Raise

open AffineRaising.IR AffineRaising.IR.Store AffineRaising.Ops AffineRaising.Analysis
open AffineRaising.Transform

variable {α : Type} {sided : Prop} {gone : OpRef → Prop} {out : List OpRef} {ps : List Pattern}
  {s s' t : Store} {root o x : OpRef} {b : BlockRef}

/-! ## Visits that rest -/

/-- Nothing is missing from a module of which nothing was taken. -/
theorem Pruned.refl (hs : Sound sided root gone (fun _ => False) s) :
    Pruned sided root gone [] s s where
  sound := hs
  erased := .refl s
  trees _ _ hx := absurd hx List.not_mem_nil
  unused _ _ _ _ _ _ _ _ _ := List.not_mem_nil
  holders _ _ _ _ _ hy := absurd hy List.not_mem_nil
  casts _ _ _ ho := absurd ho List.not_mem_nil

theorem sumM_resting {f : α → Edit Nat} (hrecovers : ∀ a s t, f a s = .ok (0, t) → Recovers s t)
    (hs : Consistent s) {l : List α} (hf : ∀ a ∈ l, Resting 0 s t (f a)) :
    Resting 0 s t (sumM f l) := by
  induction l with
  | nil => exact .pure 0
  | cons a l ih =>
    obtain ⟨hfirst, hrest⟩ := List.forall_mem_cons.1 hf
    intro s' hrun hback
    obtain ⟨s₁, ha, hl⟩ := sumM_zero.1 hrun
    obtain ⟨_, hs₁⟩ := hrecovers a s s₁ ha hs
    obtain ⟨hrestores, _⟩ := sumM_within .refl .trans hrecovers l s₁ s' hl hs₁
    obtain ⟨rfl, ha'⟩ := hfirst s₁ ha (hrestores.trans hback)
    obtain ⟨rfl, hl'⟩ := ih hrest s' hl hback
    exact ⟨rfl, sumM_zero.2 ⟨t, ha', hl'⟩⟩

section Visits

variable (hrestoring : ∀ pattern ∈ ps, ∀ op, Restoring (pattern op)) (hs : Consistent s)

include hrestoring hs

theorem applyFirst_resting (hps : ∀ pattern ∈ ps, Resting .none s t (pattern x)) :
    Resting false s t (applyFirst x ps) := by
  induction ps with
  | nil => exact .pure false
  | cons pattern ps ih =>
    obtain ⟨hfirst, hrest⟩ := List.forall_mem_cons.1 hps
    obtain ⟨hrestores, hlater⟩ := List.forall_mem_cons.1 hrestoring
    intro s' hrun hback
    obtain ⟨s₁, ha, hl⟩ := applyFirst_false.1 hrun
    obtain ⟨_, hs₁⟩ := hrestores x s s₁ hs ha
    obtain ⟨hback₁, _⟩ := applyFirst_recovers hlater hl hs₁
    obtain ⟨rfl, ha'⟩ := hfirst s₁ ha (hback₁.trans hback)
    obtain ⟨rfl, hl'⟩ := ih hlater hrest s' hl hback
    exact ⟨rfl, applyFirst_false.2 ⟨t, ha', hl'⟩⟩

/-- The regions of an operation are visited before the operation. -/
theorem visitOpWith_resting {visit : RegionRef → Edit Nat}
    (hrecovers : ∀ r s t, visit r s = .ok (0, t) → Recovers s t) (hop : t.op? x = s.op? x)
    (hvisit : ∀ d, s.op? x = some d → ∀ r ∈ d.regions, Resting 0 s t (visit r))
    (hps : ∀ pattern ∈ ps, Resting .none s t (pattern x)) :
    Resting 0 s t (visitOpWith visit ps b x) := by
  intro s' hrun hback
  obtain ⟨d, hd, ⟨hne, rfl⟩ | ⟨hparent, s₁, d₁, hnested, hd₁, hend⟩⟩ := visitOpWith_zero.1 hrun
  · exact ⟨rfl, visitOpWith_zero.2 ⟨d, hop.trans hd, .inl ⟨hne, rfl⟩⟩⟩
  obtain ⟨_, hs₁⟩ := sumM_within .refl .trans hrecovers d.regions s s₁ hnested hs
  have hrestores : Restores s₁ s' := by
    rcases hend with ⟨_, rfl⟩ | ⟨_, hfirst⟩
    · exact .refl _
    · exact (applyFirst_recovers hrestoring hfirst hs₁).1
  obtain ⟨rfl, hnested'⟩ :=
    sumM_resting hrecovers hs (hvisit d hd) s₁ hnested (hrestores.trans hback)
  cases hd.symm.trans hd₁
  have hd' := hop.trans hd
  rcases hend with ⟨hne, rfl⟩ | ⟨_, hfirst⟩
  · exact absurd hparent hne
  · obtain ⟨rfl, hfirst'⟩ := applyFirst_resting hrestoring hs hps s' hfirst hback
    exact ⟨rfl, visitOpWith_zero.2
      ⟨d, hd', .inr ⟨hparent, t, d, hnested', hd', .inr ⟨hparent, hfirst'⟩⟩⟩⟩

end Visits

/-- A visit to a block passes over what went, where it did nothing. -/
theorem sumM_pruned {f : OpRef → Edit Nat}
    (hrecovers : ∀ x s t, f x s = .ok (0, t) → Recovers s t) (hs : Consistent s) {l : List OpRef}
    (hleft : ∀ x ∈ l, x ∉ out → Resting 0 s t (f x))
    (hgone : ∀ x ∈ l, x ∈ out → Resting 0 s s (f x)) :
    ∀ {s'}, sumM f l s = .ok (0, s') → Restores s' s →
      s' = s ∧ sumM f (l.filter (· ∉ out)) t = .ok (0, t) := by
  induction l with
  | nil =>
    intro s' hrun _
    cases hrun
    exact ⟨rfl, rfl⟩
  | cons x l ih =>
    intro s' hrun hback
    obtain ⟨hfirst, hleft⟩ := List.forall_mem_cons.1 hleft
    obtain ⟨hfirst', hgone⟩ := List.forall_mem_cons.1 hgone
    obtain ⟨s₁, hx, hl⟩ := sumM_zero.1 hrun
    obtain ⟨_, hs₁⟩ := hrecovers x s s₁ hx hs
    obtain ⟨hrestores, _⟩ := sumM_within .refl .trans hrecovers l s₁ s' hl hs₁
    have hback₁ := hrestores.trans hback
    by_cases hout : x ∈ out
    · obtain ⟨rfl, _⟩ := hfirst' hout s₁ hx hback₁
      rw [List.filter_cons_of_neg (by simpa using hout)]
      exact ih hleft hgone hl hback
    · obtain ⟨rfl, hx'⟩ := hfirst hout s₁ hx hback₁
      obtain ⟨rfl, hl'⟩ := ih hleft hgone hl hback
      rw [List.filter_cons_of_pos (by simpa using hout)]
      exact ⟨rfl, sumM_zero.2 ⟨t, hx', hl'⟩⟩

section Pruned

variable (h : Pruned sided root gone out s t)

include h

/-- A region whose operations are nested in the module is visited without a change again, if that is
so for what went. -/
theorem visitWithin_resting (hrestoring : ∀ pattern ∈ ps, ∀ op, Restoring (pattern op))
    (hps : ∀ x, Remains root out s x → ∀ pattern ∈ ps, Resting .none s t (pattern x))
    (hgone : ∀ n b x, x ∈ out → Nested s root x →
      Resting 0 s s (visitOpWith (visitWithin ps n) ps b x)) (n : Nat) :
    ∀ r, (∀ y, InRegions s [r] y → Nested s root y) → Resting 0 s t (visitWithin ps n r) := by
  have hs := h.sound.consistent
  induction n with
  | zero =>
    intro r _ s' hrun
    cases hrun
  | succ n ih =>
    intro r hr
    have hrecovers := visitOpWith_recovers hrestoring (visitWithin_recovers hrestoring n)
    refine .query (h.region r) fun d hd => sumM_resting (fun b s t hb => ?_) hs fun b hb => ?_
    · obtain ⟨bd, _, hb⟩ := Edit.query_bind.1 hb
      exact sumM_within .refl .trans (hrecovers b) bd.ops s t hb
    intro s' hrun hback
    obtain ⟨bd, hbd, hrun⟩ := Edit.query_bind.1 hrun
    have hbd := block_ok.1 hbd
    have hnested : ∀ x ∈ bd.ops, Nested s root x := fun x hx =>
      hr x ⟨r, List.mem_singleton_self r, d, region_ok.1 hd, b, hb, bd, hbd, hx⟩
    have hleft : ∀ x ∈ bd.ops, x ∉ out → Resting 0 s t (visitOpWith (visitWithin ps n) ps b x) := by
      intro x hx hout
      have hx := hnested x hx
      exact visitOpWith_resting hrestoring hs (visitWithin_recovers hrestoring n)
        (h.erased.op?_left hout)
        (fun xd hxd r' hr' => ih r' fun y hy => hx.tail (hy.child hxd hr')) (hps x ⟨hx, hout⟩)
    obtain ⟨rfl, hagain⟩ := sumM_pruned (hrecovers b) hs hleft
      (fun x hx hout => hgone n b x hout (hnested x hx)) hrun hback
    refine ⟨rfl, Edit.query_bind.2 ⟨{ bd with ops := bd.ops.filter (· ∉ out) }, ?_, hagain⟩⟩
    rw [block_ok, h.erased.block?, hbd, Option.map_some]

/-- A visit in which the patterns try nothing is made again without a change in the pruned
module. -/
theorem visitModule_pruned {limit : Nat} (hroot : root ∉ out)
    (hrun : visitModule (patterns limit) root s = .ok (0, s)) :
    visitModule (patterns limit) root t = .ok (0, t) := by
  have hs := h.sound.consistent
  have hrestoring : ∀ p ∈ patterns limit, ∀ op, Restoring (p op) :=
    fun p hp op => patterns_restoring hp op
  have hself : Pruned sided root gone [] s s := .refl h.sound
  have hpatterns : ∀ x, Nested s root x → ∀ p ∈ patterns limit, Resting .none s s (p x) :=
    fun x hx p hp => patterns_resting hself ⟨hx, List.not_mem_nil⟩ limit hp
  -- in the first module every part of the visit did nothing
  have hgone : ∀ n b x, x ∈ out → Nested s root x →
      Resting 0 s s (visitOpWith (visitWithin (patterns limit) n) (patterns limit) b x) := by
    intro n b x _ hx
    refine visitOpWith_resting hrestoring hs (visitWithin_recovers hrestoring n) rfl
      (fun d hd r hr => ?_) (hpatterns x hx)
    exact visitWithin_resting hself hrestoring (fun y hy => hpatterns y hy.nested)
      (fun _ _ _ hy => absurd hy List.not_mem_nil) n r fun y hy => hx.tail (hy.child hd hr)
  rw [visitModule, Edit.get_bind, Edit.query_bind] at hrun ⊢
  obtain ⟨d, hd, hrun⟩ := hrun
  refine ⟨d, (h.op_left hroot).trans hd, ?_⟩
  cases hregions : d.regions with
  | nil => rfl
  | cons r rs =>
    rw [hregions] at hrun
    simp only [h.depthBound]
    have hfirst : ∀ y, InRegions s [r] y → Nested s root y := fun y hy =>
      .single (hy.child (op_ok.1 hd) (by simp [hregions]))
    exact (visitWithin_resting h hrestoring (fun x hx p hp => patterns_resting h hx limit hp) hgone
      s.depthBound r hfirst s hrun (.refl s)).2

end Pruned

/-! ## Removals that nobody notices -/

/-- The operation was taken out of the body of the module. -/
def Taken (root : OpRef) (s t : Store) (x : OpRef) : Prop := InBody s root x ∧ ¬ InBody t root x

/-- No pattern looked at what removing dead operations took out of a raised module.  No pattern
hoisted or cast in vain; nothing was taken out of an operation with results that is left; and no
cast was taken whose result is a symbol. -/
structure TakesUnseen (limit : Nat) (root : OpRef) (s t : Store) : Prop where
  sound : Settled False root s
  untried : visitModule (patterns limit) root s = .ok (0, s)
  holders : ∀ x y, Nested s root x → s.resultsOf x ≠ [] → Within s x y → Taken root s t y →
    Taken root s t x
  casts : ∀ x d v, Taken root s t x → s.op? x = some d → d.name = ArithKind.indexCast.opName →
    v ∈ d.results → isSymbol s v ≠ .ok true

/-- What was removed unseen can be pruned. -/
theorem TakesUnseen.pruned {limit : Nat} {report : SweepReport}
    (h : TakesUnseen limit root s t)
    (hrun : removeDeadCode defaultSweeps true root s = .ok (report, t)) :
    ∃ gone out, Pruned False root gone out s t ∧ root ∉ out := by
  obtain ⟨gone, hs⟩ := h.sound
  have hl := hs.linked
  have hk := hs.tidy.kept
  have hcheck := hs.passes
  obtain ⟨_, t', Q, _, hrun', _, _, htakes⟩ := removeDeadCode_sweeps hk hs.acyclic hcheck
  cases hrun.symm.trans hrun'
  have hswept := htakes.swept
  obtain ⟨out, herased, hout⟩ := id hswept.clears
  have hout : ∀ x, x ∈ out ↔ UnderAny s Q x := hout
  have hbody : ∀ x ∈ out, InBody s root x := by
    intro x hx
    obtain ⟨p, hp, hpx⟩ := (hout x).1 hx
    exact InBody.trans_within ((htakes.only p hp).resolve_left id) hpx
  have htaken : ∀ x, x ∈ out ↔ Taken root s t x := by
    intro x
    rw [Taken, hswept.inBody_iff, ← hout]
    exact ⟨fun hx => ⟨hbody x hx, fun hleft => hleft.2 hx⟩, fun hx => not_not.1 fun hleft =>
      hx.2 ⟨hx.1, hleft⟩⟩
  refine ⟨gone, out, ⟨hs, herased, fun x y hx hw => ?_, fun x d v o k hx hd hv hk' ho => ?_,
    fun x y hx hresults hw hy => ?_, fun o d v ho => ?_⟩, fun hroot => ?_⟩
  · exact (hout y).2 (((hout x).1 hx).within hw)
  · -- what uses a result of something that went is gone too
    have hresult := List.mem_of_getElem? (getElem?_resultsOf hl hk')
    obtain ⟨i, hi⟩ := List.mem_iff_getElem?.1 hv
    have hused : (⟨x, i⟩ : Use) ∈ s.usesOf v :=
      (hk.uses.mem_iff v ⟨x, i⟩).2 ⟨hs.tidy.not_gone hx.nested, (slot?_eq hd).trans hi⟩
    refine hx.left ((hout x).2 (hswept.user_gone hl ?_ ((hout o).1 ho) hresult hused))
    exact resultsSeen_of_check hl hk.uses.pointsBack hs.acyclic hcheck (hbody o ho)
  · exact (htaken x).2 (h.holders x y hx hresults hw ((htaken y).1 hy))
  · exact h.casts o d v ((htaken o).1 ho)
  · exact (nested_of_inBody (hbody root hroot)).ne_root hl hs.top rfl

/-- If operations with results have no regions, and there are no casts, only uses could be noticed,
and there are none of what is dead. -/
theorem TakesUnseen.of_entries {limit : Nat} (hs : Settled False root s)
    (huntried : visitModule (patterns limit) root s = .ok (0, s))
    (h : ∀ d ∈ s.ops.toList, (d.results ≠ [] → d.regions = []) ∧
      d.name ≠ ArithKind.indexCast.opName) : TakesUnseen limit root s t := by
  have hentry : ∀ {x d}, s.op? x = some d → (d.results ≠ [] → d.regions = []) ∧
      d.name ≠ ArithKind.indexCast.opName := fun {x d} hd =>
    h d (List.mem_of_getElem? (i := x.index) (by simpa [Store.op?] using hd))
  refine ⟨hs, huntried, fun x y _ hresults hw hy => ?_,
    fun _ _ _ _ hd hname => absurd hname (hentry hd).2⟩
  obtain ⟨d, hd, hregions⟩ : ∃ d, s.op? x = some d ∧ d.regions = [] := by
    cases hd : s.op? x with
    | none =>
      unfold Store.op? at hd
      simp [Store.resultsOf, hd] at hresults
    | some d => exact ⟨d, rfl, (hentry hd).1 (resultsOf_eq hd ▸ hresults)⟩
  rcases Relation.ReflTransGen.cases_head hw with rfl | ⟨z, ⟨d', hd', r, hr, _⟩, _⟩
  · exact hy
  · cases hd.symm.trans hd'
    rw [hregions] at hr
    cases hr

/-! ## Raising again -/

/-- A module in which nothing is left to raise is left alone by a second run, if no pattern looked
at what was removed from it, or nothing was: one visit, no change, no removal, and the same
text. -/
theorem legalize_again {config : Config} {outcome : Outcome} (hs : Consistent s)
    (h : legalize config root s = .ok (outcome, t))
    (hfix : outcome.applied.reachedFixpoint = true)
    (hclean : ∀ r ∈ outcome.sweep, r.reachedFixpoint = true ∧ (r.removed = 0 ∨
      ∃ s₁, applyPatterns (patterns config.maxComposeSteps) config.maxIterations root s =
        .ok (outcome.applied, s₁) ∧ TakesUnseen config.maxComposeSteps root s₁ t)) :
    ∃ u, legalize config root t =
        .ok (⟨⟨1, 0, true⟩, outcome.sweep.map fun _ => ⟨0, 1, true⟩⟩, u) ∧
      ∀ text, t.print root = .ok text → u.print root = .ok text := by
  obtain ⟨maxIterations, runDce, limit⟩ := config
  obtain ⟨applied, s₁, happlied, h⟩ := Edit.bind_ok.1 h
  cases runDce with
  | false =>
    cases h
    obtain ⟨σ, u, hagain, _, _, hl, hrestores⟩ := applyPatterns_again hs happlied hfix
    refine ⟨u, Edit.bind_ok.2 ⟨_, u, hagain, rfl⟩, fun text htext => ?_⟩
    exact hrestores.print hl htext
  | true =>
    obtain ⟨report, s₂, hremove, h⟩ := Edit.bind_ok.1 h
    cases h
    obtain ⟨hswept, hunseen⟩ := hclean report rfl
    obtain ⟨hsweep, hsame⟩ := removeDeadCode_fixpoint hremove hswept
    rcases hunseen with hremoved | ⟨s₂, happlied', hunseen⟩
    · cases hsame hremoved
      obtain ⟨σ, u, hagain, hpadded, hroot, hl, hrestores⟩ := applyPatterns_again hs happlied hfix
      have hclean := removeDeadCode_again defaultSweeps hsweep hpadded hroot
      refine ⟨u, Edit.bind_ok.2 ⟨_, u, hagain, ?_⟩, fun text htext => hrestores.print hl htext⟩
      exact Edit.bind_ok.2 ⟨_, u, hclean, rfl⟩
    · -- the patterns find what they found before the removal
      cases happlied.symm.trans happlied'
      obtain ⟨gone, out, hpruned, hroot⟩ := hunseen.pruned hremove
      have hvisit := visitModule_pruned hpruned hroot hunseen.untried
      obtain ⟨k, rfl⟩ : ∃ k, maxIterations = k + 1 := by
        cases maxIterations with
        | zero =>
          cases happlied
          cases hfix
        | succ k => exact ⟨k, rfl⟩
      have hclean := removeDeadCode_last defaultSweeps hsweep
      refine ⟨t, Edit.bind_ok.2 ⟨_, t, Edit.bind_ok.2 ⟨0, t, hvisit, rfl⟩, ?_⟩, fun _ => id⟩
      exact Edit.bind_ok.2 ⟨_, t, hclean, rfl⟩

/-- Of two loads in a loop, one has a subscript that is a symbol and is raised; the other one is
tried in vain. -/
theorem loads_legalized :
    let unknown := Surface.Op.plain ⟨"test", "value"⟩ ["v"] [] [.index] []
    let first := Surface.Op.plain loadName ["x"] ["m", "a"] [.index] []
    let second := Surface.Op.plain loadName ["y"] ["m", "v"] [.index] []
    let use := Surface.Op.plain ⟨"test", "use"⟩ [] ["x", "y"] [] []
    let loop := Surface.Op.plain ⟨"test", "loop"⟩ [] [] [] [[unknown, first, second, use]]
    let tree := Surface.Op.program [⟨"a", .index⟩, ⟨"m", .mk "mem" "ref" [.index] []⟩] [loop]
    ∃ root scope s t, buildOp Scope.empty tree Store.empty = .ok (.ok (root, scope), s) ∧
      legalize {} root s = .ok (⟨⟨2, 1, true⟩, some ⟨0, 1, true⟩⟩, t) :=
  ⟨⟨6⟩, _, _, _, by cbv, by cbv⟩

set_option maxRecDepth 20000 in
/-- The subscript of a load in a loop is a sum of a parameter and a product of the induction
variable; with the load raised the arithmetic and its constant are dead. -/
theorem strided_load_legalized :
    let four := Surface.Op.mk ⟨["c"], "arith", "const", none, [], [], [], none,
      [("value", .int 4)], [.index]⟩ []
    let product := Surface.Op.plain ArithKind.mul.opName ["p"] ["i", "c"] [.index] []
    let sum := Surface.Op.plain ArithKind.add.opName ["x"] ["p", "a"] [.index] []
    let load := Surface.Op.plain loadName ["l"] ["m", "x"] [.index] []
    let use := Surface.Op.plain ⟨"test", "use"⟩ [] ["l"] [] []
    let tree := Surface.Op.program [⟨"m", .mk "mem" "ref" [.index] []⟩, ⟨"a", .index⟩]
      [four, .loop [product, sum, load, use], .plain returnName [] [] [] []]
    ∃ root scope s s₁ t d, buildOp Scope.empty tree Store.empty = .ok (.ok (root, scope), s) ∧
      check s root = .ok ⟨[], [], []⟩ ∧ s.op? root = some d ∧ d.regions.length = 1 ∧
      (∀ e ∈ s.ops.toList, FewRegions e) ∧
      applyPatterns (patterns 32) 10 root s = .ok (⟨2, 1, true⟩, s₁) ∧
      legalizeSteadily { runDce := false } root s = .ok (⟨⟨2, 1, true⟩, none⟩, s₁) ∧
      visitModule (patterns 32) root s₁ = .ok (0, s₁) ∧
      (∀ e ∈ s₁.ops.toList, (e.results ≠ [] → e.regions = []) ∧
        e.name ≠ ArithKind.indexCast.opName) ∧
      legalize {} root s = .ok (⟨⟨2, 1, true⟩, some ⟨3, 2, true⟩⟩, t) :=
  ⟨_, _, _, _, _, _, by cbv, by cbv, by cbv, by cbv, by decide +kernel, by cbv, by cbv, by cbv,
    by decide +kernel, by cbv⟩

theorem legalize_again_loads :
    (∃ root s t u, Consistent s ∧
      legalize {} root s = .ok (⟨⟨2, 1, true⟩, some ⟨0, 1, true⟩⟩, t) ∧
      legalize {} root t = .ok (⟨⟨1, 0, true⟩, some ⟨0, 1, true⟩⟩, u) ∧
      ∀ text, t.print root = .ok text → u.print root = .ok text) ∧
    ∃ root s s₁ t u, Consistent s ∧
      applyPatterns (patterns 32) 10 root s = .ok (⟨2, 1, true⟩, s₁) ∧ TakesUnseen 32 root s₁ t ∧
      legalize {} root s = .ok (⟨⟨2, 1, true⟩, some ⟨3, 2, true⟩⟩, t) ∧
      legalize {} root t = .ok (⟨⟨1, 0, true⟩, some ⟨0, 1, true⟩⟩, u) ∧
      ∀ text, t.print root = .ok text → u.print root = .ok text := by
  constructor
  · obtain ⟨root, scope, s, t, hbuild, hrun⟩ := loads_legalized
    have hs := Consistent.of_built hbuild
    obtain ⟨u, hagain, hprint⟩ := legalize_again hs hrun rfl (by simp)
    exact ⟨root, s, t, u, hs, hrun, hagain, hprint⟩
  · obtain ⟨root, scope, s, s₁, t, d, hbuild, hcheck, hroot, hregions, hentries, happlied, hsteady,
      huntried, hplain, hrun⟩ := strided_load_legalized
    have hs := Consistent.of_built hbuild
    have hregular : Regular root (fun _ => False) s := .of_entries (fun e he => by
      cases hroot.symm.trans he
      exact hregions.le) hentries
    have hsound : Sound False root (fun _ => False) (fun _ => False) s :=
      (HoldsModule.of_built hbuild).sound hregular hcheck False.elim
    have hunseen : TakesUnseen 32 root s₁ t := .of_entries
      (legalizeSteadily_settled _ s _ s₁ ⟨_, hsound⟩ hsteady) huntried hplain
    obtain ⟨u, hagain, hprint⟩ := legalize_again hs hrun rfl fun r hr => by
      cases hr
      exact ⟨rfl, .inr ⟨s₁, happlied, hunseen⟩⟩
    exact ⟨root, s, s₁, t, u, hs, happlied, hunseen, hrun, hagain, hprint⟩

set_option maxRecDepth 20000 in
/-- The result of a conditional subscripts a load.  The conditional is no symbol computation as long
as it holds the sum of an unknown value; the sum is dead and is removed after the last visit, and
then a second run raises the load. -/
theorem legalize_again_changes :
    let unknown := Surface.Op.plain ⟨"test", "value"⟩ ["v"] [] [.index] []
    let dead := Surface.Op.plain ArithKind.add.opName ["d"] ["v", "v"] [.index] []
    let yield := Surface.Op.plain scfYieldName [] ["a"] [] []
    let conditional := Surface.Op.plain scfIfName ["r"] ["c"] [.index] [[dead, yield], [yield]]
    let load := Surface.Op.plain loadName ["l"] ["m", "r"] [.index] []
    let use := Surface.Op.plain ⟨"test", "use"⟩ [] ["l"] [] []
    let loop := Surface.Op.plain ⟨"test", "loop"⟩ [] [] [] [[unknown, conditional, load, use]]
    let tree := Surface.Op.program
      [⟨"a", .index⟩, ⟨"m", .mk "mem" "ref" [.index] []⟩, ⟨"c", .i1⟩] [loop]
    ∃ root scope s t u, buildOp Scope.empty tree Store.empty = .ok (.ok (root, scope), s) ∧
      check s root = .ok ⟨[], [], []⟩ ∧
      legalize {} root s = .ok (⟨⟨1, 0, true⟩, some ⟨1, 2, true⟩⟩, t) ∧
      legalize {} root t = .ok (⟨⟨2, 1, true⟩, some ⟨0, 1, true⟩⟩, u) :=
  ⟨⟨9⟩, _, _, _, _, by cbv, by cbv, by cbv, by cbv⟩

end AffineRaising.Raise
