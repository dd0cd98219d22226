/-
# AffineRaising.Proofs.Raise.Validity — raising keeps a module valid.

A module that passes its checks is sound: everything in it sees its operands and binds what it takes
(`HoldsModule.sound`).  Raising keeps that, and a sound module passes the checks (`Sound.passes`).
This needs the regions that structured operations should have (`Regular`), and that no loop loses an
operand of its upper bound when the lower one is normalized (`KeepsUpperOperands`): the operands of
both bounds are read before that, and what it erases would be bound to the upper bound again.  A
module whose loops bind operands to one of their bounds only is raised so
(`HoldsModule.keepsUpperOperands`), whatever raising moves.
-/
import AffineRaising.Proofs.Raise.Held
import AffineRaising.Proofs.Raise.Steady

namespace AffineRaising

namespace Raise

open IR IR.Store Ops Analysis

variable {sided : Prop} {gone : OpRef → Prop} {s t : Store} {v : ValueRef}
  {root a c x z : OpRef} {b : BlockRef}

/-! ## The body of a module -/

theorem nested_of_inBody (h : InBody s root x) : Nested s root x := by
  obtain ⟨d, hd, r, hr, y, hy, hw⟩ := h
  exact .head' (hy.child hd (List.mem_of_mem_head? hr)) hw

theorem InBody.trans_within (hx : InBody s root x) (hw : Within s x z) : InBody s root z := by
  obtain ⟨d, hd, r, hr, y, hy, hyx⟩ := hx
  exact ⟨d, hd, r, hr, y, hy, hyx.trans hw⟩

section Linked

variable (hl : Linked s) (htop : s.opParent root = some none)

include hl htop

/-- What shares a block with something that encloses an operation of the body is in the body. -/
theorem inBody_of_beside {bd : BlockData} (hx : InBody s root x) (hax : Within s a x)
    (hb : s.block? b = some bd) (ha : a ∈ bd.ops) (hc : c ∈ bd.ops) : InBody s root c := by
  obtain ⟨d, hd, r, hr, y, hy, hyx⟩ := hx
  have hbeside : ∀ {p}, Child s p a → Child s p c := fun hp =>
    (child_iff_holds hl hb hc).2 ((child_iff_holds hl hb ha).1 hp)
  have hroot : Child s root y := hy.child hd (List.mem_of_mem_head? hr)
  have hya : Within s y a := by
    rcases within_or_within hl hax hyx with hay | hya
    · rcases hay.cases_tail with rfl | ⟨q, haq, hqy⟩
      · exact .refl
      · -- nothing but the module encloses the top of its body
        cases hqy.unique hl hroot
        cases eq_of_within_detached hl htop haq
        cases htop.symm.trans (opParent_of_mem hl hb ha)
    · exact hya
  rcases hya.cases_tail with rfl | ⟨p, hyp, hpa⟩
  · obtain ⟨r', hr', rd, hrd, b', hb', bd', hbd', hy'⟩ := hy
    cases hl.block_unique hbd' hy' hb ha
    exact ⟨d, hd, r, hr, c, ⟨r', hr', rd, hrd, _, hb', bd, hb, hc⟩, .refl⟩
  · exact ⟨d, hd, r, hr, y, hy, hyp.tail (hbeside hpa)⟩

/-- What sees a value that the body mentions is in the body too. -/
theorem inBody_of_mentions (hvisible : Visible s root) (hx : InBody s root x)
    (hv : Mentions s x v) (hz : Sees s v z) : InBody s root z := by
  obtain ⟨a, haz, hoffered⟩ := hz
  obtain ⟨b, bd, hlives, hb, ha⟩ := lives_of_offered hl hoffered
  refine InBody.trans_within ?_ haz
  obtain ⟨d, hd, hv | hv | ⟨b', bd', hholds, hb', hv⟩⟩ := hv
  · obtain ⟨a', hax, hoffered'⟩ := hvisible x d v (nested_of_inBody hx) hd hv
    obtain ⟨b', bd', hlives', hb', ha'⟩ := lives_of_offered hl hoffered'
    cases (hlives.home hl).1.symm.trans (hlives'.home hl).1
    cases hb.symm.trans hb'
    exact inBody_of_beside hl htop hx hax hb ha' ha
  · obtain ⟨k, hk⟩ := originOf_of_mem_results hl (resultsOf_eq hd ▸ hv)
    rcases hlives with ⟨_, hv⟩ | ⟨x', _, d', hv, hd', hparent⟩
    · cases hk.symm.trans hv
    · cases hk.symm.trans hv
      obtain ⟨bd', hb', hmem⟩ := hl.mem_of_parent hd' hparent
      cases hb.symm.trans hb'
      exact inBody_of_beside hl htop hx .refl hb hmem ha
  · obtain ⟨k, hk⟩ := List.mem_iff_getElem?.1 hv
    have hk := (hl.args.mem_iff (a := b') (by simp [argsIn, hb']) k v).1 hk
    rcases hlives with ⟨_, hv⟩ | ⟨x', _, d', hv, _⟩
    · cases hk.symm.trans hv
      exact InBody.trans_within hx (.single (IR.child_iff.2 ⟨b, bd, hholds, hb, ha⟩))
    · cases hk.symm.trans hv

end Linked

/-! ## Sound modules pass the checks -/

/-- What uses a value is in the module; the module itself uses nothing. -/
theorem Sound.user_nested (h : Sound sided root gone (fun _ => False) s) {u : Use}
    (hu : u ∈ s.usesOf v) : ∃ d, s.op? u.user = some d ∧ v ∈ d.operands ∧ Nested s root u.user := by
  obtain ⟨hlive, hslot⟩ := (h.tidy.kept.uses.mem_iff v u).1 hu
  obtain ⟨d, hd, hslot⟩ := Option.bind_eq_some_iff.1 hslot
  have hv := List.mem_of_getElem? hslot
  refine ⟨d, hd, hv, ?_⟩
  rcases h.accounted u.user d hd hlive with hw | ⟨_, hout, _⟩
  · refine nested_of_within hw fun hroot => ?_
    rw [h.bare d (hroot ▸ hd)] at hv
    cases hv
  · exact hout.elim

/-- A sound module with nothing on its way passes the checks. -/
theorem Sound.passes (h : Sound sided root gone (fun _ => False) s) :
    check s root = .ok ⟨[], [], []⟩ := by
  have hl := h.linked
  have huses := h.tidy.kept.uses
  obtain ⟨rd, hrd, _⟩ := opParent_eq_some.1 h.top
  refine check_eq_clean.2 ⟨useFlaws_eq_nil hl h.acyclic huses.pointsBack hrd
      (fun x d i v hx hd hv => ?_) (fun x v u hx hv hu => ?_),
    visibilityFlaws_eq_nil hl h.acyclic hrd fun x d v hx => h.visible x d v (nested_of_inBody hx),
    arityFlaws_eq_nil hl h.acyclic hrd fun x hx => ?_⟩
  · exact (huses.mem_iff v ⟨x, i⟩).2
      ⟨h.tidy.not_gone (nested_of_inBody hx), (slot?_eq hd).trans hv⟩
  · obtain ⟨d, hd, hmem, hnested⟩ := h.user_nested hu
    exact inBody_of_mentions hl h.top h.visible hx hv (h.visible u.user d v hnested hd hmem)
  · obtain ⟨d, hd⟩ := op?_of_inBody hl hx
    have hx := nested_of_inBody hx
    have hsuits := (h.fitting x d (hx.ne_root hl h.top) (h.tidy.not_gone hx) hd).suits
    exact (affineArity_eq_nil_iff hd hsuits.regions).2 hsuits

/-! ## Modules that pass the checks are sound -/

/-- The module has one region at most, and its structured operations have those that they should. -/
structure Regular (root : OpRef) (gone : OpRef → Prop) (s : Store) : Prop where
  body : ∀ d, s.op? root = some d → d.regions.length ≤ 1
  ops : ∀ x d, x ≠ root → ¬ gone x → s.op? x = some d → FewRegions d

instance (d : OpData) : Decidable (FewRegions d) :=
  decidable_of_iff ((d.name = scfIfName → d.regions.length ≤ 2) ∧
      (d.name = scfYieldName → d.regions.length = 0))
    ⟨fun h => ⟨h.1, h.2⟩, fun h => ⟨h.branches, h.terminator⟩⟩

theorem Regular.of_entries (hbody : ∀ d, s.op? root = some d → d.regions.length ≤ 1)
    (h : ∀ d ∈ s.ops.toList, FewRegions d) : Regular root gone s where
  body := hbody
  ops x d _ _ hd := h d (List.mem_of_getElem? (i := x.index) (by simpa [Store.op?] using hd))

namespace HoldsModule

/-- A regular module that passes the checks is sound; also in the stronger sense, if its loops bind
operands to one bound only. -/
theorem sound (h : HoldsModule root gone s) (hregular : Regular root gone s)
    (hcheck : check s root = .ok ⟨[], [], []⟩)
    (hsided : sided → ∀ x d, x ≠ root → ¬ gone x → s.op? x = some d → OneSided d) :
    Sound sided root gone (fun _ => False) s := by
  have hl := h.tidy.kept.linked
  obtain ⟨_, hvisible, harity⟩ := check_eq_clean.1 hcheck
  obtain ⟨rd, hrd, _⟩ := opParent_eq_some.1 h.top
  have hbody : ∀ {x}, Nested s root x → InBody s root x :=
    inBody_of_nested hrd (hregular.body rd hrd)
  refine ⟨h.tidy, h.sized, h.acyclic, h.top, fun x d v hx => ?_, fun x d hd hx => ?_,
    fun x d hx hlive hd => ⟨?_, fun h => hsided h x d hx hlive hd⟩, h.bare⟩
  · exact sees_of_visibilityFlaws hl h.acyclic hvisible (hbody hx)
  · exact .inl (h.all x d hd hx)
  · have hnested := nested_of_within (h.all x d hd hlive) hx
    have harity := affineArity_of_arityFlaws hl h.acyclic harity (hbody hnested)
    exact (affineArity_eq_nil_iff hd (hregular.ops x d hx hlive hd)).1 harity

/-- A module that passes the checks keeps the operands of its upper bounds while it is raised, if no
loop binds operands to both of its bounds. -/
theorem keepsUpperOperands (h : HoldsModule root gone s) (hregular : Regular root gone s)
    (hcheck : check s root = .ok ⟨[], [], []⟩)
    (hsided : ∀ x d, x ≠ root → ¬ gone x → s.op? x = some d → OneSided d) {config : Config} :
    KeepsUpperOperands config root s :=
  .of_oneSided (h.sound hregular hcheck fun _ => hsided)

/-- Raising a regular module that passes the checks leaves one that passes them, if it keeps the
operands of its upper bounds. -/
theorem check_legalized (h : HoldsModule root gone s) (hregular : Regular root gone s)
    (hcheck : check s root = .ok ⟨[], [], []⟩) {config : Config}
    (hkeeps : KeepsUpperOperands config root s) {outcome : Outcome}
    (hrun : legalize config root s = .ok (outcome, t)) : check t root = .ok ⟨[], [], []⟩ := by
  have hs : Sound False root gone (fun _ => False) s := h.sound hregular hcheck False.elim
  obtain ⟨_, hsound⟩ :=
    legalizeSteadily_settled config s outcome t ⟨gone, hs⟩ (hkeeps _ hrun)
  exact hsound.passes

end HoldsModule

end Raise

open IR Analysis Raise

/-! ## From text to text -/

section Pipeline

variable {ε α β : Type} {s t : Store}

theorem Pipeline.bind_error {x : ExceptT ε Edit α} {f : α → ExceptT ε Edit β} {e : ε} :
    (x >>= f) s = .ok (.error e, t) ↔
      x s = .ok (.error e, t) ∨ ∃ a s', x s = .ok (.ok a, s') ∧ f a s' = .ok (.error e, t) := by
  show @bind Edit _ _ _ x (ExceptT.bindCont f) s = .ok (.error e, t) ↔ _
  rw [Edit.bind_ok]
  constructor
  · rintro ⟨r, s', h, h'⟩
    cases r with
    | error e' =>
      cases h'
      exact .inl h
    | ok a => exact .inr ⟨a, s', h, h'⟩
  · rintro (h | ⟨a, s', h, h'⟩)
    · exact ⟨.error e, t, h, rfl⟩
    · exact ⟨.ok a, s', h, h'⟩

theorem Pipeline.lift_ne_error {x : Edit α} {e : ε} :
    (ExceptT.lift x : ExceptT ε Edit α) s ≠ .ok (.error e, t) := by
  show (Except.ok <$> x) s ≠ .ok (.error e, t)
  simp

open Pipeline

/-- A module is not checked while it is read. -/
theorem readModule_ne_invalid {source : String} {stage : Stage} {report : Report} :
    readModule source s ≠ .ok (.error (.invalid stage report), t) := by
  intro h
  rw [readModule, bind_error] at h
  rcases h with h | ⟨result, s₁, _, h⟩
  · exact lift_ne_error h
  cases result with
  | error e => cases h
  | ok op =>
    rcases bind_error.1 h with h | ⟨view, s₂, _, h⟩
    · exact lift_ne_error h
    · cases view <;> cases h

theorem isClean_iff {report : Report} : report.isClean = true ↔ report = ⟨[], [], []⟩ := by
  obtain ⟨uses, visibility, arity⟩ := report
  simp [Report.isClean, Report.count, and_assoc]

theorem verify_ok {stage : Stage} {root : OpRef} {u : Unit}
    (h : verify stage root s = .ok (.ok u, t)) : check s root = .ok ⟨[], [], []⟩ ∧ s = t := by
  rw [verify, Build.bind_ok] at h
  obtain ⟨report, s₁, hcheck, h⟩ := h
  rw [Build.lift_ok, Edit.query_ok] at hcheck
  obtain ⟨hcheck, rfl⟩ := hcheck
  cases hclean : report.isClean with
  | false =>
    rw [hclean] at h
    cases h
  | true =>
    rw [hclean] at h
    cases h
    exact ⟨isClean_iff.1 hclean ▸ hcheck, rfl⟩

theorem verify_error {stage : Stage} {root : OpRef} {e : PipelineError}
    (h : verify stage root s = .ok (.error e, t)) :
    ∃ report, e = .invalid stage report ∧ check s root ≠ .ok ⟨[], [], []⟩ := by
  rw [verify, bind_error] at h
  rcases h with h | ⟨report, s₁, hcheck, h⟩
  · exact absurd h lift_ne_error
  rw [Build.lift_ok, Edit.query_ok] at hcheck
  obtain ⟨hcheck, rfl⟩ := hcheck
  cases hclean : report.isClean with
  | false =>
    rw [hclean] at h
    cases h
    refine ⟨report, rfl, fun h => ?_⟩
    cases hcheck.symm.trans h
    cases hclean
  | true =>
    rw [hclean] at h
    cases h

/-- Where the output of raising a text is invalid, its module passed the checks before raising and
does not pass them any more. -/
theorem legalizeSource_invalid {options : LegalizeOptions} {source : String} {report : Report}
    (h : legalizeSource options source = .ok (.error (.invalid .output report))) :
    ∃ root s outcome t, readModule source Store.empty = .ok (.ok root, s) ∧
      check s root = .ok ⟨[], [], []⟩ ∧ legalize options.config root s = .ok (outcome, t) ∧
      check t root ≠ .ok ⟨[], [], []⟩ := by
  rw [legalizeSource, Pipeline.start] at h
  obtain ⟨⟨result, u⟩, hrun, h⟩ := except_bind_ok.1 h
  cases h
  rcases bind_error.1 hrun with hread | ⟨root, s, hread, hrun⟩
  · exact absurd hread readModule_ne_invalid
  -- once the module was raised and checked, it is printed, and there is no error any more
  have hprinted : ∀ {outcome : Outcome} {s t : Store} {e : PipelineError},
      (do return ⟨← printModule root, outcome⟩ : Pipeline LegalizeOutput) s ≠
        .ok (.error e, t) := by
    intro outcome s t e h
    rcases bind_error.1 h with h | ⟨text, s₁, _, h⟩
    · exact lift_ne_error h
    · cases h
  dsimp only at hrun
  split at hrun
  · rcases bind_error.1 hrun with hin | ⟨_, s₁, hin, hrun⟩
    · obtain ⟨_, hstage, _⟩ := verify_error hin
      cases hstage
    obtain ⟨hcheck, rfl⟩ := verify_ok hin
    rcases bind_error.1 hrun with hraise | ⟨outcome, t, hraise, hrun⟩
    · exact absurd hraise lift_ne_error
    rcases bind_error.1 hrun with hout | ⟨_, t₁, _, hrun⟩
    · obtain ⟨_, _, hfails⟩ := verify_error hout
      exact ⟨root, s, outcome, t, hread, hcheck, Build.lift_ok.1 hraise, hfails⟩
    · exact absurd hrun hprinted
  · rcases bind_error.1 hrun with hraise | ⟨outcome, t, _, hrun⟩
    · exact absurd hraise lift_ne_error
    · exact absurd hrun hprinted

/-- Raising a module that passes the checks leaves one that passes them, if its structured
operations have the regions that they should and no loop loses an operand of its upper bound when
the lower one is normalized; none does if no loop binds operands to both of its bounds.  So a text
with such a module never fails at the second check. -/
theorem legalize_keeps_valid (options : LegalizeOptions) :
    (∀ {root : OpRef} {gone : OpRef → Prop} {s t : Store} {outcome : Outcome},
      HoldsModule root gone s → Regular root gone s → check s root = .ok ⟨[], [], []⟩ →
      ((∀ x d, x ≠ root → ¬ gone x → s.op? x = some d → OneSided d) →
        KeepsUpperOperands options.config root s) ∧
      (KeepsUpperOperands options.config root s →
        legalize options.config root s = .ok (outcome, t) → check t root = .ok ⟨[], [], []⟩)) ∧
    ∀ {source : String} {report : Report},
      (∀ root s, readModule source Store.empty = .ok (.ok root, s) →
        check s root = .ok ⟨[], [], []⟩ →
        Regular root (fun _ => False) s ∧ KeepsUpperOperands options.config root s) →
      legalizeSource options source ≠ .ok (.error (.invalid .output report)) := by
  refine ⟨fun hs hregular hcheck => ⟨fun hsided => ?_, fun hkeeps hrun => ?_⟩, ?_⟩
  · exact hs.keepsUpperOperands hregular hcheck hsided
  · exact hs.check_legalized hregular hcheck hkeeps hrun
  intro source report hregular h
  obtain ⟨root, s, outcome, t, hread, hcheck, hrun, hfails⟩ := legalizeSource_invalid h
  obtain ⟨tree, scope, _, hbuild⟩ := readOp_ok (readModule_ok hread)
  obtain ⟨hregular, hkeeps⟩ := hregular root s hread hcheck
  exact hfails ((HoldsModule.of_built hbuild).check_legalized hregular hcheck hkeeps hrun)

end Pipeline

open Ops

set_option maxRecDepth 20000 in
/-- In a loop from one parameter to another, the subscript of a load is a product of a parameter.
Raising moves the product in front of the loops around it, and both bounds keep their operands. -/
theorem product_subscript :
    let forward : Affine.Map := ⟨0, 1, [.symbol 0]⟩
    let product := Surface.Op.plain ArithKind.mul.opName ["x"] ["a", "a"] [.index] []
    let load := Surface.Op.plain loadName ["l"] ["m", "x"] [.index] []
    let use := Surface.Op.plain ⟨"test", "use"⟩ [] ["l"] [] []
    let inner := Surface.Op.mk ⟨[], "affine", "for", none, [], ["a", "b"], [], none,
        [("lower_bound", .map forward), ("upper_bound", .map forward)], []⟩
      [.mk [.mk "body" [⟨"j", .index⟩] [product, load, use, .plain affineYieldName [] [] [] []]]]
    let tree := Surface.Op.program
      [⟨"a", .index⟩, ⟨"b", .index⟩, ⟨"m", .mk "mem" "ref" [.index] []⟩] [.loop [inner]]
    ∃ root scope s d r, buildOp Scope.empty tree Store.empty = .ok (.ok (root, scope), s) ∧
      check s root = .ok ⟨[], [], []⟩ ∧ s.op? root = some d ∧ d.regions.length = 1 ∧
      (∀ e ∈ s.ops.toList, FewRegions e) ∧ legalize {} root s = .ok r ∧
      legalizeSteadily {} root s = .ok r ∧ 0 < r.1.applied.changes :=
  ⟨_, _, _, _, _, by cbv, by cbv, by cbv, by cbv, by decide +kernel, by cbv, by cbv, by cbv⟩

theorem legalize_keeps_valid_product :
    ∃ root s t outcome source, HoldsModule root (fun _ => False) s ∧
      Regular root (fun _ => False) s ∧ check s root = .ok ⟨[], [], []⟩ ∧
      KeepsUpperOperands {} root s ∧ legalize {} root s = .ok (outcome, t) ∧
      0 < outcome.applied.changes ∧ check t root = .ok ⟨[], [], []⟩ ∧
      (∀ root s, readModule source Store.empty = .ok (.ok root, s) →
        check s root = .ok ⟨[], [], []⟩ →
        Regular root (fun _ => False) s ∧ KeepsUpperOperands {} root s) ∧
      ∀ report, legalizeSource ⟨{}, true⟩ source ≠ .ok (.error (.invalid .output report)) := by
  obtain ⟨root, scope, s, d, ⟨outcome, t⟩, hbuild, hcheck, hroot, hregions, hentries, hrun, hsteady,
    hchanged⟩ := product_subscript
  have hs := HoldsModule.of_built hbuild
  have hregular : Regular root (fun _ => False) s := .of_entries (fun e he => by
    cases hroot.symm.trans he
    exact hregions.le) hentries
  have hkeeps : KeepsUpperOperands {} root s := fun r hr => by
    cases hrun.symm.trans hr
    exact hsteady
  have hread : (readModule "core.module \x7b func.func \x7b func.return \x7d \x7d"
      Store.empty).toOption.all (fun p => p.1.toOption.all fun root =>
        (p.2.op? root).all (fun d => d.regions.length ≤ 1) &&
          decide (∀ d ∈ p.2.ops.toList, FewRegions d ∧ d.name ≠ forName)) = true := by
    decide +kernel
  have hsource : ∀ root s, readModule "core.module \x7b func.func \x7b func.return \x7d \x7d"
      Store.empty = .ok (.ok root, s) → check s root = .ok ⟨[], [], []⟩ →
      Regular root (fun _ => False) s ∧ KeepsUpperOperands {} root s := by
    intro root s h hcheck
    obtain ⟨tree, scope, _, hbuild⟩ := readOp_ok (readModule_ok h)
    rw [h] at hread
    simp only [Except.toOption, Option.all_some, Bool.and_eq_true, decide_eq_true_eq] at hread
    have hregular : Regular root (fun _ => False) s := by
      refine .of_entries (fun d hd => ?_) fun d hd => (hread.2 d hd).1
      rw [hd] at hread
      simpa using hread.1
    refine ⟨hregular, (HoldsModule.of_built hbuild).keepsUpperOperands hregular hcheck ?_⟩
    intro x d _ _ hd
    exact .of_name (hread.2 d (List.mem_of_getElem? (i := x.index)
      (by simpa [Store.op?] using hd))).2
  exact ⟨root, s, t, outcome, _, hs, hregular, hcheck, hkeeps, hrun, hchanged,
    ((legalize_keeps_valid ⟨{}, true⟩).1 hs hregular hcheck).2 hkeeps hrun, hsource,
    fun report => (legalize_keeps_valid ⟨{}, true⟩).2 hsource⟩

set_option maxRecDepth 20000 in
/-- A loop binds `m` and `k` to its lower bound, and `b` and `c` to its upper one.  Normalizing the
lower bound erases the definition of `b`, of which it has put a copy in front of the outer loop; the
upper bound was read before that, and is set to the erased value. -/
theorem both_bounds_not_valid :
    let sum : Affine.Map := ⟨0, 2, [.bin .add (.symbol 0) (.symbol 1)]⟩
    let pair : Affine.Map := ⟨0, 1, [.symbol 0, .bin .add (.symbol 0) (.const 1)]⟩
    let inner := Surface.Op.mk ⟨[], "affine", "for", none, [], ["m", "k", "b", "c"], [], none,
        [("lower_bound", .map sum), ("upper_bound", .map sum)], []⟩
      [.mk [.mk "body" [⟨"j", .index⟩] [.plain ⟨"test", "use"⟩ [] ["j"] [] [],
        .plain affineYieldName [] [] [] []]]]
    let five := Surface.Op.mk ⟨["c"], "arith", "const", none, [], [], [], none,
      [("value", .int 5)], [.index]⟩ []
    let body := [.plain ArithKind.mul.opName ["x"] ["a", "a"] [.index] [],
      .mk ⟨["b"], "affine", "apply", none, [], ["x"], [], none, [("map", .map pair)], [.index]⟩ [],
      .plain ArithKind.mul.opName ["m"] ["b", "b"] [.index] [],
      .plain ArithKind.add.opName ["k"] ["i", "c"] [.index] [], inner]
    let tree := Surface.Op.program [⟨"a", .index⟩] [five, .loop body]
    ∃ root scope s outcome t x v, buildOp Scope.empty tree Store.empty =
        .ok (.ok (root, scope), s) ∧
      check s root = .ok ⟨[], [], []⟩ ∧ (∀ e ∈ s.ops.toList, FewRegions e) ∧
      legalize {} root s = .ok (outcome, t) ∧
      check t root = .ok ⟨[], [.notVisible x forName 2 v], []⟩ :=
  ⟨_, _, _, _, _, _, _, by cbv, by cbv, by decide +kernel, by cbv, by cbv⟩

end AffineRaising
