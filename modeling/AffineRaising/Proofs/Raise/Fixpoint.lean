/-
# AffineRaising.Proofs.Raise.Fixpoint — runs that count nothing can be repeated.

A visit that counts no change is made of patterns that declined, and so restores the store; what
they tried is still in the tables.  Tables with such entries hold the same program, and there the
same patterns decline again: where the patterns have reached a fixpoint, they stay there
(`applyPatterns_again`).  The same holds of sweeps that remove nothing (`removeDeadCode_again`).

Runs are compared by what they count.  A visit or a sweep that counts nothing is one in which every
part counts nothing (`visitOpWith_zero`, `sumM_zero`), so both are followed part by part: once for
what they leave behind (`Recovers`), and once in the store with the longer tables (`Repeating`).
-/
import AffineRaising.Proofs.Raise.Silent
import AffineRaising.Proofs.Raise.Visit
import AffineRaising.Proofs.Transform.Sweep

namespace AffineRaising.Raise

open AffineRaising.IR AffineRaising.IR.Store AffineRaising.Ops AffineRaising.Transform

variable {α β : Type} {σ : Padding} {s t : Store} {ps : List Pattern}

/-! ## Runs that count nothing -/

theorem applyFirst_false {op : OpRef} {pattern : Pattern} :
    applyFirst op (pattern :: ps) s = .ok (false, t) ↔
      ∃ s₁, pattern op s = .ok (.none, s₁) ∧ applyFirst op ps s₁ = .ok (false, t) := by
  rw [applyFirst, Edit.bind_ok]
  constructor
  · rintro ⟨c, s₁, hc, hrest⟩
    cases c with
    | none => exact ⟨s₁, hc, hrest⟩
    | _ =>
      obtain ⟨_, _, _, hrest⟩ := Edit.bind_ok.1 hrest
      cases hrest
  · rintro ⟨s₁, hc, hrest⟩
    exact ⟨.none, s₁, hc, hrest⟩

theorem isIn_ok {b : BlockRef} {op : OpRef} {inside : Bool} :
    isIn b op s = .ok (inside, t) ↔
      ∃ d, s.op? op = some d ∧ (d.parent == some b) = inside ∧ s = t := by
  simp only [isIn, Edit.query_bind, op_ok, Edit.pure_run, Except.ok.injEq, Prod.mk.injEq]

/-- The end of a visit, with `n` changes so far. -/
theorem visitEnd_zero {b : BlockRef} {op : OpRef} {n : Nat} :
    (do
      if !(← isIn b op) then return n
      if ← applyFirst op ps then return n + 1 else return n : Edit Nat) s = .ok (0, t) ↔
      n = 0 ∧ ∃ d, s.op? op = some d ∧ (d.parent ≠ some b ∧ s = t ∨
        d.parent = some b ∧ applyFirst op ps s = .ok (false, t)) := by
  rw [Edit.bind_ok]
  constructor
  · rintro ⟨inside, _, hin, hrest⟩
    obtain ⟨d, hd, hparent, rfl⟩ := isIn_ok.1 hin
    cases inside with
    | false =>
      cases hrest
      exact ⟨rfl, d, hd, .inl ⟨by simpa using hparent, rfl⟩⟩
    | true =>
      obtain ⟨changed, s₁, hfirst, hrest⟩ := Edit.bind_ok.1 hrest
      cases changed with
      | true => cases hrest
      | false =>
        cases hrest
        exact ⟨rfl, d, hd, .inr ⟨by simpa using hparent, hfirst⟩⟩
  · rintro ⟨rfl, d, hd, ⟨hne, rfl⟩ | ⟨hparent, hfirst⟩⟩
    · exact ⟨false, s, isIn_ok.2 ⟨d, hd, by simpa using hne, rfl⟩, rfl⟩
    · refine ⟨true, s, isIn_ok.2 ⟨d, hd, by simpa using hparent, rfl⟩, ?_⟩
      exact Edit.bind_ok.2 ⟨false, t, hfirst, rfl⟩

/-- A visit that changed nothing found the operation elsewhere, before or after the nested visits,
or no pattern asked for a change. -/
theorem visitOpWith_zero {visit : RegionRef → Edit Nat} {b : BlockRef} {op : OpRef} :
    visitOpWith visit ps b op s = .ok (0, t) ↔ ∃ d, s.op? op = some d ∧
      (d.parent ≠ some b ∧ s = t ∨ d.parent = some b ∧ ∃ s₁ d₁,
        sumM visit d.regions s = .ok (0, s₁) ∧ s₁.op? op = some d₁ ∧
        (d₁.parent ≠ some b ∧ s₁ = t ∨
          d₁.parent = some b ∧ applyFirst op ps s₁ = .ok (false, t))) := by
  rw [visitOpWith, Edit.bind_ok]
  constructor
  · rintro ⟨inside, _, hin, hrest⟩
    obtain ⟨d, hd, hparent, rfl⟩ := isIn_ok.1 hin
    refine ⟨d, hd, ?_⟩
    cases inside with
    | false =>
      cases hrest
      exact .inl ⟨by simpa using hparent, rfl⟩
    | true =>
      obtain ⟨d', hd', hrest⟩ := Edit.query_bind.1 hrest
      cases hd.symm.trans (op_ok.1 hd')
      obtain ⟨n, s₁, hnested, hrest⟩ := Edit.bind_ok.1 hrest
      obtain ⟨rfl, d₁, hd₁, hend⟩ := visitEnd_zero.1 hrest
      exact .inr ⟨by simpa using hparent, s₁, d₁, hnested, hd₁, hend⟩
  · rintro ⟨d, hd, ⟨hne, rfl⟩ | ⟨hparent, s₁, d₁, hnested, hd₁, hend⟩⟩
    · exact ⟨false, s, isIn_ok.2 ⟨d, hd, by simpa using hne, rfl⟩, rfl⟩
    · refine ⟨true, s, isIn_ok.2 ⟨d, hd, by simpa using hparent, rfl⟩, ?_⟩
      refine Edit.query_bind.2 ⟨d, op_ok.2 hd, Edit.bind_ok.2 ⟨0, s₁, hnested, ?_⟩⟩
      exact visitEnd_zero.2 ⟨rfl, d₁, hd₁, hend⟩

/-! ## The store after a run that counts nothing -/

/-- If the first store is consistent, so is the second one, and it restores the first. -/
def Recovers (s t : Store) : Prop := Consistent s → Restores s t ∧ Consistent t

theorem Recovers.refl (s : Store) : Recovers s s := fun hs => ⟨.refl s, hs⟩

theorem Recovers.trans {s₁ : Store} (h : Recovers s s₁) (h' : Recovers s₁ t) : Recovers s t := by
  intro hs
  obtain ⟨hrestores, hs₁⟩ := h hs
  obtain ⟨hrestores', ht⟩ := h' hs₁
  exact ⟨hrestores.trans hrestores', ht⟩

section Recovering

variable (hps : ∀ pattern ∈ ps, ∀ op, Restoring (pattern op))

include hps

theorem applyFirst_recovers {op : OpRef} :
    ∀ {s t : Store}, applyFirst op ps s = .ok (false, t) → Recovers s t := by
  induction ps with
  | nil =>
    intro s t h
    cases h
    exact .refl s
  | cons pattern ps ih =>
    intro s t h
    obtain ⟨s₁, hpattern, hrest⟩ := applyFirst_false.1 h
    have hfirst : Recovers s s₁ := fun hs => hps pattern List.mem_cons_self op s s₁ hs hpattern
    exact hfirst.trans (ih (fun q hq => hps q (List.mem_cons_of_mem pattern hq)) hrest)

theorem visitOpWith_recovers {visit : RegionRef → Edit Nat}
    (hvisit : ∀ r s t, visit r s = .ok (0, t) → Recovers s t) (b : BlockRef) (op : OpRef)
    (s t : Store) (h : visitOpWith visit ps b op s = .ok (0, t)) : Recovers s t := by
  obtain ⟨d, _, ⟨_, rfl⟩ | ⟨_, s₁, d₁, hnested, _, hend⟩⟩ := visitOpWith_zero.1 h
  · exact .refl s
  · have hnested : Recovers s s₁ := sumM_within .refl .trans hvisit d.regions s s₁ hnested
    obtain ⟨_, rfl⟩ | ⟨_, hfirst⟩ := hend
    · exact hnested
    · exact hnested.trans (applyFirst_recovers hps hfirst)

theorem visitWithin_recovers (depth : Nat) :
    ∀ r s t, visitWithin ps depth r s = .ok (0, t) → Recovers s t := by
  induction depth with
  | zero =>
    intro r s t h
    cases h
  | succ depth ih =>
    intro r s t h
    obtain ⟨d, _, h⟩ := Edit.query_bind.1 h
    refine sumM_within .refl .trans (fun b s t hb => ?_) d.blocks s t h
    obtain ⟨bd, _, hb⟩ := Edit.query_bind.1 hb
    exact sumM_within .refl .trans (visitOpWith_recovers hps ih b) bd.ops s t hb

/-- A visit to a module that changes nothing leaves everything as it was. -/
theorem visitModule_recovers {root : OpRef} (h : visitModule ps root s = .ok (0, t)) :
    Recovers s t := by
  rw [visitModule, Edit.get_bind, Edit.query_bind] at h
  obtain ⟨d, _, h⟩ := h
  cases hregions : d.regions with
  | nil =>
    simp only [hregions] at h
    cases h
    exact .refl s
  | cons r rs =>
    simp only [hregions] at h
    exact visitWithin_recovers hps s.depthBound r s t h

end Recovering

/-! ## The same runs in padded stores -/

theorem sumM_repeating {f : α → Edit Nat} {f' : β → Edit Nat} {g : α → β}
    (hf : ∀ a, Repeating σ 0 (f a) (f' (g a))) (l : List α) :
    Repeating σ 0 (sumM f l) (sumM f' (l.map g)) := by
  induction l with
  | nil => exact .pure
  | cons a l ih =>
    intro s t hst s' h
    obtain ⟨s₁, hfirst, hrest⟩ := sumM_zero.1 h
    obtain ⟨t₁, hfirst', hst₁⟩ := hf a s t hst s₁ hfirst
    obtain ⟨t', hrest', hst'⟩ := ih s₁ t₁ hst₁ s' hrest
    exact ⟨t', sumM_zero.2 ⟨t₁, hfirst', hrest'⟩, hst'⟩

section Repeated

variable (hps : ∀ pattern ∈ ps, ∀ op, Silent σ (pattern op) (pattern (σ.op op)))

include hps

theorem applyFirst_repeating (op : OpRef) :
    Repeating σ false (applyFirst op ps) (applyFirst (σ.op op) ps) := by
  induction ps with
  | nil => exact .pure
  | cons pattern ps ih =>
    intro s t hst s' h
    obtain ⟨s₁, hfirst, hrest⟩ := applyFirst_false.1 h
    obtain ⟨t₁, hfirst', hst₁⟩ := hps pattern List.mem_cons_self op s t hst s₁ hfirst
    obtain ⟨t', hrest', hst'⟩ :=
      ih (fun q hq => hps q (List.mem_cons_of_mem pattern hq)) s₁ t₁ hst₁ s' hrest
    exact ⟨t', applyFirst_false.2 ⟨t₁, hfirst', hrest'⟩, hst'⟩

theorem visitOpWith_repeating {visit visit' : RegionRef → Edit Nat}
    (hvisit : ∀ r, Repeating σ 0 (visit r) (visit' (σ.region r))) (b : BlockRef) (op : OpRef) :
    Repeating σ 0 (visitOpWith visit ps b op) (visitOpWith visit' ps (σ.block b) (σ.op op)) := by
  intro s t hst s' h
  obtain ⟨d, hd, hcases⟩ := visitOpWith_zero.1 h
  obtain ⟨e, he, hlike⟩ := hst.op_some hd
  rcases hcases with ⟨hne, rfl⟩ | ⟨hparent, s₁, d₁, hnested, hd₁, hend⟩
  · have hne' : e.parent ≠ some (σ.block b) := fun heq => hne ((hlike.parent_eq_some b).1 heq)
    exact ⟨t, visitOpWith_zero.2 ⟨e, he, .inl ⟨hne', rfl⟩⟩, hst⟩
  · obtain ⟨t₁, hnested', hst₁⟩ := sumM_repeating hvisit d.regions s t hst s₁ hnested
    rw [← hlike.regions] at hnested'
    have hparent' := (hlike.parent_eq_some b).2 hparent
    obtain ⟨e₁, he₁, hlike₁⟩ := hst₁.op_some hd₁
    rcases hend with ⟨hne, rfl⟩ | ⟨hparent₁, hfirst⟩
    · have hne' : e₁.parent ≠ some (σ.block b) := fun heq => hne ((hlike₁.parent_eq_some b).1 heq)
      exact ⟨t₁, visitOpWith_zero.2
        ⟨e, he, .inr ⟨hparent', t₁, e₁, hnested', he₁, .inl ⟨hne', rfl⟩⟩⟩, hst₁⟩
    · obtain ⟨t', hfirst', hst'⟩ := applyFirst_repeating hps op s₁ t₁ hst₁ s' hfirst
      have hparent₁' := (hlike₁.parent_eq_some b).2 hparent₁
      exact ⟨t', visitOpWith_zero.2
        ⟨e, he, .inr ⟨hparent', t₁, e₁, hnested', he₁, .inr ⟨hparent₁', hfirst'⟩⟩⟩, hst'⟩

theorem visitWithin_repeating (n : Nat) : ∀ m, n ≤ m → ∀ r,
    Repeating σ 0 (visitWithin ps n r) (visitWithin ps m (σ.region r)) := by
  induction n with
  | zero =>
    intro m _ r s t _ s' h
    cases h
  | succ n ih =>
    intro m hm r
    obtain ⟨m, rfl⟩ : ∃ k, m = k + 1 := ⟨m - 1, by omega⟩
    have hvisit := ih m (by omega)
    refine .query (fun _ _ hst => hst.region r) fun d => sumM_repeating (fun b => ?_) d.blocks
    refine .query (fun _ _ hst => hst.block b) fun bd => ?_
    exact sumM_repeating (visitOpWith_repeating hps hvisit b) bd.ops

/-- A visit that changes nothing changes nothing in a padded store either. -/
theorem visitModule_repeating (root : OpRef) :
    Repeating σ 0 (visitModule ps root) (visitModule ps (σ.op root)) := by
  refine .get_bind fun s t hst => .op_bind fun d e hlike => ?_
  rw [hlike.regions]
  cases d.regions with
  | nil => exact .pure
  | cons r rs => exact visitWithin_repeating hps s.depthBound t.depthBound hst.depthBound_le r

end Repeated

theorem isDead_moved (h : Padded σ s t) (o : OpRef) : Same (isDead s o) (isDead t (σ.op o)) := by
  refine .bind (isRemovable_moved h o) fun _ => .ite .rfl (.pure ?_) (.pure rfl)
  rw [h.resultsOf, List.all_map]
  exact List.all_congr rfl fun v => by rw [Function.comp_apply, h.hasUses]

theorem eraseDead_repeating (l : List OpRef) :
    Repeating σ 0 (eraseDead l) (eraseDead (l.map σ.op)) := by
  induction l with
  | nil => exact .pure
  | cons o l ih =>
    intro s t hst s' h
    obtain ⟨hdead, hrest⟩ := eraseDead_zero.1 h
    obtain ⟨t', hrest', hst'⟩ := ih s t hst s' hrest
    exact ⟨t', eraseDead_zero.2 ⟨isDead_moved hst o false hdead, hrest'⟩, hst'⟩

theorem sweepBlock_repeating {nested nested' : Edit Nat} (h : Repeating σ 0 nested nested')
    (b : BlockRef) :
    Repeating σ 0
      (do
        let n ← nested
        let ops := (← query (·.block b)).ops
        let removed ← eraseDead ops.reverse
        return n + removed)
      (do
        let n ← nested'
        let ops := (← query (·.block (σ.block b))).ops
        let removed ← eraseDead ops.reverse
        return n + removed) := by
  intro s t hst s' hrun
  obtain ⟨s₁, d, hnested, hd, hdead⟩ := sweepBlock_zero.1 hrun
  obtain ⟨t₁, hnested', hst₁⟩ := h s t hst s₁ hnested
  obtain ⟨t', hdead', hst'⟩ := eraseDead_repeating d.ops.reverse s₁ t₁ hst₁ s' hdead
  rw [List.map_reverse] at hdead'
  have hd' : t₁.block? (σ.block b) = some (σ.blockData d) := by
    rw [hst₁.block?, hd, Option.map_some]
  exact ⟨t', sweepBlock_zero.2 ⟨t₁, σ.blockData d, hnested', hd', hdead'⟩, hst'⟩

theorem sweepWithin_repeating (recursive : Bool) (n : Nat) : ∀ m, n ≤ m → ∀ r,
    Repeating σ 0 (sweepWithin recursive n r) (sweepWithin recursive m (σ.region r)) := by
  induction n with
  | zero =>
    intro m _ r s t _ s' h
    cases h
  | succ n ih =>
    intro m hm r
    obtain ⟨m, rfl⟩ : ∃ k, m = k + 1 := ⟨m - 1, by omega⟩
    have hsweep := ih m (by omega)
    refine .query (fun _ _ hst => hst.region r) fun d => sumM_repeating (fun b => ?_) d.blocks
    cases recursive with
    | false => exact sweepBlock_repeating .pure b
    | true =>
      refine .query (fun _ _ hst => hst.block b) fun bd => sweepBlock_repeating ?_ b
      have hop : ∀ o, Repeating σ 0
          (do sumM (sweepWithin true n) (← query (·.op o)).regions)
          (do sumM (sweepWithin true m) (← query (·.op (σ.op o))).regions) := by
        refine fun o => .op_bind fun od oe hlike => ?_
        rw [hlike.regions]
        exact sumM_repeating hsweep od.regions
      exact sumM_repeating hop bd.ops

/-- A sweep that removes nothing removes nothing in a padded store either. -/
theorem sweepModule_repeating (recursive : Bool) (root : OpRef) :
    Repeating σ 0 (sweepModule recursive root) (sweepModule recursive (σ.op root)) := by
  refine .get_bind fun s t hst => .op_bind fun d e hlike => ?_
  rw [hlike.regions]
  cases d.regions with
  | nil => exact .pure
  | cons r rs => exact sweepWithin_repeating recursive s.depthBound t.depthBound hst.depthBound_le r

/-! ## Repeated visits and sweeps -/

/-- Visits that reach a fixpoint end with one that changes nothing, made in a consistent store. -/
theorem visitUntilStable_fixpoint
    (hps : ∀ pattern ∈ ps, ∀ s op, Consistent s → Asking s (pattern op)) {root : OpRef}
    {report : PatternReport} (hfix : report.reachedFixpoint = true) (left : Nat) :
    ∀ iterations changes s, Consistent s →
      visitUntilStable ps root left iterations changes s = .ok (report, t) →
      0 < left ∧ ∃ s₁, Consistent s₁ ∧ visitModule ps root s₁ = .ok (0, t) := by
  induction left with
  | zero =>
    intro iterations changes s _ h
    cases h
    cases hfix
  | succ left ih =>
    intro iterations changes s hs h
    refine ⟨Nat.succ_pos left, ?_⟩
    obtain ⟨n, s₁, hvisit, h⟩ := Edit.bind_ok.1 h
    split at h
    · rename_i hn
      cases hn
      cases h
      exact ⟨s, hs, hvisit⟩
    · have hs₁ := (visitModule_advancing hps root s n s₁ hs hvisit).consistent
      exact (ih _ _ s₁ hs₁ h).2

theorem sweepUntilClean_fixpoint {recursive : Bool} {root : OpRef} {report : SweepReport}
    (hfix : report.reachedFixpoint = true) (left : Nat) : ∀ {removed iterations s},
      sweepUntilClean recursive root left removed iterations s = .ok (report, t) →
      sweepModule recursive root t = .ok (0, t) ∧ removed ≤ report.removed ∧
        (report.removed = removed → s = t) := by
  induction left with
  | zero =>
    intro removed iterations s h
    cases h
    cases hfix
  | succ left ih =>
    intro removed iterations s h
    obtain ⟨n, s₁, hsweep, h⟩ := Edit.bind_ok.1 h
    split at h
    · rename_i hn
      cases hn
      cases h
      cases sweepModule_same hsweep
      exact ⟨hsweep, Nat.le_refl _, fun _ => rfl⟩
    · obtain ⟨hlast, hle, _⟩ := ih h
      exact ⟨hlast, by omega, fun heq => by omega⟩

/-- Sweeps that reach a fixpoint end with one that does nothing.  If nothing was removed at all,
none did anything. -/
theorem removeDeadCode_fixpoint {limit : Nat} {recursive : Bool} {root : OpRef}
    {report : SweepReport} (h : removeDeadCode limit recursive root s = .ok (report, t))
    (hfix : report.reachedFixpoint = true) :
    sweepModule recursive root t = .ok (0, t) ∧ (report.removed = 0 → s = t) := by
  obtain ⟨hlast, _, hsame⟩ := sweepUntilClean_fixpoint hfix _ h
  exact ⟨hlast, hsame⟩

/-! ## Raising again -/

theorem Consistent.pointsBack (hs : Consistent s) : PointsBack s := by
  obtain ⟨⟨_, hk⟩, _⟩ := hs
  exact hk.uses.pointsBack

theorem visitModule_root {root : OpRef} {n : Nat} (h : visitModule ps root s = .ok (n, t)) :
    ∃ d, s.op? root = some d := by
  rw [visitModule, Edit.get_bind, Edit.query_bind] at h
  obtain ⟨d, hd, _⟩ := h
  exact ⟨d, op_ok.1 hd⟩

/-- Where patterns have reached a fixpoint, they stay there.  The new store restores the old one,
and differs from it as a longer table does. -/
theorem applyPatterns_again {limit n : Nat} {root : OpRef} {report : PatternReport}
    (hs : Consistent s) (h : applyPatterns (patterns limit) n root s = .ok (report, t))
    (hfix : report.reachedFixpoint = true) :
    ∃ σ u, applyPatterns (patterns limit) n root t = .ok (⟨1, 0, true⟩, u) ∧ Padded σ t u ∧
      σ.op root = root ∧ Linked t ∧ Restores t u := by
  have hasking : ∀ p ∈ patterns limit, ∀ s op, Consistent s → Asking s (p op) :=
    fun p hp s op hs => patterns_asking hp hs op
  have hrestoring : ∀ p ∈ patterns limit, ∀ op, Restoring (p op) :=
    fun p hp op => patterns_restoring hp op
  -- the last visit of the first run began in a store that `t` restores
  obtain ⟨hpos, s₁, hs₁, hvisit⟩ := visitUntilStable_fixpoint hasking hfix n 0 0 s hs h
  obtain ⟨hrestores, ht⟩ := visitModule_recovers hrestoring hvisit hs₁
  have hpadded := hrestores.padded hs₁.linked hs₁.grounded hs₁.pointsBack ht.grounded ht.pointsBack
  obtain ⟨d, hroot⟩ := visitModule_root hvisit
  have hroot : (Padding.between s₁ t).op root = root := between_op hroot
  -- so the same visit can be made in `t`
  obtain ⟨u, hagain, hpadded'⟩ :=
    visitModule_repeating (fun p hp op => patterns_silent hp op) root s₁ t hpadded t hvisit
  rw [hroot] at hagain
  obtain ⟨k, rfl⟩ : ∃ k, n = k + 1 := ⟨n - 1, by omega⟩
  refine ⟨_, u, ?_, hpadded', hroot, ht.linked, (visitModule_recovers hrestoring hagain ht).1⟩
  exact Edit.bind_ok.2 ⟨0, u, hagain, rfl⟩

/-- Where a sweep does nothing, removing dead operations ends with it. -/
theorem removeDeadCode_last (limit : Nat) {recursive : Bool} {root : OpRef}
    (h : sweepModule recursive root t = .ok (0, t)) :
    removeDeadCode limit recursive root t = .ok (⟨0, 1, true⟩, t) := by
  obtain ⟨k, hk⟩ : ∃ k, (if limit = 0 then defaultSweeps else limit) = k + 1 := by
    refine ⟨(if limit = 0 then defaultSweeps else limit) - 1, ?_⟩
    have hpos : 0 < (if limit = 0 then defaultSweeps else limit) := by
      split
      · exact Nat.succ_pos _
      · omega
    omega
  rw [removeDeadCode, hk]
  exact sweepUntilClean_last k 0 0 h

theorem removeDeadCode_again (limit : Nat) {recursive : Bool} {root : OpRef} {u : Store}
    (h : sweepModule recursive root t = .ok (0, t)) (hpadded : Padded σ t u)
    (hroot : σ.op root = root) :
    removeDeadCode limit recursive root u = .ok (⟨0, 1, true⟩, u) := by
  obtain ⟨u', hsweep, _⟩ := sweepModule_repeating recursive root t u hpadded t h
  rw [hroot] at hsweep
  cases sweepModule_same hsweep
  exact removeDeadCode_last limit hsweep

end AffineRaising.Raise
