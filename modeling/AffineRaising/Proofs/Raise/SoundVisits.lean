/-
# AffineRaising.Proofs.Raise.SoundVisits — raising a whole module soundly.

Every pattern, with `steadyBounds` for the bounds of loops, leaves a module that is sound apart from
what it asks for, and that is carried out at once; so a visit that begins with a sound module ends
with one.  It looks only at operations that stand in a block, and in a sound module these are nested
in the module.  Sweeps erase operations that nobody uses, which keeps a module sound as well.

The visits are taken apart once, for any list of patterns (`visitModule_keeps` and its parts): what
holds of a module and of an operation in it when the patterns are tried, and again of the module
when one of them was carried out, holds after a visit.  Two instances are made of it, soundness here
and, with the pattern for bounds as it is, the comparison in `Steady`.
-/
import AffineRaising.Proofs.Raise.Fixpoint
import AffineRaising.Proofs.Raise.SoundConditional

namespace AffineRaising.Raise

open AffineRaising.IR AffineRaising.IR.Store AffineRaising.Ops AffineRaising.Analysis
open AffineRaising.Transform
open Edit (Keeps)

variable {sided : Prop} {gone : OpRef → Prop} {s t : Store} {root op : OpRef} {b : BlockRef}

/-! ## Patterns -/

/-- The patterns, with the steady one for the bounds of loops. -/
def steadyPatterns (limit : Nat) : List Pattern :=
  [raiseApply limit, foldIndexCast, normalizeAccess limit, normalizeCondition limit,
    raiseStore limit, raiseConditional limit, raiseLoad limit, steadyBounds limit]

/-- Each of these patterns leaves a sound module in which the change can be carried out. -/
theorem steadyPatterns_sound {limit : Nat} {pattern : Pattern}
    (hp : pattern ∈ steadyPatterns limit) (hs : Sound sided root gone (fun _ => False) s)
    (hx : Nested s root op) : AsksSoundly sided root op s (pattern op) := by
  simp only [steadyPatterns, List.mem_cons, List.not_mem_nil, or_false] at hp
  rcases hp with rfl | rfl | rfl | rfl | rfl | rfl | rfl | rfl
  · exact raiseApply_sound hs hx limit
  · exact foldIndexCast_sound hs hx
  · exact normalizeAccess_sound hs hx limit
  · exact normalizeCondition_sound hs hx limit
  · exact raiseStore_sound hs hx limit
  · exact raiseConditional_sound hs hx limit
  · exact raiseLoad_sound hs hx limit
  · exact steadyBounds_sound hs hx limit

/-- In a settled module, what stands in a block is nested in the module. -/
theorem Settled.nested (h : Settled sided root s) (hb : s.opParent op = some (some b)) :
    Nested s root op := by
  obtain ⟨gone, hs⟩ := h
  obtain ⟨d, hd, hparent⟩ := opParent_eq_some.1 hb
  have hlive : ¬ gone op := fun hgone => by
    cases hparent.symm.trans (hs.tidy.removed op d hgone hd)
  rcases hs.accounted op d hd hlive with hw | ⟨_, hout, _⟩
  · refine nested_of_within hw ?_
    rintro rfl
    cases hs.top.symm.trans hb
  · exact hout.elim

/-! ## Visits -/

/-- A sum over a list keeps what its members keep. -/
theorem keeps_sumM {α : Type} {P : Store → Prop} {f : α → Edit Nat} (hf : ∀ a, Keeps P (f a)) :
    ∀ l, Keeps P (sumM f l)
  | [] => .pure _
  | a :: l => .bind (hf a) fun _ => .bind (keeps_sumM hf l) fun _ => .pure _

section Visits

-- what holds of the module between two visits, and of the module and a visited operation in it
variable {P : Store → Prop} {Q : Store → OpRef → Prop} {ps : List Pattern}
  (hstart : ∀ {s op b}, P s → s.opParent op = some (some b) → Q s op)
  (hfirst : ∀ {s op changed t}, Q s op → applyFirst op ps s = .ok (changed, t) → P t)

include hstart hfirst

/-- Regions are visited before the operation is looked at, and it may have been erased by then. -/
theorem visitOpWith_keeps {visit : RegionRef → Edit Nat} (hvisit : ∀ r, Keeps P (visit r))
    (b : BlockRef) (op : OpRef) : Keeps P (visitOpWith visit ps b op) := by
  intro s n t hs h
  obtain ⟨inside, s₁, hin, h⟩ := Edit.bind_ok.1 h
  obtain ⟨_, _, _, rfl⟩ := isIn_ok.1 hin
  cases inside with
  | false =>
    cases h
    exact hs
  | true =>
    obtain ⟨d, _, h⟩ := Edit.query_bind.1 h
    obtain ⟨nested, s₂, hnested, h⟩ := Edit.bind_ok.1 h
    have hs₂ := keeps_sumM hvisit d.regions s _ s₂ hs hnested
    obtain ⟨inside, s₃, hin, h⟩ := Edit.bind_ok.1 h
    obtain ⟨e, he, hparent, rfl⟩ := isIn_ok.1 hin
    cases inside with
    | false =>
      cases h
      exact hs₂
    | true =>
      obtain ⟨changed, s₄, hchanged, h⟩ := Edit.bind_ok.1 h
      have hs₄ := hfirst (hstart hs₂ (opParent_eq_some.2 ⟨e, he, by simpa using hparent⟩)) hchanged
      cases changed <;>
      · cases h
        exact hs₄

/-- By induction on the depth of the visit. -/
theorem visitWithin_keeps (depth : Nat) : ∀ r, Keeps P (visitWithin ps depth r) := by
  induction depth with
  | zero =>
    intro r s n t _ h
    cases h
  | succ depth ih =>
    intro r
    refine .bind (.query _) fun d => keeps_sumM (fun b => .bind (.query _) fun bd => ?_) d.blocks
    exact keeps_sumM (visitOpWith_keeps hstart hfirst ih b) bd.ops

theorem visitModule_keeps : Keeps P (visitModule ps root) := by
  refine .bind .get fun s => .bind (.query _) fun d => ?_
  cases d.regions with
  | nil => exact .pure _
  | cons r rs => exact visitWithin_keeps hstart hfirst s.depthBound r

/-- Any number of visits keeps what one keeps. -/
theorem visitUntilStable_keeps (left : Nat) : ∀ iterations changes,
    Keeps P (visitUntilStable ps root left iterations changes) := by
  induction left with
  | zero => exact fun _ _ => .pure _
  | succ left ih =>
    refine fun iterations changes => .bind (visitModule_keeps hstart hfirst) fun n => ?_
    split
    · exact .pure _
    · exact ih _ _

end Visits

/-- After the first pattern that asks for a change, the module is sound. -/
theorem applyFirst_settled {ps : List Pattern}
    (hps : ∀ pattern ∈ ps, ∀ {gone s op}, Sound sided root gone (fun _ => False) s →
      Nested s root op → AsksSoundly sided root op s (pattern op))
    (h : Settled sided root s ∧ Nested s root op) {changed : Bool}
    (hrun : applyFirst op ps s = .ok (changed, t)) : Settled sided root t := by
  induction ps generalizing s with
  | nil =>
    cases hrun
    exact h.1
  | cons pattern ps ih =>
    obtain ⟨⟨gone, hs⟩, hx⟩ := h
    obtain ⟨c, s₁, hpattern, hrun⟩ := Edit.bind_ok.1 hrun
    have hasked := hps pattern List.mem_cons_self hs hx c s₁ hpattern
    cases c with
    | none => exact ih (fun q hq => hps q (List.mem_cons_of_mem pattern hq)) hasked hrun
    | _ =>
      obtain ⟨_, s₂, hchange, hrun⟩ := Edit.bind_ok.1 hrun
      cases hrun
      exact applyChange_settled hasked hchange

/-! ## Sweeps -/

/-- An operation that nobody uses and that is not the root may be erased. -/
theorem eraseDead_settled {l : List OpRef} (hl : root ∉ l) :
    Keeps (Settled sided root) (eraseDead l) := by
  induction l with
  | nil => exact .pure _
  | cons o l ih =>
    obtain ⟨hne, hl⟩ := List.ne_and_not_mem_of_not_mem_cons hl
    refine .bind (.query _) fun dead => ?_
    split
    · refine .bind (fun s u t ⟨gone, hs⟩ h => ?_) fun _ => .bind (ih hl) fun _ => .pure _
      exact ⟨_, (hs.erased hne.symm h).mono fun _ ho => ho.1⟩
    · exact ih hl

/-- Sweeps erase level by level. -/
theorem sweepWithin_settled (recursive : Bool) (depth : Nat) :
    ∀ r, Keeps (Settled sided root) (sweepWithin recursive depth r) := by
  induction depth with
  | zero =>
    intro r s n t _ h
    cases h
  | succ depth ih =>
    intro r
    refine .bind (.query _) fun d => keeps_sumM (fun b => ?_) d.blocks
    have hdead : ∀ nested : Nat, Keeps (Settled sided root) (do
        let ops := (← query (·.block b)).ops
        let removed ← eraseDead ops.reverse
        return nested + removed) := by
      intro nested s n t hs h
      obtain ⟨bd, hbd, h⟩ := Edit.query_bind.1 h
      have hroot : root ∉ bd.ops.reverse := fun hr => by
        obtain ⟨gone, hs⟩ := hs
        have hparent := opParent_of_mem hs.linked (block_ok.1 hbd) (List.mem_reverse.1 hr)
        cases hs.top.symm.trans hparent
      exact Keeps.bind (eraseDead_settled hroot) (fun _ => .pure _) s n t hs h
    cases recursive with
    | false => exact .bind (.pure 0) hdead
    | true =>
      refine .bind (.query _) fun bd => .bind (keeps_sumM (fun o => ?_) bd.ops) hdead
      exact .bind (.query _) fun od => keeps_sumM ih od.regions

/-- Any number of sweeps keeps a module settled. -/
theorem sweepUntilClean_settled (recursive : Bool) (left : Nat) : ∀ removed iterations,
    Keeps (Settled sided root) (sweepUntilClean recursive root left removed iterations) := by
  induction left with
  | zero => exact fun _ _ => .pure _
  | succ left ih =>
    have hsweep : Keeps (Settled sided root) (sweepModule recursive root) := by
      refine .bind .get fun s => .bind (.query _) fun d => ?_
      cases d.regions with
      | nil => exact .pure _
      | cons r rs => exact sweepWithin_settled recursive s.depthBound r
    refine fun removed iterations => .bind hsweep fun n => ?_
    split
    · exact .pure _
    · exact ih _ _

/-! ## Whole modules -/

/-- Raises a module with the steady pattern for the bounds of loops. -/
def legalizeSteadily (config : Config) (root : OpRef) : Edit Outcome := do
  let applied ← applyPatterns (steadyPatterns config.maxComposeSteps) config.maxIterations root
  let sweep ←
    if config.runDce then do pure (some (← removeDeadCode defaultSweeps true root))
    else pure none
  return ⟨applied, sweep⟩

/-- Raising a sound module steadily ends with one that is sound. -/
theorem legalizeSteadily_settled (config : Config) :
    Keeps (Settled sided root) (legalizeSteadily config root) := by
  refine .bind (visitUntilStable_keeps (fun hs hb => ⟨hs, hs.nested hb⟩)
    (fun hs hrun => applyFirst_settled (fun _ hp => steadyPatterns_sound hp) hs hrun) _ _ _)
    fun applied => ?_
  dsimp only
  split
  · exact .bind (sweepUntilClean_settled _ _ _ _) fun _ => .bind (.pure _) fun _ => .pure _
  · exact .bind (.pure _) fun _ => .pure _

end AffineRaising.Raise
