/-
# AffineRaising.Proofs.Raise.SoundBranches — the branches of a conditional that is raised.

The regions of the old conditional get other terminators; if there is no else branch, a region with
only a terminator is made.  Compared with a sound store in which the old conditional still has its
regions, the regions that the new one is to get hold what the old one held, and at most a terminator
that is new (`Branches`).  So the regions go over to the new conditional once it is created.
-/
import AffineRaising.Proofs.Raise.Rehoused
import AffineRaising.Proofs.Raise.SoundRetarget

namespace AffineRaising.IR

open Store

variable {s t : Store} {y : OpRef} {rs : List RegionRef}

theorem inRegions_iff : InRegions s rs y ↔ ∃ r ∈ rs, ∃ bs, s.blocksIn r = some bs ∧
    ∃ b ∈ bs, ∃ os, s.opsIn b = some os ∧ y ∈ os := by
  simp [InRegions, InBlocks, blocksIn, opsIn, Option.map_eq_some_iff]

/-- What stands in regions depends on the lists of blocks and operations only. -/
theorem inRegions_congr (h : ∀ r ∈ rs, t.blocksIn r = s.blocksIn r ∧
    ∀ bs, s.blocksIn r = some bs → ∀ b ∈ bs, t.opsIn b = s.opsIn b) :
    InRegions t rs y ↔ InRegions s rs y := by
  rw [inRegions_iff, inRegions_iff]
  refine exists_congr fun r => and_congr_right fun hr => ?_
  obtain ⟨hblocks, hops⟩ := h r hr
  rw [hblocks]
  refine exists_congr fun bs => and_congr_right fun hbs =>
    exists_congr fun b => and_congr_right fun hb => ?_
  rw [hops bs hbs b hb]

theorem child_iff_inRegions {x : OpRef} {d : OpData} (hd : s.op? x = some d) :
    Child s x y ↔ InRegions s d.regions y := by
  simp only [Child, hd, Option.some.injEq, exists_eq_left']

/-- A new operation takes regions over with what they hold. -/
theorem Created.inRegions_iff {spec : OpSpec} {c : OpRef} (hc : Created s spec c t) :
    InRegions t rs y ↔ InRegions s rs y := by
  refine inRegions_congr fun r _ => ⟨?_, fun _ _ b _ => ?_⟩
  · rw [blocksIn, blocksIn, hc.region?]
    split
    · cases s.region? r <;> rfl
    · rfl
  · rw [opsIn, opsIn, Store.block?, Store.block?, hc.blocks]

end AffineRaising.IR

namespace AffineRaising.Raise

open AffineRaising.IR AffineRaising.IR.Store AffineRaising.Ops AffineRaising.Analysis
open AffineRaising.Transform

variable {sided : Prop} {gone out : OpRef → Prop} {s s₁ s' t t' u : Store} {v w : ValueRef}
  {root c o x y z : OpRef} {d : OpData} {r : RegionRef} {rs : List RegionRef}

/-! ## A region with only a terminator -/

/-- The region has only the terminator `z` in it, and nothing else is new. -/
structure OnlyTerminator (s : Store) (z : OpRef) (r : RegionRef) (t : Store) : Prop where
  copied : Copied s t
  new : s.op? z = none
  op?_other : ∀ y, y ≠ z → t.op? y = s.op? y
  entry : ∃ e, t.op? z = some e ∧ e.operands = [] ∧ e.regions = [] ∧ Fitted True e
  inRegions : ∀ y, InRegions t [r] y ↔ y = z
  tidy : ∀ gone, Tidy gone s → Tidy gone t
  sized : Sized s → Sized t

theorem onlyTerminator_of_ok (hcreate : createOp (yieldSpec affineYieldName []) s = .ok (z, s₁))
    (hrun : regionWithTerminator z s₁ = .ok (r, t)) : OnlyTerminator s z r t := by
  obtain ⟨b, s₂, hblock, hrun⟩ := Edit.bind_ok.1 hrun
  obtain ⟨_, s₃, hpush, hregion⟩ := Edit.bind_ok.1 hrun
  have hc := createOp_ok hcreate
  have hb := createBlock_ok hblock
  have hr := createRegion_ok hregion
  have hcopied₁ := hc.copied_self rfl
  have hbnew : s.block? b = none := hcopied₁.block?_none (by
    rw [hb.eq_next, Store.block?, Array.getElem?_eq_none (Nat.le_refl _)])
  have hcopied₃ := (hb.copied hcopied₁).pushOp hc.new hbnew hpush
  rw [pushOp_eq_insertOp] at hpush
  obtain ⟨d, bd, front, back, hd, _, hbd, hsplit, _, _, rfl⟩ := insertOp_ok hpush
  -- the block has nothing but the terminator
  have hbdops : bd.ops = [] := by
    rw [Store.block?, hb.blocks, hb.eq_next, Array.getElem?_push_size] at hbd
    cases hbd
    rfl
  obtain ⟨rfl, rfl⟩ := List.append_eq_nil_iff.1 (hsplit.symm.trans hbdops)
  have hentry : d = (yieldSpec affineYieldName []).entry s := by
    rw [Store.op?, hb.ops, ← Store.op?, hc.op?, if_pos rfl] at hd
    exact (Option.some.inj hd).symm
  refine ⟨hr.copied hcopied₃ fun b' hb' => List.mem_singleton.1 hb' ▸ hbnew, hc.new, fun y hy => ?_,
    ?_, fun y => ?_, fun gone h => ?_, fun h => ?_⟩
  · rw [Store.op?, hr.ops, ← Store.op?, op?_attach hd, if_neg hy, Store.op?, hb.ops, ← Store.op?,
      hc.op?, if_neg hy]
  · have hfits : Fitted True ((yieldSpec affineYieldName []).entry s) := suits_yield [] s
    refine ⟨{ d with parent := some b }, ?_, ?_, ?_, ?_⟩
    · rw [Store.op?, hr.ops, ← Store.op?, op?_attach hd, if_pos rfl]
    · rw [hentry]
      rfl
    · rw [hentry]
      rfl
    · rw [hentry]
      exact SameShape.fits (d := (yieldSpec affineYieldName []).entry s)
        ⟨rfl, rfl, rfl, rfl, rfl⟩ hfits
  · have hblocks : t.blocksIn r = some [b] := by
      rw [blocksIn, Store.region?, hr.regions, hr.eq_next, Array.getElem?_push_size]
      rfl
    have hops : t.opsIn b = some [z] := by
      rw [opsIn, hr.block?, if_pos (List.mem_singleton_self b), block?_attach hbd, if_pos rfl]
      rfl
    simp [inRegions_iff, hblocks, hops]
  · refine (((h.created hcreate fun v hv => absurd hv List.not_mem_nil).createBlock hblock).inserted
      (fun hgone => ?_) hpush).createRegion hregion
    have hlt := h.kept.created z hgone
    rw [hc.eq_next] at hlt
    exact Nat.lt_irrefl _ hlt
  · have hk := Sized.copyStepsKeep
    exact hk.createRegion _ _ _ _ (hk.pushOp _ _ _ _ _ (hk.createBlock _ _ _ _
      (hk.createOp _ _ _ _ h hcreate) hblock) hpush) hregion

/-! ## Branches -/

/-- In the second store the operation has no regions; the regions of the list hold what it held, and
new operations that use and hold nothing. -/
structure Branches (x : OpRef) (s : Store) (rs : List RegionRef) (t : Store) : Prop where
  op? : ∀ y d, s.op? y = some d → t.op? y = some (if y = x then { d with regions := [] } else d)
  block? : ∀ b d, s.block? b = some d → t.block? b = some d
  blocksIn : ∀ r bs, s.blocksIn r = some bs → t.blocksIn r = some bs
  originOf : ∀ v k, s.originOf v = some k → t.originOf v = some k
  inRegions : ∀ y, InRegions t rs y ↔ Child s x y ∨ s.op? y = none ∧ ∃ e, t.op? y = some e
  made : ∀ y e, t.op? y = some e → s.op? y = none →
    e.operands = [] ∧ e.regions = [] ∧ Fitted True e
  tidy : ∀ gone, Tidy gone s → Tidy gone t
  sized : Sized s → Sized t

namespace Branches

variable (h : Branches x s rs t) (hl : Linked s)

include h hl

/-- What another operation holds is the same. -/
theorem inRegions_old (hd : s.op? z = some d) :
    InRegions t d.regions y ↔ InRegions s d.regions y := by
  refine inRegions_congr fun r hr => ?_
  obtain ⟨rd, hrd, _⟩ := region?_of_op hl hd hr
  have hbs : s.blocksIn r = some rd.blocks := congrArg _ hrd
  refine ⟨(h.blocksIn r _ hbs).trans hbs.symm, fun bs hbs' b hb => ?_⟩
  cases hbs.symm.trans hbs'
  obtain ⟨bd, hbd, _⟩ := block?_of_region hl hrd hb
  rw [opsIn, opsIn, h.block? b bd hbd, hbd]

/-- A new operation that gets the regions takes over what the old one held. -/
theorem rehoused {spec : OpSpec} (hc : Created t spec c u) (hregions : spec.regions = rs)
    (hx : s.op? x = some d) : Rehoused x c s u := by
  have hnew : s.op? c = none := by
    by_contra hne
    obtain ⟨e, he⟩ := Option.ne_none_iff_exists'.1 hne
    cases hc.new.symm.trans (h.op? c e he)
  have hother : ∀ {y}, y ≠ c → u.op? y = t.op? y := fun hy => by rw [hc.op?, if_neg hy]
  have hxc : x ≠ c := by
    rintro rfl
    cases hnew.symm.trans hx
  have hentry : u.op? c = some (spec.entry t) := by rw [hc.op?, if_pos rfl]
  have hold : ∀ {y e}, s.op? y = some e → y ≠ c := by
    rintro y e he rfl
    cases hnew.symm.trans he
  refine ⟨hnew, fun y e he => by rw [hother (hold he), h.op? y e he], fun b bd hb => ?_,
    fun v k hv => originOf_grows hc.values (h.originOf v k hv), fun p y => ?_⟩
  · exact ⟨bd, by rw [Store.block?, hc.blocks]; exact h.block? b bd hb, rfl⟩
  · by_cases hpc : p = c
    · subst hpc
      have hnot : ¬ Child s p y := fun hc' => by
        obtain ⟨e, he⟩ := op?_of_child hc'
        exact hold he rfl
      rw [child_iff_inRegions hentry, hc.inRegions_iff,
        show (spec.entry t).regions = rs from hregions, h.inRegions]
      constructor
      · rintro (hy | ⟨hnone, e, he⟩)
        · exact .inr ⟨rfl, .inl hy⟩
        · have hyc : y ≠ p := by
            rintro rfl
            cases hc.new.symm.trans he
          exact .inr ⟨rfl, .inr ⟨hyc, hnone, e, (hother hyc).trans he⟩⟩
      · rintro (⟨_, hy⟩ | ⟨_, hy | ⟨hyc, hnone, e, he⟩⟩)
        · exact absurd hy hnot
        · exact .inl hy
        · exact .inr ⟨hnone, e, (hother hyc).symm.trans he⟩
    · simp only [hpc, false_and, or_false]
      by_cases hpx : p = x
      · subst hpx
        have hx' : u.op? p = some { d with regions := [] } := by
          rw [hother hxc, h.op? p d hx, if_pos rfl]
        simp [child_iff_inRegions hx', InRegions]
      · cases hp : s.op? p with
        | none =>
          have hnot : ¬ Child u p y := by
            rintro ⟨e, he, r, hr, _⟩
            rw [(h.made p e ((hother hpc).symm.trans he) hp).2.1] at hr
            cases hr
          refine iff_of_false hnot ?_
          rintro ⟨_, e, he, _⟩
          cases hp.symm.trans he
        | some e =>
          have hp' : u.op? p = some e := by rw [hother hpc, h.op? p e hp, if_neg hpx]
          rw [child_iff_inRegions hp', hc.inRegions_iff, h.inRegions_old hl hp,
            child_iff_inRegions hp]
          exact (and_iff_right hpx).symm

end Branches

/-! ## Regions that are taken out -/

theorem stripped_of_takeRegions (h : takeRegions x s = .ok (rs, t)) : Stripped x s t := by
  obtain ⟨d, hd, _, hf⟩ := takeRegions_ok h
  have hop : ∀ y, t.op? y = (s.setOp x { d with regions := [] }).op? y := fun y => by
    rw [Store.op?, Store.op?, hf.ops]
  refine ⟨⟨d, hd⟩, fun y => ?_, ?_, fun b => ?_, ?_, fun r => ?_, hf.values, fun v => ?_⟩
  · rw [hop, op?_setOp hd]
    by_cases hy : y = x
    · subst hy
      simp [hd]
    · simp [hy]
  · rw [hf.ops]
    simp [Store.setOp]
  · rw [Store.block?, hf.blocks]
    rfl
  · rw [hf.blocks]
    rfl
  · rw [hf.region?]
    split
    · rw [Option.map_map]
      rfl
    · rfl
  · rw [Store.usesOf, Store.usesOf, hf.uses]
    rfl

namespace Stripped

variable (h : Stripped x s s')

include h

theorem sized (hs : Sized s) : Sized s' := by
  refine SameSizes.sized ⟨fun y => ?_, fun b => by rw [h.block?]⟩ hs
  rw [h.op?, Option.map_map]
  congr 1
  funext d
  simp only [Function.comp_apply]
  split <;> rfl

theorem inRegions_iff : InRegions s' rs y ↔ InRegions s rs y :=
  inRegions_congr fun r _ => ⟨h.region? r, fun _ _ b _ => by rw [opsIn, opsIn, h.block?]⟩

theorem op?_none (hy : s'.op? y = none) : s.op? y = none := by
  rw [h.op?] at hy
  exact Option.map_eq_none_iff.1 hy

variable (hl' : Linked s') (hx : s.op? x = some d)

include hl' hx

/-- All regions are kept. -/
theorem branches : Branches x s d.regions s' where
  op? y e he := by
    rw [h.op?, he]
    rfl
  block? b bd hb := by rw [h.block?, hb]
  blocksIn r bs hbs := (h.region? r).trans hbs
  originOf v k hv := by
    rw [originOf, Store.value?, h.values]
    exact hv
  inRegions y := by
    rw [h.inRegions_iff, child_iff_inRegions hx]
    refine (or_iff_left ?_).symm
    rintro ⟨hnone, e, he⟩
    rw [h.op?, hnone] at he
    cases he
  made y e he hnone := by
    rw [h.op?, hnone] at he
    cases he
  tidy gone hs := h.tidy hs hl'
  sized hs := h.sized hs

/-- The first region, which holds all that the operation holds, is kept, and a region with only a
terminator is made. -/
theorem branches_else (hl : Linked s) {first : RegionRef} (hfirst : first ∈ d.regions)
    (hall : ∀ y, InRegions s d.regions y → InRegions s [first] y)
    (ht : OnlyTerminator s' z r t) : Branches x s [first, r] t := by
  have hmade : ∀ y, s.op? y = none ∧ (∃ e, t.op? y = some e) ↔ y = z := fun y => by
    constructor
    · rintro ⟨hnone, e, he⟩
      by_contra hy
      rw [ht.op?_other y hy, h.op?, hnone] at he
      cases he
    · rintro rfl
      obtain ⟨e, he, _⟩ := ht.entry
      exact ⟨h.op?_none ht.new, e, he⟩
  have hfirst' : ∀ y, InRegions t [first] y ↔ Child s x y := fun y => by
    obtain ⟨rd, hrd, _⟩ := region?_of_op hl hx hfirst
    obtain ⟨rd', hrd', _⟩ := Option.map_eq_some_iff.1 ((h.region? first).trans (congrArg _ hrd))
    have hcopied : InRegions t [first] y ↔ InRegions s' [first] y := by
      refine inRegions_congr fun r hr => ?_
      rw [List.mem_singleton.1 hr, blocksIn, blocksIn, ht.copied.region? first rd' hrd', hrd']
      refine ⟨rfl, fun bs hbs b hb => ?_⟩
      cases hbs
      obtain ⟨bd, hbd, _⟩ := block?_of_region hl' hrd' hb
      rw [opsIn, opsIn, ht.copied.block? b bd hbd, hbd]
    rw [hcopied, h.inRegions_iff, child_iff_inRegions hx]
    refine ⟨?_, hall y⟩
    rintro ⟨r, hr, hy⟩
    exact ⟨r, List.mem_singleton.1 hr ▸ hfirst, hy⟩
  refine ⟨fun y e he => ?_, fun b bd hb => ht.copied.block? b bd (by rw [h.block?, hb]),
    fun r bs hbs => ?_, fun v k hv => ht.copied.grows.originOf v k ?_, fun y => ?_,
    fun y e he hnone => ?_, fun gone hs => ht.tidy gone (h.tidy hs hl'),
    fun hs => ht.sized (h.sized hs)⟩
  · refine ht.copied.op? y _ ?_
    rw [h.op?, he]
    rfl
  · obtain ⟨rd, hrd, hblocks⟩ := Option.map_eq_some_iff.1 ((h.region? r).trans hbs)
    exact (congrArg _ (ht.copied.region? r rd hrd)).trans (congrArg some hblocks)
  · rw [originOf, Store.value?, h.values]
    exact hv
  · have hcons : InRegions t [first, r] y ↔ InRegions t [first] y ∨ InRegions t [r] y := by
      simp [InRegions]
    rw [hcons, hfirst', ht.inRegions, hmade]
  · cases (hmade y).1 ⟨hnone, e, he⟩
    obtain ⟨e', he', hentry⟩ := ht.entry
    cases he.symm.trans he'
    exact hentry

end Stripped

theorem regionAt_ok {i : Nat} : s.regionAt x i = .ok r ↔
    ∃ d, s.op? x = some d ∧ d.regions[i]? = some r := by
  rw [Store.regionAt, except_bind_ok]
  constructor
  · rintro ⟨d, hd, h⟩
    split at h
    · cases h
      exact ⟨d, op_ok.1 hd, ‹_›⟩
    · cases h
  · rintro ⟨d, hd, hr⟩
    exact ⟨d, op_ok.2 hd, by rw [hr]; rfl⟩

/-- What moving branches comes to once it is known which region is the else branch, if one is. -/
def moveBranchesTo (op : OpRef) (second? : Option RegionRef) : Edit (List RegionRef) := do
  let first ← query (·.regionAt op 0)
  let _ ← takeRegions op
  let _ ← retargetTerminators scfYieldName affineYieldName first
  match second? with
  | some r =>
    let _ ← retargetTerminators scfYieldName affineYieldName r
    return [first, r]
  | none =>
    let terminator ← createOp (yieldSpec affineYieldName [])
    let r ← regionWithTerminator terminator
    return [first, r]

/-- The else branch is the second region; if there is none the second region has no blocks. -/
theorem moveBranches_cases (hd : s.op? x = some d) (h : moveBranches x s = .ok (rs, t)) :
    ∃ second?, moveBranchesTo x second? s = .ok (rs, t) ∧
      (∀ r, second? = some r → d.regions[1]? = some r) ∧
      (second? = none → ∀ r, d.regions[1]? = some r → s.blocksIn r = some []) := by
  rw [moveBranches, Edit.query_bind] at h
  obtain ⟨d', hd', h⟩ := h
  cases hd.symm.trans (op_ok.1 hd')
  cases hone : d.regions[1]? with
  | none =>
    rw [hone] at h
    refine ⟨none, h, fun r hr => ?_, fun _ r hr => ?_⟩ <;> cases hr
  | some r =>
    rw [hone, Edit.query_bind] at h
    obtain ⟨rd, hrd, h⟩ := h
    split at h
    · rename_i hempty
      refine ⟨none, h, fun r' hr' => ?_, fun _ r' hr' => ?_⟩
      · cases hr'
      cases hr'
      rw [blocksIn, region_ok.1 hrd, Option.map_some, List.isEmpty_iff.1 hempty]
    · exact ⟨some r, h, fun r' hr' => hr', fun hnone => absurd hnone (Option.some_ne_none r)⟩

/-- What is moved to a new conditional is what the old one holds in a sound store that differs only
inside of it, its terminators being replaced. -/
theorem moveBranches_ok (hs : Sound sided root gone out s) (hx : Nested s root x)
    (hd : s.op? x = some d)
    (hfew : d.regions.length ≤ 2) (h : moveBranches x s = .ok (rs, u)) :
    ∃ t gone', Sound sided root gone' out t ∧ EditedInside root x s t ∧ Branches x t rs u := by
  obtain ⟨second?, h, hsome, hnone⟩ := moveBranches_cases hd h
  rw [moveBranchesTo, Edit.query_bind] at h
  obtain ⟨first, hfirst, h⟩ := h
  obtain ⟨d', hd', hfirst⟩ := regionAt_ok.1 hfirst
  cases hd.symm.trans hd'
  obtain ⟨taken, s₁, htake, h⟩ := Edit.bind_ok.1 h
  obtain ⟨n, s₂, hretarget, h⟩ := Edit.bind_ok.1 h
  have hfree : Retargeting sided root x out s s₁ :=
    ⟨⟨gone, hs⟩, hx, stripped_of_takeRegions htake, hs.linked.takeRegions htake⟩
  obtain ⟨t₁, ht₁, hedited₁⟩ := hfree.region hd (List.mem_of_getElem? hfirst) hretarget
  have hd₁ := hedited₁.entry.trans hd
  obtain ⟨⟨gone₁, hs₁⟩, _, hstripped₁, hl₁⟩ := id ht₁
  cases second? with
  | some r =>
    obtain ⟨m, s₃, hretarget', h⟩ := Edit.bind_ok.1 h
    cases h
    have hr := hsome r rfl
    obtain ⟨t₂, ⟨⟨gone₂, hs₂⟩, _, hstripped₂, hl₂⟩, hedited₂⟩ :=
      ht₁.region hd₁ (List.mem_of_getElem? hr) hretarget'
    have hedited := hedited₁.trans hedited₂
    have hregions : d.regions = [first, r] := by
      refine List.ext_getElem? fun i => ?_
      rcases i with _ | _ | i
      · exact hfirst
      · exact hr
      · rw [List.getElem?_eq_none (by omega)]
        rfl
    rw [← hregions]
    exact ⟨t₂, gone₂, hs₂, hedited, hstripped₂.branches hl₂ (hedited.entry.trans hd)⟩
  | none =>
    obtain ⟨z, s₃, hcreate, h⟩ := Edit.bind_ok.1 h
    obtain ⟨r, s₄, hregion, h⟩ := Edit.bind_ok.1 h
    cases h
    refine ⟨t₁, gone₁, hs₁, hedited₁, hstripped₁.branches_else hl₁ hd₁ hs₁.linked
      (List.mem_of_getElem? hfirst) (fun y hy => ?_) (onlyTerminator_of_ok hcreate hregion)⟩
    -- an operation stands in the first region, since the second one is empty or missing
    obtain ⟨r', hr', hy⟩ := hy
    refine ⟨r', ?_, hy⟩
    obtain ⟨i, hi⟩ := List.mem_iff_getElem?.1 hr'
    rcases i with _ | _ | i
    · rw [hfirst] at hi
      cases hi
      exact List.mem_singleton_self _
    · exfalso
      obtain ⟨rd, hrd, hblocks⟩ := Option.map_eq_some_iff.1 (hnone rfl r' hi)
      obtain ⟨rd', hrd', b, hb, _⟩ := hy
      cases (hedited₁.region? r' rd hrd).symm.trans hrd'
      rw [hblocks] at hb
      cases hb
    · rw [List.getElem?_eq_none (by omega)] at hi
      cases hi

end AffineRaising.Raise
