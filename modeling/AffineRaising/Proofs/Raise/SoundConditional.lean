/-
# AffineRaising.Proofs.Raise.SoundConditional — conditionals are raised soundly.

The operands of the guard of a condition are on the chain of the condition, so the conditional can
look at them.  The new conditional gets them, or what stands for them, and the old one's regions.
-/
import AffineRaising.Proofs.Raise.GuardExact
import AffineRaising.Proofs.Raise.SoundBounds
import AffineRaising.Proofs.Raise.SoundBranches

namespace AffineRaising.Raise

open AffineRaising.IR AffineRaising.IR.Store AffineRaising.Ops AffineRaising.Analysis
open AffineRaising.Transform
open AffineRaising.Affine (ConstraintSet)

variable {sided : Prop} {gone : OpRef → Prop} {a : Journal × Store} {s t t' : Store}
  {v w : ValueRef}
  {root op c x : OpRef} {d : OpData}

/-! ## The operands of a guard -/

section Guard

variable {g g' : Guard}

theorem flatten?_chain {tree : MinMax} (h : flatten? s v = .ok (some tree)) :
    ∀ w ∈ tree.leaves, Chain s v w := by
  simp only [flatten?, except_bind_ok, except_pure, Except.ok.injEq] at h
  obtain ⟨tree?, htree, h⟩ := h
  obtain ⟨tree', rfl, hunmixed⟩ := Option.bind_eq_some_iff.1 h
  unfold MinMax.unmixed? at hunmixed
  split at hunmixed
  · cases hunmixed
  · cases hunmixed
    exact (flattenFuel_flattened _ htree).chain

/-- What a comparison adds is on the chains of its sides. -/
theorem guardComparison_chain {cmp : OpRef} {k : Nat} (hv : s.originOf v = some (.result cmp k))
    (h : guardComparison s g cmp = .ok (true, g')) (hw : w ∈ g'.operands) :
    w ∈ g.operands ∨ Chain s v w := by
  obtain ⟨hfalse, _⟩ | ⟨d, a, b, lhs, rhs, p, hd, ha, hb, hlhs, hrhs, _, _, hadd⟩ :=
    guardComparison_ok h
  · cases hfalse
  have hleft : ∀ l ∈ lhs.leaves, Chain s v l := fun l hl =>
    .head ⟨cmp, k, d, hv, hd, List.mem_of_getElem? ha⟩ (flatten?_chain hlhs l hl)
  have hright : ∀ r ∈ rhs.leaves, Chain s v r := fun r hr =>
    .head ⟨cmp, k, d, hv, hd, List.mem_of_getElem? hb⟩ (flatten?_chain hrhs r hr)
  have hpairs : (∃ l ∈ lhs.leaves, ∃ r ∈ rhs.leaves, w = l ∨ w = r) → Chain s v w := by
    rintro ⟨l, hl, r, hr, rfl | rfl⟩
    · exact hleft _ hl
    · exact hright _ hr
  obtain ⟨_, l, hl, r, hr, _, _, _, _, rfl⟩ | ⟨_, _, _, _, rfl⟩ | ⟨_, _, _, _, rfl⟩ :=
    addComparison_true hadd
  · rw [Guard.push, List.mem_append] at hw
    refine hw.imp_right fun hw => hpairs ⟨l, hl, r, hr, ?_⟩
    simpa using hw
  · exact (Guard.mem_pushPairs_operands.1 hw).imp_right hpairs
  · exact (Guard.mem_pushPairs_operands.1 hw).imp_right hpairs

theorem guardLevel_chain (level : List ValueRef) : ∀ {g g' : Guard} {next next' : List ValueRef},
    guardLevel s g next level = .ok (some (g', next')) →
    (∀ w ∈ g'.operands, w ∈ g.operands ∨ ∃ v ∈ level, Chain s v w) ∧
      ∀ w ∈ next', w ∈ next ∨ ∃ v ∈ level, Chain s v w := by
  induction level with
  | nil =>
    intro g g' next next' h
    cases h
    exact ⟨fun w => .inl, fun w => .inl⟩
  | cons v level ih =>
    intro g g' next next' h
    have hlater : ∀ {P : Prop} {w}, (P ∨ Chain s v w) ∨ (∃ v ∈ level, Chain s v w) →
        P ∨ ∃ v' ∈ v :: level, Chain s v' w := by
      rintro P w ((h | h) | ⟨v', hv', h⟩)
      · exact .inl h
      · exact .inr ⟨v, List.mem_cons_self, h⟩
      · exact .inr ⟨v', List.mem_cons_of_mem v hv', h⟩
    obtain ⟨o, _, ho, _, ⟨g₁, _, hcmp, h⟩ | ⟨operands, _, hoperands, h⟩⟩ := guardLevel_cons h
    · obtain ⟨k, hv⟩ := definingOp?_some ho
      obtain ⟨hg, hnext⟩ := ih h
      exact ⟨fun w hw => hlater ((hg w hw).imp_left (guardComparison_chain hv hcmp)),
        fun w hw => hlater ((hnext w hw).imp_left .inl)⟩
    · obtain ⟨k, hv⟩ := definingOp?_some ho
      obtain ⟨d, hd, rfl⟩ := operandsOf_ok.1 hoperands
      obtain ⟨hg, hnext⟩ := ih h
      exact ⟨fun w hw => hlater ((hg w hw).imp_left .inl), fun w hw => hlater
        ((hnext w hw).imp_left fun hw => (List.mem_append.1 hw).imp_right fun hw =>
          .single ⟨o, k, d, hv, hd, hw⟩)⟩

theorem guardLevels_chain (n : Nat) : ∀ {g g' : Guard} {level : List ValueRef},
    guardLevels s n g level = .ok (some g') →
    ∀ w ∈ g'.operands, w ∈ g.operands ∨ ∃ v ∈ level, Chain s v w := by
  induction n with
  | zero =>
    intro g g' level h
    cases level with
    | nil =>
      cases h
      exact fun w => .inl
    | cons v level => cases h
  | succ n ih =>
    intro g g' level h
    cases level with
    | nil =>
      cases h
      exact fun w => .inl
    | cons v level =>
      obtain ⟨g₁, next, hfound, h⟩ := guardLevels_cons h
      obtain ⟨hg, hnext⟩ := guardLevel_chain _ hfound
      intro w hw
      rcases ih h w hw with hw | ⟨v', hv', hchain⟩
      · exact hg w hw
      · obtain ⟨v'', hv'', hchain'⟩ := (hnext v' hv').resolve_left List.not_mem_nil
        exact .inr ⟨v'', hv'', hchain'.trans hchain⟩

/-- All operands of the guard of a condition are on the chain of the condition. -/
theorem lowerCondition?_chain {condition : ValueRef}
    (h : lowerCondition? s condition = .ok (some g)) (hw : w ∈ g.operands) :
    Chain s condition w := by
  obtain ⟨v, hv, hchain⟩ := (guardLevels_chain _ h w hw).resolve_left List.not_mem_nil
  exact List.mem_singleton.1 hv ▸ hchain

end Guard

/-! ## Conditionals -/

theorem suits_affineIf {set : ConstraintSet} {operands : List ValueRef} (types : List Ty)
    (regions : List RegionRef) (s : Store) (h : set.numInputs = operands.length) :
    Fitted sided ((affineIfSpec set operands types regions).entry s) :=
  .of_name (.of_condition rfl ⟨set, rfl, h⟩) (by simp only [OpSpec.entry, affineIfSpec]; decide)

/-- A conditional that has lost its regions suits. -/
theorem suits_emptied (hname : d.name = scfIfName) :
    Fitted sided { d with regions := [] } := by
  have hne : ∀ {n : OpName}, scfIfName ≠ n → ({ d with regions := [] } : OpData).name ≠ n :=
    fun h heq => h (hname.symm.trans heq)
  refine .of_name (.of_name (hne (by decide)) ?_ (hne (by decide)) (hne (by decide))
    ⟨fun _ => Nat.zero_le 2, fun h => absurd h (hne (by decide))⟩) (hne (by decide))
  show AccessKind.ofName? d.name = none
  rw [hname]
  decide

/-- The new conditional is built from what the old one can look at and from its regions. -/
theorem Built.conditional (ha : Underway sided root gone a) (hx : Nested a.2 root x)
    (hd : a.2.op? x = some d) (hname : d.name = scfIfName) {set : ConstraintSet}
    {operands : List ValueRef} {types : List Ty} {regions : List RegionRef}
    (hlooks : ∀ v ∈ operands, Looks x a v) (hmove : moveBranches x a.2 = .ok (regions, s))
    (hcreate : createOp (affineIfSpec set operands types regions) s = .ok (c, t)) :
    Built x c a t := by
  have hfits := ha.sound.fitting x d (hx.ne_root ha.sound.linked ha.sound.top)
    (ha.sound.tidy.not_gone hx) hd
  obtain ⟨s₁, gone', hs₁, hedited, hbranches⟩ :=
    moveBranches_ok ha.sound hx hd (hfits.suits.regions.branches hname) hmove
  have hl := hs₁.linked
  have hx₁ := hedited.nested hx
  have hc := createOp_ok hcreate
  have hre := hbranches.rehoused hl hc rfl (hedited.entry.trans hd)
  have hkept := (Kept.copyStepsKeep gone').createOp _ _ _ _ (hbranches.tidy gone' hs₁.tidy).kept
    hcreate
  have hout : ∀ o ∈ a.1.originals, ∃ e, s₁.op? o = some e ∧ e.parent = none := fun o ho =>
    opParent_eq_some.1 (hedited.detached o (ha.out o ho))
  have hspares : ∀ o ∈ a.1.originals, Spares a.2 s₁ o := fun o ho =>
    hedited.spares o (ha.out o ho) (ha.original_ne_root ho)
  have hrehoused : ∀ o ∈ a.1.originals, SameTree s₁ t o := fun o ho => by
    obtain ⟨e, he, hparent⟩ := hout o ho
    exact hre.sameTree hl hkept.linked he (hx₁.not_within_detached hl hs₁.top
      (opParent_eq_some.2 ⟨e, he, hparent⟩) (ha.original_ne_root ho))
  refine ⟨⟨gone', hkept⟩, hre.acyclic hl hs₁.acyclic,
    fun o ho => (hspares o ho).toSameTree.trans (hrehoused o ho), fun o ho => ?_,
    fun o ho y v k hy hv u hu => ?_, fun o ho hw => ?_⟩
  · obtain ⟨e, he, _⟩ := hout o ho
    exact ⟨_, hre.op? o e he⟩
  · obtain ⟨hlive, hslot⟩ := (hkept.uses.mem_iff v u).1 hu
    by_cases huser : u.user = c
    · rw [slot?_eq ((hc.op? u.user).trans (if_pos huser))] at hslot
      exact .inr ⟨huser, hlooks v (List.mem_of_getElem? hslot)⟩
    · refine .inl ((hspares o ho).users y v k hy hv u
        ((hs₁.tidy.kept.uses.mem_iff v u).2 ⟨hlive, ?_⟩))
      obtain ⟨e, he, hoperand⟩ := Option.bind_eq_some_iff.1 hslot
      cases hold : s₁.op? u.user with
      | none =>
        -- terminators that are made for a missing branch use nothing
        have hmade := (hc.op? u.user).symm.trans he
        rw [if_neg huser] at hmade
        rw [(hbranches.made u.user e hmade hold).1] at hoperand
        cases hoperand
      | some e' =>
        cases (hre.op? u.user e' hold).symm.trans he
        rw [slot?_eq hold, ← hoperand]
        split <;> rfl
  · obtain ⟨e, he, _⟩ := hout o ho
    obtain ⟨e', he'⟩ := hl.op?_of_within ⟨e, he⟩ ((hrehoused o ho).within_iff.1 hw)
    cases hre.new.symm.trans he'

/-- The new conditional can replace the old one if that can look at its operands. -/
theorem conditional_asked (ha : Underway sided root gone a) (hx : Nested a.2 root x)
    (hd : a.2.op? x = some d) (hname : d.name = scfIfName) {set : ConstraintSet}
    {operands : List ValueRef} {types : List Ty} {regions : List RegionRef}
    (hlooks : ∀ v ∈ operands, Looks x a v) (hnum : set.numInputs = operands.length)
    (hmove : moveBranches x a.2 = .ok (regions, s))
    (hcreate : createOp (affineIfSpec set operands types regions) s = .ok (c, t)) {u : Unit}
    (hcommit : Journal.commit a.1 t = .ok (u, t')) : Asked sided root x (.replaceBy c) t' := by
  have hfits := ha.sound.fitting x d (hx.ne_root ha.sound.linked ha.sound.top)
    (ha.sound.tidy.not_gone hx) hd
  obtain ⟨s₁, gone', hs₁, hedited, hbranches⟩ :=
    moveBranches_ok ha.sound hx hd (hfits.suits.regions.branches hname) hmove
  have hl := hs₁.linked
  have hx₁ := hedited.nested hx
  have hd₁ := hedited.entry.trans hd
  have hc := createOp_ok hcreate
  have hre := hbranches.rehoused hl hc rfl hd₁
  have hnew : ∀ {y p?}, s₁.opParent y = some p? → c ≠ y := by
    rintro y p? hy rfl
    obtain ⟨e, he, _⟩ := opParent_eq_some.1 hy
    cases hre.new.symm.trans he
  have hentry : t.op? c = some ((affineIfSpec set operands types regions).entry s) := by
    rw [hc.op?, if_pos rfl]
  have hvalue : ∀ v ∈ operands, ∃ e, s.value? v = some e := fun v hv => by
    obtain ⟨e, he⟩ := (hlooks v hv).value?
    obtain ⟨e', he', _⟩ := Option.map_eq_some_iff.1
      (hbranches.originOf v e.origin (hedited.originOf v e.origin (congrArg _ he)))
    exact ⟨e', he'⟩
  have hmade : ∀ {y e}, y ≠ c → t.op? y = some e → s.op? y = some e := fun hy he => by
    rwa [hc.op?, if_neg hy] at he
  have hsound := hre.sound hs₁ hx₁ ((hbranches.tidy gone' hs₁.tidy).created hcreate hvalue)
    (Sized.copyStepsKeep.createOp _ _ _ _ (hbranches.sized hs₁.sized) hcreate) fun y e he hy => by
      by_cases hyc : y = c
      · cases hentry.symm.trans (hyc ▸ he)
        exact suits_affineIf types regions s hnum
      · rcases hy with hnone | rfl
        · exact (hbranches.made y e (hmade hyc he) hnone).2.2.weaken
        · cases (hre.op? y d hd₁).symm.trans he
          rw [if_pos rfl]
          exact suits_emptied hname
  refine asked_of_commit ha (hnew hs₁.top) (fun hcJ => hnew (hedited.detached c (ha.out c hcJ)) rfl)
    hsound ((hre.nested_iff hl hs₁.top hx₁).2 ⟨hx₁, hs₁.acyclic x⟩)
    (fun o ho => hre.opParent (hedited.detached o (ha.out o ho)))
    (opParent_eq_some.2 ⟨_, hentry, rfl⟩) (fun hgone => ?_)
    (fun w hw => hre.sees (hedited.sees w hw) (hs₁.acyclic x))
    (fun w k hw => hre.originOf w k (hedited.originOf w k hw)) (fun z e w hz he hw => ?_) hcommit
  · have hlt := hs₁.tidy.kept.created c hgone
    have hnone := hre.new
    rw [Store.op?, Array.getElem?_eq_none_iff] at hnone
    exact absurd hlt (Nat.not_lt.2 hnone)
  · by_cases hzc : z = c
    · cases hentry.symm.trans (hzc ▸ he)
      exact .inl (hlooks w hw)
    · rcases (hre.within_new hl hz).resolve_left hzc with hxz | hnone
      · exact .inr (hre.uses hs₁ hx₁ hxz he hw)
      · rw [(hbranches.made z e (hmade hzc he) hnone).1] at hw
        cases hw

/-- What `raiseConditional` does in its transaction. -/
def conditionalBody (limit : Nat) (op : OpRef) (guard : SetBinding) : Compose Change := do
  let b ← normalizeSet op limit guard
  let types := (← Compose.ask (·.op op)).resultTypes
  let regions ← Compose.lift (moveBranches op)
  return .replaceBy (← Compose.lift (createOp (affineIfSpec b.set b.operands types regions)))

/-- The new conditional gets the normalized guard of the condition and the old one's branches. -/
theorem conditionalBody_concludes (hs : Sound sided root gone (fun _ => False) s)
    (hx : Nested s root op) (limit : Nat) {condition : ValueRef} {guard : Guard}
    (hd : s.op? op = some d) (hname : d.name = scfIfName)
    (hcondition : s.operand op 0 = .ok condition)
    (hguard : lowerCondition? s condition = .ok (some guard)) :
    Concludes root gone op (Asked sided root op) ([], s)
      (conditionalBody limit op guard.toSet) := by
  have hguarded : ∀ v ∈ guard.toSet.operands, Looks op ([], s) v := fun v hv =>
    (looks_slot hs hx hcondition).chain hs.underway hx (lowerCondition?_chain hguard hv)
  refine .bind (normalizeSet_sound hs.underway hx limit hguarded)
    fun b c hprepares ⟨hlooks, hnum⟩ => .ask_bind fun e he => ?_
  obtain ⟨hc, hxc⟩ := hprepares.sound hs.underway hx
  obtain ⟨e', he', hfixed⟩ := hprepares.fixed hs.underway hx hd
  have hname' : e'.name = scfIfName := (congrArg (·.name) hfixed).trans hname
  intro r J' t hrun
  obtain ⟨regions, s₁, hmove, hrun⟩ := Compose.lift_bind.1 hrun
  obtain ⟨new, s₂, hcreate, hrun⟩ := Compose.lift_bind.1 hrun
  obtain ⟨rfl, rfl, rfl⟩ := Compose.pure_ok.1 hrun
  refine ⟨c.2, .refl, .inr ⟨_, rfl, (fun hnone => by cases hnone), ?_, fun u t' hcommit => ?_⟩⟩
  · exact .conditional hc hxc he' hname' hlooks hmove hcreate
  · exact conditional_asked hc hxc he' hname' hlooks hnum hmove hcreate hcommit

/-- Raising a conditional keeps the module sound. -/
theorem raiseConditional_sound (hs : Sound sided root gone (fun _ => False) s)
    (hx : Nested s root op)
    (limit : Nat) : AsksSoundly sided root op s (raiseConditional limit op) := by
  refine onName_sound hs hx fun d hd hname => .query fun d' _ =>
    .ite (fun _ => asksSoundly_none hs hx) fun _ => .query fun _ _ =>
    .ite (fun _ => asksSoundly_none hs hx) fun _ => .query fun condition hcondition =>
    .query fun guard? hguard => ?_
  cases guard? with
  | none => exact asksSoundly_none hs hx
  | some guard =>
    exact transaction_sound hs hx
      (conditionalBody_concludes hs hx limit hd hname hcondition hguard)

end AffineRaising.Raise
