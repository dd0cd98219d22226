/-
# AffineRaising.Proofs.Raise.Resting — patterns that decline without a try.

A transaction that hoists or casts makes a new operation, and the rollback does not take it out of
the table again.  So where the table is as it was, nothing was tried (`transaction_resting`).  A
pattern that declines in this way has only asked queries about one operation and about the values
that its operands are computed from; where these have the same answers it declines again
(`patterns_resting`).
-/
import AffineRaising.Proofs.Raise.Idle

namespace AffineRaising.Raise

open AffineRaising.IR AffineRaising.IR.Store AffineRaising.Ops AffineRaising.Analysis
open AffineRaising.Transform

variable {α β γ : Type} {sided : Prop} {gone : OpRef → Prop} {out : List OpRef}
  {J : Journal} {s s' t : Store} {root o x : OpRef}

/-- No operation left the table, and one came into it. -/
structure Outgrows (s t : Store) : Prop where
  stay : ∀ o, t.op? o = none → s.op? o = none
  new : ∃ o, s.op? o = none ∧ t.op? o ≠ none

namespace Outgrows

theorem trans (h : Outgrows s s') (h' : Outgrows s' t) : Outgrows s t := by
  obtain ⟨o, ho, hnew⟩ := h.new
  exact ⟨fun o ho => h.stay o (h'.stay o ho), o, ho, fun hnone => hnew (h'.stay o hnone)⟩

theorem same (h : Outgrows s s') (h' : SameSizes s' t) : Outgrows s t := by
  obtain ⟨o, ho, hnew⟩ := h.new
  exact ⟨fun o ho => h.stay o (h'.op?_none.1 ho), o, ho, fun hnone => hnew (h'.op?_none.1 hnone)⟩

/-- The larger table is not restored by the smaller one. -/
theorem not_restored (h : Outgrows s t) : ¬ Restores t s := by
  obtain ⟨o, ho, hnew⟩ := h.new
  obtain ⟨d, hd⟩ := Option.ne_none_iff_exists'.1 hnew
  intro hrestores
  cases ho.symm.trans (hrestores.op? o d hd)

end Outgrows

/-- What is hoisted and what is cast is a new operation. -/
theorem ComposeStep.outgrows {a b : Journal × Store} (h : ComposeStep a b) (ha : Consistent a.2) :
    Outgrows a.2 b.2 := by
  rcases h with ⟨o, p, c, _, h⟩ | ⟨v, p, c, s₁, _, hcreate, hinsert, _⟩
  · obtain ⟨⟨gone, hk⟩, hg⟩ := ha
    obtain ⟨_, _, sc, si, sr, _, h, _, _⟩ := hoist_hoisted hk hg h
    have hplaced : Outgrows a.2 sc := by
      obtain ⟨d, hd, _⟩ := h.placed.cloned.detached
      exact ⟨fun _ => h.placed.cloned.copied.op?_none, c, h.placed.cloned.new, by simp [hd]⟩
    exact ((hplaced.same (.insertOp h.placed.insert)).same (.redirectedAll h.redirected.1)).same
      (.detach h.detach)
  · have hc := createOp_ok hcreate
    have hnew : a.2.op? c = none := by rw [hc.eq_next, op?_next]
    have hcreated : Outgrows a.2 s₁ := by
      refine ⟨fun o ho => ?_, c, hnew, by simp [hc.op?]⟩
      rw [hc.op?] at ho
      split at ho
      · cases ho
      · exact ho
    exact hcreated.same (.insertOp hinsert)

/-- A composition that did something made new operations. -/
theorem composed_outgrows {a b : Journal × Store} (ha : Consistent a.2)
    (h : Relation.ReflTransGen ComposeStep a b) : b = a ∨ Outgrows a.2 b.2 := by
  induction h with
  | refl => exact .inl rfl
  | tail hsteps hstep ih =>
    have hlast := hstep.outgrows (composed_advances ha hsteps).consistent
    rcases ih with rfl | hfirst
    · exact .inr hlast
    · exact .inr (hfirst.trans hlast)

theorem replaceEach_sameSizes {u : Unit} {ps : List (ValueRef × ValueRef)}
    (h : replaceEach ps s = .ok (u, t)) : SameSizes s t := by
  induction ps generalizing s with
  | nil =>
    cases h
    exact .of_eq rfl rfl
  | cons p ps ih =>
    obtain ⟨_, _, hfirst, hrest⟩ := Edit.bind_ok.1 h
    exact (SameSizes.replaceAllUses hfirst).trans (ih hrest)

/-- What is erased keeps its entry. -/
theorem eraseOp_sameSizes {u : Unit} (hs : Consistent s) (h : eraseOp o s = .ok (u, t)) :
    SameSizes s t := by
  obtain ⟨⟨gone, hk⟩, _⟩ := hs
  obtain ⟨out, he, _⟩ := eraseOp_ok hk.linked hk.uses.pointsBack h
  exact .erased he

/-- Undoing a step keeps the table. -/
theorem undo_sameSizes {e : Entry} {u : Unit} (hs : Consistent s)
    (h : Journal.undo e s = .ok (u, t)) : SameSizes s t := by
  cases e with
  | hoisted source block before clone =>
    obtain ⟨_, s₁, hredirect, h⟩ := Edit.bind_ok.1 h
    obtain ⟨_, s₂, hinsert, h⟩ := Edit.bind_ok.1 h
    have hs₁ := (redirectResults_advancing _ _ s _ s₁ hs hredirect).consistent
    have hs₂ := (Advancing.insertOp _ _ _ s₁ _ s₂ hs₁ hinsert).consistent
    rw [Journal.redirectResults, Edit.get_bind, forM_replaceAllUses_eq] at hredirect
    have hback := (replaceEach_sameSizes hredirect).trans (.insertOp hinsert)
    exact hback.trans (eraseOp_sameSizes hs₂ h)
  | inserted o => exact eraseOp_sameSizes hs h

theorem rollback_sameSizes {u : Unit} (hs : Consistent s)
    (h : Journal.rollback J s = .ok (u, t)) : SameSizes s t := by
  unfold Journal.rollback at h
  revert s
  induction J.reverse with
  | nil =>
    intro s _ h
    cases h
    exact .of_eq rfl rfl
  | cons e J ih =>
    intro s hs h
    obtain ⟨_, s₁, hfirst, hrest⟩ := Edit.bind_ok.1 h
    have hs₁ := (undo_advancing e s _ s₁ hs hfirst).consistent
    exact (undo_sameSizes hs hfirst).trans (ih hs₁ hrest)

/-! ## Bodies of transactions -/

namespace Compose

/-- If the composition gives up or asks for nothing, then all that it did was to hoist and to cast.
Where `c` holds and it did neither in the first store, it comes to the same in the second one. -/
structure Rests (s t : Store) (c : Prop) (x : Compose Change) : Prop where
  follows : ∀ J z r J' z', x J z = .ok ((r, J'), z') → (∀ a, r = .ok a → a = .none) →
    Relation.ReflTransGen ComposeStep (J, z) (J', z')
  again : c → ∀ J r s', x J s = .ok ((r, J), s') → (∀ a, r = .ok a → a = .none) →
    x J t = .ok ((r, J), t)

namespace Rests

variable {c : Prop} {Q : α → Prop}

/-- Nothing has to be shown of a body that always asks for a change. -/
theorem of_asks {x : Compose Change} (h : Asks x) : Rests s t c x := by
  have hno : ∀ {J z r J' z'}, x J z = .ok ((r, J'), z') → ¬ ∀ a, r = .ok a → a = .none := by
    intro J z r J' z' hrun hr
    obtain ⟨a, rfl, ha⟩ := h J z r J' z' hrun
    exact ha (hr a rfl)
  exact ⟨fun J z r J' z' hrun hr => absurd hr (hno hrun),
    fun _ J r s' hrun hr => absurd hr (hno hrun)⟩

theorem pure (a : Change) : Rests s t c (pure a) := by
  refine ⟨fun J z r J' z' hrun _ => Follows.pure a J z r J' z' hrun, fun _ J r s' hrun _ => ?_⟩
  obtain ⟨rfl, _, _⟩ := pure_ok.1 hrun
  rfl

/-- What comes first has to come to the same. -/
theorem bind {x : Compose α} {f : α → Compose Change} (hx : Idles s t c Q x)
    (hf : ∀ a, Rests s t (c ∧ Q a) (f a)) : Rests s t c (x >>= f) := by
  -- either the first part gave up, or the rest decides
  have hcases : ∀ {J z r J' z'}, (x >>= f) J z = .ok ((r, J'), z') →
      (∃ e, r = .error e ∧ x J z = .ok ((.error e, J'), z')) ∨
        ∃ a J₁ z₁, x J z = .ok ((.ok a, J₁), z₁) ∧ f a J₁ z₁ = .ok ((r, J'), z') := by
    intro J z r J' z' h
    cases r with
    | ok a => exact .inr (bind_ok.1 h)
    | error e => exact (bind_error.1 h).imp (fun hfirst => ⟨e, rfl, hfirst⟩) id
  refine ⟨fun J z r J' z' h hr => ?_, fun hc J r s' h hr => ?_⟩
  · rcases hcases h with ⟨e, rfl, hfirst⟩ | ⟨a, J₁, z₁, hfirst, hrest⟩
    · exact hx.follows J z _ J' z' hfirst
    · exact (hx.follows J z _ J₁ z₁ hfirst).trans ((hf a).follows J₁ z₁ r J' z' hrest hr)
  · rcases hcases h with ⟨e, rfl, hfirst⟩ | ⟨a, J₁, s₁, hfirst, hrest⟩
    · exact bind_error.2 (.inl (hx.again hc J _ s' hfirst).1)
    · obtain ⟨rfl, rfl⟩ := composed_idle (hx.follows J s _ J₁ s₁ hfirst)
        ((hf a).follows J₁ s₁ r J s' hrest hr)
      obtain ⟨hfirst', ha⟩ := hx.again hc J₁ _ s₁ hfirst
      have hrest' := (hf a).again ⟨hc, ha a rfl⟩ J₁ r s' hrest hr
      cases r with
      | ok b => exact bind_ok.2 ⟨a, J₁, t, hfirst', hrest'⟩
      | error e => exact bind_error.2 (.inr ⟨a, J₁, t, hfirst', hrest'⟩)

theorem ite {p : Prop} [Decidable p] {x y : Compose Change} (hx : Rests s t c x)
    (hy : Rests s t c y) : Rests s t c (if p then x else y) := by
  split
  · exact hx
  · exact hy

end Rests

end Compose

/-! ## Patterns -/

/-- Where the edit yields `c` and left the table as it was, it did nothing, and does nothing in the
second store. -/
def Resting (c : γ) (s t : Store) (e : Edit γ) : Prop :=
  ∀ s', e s = .ok (c, s') → Restores s' s → s' = s ∧ e t = .ok (c, t)

namespace Resting

variable {c : γ}

theorem pure (a : γ) : Resting c s t (pure a) := by
  rintro s' ⟨⟩ _
  exact ⟨rfl, rfl⟩

/-- A query may come first that has the same answer in both stores. -/
theorem query {q : Store → Except Fault α} {k : α → Edit γ} (hq : q t = q s)
    (hk : ∀ a, q s = .ok a → Resting c s t (k a)) : Resting c s t (query q >>= k) := by
  intro s' hrun hback
  obtain ⟨a, ha, hrest⟩ := Edit.query_bind.1 hrun
  obtain ⟨hsame, hagain⟩ := hk a ha s' hrest hback
  exact ⟨hsame, Edit.query_bind.2 ⟨a, hq.trans ha, hagain⟩⟩

theorem ite {p : Prop} [Decidable p] {e e' : Edit γ} (h : Resting c s t e)
    (h' : Resting c s t e') : Resting c s t (if p then e else e') := by
  split
  · exact h
  · exact h'

/-- An edit that never yields `c`. -/
theorem of_ne {e : Edit α} {g : α → γ} (hg : ∀ a, g a ≠ c) :
    Resting c s t (e >>= fun a => Pure.pure (g a)) := by
  intro s' hrun
  obtain ⟨a, _, _, h⟩ := Edit.bind_ok.1 hrun
  exact absurd (Prod.mk.inj (Except.ok.inj h)).1 (hg a)

end Resting

/-- A transaction that left the table as it was tried nothing. -/
theorem transaction_resting (hs : Consistent s) {body : Compose Change}
    (hbody : body.Rests s t True) : Resting .none s t (transaction body) := by
  intro s' hrun hback
  obtain ⟨r, J, s₁, hfirst, hr, hrollback⟩ := transaction_none.1 hrun
  have hsteps := hbody.follows [] s r J s₁ hfirst hr
  have hs₁ := (composed_advances (x := ([], s)) hs hsteps).consistent
  -- undoing keeps the new entries, so a table that is as it was had none
  rcases composed_outgrows (a := ([], s)) hs hsteps with hnothing | hlarger
  · obtain ⟨rfl, rfl⟩ := Prod.mk.inj hnothing
    cases hrollback
    exact ⟨rfl, transaction_none.2 ⟨r, [], t, hbody.again trivial [] r _ hfirst hr, hr, rfl⟩⟩
  · exact absurd hback (hlarger.same (rollback_sameSizes hs₁ hrollback)).not_restored

section Pruned

variable (h : Pruned sided root gone out s t) (hx : Remains root out s x) (limit : Nat)

include h

theorem onName_resting {name : OpName} {pattern : Pattern} (hp : Resting .none s t (pattern x)) :
    Resting .none s t (onName name pattern x) :=
  .query (isNamed_pruned h x name) fun _ _ => .ite hp (.pure _)

theorem foldIndexCast_resting : Resting .none s t (foldIndexCast x) := by
  refine onName_resting h (.query (h.operand_eq x 0) fun input _ => ?_)
  refine .query (h.result x 0) fun result _ => .query (h.typeOf result) fun ty _ => ?_
  refine .query (h.definingOp? input) fun inner _ => ?_
  cases inner with
  | none => exact .pure _
  | some inner =>
    refine .query (arithKind?_pruned h inner) fun kind _ => ?_
    split
    · refine .query (h.operand_eq inner 0) fun source _ => .query (h.typeOf source) fun _ _ => ?_
      exact .ite (.pure _) (.pure _)
    · refine .query (constValue?_pruned h inner) fun value _ => ?_
      cases value with
      | none => exact .pure _
      | some value =>
        exact .query (h.typeOf input) fun inputTy _ => .ite (.of_ne (by simp)) (.pure _)
    · exact .pure _

include hx

theorem raiseApply_resting : Resting .none s t (raiseApply limit x) := by
  refine onName_resting h (.query (opMap?_pruned h x) fun map _ => ?_)
  cases map with
  | none => exact .pure _
  | some map =>
    refine .query (h.operandsOf x) fun operands hoperands => ?_
    refine transaction_resting h.sound.consistent ?_
    have hlasts := h.operandsOf_lasts hx hoperands
    refine .bind (normalizeMap_idles h hx limit fun _ => hlasts) fun b => ?_
    refine .ite (.pure _) (.bind (.ask fun _ _ ha => (h.result x 0).trans ha) fun result => ?_)
    refine .bind (.ask fun _ _ ha => (h.typeOf result).trans ha) fun ty => .of_asks ?_
    exact .lift_bind fun new => .pure (by simp)

/-- Subscripts are looked at through their definitions, which remain. -/
theorem raiseSubscripts_resting {indices : List ValueRef} (hindices : ∀ v ∈ indices,
    Lasts root out s v) (build : Binding → OpSpec) :
    Resting .none s t (raiseSubscripts limit x indices build) := by
  refine transaction_resting h.sound.consistent ?_
  refine .bind (normalizeMap_idles h hx limit fun _ => hindices) fun b => .of_asks ?_
  exact .lift_bind fun new => .pure (by simp)

theorem operandsFrom_lasts {i : Nat} {vs : List ValueRef} (hvs : operandsFrom s x i = .ok vs) :
    ∀ v ∈ vs, Lasts root out s v := by
  simp only [operandsFrom, except_bind_ok] at hvs
  obtain ⟨all, hall, hvs⟩ := hvs
  split at hvs
  · cases hvs
    exact fun v hv => h.operandsOf_lasts hx hall v (List.mem_of_mem_drop hv)
  · cases hvs

omit hx in
theorem allIndices_pruned {vs : List ValueRef} (hvs : ∀ v ∈ vs, Lasts root out s v) :
    allInOrder (isIndex t) vs = allInOrder (isIndex s) vs :=
  allInOrder_congr fun v hv => isIndex_pruned h (hvs v hv)

theorem raiseLoad_resting : Resting .none s t (raiseLoad limit x) := by
  refine onName_resting h (.query (operandsFrom_pruned h x 1) fun indices hindices => ?_)
  have hlasts := operandsFrom_lasts h hx hindices
  refine .query (allIndices_pruned h hlasts) fun valid _ => .ite (.pure _) ?_
  refine .query (h.operand_eq x 0) fun memory _ => .query (h.op_left hx.left) fun d _ => ?_
  split
  · exact .pure _
  · exact raiseSubscripts_resting h hx limit hlasts _

theorem raiseStore_resting : Resting .none s t (raiseStore limit x) := by
  refine onName_resting h (.query (operandsFrom_pruned h x 2) fun indices hindices => ?_)
  have hlasts := operandsFrom_lasts h hx hindices
  refine .query (allIndices_pruned h hlasts) fun valid _ => .ite (.pure _) ?_
  refine .query (h.operand_eq x 0) fun value _ => .query (h.operand_eq x 1) fun memory _ => ?_
  exact raiseSubscripts_resting h hx limit hlasts _

theorem normalizeAccess_resting : Resting .none s t (normalizeAccess limit x) := by
  refine .query (h.op_left hx.left) fun d hd => ?_
  split
  · refine .ite (.pure _) (transaction_resting h.sound.consistent ?_)
    refine .bind (normalizeMap_idles h hx limit fun _ v hv => ?_) fun b => .ite (.pure _) ?_
    · exact h.operand hx (op_ok.1 hd) (List.mem_of_mem_drop hv)
    refine .bind (.ask fun _ _ ha => (h.op_left hx.left).trans ha) fun d' => .of_asks ?_
    exact .lift_bind fun new => .pure (by simp)
  · exact .pure _

theorem normalizeCondition_resting : Resting .none s t (normalizeCondition limit x) := by
  refine onName_resting h (.query (conditionSet?_pruned h x) fun set _ => ?_)
  cases set with
  | none => exact .pure _
  | some set =>
    refine .query (h.operandsOf x) fun operands hoperands => ?_
    refine transaction_resting h.sound.consistent ?_
    have hlasts := h.operandsOf_lasts hx hoperands
    refine .bind (normalizeSet_idles h hx limit fun _ => hlasts) fun b => ?_
    exact .ite (.pure _) (.of_asks (.lift_bind fun _ => .pure (by simp)))

/-- The operands of a guard are found along the definitions behind the condition. -/
theorem raiseConditional_resting : Resting .none s t (raiseConditional limit x) := by
  refine onName_resting h (.query (h.op_left hx.left) fun d _ => .ite (.pure _) ?_)
  refine .query (isInLoop_pruned h hx.left) fun inLoop _ => .ite (.pure _) ?_
  refine .query (h.operand_eq x 0) fun condition hcondition => ?_
  have hlasts := h.operand_lasts hx hcondition
  refine .query (lowerCondition?_pruned h hlasts) fun guard hguard => ?_
  cases guard with
  | none => exact .pure _
  | some guard =>
    refine transaction_resting h.sound.consistent ?_
    refine .bind (normalizeSet_idles h hx limit fun _ v hv => ?_) fun b => ?_
    · exact h.chain hlasts (lowerCondition?_chain hguard hv)
    refine .bind (.ask fun _ _ ha => (h.op_left hx.left).trans ha) fun d' => .of_asks ?_
    exact .lift_bind fun regions => .lift_bind fun new => .pure (by simp)

omit hx in
theorem expandBound?_pruned {side : BoundSide} {b : Binding}
    (hb : ∀ v ∈ b.operands, Lasts root out s v) :
    expandBound? t side b = expandBound? s side b := by
  unfold expandBound?
  cases hv : forwardedOperand? b with
  | none => rfl
  | some v =>
    have hlasts := hb v (mem_of_forwardedOperand? hv)
    exact bind_congr_ok (expandChoice?_pruned h hlasts) fun _ _ => rfl

/-- The leaves of a bound are found along the definitions behind it. -/
theorem normalizeBound_resting (side : BoundSide) {b : Binding}
    (hb : ∀ v ∈ b.operands, Lasts root out s v) :
    Resting .none s t (normalizeBound limit x side b) := by
  refine transaction_resting h.sound.consistent ?_
  refine .bind (.ask fun _ _ ha => (expandBound?_pruned h hb).trans ha) fun expanded => ?_
  refine .bind (normalizeMap_idles h hx limit fun hc v hv => ?_) fun new => ?_
  · cases expanded with
    | none => exact hb v hv
    | some b' =>
      obtain ⟨w, l, r, tl, tr, hw, hselects, hl, hr, _, rfl⟩ := expandBound?_some hc.2
      refine h.chain (hb w (mem_of_forwardedOperand? hw)) ?_
      rcases List.mem_append.1 hv with hv | hv
      · exact .head hselects.feeds.1 (hl.chain v hv)
      · exact .head hselects.feeds.2 (hr.chain v hv)
  · exact .ite (.pure _) (.of_asks (.lift_bind fun _ => .pure (by simp)))

theorem boundOperands_lasts {side : BoundSide} {vs : List ValueRef}
    (hvs : boundOperands s x side = .ok vs) : ∀ v ∈ vs, Lasts root out s v := by
  have hslice : ∀ {start stop}, operandSlice s x start stop = .ok vs →
      ∀ v ∈ vs, Lasts root out s v := by
    intro start stop hvs
    simp only [operandSlice, except_bind_ok] at hvs
    obtain ⟨all, hall, hvs⟩ := hvs
    split at hvs
    · cases hvs
      have hlasts := h.operandsOf_lasts hx hall
      exact fun v hv => hlasts v (List.mem_of_mem_take (List.mem_of_mem_drop hv))
    · cases hvs
  simp only [boundOperands, except_bind_ok] at hvs
  obtain ⟨cuts, _, hvs⟩ := hvs
  cases side with
  | lower => exact hslice hvs
  | upper => exact hslice hvs

/-- Both bounds have to rest, the second one where the first one left the store as it was. -/
theorem normalizeBounds_resting : Resting .none s t (normalizeBounds limit x) := by
  refine onName_resting h (.query (boundMap?_pruned h x .lower) fun lower _ => ?_)
  refine .query (boundMap?_pruned h x .upper) fun upper _ => ?_
  cases lower with
  | none => exact .pure _
  | some lower =>
    cases upper with
    | none => exact .pure _
    | some upper =>
      refine .query (boundOperands_pruned h x .lower) fun lowerOperands hlower => ?_
      refine .query (boundOperands_pruned h x .upper) fun upperOperands hupper => ?_
      intro s' hrun hback
      obtain ⟨first, s₁, hfirst, hrest⟩ := Edit.bind_ok.1 hrun
      obtain ⟨second, s₂, hsecond, hrest⟩ := Edit.bind_ok.1 hrest
      rw [Edit.ite_run] at hrest
      split at hrest
      · rename_i hnone
        cases hrest
        simp only [Bool.and_eq_true, decide_eq_true_eq] at hnone
        obtain ⟨rfl, rfl⟩ := hnone
        -- the second bound takes nothing away, so the first one too left the table as it was
        obtain ⟨_, hs₁⟩ := normalizeBound_restoring limit x .lower _ s s₁ h.sound.consistent hfirst
        obtain ⟨hrestores, _⟩ := normalizeBound_restoring limit x .upper _ s₁ s' hs₁ hsecond
        obtain ⟨rfl, hfirst'⟩ := normalizeBound_resting h hx limit .lower
          (boundOperands_lasts h hx hlower) s₁ hfirst (hrestores.trans hback)
        obtain ⟨rfl, hsecond'⟩ := normalizeBound_resting h hx limit .upper
          (boundOperands_lasts h hx hupper) s' hsecond hback
        refine ⟨rfl, Edit.bind_ok.2 ⟨_, t, hfirst', Edit.bind_ok.2 ⟨_, t, hsecond', rfl⟩⟩⟩
      · cases hrest

/-- A pattern that declines at an operation that remains, and leaves the table as it was, declines
there in the pruned module too. -/
theorem patterns_resting {pattern : Pattern} (hp : pattern ∈ patterns limit) :
    Resting .none s t (pattern x) := by
  simp only [patterns, List.mem_cons, List.not_mem_nil, or_false] at hp
  rcases hp with rfl | rfl | rfl | rfl | rfl | rfl | rfl | rfl
  · exact raiseApply_resting h hx limit
  · exact foldIndexCast_resting h
  · exact normalizeAccess_resting h hx limit
  · exact normalizeCondition_resting h hx limit
  · exact raiseStore_resting h hx limit
  · exact raiseConditional_resting h hx limit
  · exact raiseLoad_resting h hx limit
  · exact normalizeBounds_resting h hx limit

end Pruned

end AffineRaising.Raise
