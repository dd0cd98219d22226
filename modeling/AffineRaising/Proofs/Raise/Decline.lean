/-
# AffineRaising.Proofs.Raise.Decline — patterns that decline change nothing.

A pattern tries before it knows whether it applies.  Everything that it moves or inserts before it
gives up is in its journal, so the rollback restores the store: `declining_pattern_restores`.

Three predicates follow a pattern from the inside out.  A composition follows steps that can be
undone (`Compose.Follows UndoableStep`); the body of a transaction is covered by its journal
wherever it gives up or asks for nothing (`Covered`), as all that it does besides compositions comes
after the decision to ask for a change (`Asks`); and the pattern restores where it asks for nothing
(`Restoring`).
-/
import AffineRaising.Proofs.Raise.ComposeValue
import AffineRaising.Proofs.Raise.Undo
import AffineRaising.Raise.Legalize

namespace AffineRaising.Raise

open AffineRaising.IR AffineRaising.Ops AffineRaising.Transform
open AffineRaising.Affine (Map)

variable {α β : Type} {s t : Store}

/-! ## Compositions follow steps that can be undone -/

theorem Compose.Follows.mono {S S' : Journal × Store → Journal × Store → Prop} {x : Compose α}
    (h : Compose.Follows S x) (hS : ∀ {y z}, S y z → S' y z) : Compose.Follows S' x :=
  fun J s r J' t hrun => Relation.ReflTransGen.mono (fun _ _ => hS) _ _ (h J s r J' t hrun)

/-- What a composition does to a program: it hoists and it casts. -/
def ComposeStep (x y : Journal × Store) : Prop := HoistStep x y ∨ CastStep x y

/-- Hoists and casts are both in the journal and can be undone. -/
theorem ComposeStep.undoable {x y : Journal × Store} (h : ComposeStep x y) : UndoableStep x y :=
  h.elim HoistStep.undoable CastStep.undoable

/-- All that a composition does is to hoist and to cast. -/
theorem composeMap_steps (anchor : OpRef) (limit : Nat) (b : Binding) :
    Compose.Follows ComposeStep (composeMap anchor limit b) := by
  refine .bind ((composeSteps_follows limit b).mono .inl) fun b' => ?_
  refine .bind (checkPositions_follows _ _ _ _) fun _ => ?_
  exact .bind ((indexOperands_follows anchor _ _).mono .inr) fun _ => .pure _

theorem normalizeMap_steps (anchor : OpRef) (limit : Nat) (b : Binding) :
    Compose.Follows ComposeStep (normalizeMap anchor limit b) :=
  .bind (composeMap_steps anchor limit b) fun _ => .ask _

theorem normalizeSet_steps (anchor : OpRef) (limit : Nat) (b : SetBinding) :
    Compose.Follows ComposeStep (normalizeSet anchor limit b) :=
  .bind (.bind (composeMap_steps anchor limit b.toBinding) fun _ => .pure _) fun _ => .ask _

theorem normalizeMap_follows (anchor : OpRef) (limit : Nat) (b : Binding) :
    Compose.Follows UndoableStep (normalizeMap anchor limit b) :=
  (normalizeMap_steps anchor limit b).mono ComposeStep.undoable

theorem normalizeSet_follows (anchor : OpRef) (limit : Nat) (b : SetBinding) :
    Compose.Follows UndoableStep (normalizeSet anchor limit b) :=
  (normalizeSet_steps anchor limit b).mono ComposeStep.undoable

/-! ## Bodies of transactions -/

namespace Compose

/-- The composition always asks for a change. -/
def Asks (x : Compose Change) : Prop :=
  ∀ J s r J' t, x J s = .ok ((r, J'), t) → ∃ c, r = .ok c ∧ c ≠ .none

theorem Asks.pure {c : Change} (hc : c ≠ .none) : Asks (pure c) := by
  intro J s r J' t h
  obtain ⟨rfl, _, _⟩ := pure_ok.1 h
  exact ⟨c, rfl, hc⟩

/-- After an edit of the body nothing may give up any more. -/
theorem Asks.lift_bind {e : Edit α} {f : α → Compose Change} (hf : ∀ a, Asks (f a)) :
    Asks (Compose.lift e >>= f) := by
  intro J s r J' t h
  rw [Compose.lift_bind] at h
  obtain ⟨a, s₁, _, h⟩ := h
  exact hf a J s₁ r J' t h

/-- If the composition gives up or asks for nothing, the journal knows everything that it did. -/
def Covered (x : Compose Change) : Prop :=
  ∀ J s r J' t, x J s = .ok ((r, J'), t) → (∀ c, r = .ok c → c = .none) →
    Relation.ReflTransGen UndoableStep (J, s) (J', t)

namespace Covered

/-- Nothing has to be shown of a body that always asks for a change. -/
theorem of_asks {x : Compose Change} (h : Asks x) : Covered x := by
  intro J s r J' t hrun hr
  obtain ⟨c, rfl, hc⟩ := h J s r J' t hrun
  exact absurd (hr c rfl) hc

theorem pure (c : Change) : Covered (pure c) :=
  fun J s r J' t h _ => Follows.pure c J s r J' t h

/-- What comes first has to follow steps that can be undone. -/
theorem bind {x : Compose α} {f : α → Compose Change} (hx : Follows UndoableStep x)
    (hf : ∀ a, Covered (f a)) : Covered (x >>= f) := by
  intro J s r J' t h hr
  cases r with
  | ok c =>
    obtain ⟨a, J₁, s₁, hfirst, hrest⟩ := bind_ok.1 h
    exact (hx J s _ J₁ s₁ hfirst).trans (hf a J₁ s₁ _ J' t hrest hr)
  | error e =>
    rcases bind_error.1 h with h | ⟨a, J₁, s₁, hfirst, hrest⟩
    · exact hx J s _ J' t h
    · exact (hx J s _ J₁ s₁ hfirst).trans (hf a J₁ s₁ _ J' t hrest hr)

theorem ite {c : Prop} [Decidable c] {x y : Compose Change} (hx : Covered x) (hy : Covered y) :
    Covered (if c then x else y) := by
  split
  · exact hx
  · exact hy

end Covered

end Compose

/-! ## Patterns -/

/-- Where the edit asks for nothing, it has restored the store that it found. -/
def Restoring (e : Edit Change) : Prop :=
  ∀ s t, Consistent s → e s = .ok (.none, t) → Restores s t ∧ Consistent t

namespace Restoring

theorem pure (c : Change) : Restoring (pure c) := by
  intro s t hs h
  cases h
  exact ⟨.refl s, hs⟩

/-- A query may come first. -/
theorem query {q : Store → Except Fault α} {f : α → Edit Change} (hf : ∀ a, Restoring (f a)) :
    Restoring (query q >>= f) := by
  intro s t hs h
  rw [Edit.query_bind] at h
  obtain ⟨a, _, h⟩ := h
  exact hf a s t hs h

theorem ite {c : Prop} [Decidable c] {e e' : Edit Change} (h : Restoring e) (h' : Restoring e') :
    Restoring (if c then e else e') := by
  split
  · exact h
  · exact h'

/-- An edit whose result always asks for a change. -/
theorem of_change {e : Edit α} {g : α → Change} (hg : ∀ a, g a ≠ .none) :
    Restoring (e >>= fun a => Pure.pure (g a)) := by
  intro s t _ h
  rw [Edit.bind_ok] at h
  obtain ⟨a, s₁, _, h⟩ := h
  rw [Edit.pure_run] at h
  cases hga : g a with
  | none => exact absurd hga (hg a)
  | _ => simp [hga] at h

end Restoring

/-- A transaction that asks for nothing was rolled back. -/
theorem transaction_restoring {body : Compose Change} (hbody : Compose.Covered body) :
    Restoring (transaction body) := by
  intro s t hs h
  obtain ⟨r, J, s₁, hrun, hnone, hback⟩ := transaction_none.1 h
  exact rollback_restores hs (hbody [] s r J s₁ hrun hnone) hback

/-- A pattern for one name does nothing elsewhere. -/
theorem onName_restoring {name : OpName} {pattern : Pattern} (h : ∀ op, Restoring (pattern op))
    (op : OpRef) : Restoring (onName name pattern op) :=
  .query fun _ => .ite (h op) (.pure _)

theorem raiseApply_restoring (limit : Nat) (op : OpRef) : Restoring (raiseApply limit op) := by
  refine onName_restoring (fun op => .query fun map => ?_) op
  cases map with
  | none => exact .pure _
  | some map =>
    refine .query fun operands => transaction_restoring ?_
    refine .bind (normalizeMap_follows op limit _) fun b => .ite (.pure _) ?_
    refine .bind (.ask _) fun result => .bind (.ask _) fun ty => .of_asks ?_
    exact .lift_bind fun new => .pure (by simp)

theorem foldIndexCast_restoring (op : OpRef) : Restoring (foldIndexCast op) := by
  refine onName_restoring (fun op => ?_) op
  refine .query fun input => .query fun result => .query fun ty => .query fun inner => ?_
  cases inner with
  | none => exact .pure _
  | some inner =>
    refine .query fun kind => ?_
    split
    · exact .query fun source => .query fun sourceTy => .ite (.pure _) (.pure _)
    · refine .query fun value => ?_
      cases value with
      | none => exact .pure _
      | some value =>
        -- the new constant is only built where it is asked for
        exact .query fun inputTy => .ite (.of_change (by simp)) (.pure _)
    · exact .pure _

/-- Subscripts that turn out not to be affine are hoisted back. -/
theorem raiseSubscripts_restoring (limit : Nat) (op : OpRef) (indices : List ValueRef)
    (build : Binding → OpSpec) : Restoring (raiseSubscripts limit op indices build) := by
  refine transaction_restoring (.bind (normalizeMap_follows op limit _) fun b => .of_asks ?_)
  exact .lift_bind fun new => .pure (by simp)

theorem raiseLoad_restoring (limit : Nat) (op : OpRef) : Restoring (raiseLoad limit op) := by
  refine onName_restoring (fun op => ?_) op
  refine .query fun indices => .query fun valid => .ite (.pure _) ?_
  refine .query fun memory => .query fun d => ?_
  split
  · exact .pure _
  · exact raiseSubscripts_restoring limit op indices _

theorem raiseStore_restoring (limit : Nat) (op : OpRef) : Restoring (raiseStore limit op) := by
  refine onName_restoring (fun op => ?_) op
  refine .query fun indices => .query fun valid => .ite (.pure _) ?_
  exact .query fun value => .query fun memory => raiseSubscripts_restoring limit op indices _

theorem normalizeAccess_restoring (limit : Nat) (op : OpRef) :
    Restoring (normalizeAccess limit op) := by
  refine .query fun d => ?_
  split
  · refine .ite (.pure _) (transaction_restoring ?_)
    refine .bind (normalizeMap_follows op limit _) fun b => .ite (.pure _) ?_
    exact .bind (.ask _) fun d => .of_asks (.lift_bind fun new => .pure (by simp))
  · exact .pure _

theorem normalizeCondition_restoring (limit : Nat) (op : OpRef) :
    Restoring (normalizeCondition limit op) := by
  refine onName_restoring (fun op => .query fun set => ?_) op
  cases set with
  | none => exact .pure _
  | some set =>
    refine .query fun operands => transaction_restoring ?_
    refine .bind (normalizeSet_follows op limit _) fun b => .ite (.pure _) (.of_asks ?_)
    exact .lift_bind fun _ => .pure (by simp)

theorem raiseConditional_restoring (limit : Nat) (op : OpRef) :
    Restoring (raiseConditional limit op) := by
  refine onName_restoring (fun op => ?_) op
  refine .query fun d => .ite (.pure _) (.query fun inLoop => .ite (.pure _) ?_)
  refine .query fun condition => .query fun guard => ?_
  cases guard with
  | none => exact .pure _
  | some guard =>
    refine transaction_restoring (.bind (normalizeSet_follows op limit _) fun b => ?_)
    refine .bind (.ask _) fun d => .of_asks (.lift_bind fun regions => ?_)
    exact .lift_bind fun new => .pure (by simp)

/-- A bound that stays as it is leaves no trace. -/
theorem normalizeBound_restoring (limit : Nat) (op : OpRef) (side : BoundSide) (b : Binding) :
    Restoring (normalizeBound limit op side b) := by
  refine transaction_restoring (.bind (.ask _) fun expanded => ?_)
  refine .bind (normalizeMap_follows op limit _) fun new => .ite (.pure _) (.of_asks ?_)
  exact .lift_bind fun _ => .pure (by simp)

/-- Each bound is a transaction of its own; the pattern asks for nothing if both declined. -/
theorem normalizeBounds_restoring (limit : Nat) (op : OpRef) :
    Restoring (normalizeBounds limit op) := by
  refine onName_restoring (fun op => .query fun lower => .query fun upper => ?_) op
  split
  · refine .query fun lowerOperands => .query fun upperOperands => ?_
    intro s t hs h
    simp only [Edit.bind_ok, Edit.ite_run, Edit.pure_run] at h
    obtain ⟨first, s₁, hfirst, second, s₂, hsecond, h⟩ := h
    -- both bounds were left alone, so the second transaction began where the first one did
    split at h
    · rename_i hnone
      cases h
      simp only [Bool.and_eq_true, decide_eq_true_eq] at hnone
      obtain ⟨rfl, rfl⟩ := hnone
      obtain ⟨hrestores, hs₁⟩ := normalizeBound_restoring limit op .lower _ s s₁ hs hfirst
      obtain ⟨hrestores', ht⟩ := normalizeBound_restoring limit op .upper _ s₁ t hs₁ hsecond
      exact ⟨hrestores.trans hrestores', ht⟩
    · cases h
  · exact .pure _

/-- Every pattern of the list restores where it asks for nothing. -/
theorem patterns_restoring {limit : Nat} {pattern : Pattern} (hp : pattern ∈ patterns limit)
    (op : OpRef) : Restoring (pattern op) := by
  simp only [patterns, List.mem_cons, List.not_mem_nil, or_false] at hp
  rcases hp with rfl | rfl | rfl | rfl | rfl | rfl | rfl | rfl
  · exact raiseApply_restoring limit op
  · exact foldIndexCast_restoring op
  · exact normalizeAccess_restoring limit op
  · exact normalizeCondition_restoring limit op
  · exact raiseStore_restoring limit op
  · exact raiseConditional_restoring limit op
  · exact raiseLoad_restoring limit op
  · exact normalizeBounds_restoring limit op

/-- A pattern that does not apply restores the store: operations with their operands, attributes,
regions, successors and parents, the lists of blocks, and the uses of every value in their order
are what they were, whatever was hoisted or inserted before it gave up. -/
theorem declining_pattern_restores {limit : Nat} {pattern : Pattern} {op : OpRef}
    (hs : Consistent s) (hp : pattern ∈ patterns limit) (h : pattern op s = .ok (.none, t)) :
    Restores s t :=
  (patterns_restoring hp op s t hs h).1

/-- A product is hoisted out of a loop before another operand turns out to be no symbol.  The copy
is still in the table, and the product is back in the loop. -/
theorem declining_pattern_restores_product :
    ∃ s t, Consistent s ∧ raiseApply 1 ⟨2⟩ s = .ok (.none, t) ∧ s.op? ⟨5⟩ = none ∧
      (t.op? ⟨5⟩).map OpData.operands = some [⟨0⟩, ⟨0⟩] ∧ Restores s t := by
  let m := Map.symbolIdentity 2
  let product : OpData := ⟨ArithKind.mul.opName, [⟨0⟩, ⟨0⟩], [⟨1⟩], [.index], [], [], [], some ⟨1⟩⟩
  let next : OpData := ⟨⟨"test", "next"⟩, [], [⟨2⟩], [.index], [], [], [], some ⟨1⟩⟩
  let apply : OpData :=
    ⟨applyName, [⟨1⟩, ⟨2⟩], [⟨3⟩], [.index], [("map", .map m)], [], [], some ⟨1⟩⟩
  let loop : OpData := ⟨⟨"test", "loop"⟩, [], [], [], [], [⟨0⟩], [], some ⟨0⟩⟩
  let function : OpData := ⟨funcName, [], [], [], [], [⟨1⟩], [], none⟩
  let values : Array ValueData := #[⟨.argument ⟨0⟩ 0, .index⟩, ⟨.result ⟨0⟩ 0, .index⟩,
    ⟨.result ⟨1⟩ 0, .index⟩, ⟨.result ⟨2⟩ 0, .index⟩]
  let s : Store :=
    { ops := #[product, next, apply, loop, function]
      values := values
      blocks := #[⟨[⟨0⟩], [.index], [⟨3⟩], some ⟨1⟩⟩, ⟨[], [], [⟨0⟩, ⟨1⟩, ⟨2⟩], some ⟨0⟩⟩]
      regions := #[⟨[⟨1⟩], some ⟨3⟩⟩, ⟨[⟨0⟩], some ⟨4⟩⟩]
      uses := #[[⟨⟨0⟩, 0⟩, ⟨⟨0⟩, 1⟩], [⟨⟨2⟩, 0⟩], [⟨⟨2⟩, 1⟩]] }
  let t : Store :=
    { s with
      ops := s.ops.push { product with results := [⟨4⟩], parent := none }
      values := values.push ⟨.result ⟨5⟩ 0, .index⟩
      uses := s.uses ++ #[[], []] }
  have h : Reached Store.empty _ := .empty
  have h := h.step (.createBlock [.index]) (by simp [Command.names]) (by cbv)
  have h := h.step (.createBlock []) (by simp [Command.names]) (by cbv)
  have h := h.step (.createOp (binarySpec .mul ⟨0⟩ ⟨0⟩ .index)) (by simp [Command.names]) (by cbv)
  have h := h.step (.createOp { name := ⟨"test", "next"⟩, resultTypes := [.index] })
    (by simp [Command.names]) (by cbv)
  have h := h.step (.createOp (applySpec m [⟨1⟩, ⟨2⟩] .index)) (by simp [Command.names]) (by cbv)
  have h := h.step (.pushOp ⟨1⟩ ⟨0⟩) (by simp [Command.names, Command.removes]) (by cbv)
  have h := h.step (.pushOp ⟨1⟩ ⟨1⟩) (by simp [Command.names, Command.removes]) (by cbv)
  have h := h.step (.pushOp ⟨1⟩ ⟨2⟩) (by simp [Command.names, Command.removes]) (by cbv)
  have h := h.step (.createRegion [⟨1⟩]) (by simp [Command.names]) (by cbv)
  have h := h.step (.createOp { name := ⟨"test", "loop"⟩, regions := [⟨0⟩] })
    (by simp [Command.names]) (by cbv)
  have h := h.step (.pushOp ⟨0⟩ ⟨3⟩) (by simp [Command.names, Command.removes]) (by cbv)
  have h := h.step (.createRegion [⟨0⟩]) (by simp [Command.names]) (by cbv)
  have h := h.step (t := s) (.createOp { name := funcName, regions := [⟨1⟩] })
    (by simp [Command.names]) (by cbv)
  have hgrounded : Grounded s := by
    rintro ⟨_ | _ | _ | _ | _ | n⟩ d v hd hv <;> cases hd
    · rw [List.mem_pair.1 hv |>.elim id id]
      exact ⟨_, rfl⟩
    · cases hv
    · rcases List.mem_pair.1 hv with rfl | rfl <;> exact ⟨_, rfl⟩
    · cases hv
    · cases hv
  have hs : Consistent s := ⟨⟨_, Kept.of_reached h⟩, hgrounded⟩
  have hrun : raiseApply 1 ⟨2⟩ s = .ok (.none, t) := by cbv
  have hp : raiseApply 1 ∈ patterns 1 := by simp [patterns]
  exact ⟨s, t, hs, hrun, rfl, rfl, declining_pattern_restores hs hp hrun⟩

end AffineRaising.Raise
