/-
# AffineRaising.Proofs.Raise.Silent — a pattern that declines declines in every padded store.

A pattern that asks for nothing has rolled back all it tried, so it is enough to follow the runs
that give up: `patterns_silent`.

Nothing is said of the runs that ask for a change: their new operations are described by
specifications that need not be moved images of each other.  So `Repeating` fixes the result of
which it speaks, here `.none`, and runs with any other result are left out (`Repeating.pure_ne`,
`Compose.Declines.of_asks`).  That is what makes the fixpoint of the patterns a fixpoint for every
store that holds the same program.
-/
import AffineRaising.Proofs.Raise.Moved

namespace AffineRaising.Raise

open AffineRaising.IR AffineRaising.Ops AffineRaising.Analysis AffineRaising.Transform

variable {α β γ : Type} {σ : Padding} {s t : Store}

/-! ## Runs with a given result -/

/-- Where the first edit yields `c`, so does the second one in a padded store. -/
def Repeating (σ : Padding) (c : γ) (e e' : Edit γ) : Prop :=
  ∀ s t, Padded σ s t → ∀ s', e s = .ok (c, s') → ∃ t', e' t = .ok (c, t') ∧ Padded σ s' t'

namespace Repeating

variable {c : γ}

theorem pure {a : γ} : Repeating σ c (pure a) (pure a) := by
  rintro s t hst _ ⟨⟩
  exact ⟨t, rfl, hst⟩

/-- Nothing has to be shown of a run with another result. -/
theorem pure_ne {a : γ} (ha : a ≠ c) {e' : Edit γ} : Repeating σ c (Pure.pure a) e' := by
  intro s t _ s' hrun
  cases hrun
  exact absurd rfl ha

/-- An edit that never yields `c`. -/
theorem of_ne {e : Edit α} {g : α → γ} (hg : ∀ a, g a ≠ c) {e' : Edit γ} :
    Repeating σ c (e >>= fun a => Pure.pure (g a)) e' := by
  intro s t _ s' hrun
  obtain ⟨a, s₁, _, h⟩ := Edit.bind_ok.1 hrun
  obtain ⟨h, _⟩ := Prod.mk.inj (Except.ok.inj h)
  exact absurd h (hg a)

/-- A moved edit may come first. -/
theorem bind {f : α → β} {e : Edit α} {e' : Edit β} {k : α → Edit γ} {k' : β → Edit γ}
    (he : Edit.Moved σ f e e') (hk : ∀ a, Repeating σ c (k a) (k' (f a))) :
    Repeating σ c (e >>= k) (e' >>= k') := by
  intro s t hst s' hrun
  obtain ⟨a, s₁, ha, hrest⟩ := Edit.bind_ok.1 hrun
  obtain ⟨t₁, ha', hst₁⟩ := he s t hst a s₁ ha
  obtain ⟨t', hrest', hst'⟩ := hk a s₁ t₁ hst₁ s' hrest
  exact ⟨t', Edit.bind_ok.2 ⟨f a, t₁, ha', hrest'⟩, hst'⟩

/-- A moved query may come first. -/
theorem query {f : α → β} {q : Store → Except Fault α} {q' : Store → Except Fault β}
    {k : α → Edit γ} {k' : β → Edit γ} (hq : ∀ s t, Padded σ s t → IR.Moved f (q s) (q' t))
    (hk : ∀ a, Repeating σ c (k a) (k' (f a))) :
    Repeating σ c (query q >>= k) (query q' >>= k') :=
  bind (.query hq) hk

theorem get_bind {k k' : Store → Edit γ}
    (h : ∀ s t, Padded σ s t → Repeating σ c (k s) (k' t)) :
    Repeating σ c (get >>= k) (get >>= k') :=
  fun s t hst s' hrun => h s t hst s t hst s' hrun

theorem op_bind {o : OpRef} {k k' : OpData → Edit γ}
    (h : ∀ d e, Like σ d e → Repeating σ c (k d) (k' e)) :
    Repeating σ c (IR.query (·.op o) >>= k) (IR.query (·.op (σ.op o)) >>= k') := by
  intro s t hst s' hrun
  obtain ⟨d, hd, hrest⟩ := Edit.query_bind.1 hrun
  obtain ⟨e, he, hlike⟩ := hst.op_some (Store.op_ok.1 hd)
  obtain ⟨t', hrest', hst'⟩ := h d e hlike s t hst s' hrest
  exact ⟨t', Edit.query_bind.2 ⟨e, Store.op_ok.2 he, hrest'⟩, hst'⟩

theorem ite {p q : Prop} [Decidable p] [Decidable q] {e₁ e₂ e₁' e₂' : Edit γ} (hpq : p ↔ q)
    (h : Repeating σ c e₁ e₁') (h' : Repeating σ c e₂ e₂') :
    Repeating σ c (if p then e₁ else e₂) (if q then e₁' else e₂') := by
  by_cases hp : p
  · rw [if_pos hp, if_pos (hpq.1 hp)]
    exact h
  · rw [if_neg hp, if_neg fun hq => hp (hpq.2 hq)]
    exact h'

end Repeating

/-! ## Patterns -/

/-- Where the first composition gives up or asks for nothing, so does the second one in a padded
store. -/
def Compose.Declines (σ : Padding) (x x' : Compose Change) : Prop :=
  ∀ J s t, Padded σ s t → ∀ r J' s', x J s = .ok ((r, J'), s') → (∀ c, r = .ok c → c = .none) →
    ∃ r' t', x' (J.move σ) t = .ok ((r', J'.move σ), t') ∧ (∀ c, r' = .ok c → c = .none) ∧
      Padded σ s' t'

namespace Compose.Declines

/-- A composition that always asks for something is not among those that give up. -/
theorem of_asks {x x' : Compose Change} (h : Asks x) : Declines σ x x' := by
  intro J s t _ r J' s' hrun hr
  obtain ⟨c, rfl, hc⟩ := h J s r J' s' hrun
  exact absurd (hr c rfl) hc

theorem pure (c c' : Change) (h : c = .none → c' = .none) :
    Declines σ (pure c) (pure c') := by
  intro J s t hst r J' s' hrun hr
  obtain ⟨rfl, rfl, rfl⟩ := pure_ok.1 hrun
  refine ⟨.ok c', t, rfl, ?_, hst⟩
  rintro _ ⟨⟩
  exact h (hr c rfl)

theorem bind {f : α → β} {x : Compose α} {x' : Compose β} {k : α → Compose Change}
    {k' : β → Compose Change} (hx : Moved σ f x x') (hk : ∀ a, Declines σ (k a) (k' (f a))) :
    Declines σ (x >>= k) (x' >>= k') := by
  intro J s t hst r J' s' hrun hr
  -- either the first part gave up, or the rest decides
  have hcases : (∃ e, r = .error e ∧ x J s = .ok ((.error e, J'), s')) ∨
      ∃ a J₁ s₁, x J s = .ok ((.ok a, J₁), s₁) ∧ k a J₁ s₁ = .ok ((r, J'), s') := by
    cases r with
    | ok c => exact .inr (bind_ok.1 hrun)
    | error e =>
      rcases bind_error.1 hrun with hfirst | hrest
      · exact .inl ⟨e, rfl, hfirst⟩
      · exact .inr hrest
  rcases hcases with ⟨e, rfl, hfirst⟩ | ⟨a, J₁, s₁, hfirst, hrest⟩
  · obtain ⟨t', hfirst', hst'⟩ := hx J s t hst _ s' hfirst
    exact ⟨.error (e.move σ), t', bind_error.2 (.inl hfirst'), by rintro _ ⟨⟩, hst'⟩
  · obtain ⟨t₁, hfirst', hst₁⟩ := hx J s t hst _ s₁ hfirst
    obtain ⟨r', t', hrest', hr', hst'⟩ := hk a J₁ s₁ t₁ hst₁ r J' s' hrest hr
    refine ⟨r', t', ?_, hr', hst'⟩
    cases r' with
    | ok c => exact bind_ok.2 ⟨f a, J₁.move σ, t₁, hfirst', hrest'⟩
    | error e => exact bind_error.2 (.inr ⟨f a, J₁.move σ, t₁, hfirst', hrest'⟩)

theorem ite {p q : Prop} [Decidable p] [Decidable q] {x y x' y' : Compose Change} (hpq : p ↔ q)
    (h : Declines σ x x') (h' : Declines σ y y') :
    Declines σ (if p then x else y) (if q then x' else y') := by
  by_cases hp : p
  · rw [if_pos hp, if_pos (hpq.1 hp)]
    exact h
  · rw [if_neg hp, if_neg fun hq => hp (hpq.2 hq)]
    exact h'

end Compose.Declines

/-- Where the first edit asks for nothing, so does the second one in a padded store. -/
def Silent (σ : Padding) (e e' : Edit Change) : Prop := Repeating σ .none e e'

/-- A transaction that asks for nothing rolls back; the rollback is moved, and so the stores stay
padded. -/
theorem transaction_silent {body body' : Compose Change} (hbody : Compose.Declines σ body body') :
    Silent σ (transaction body) (transaction body') := by
  intro s t hst s' hrun
  obtain ⟨r, J, s₁, hfirst, hr, hback⟩ := transaction_none.1 hrun
  obtain ⟨r', t₁, hfirst', hr', hst₁⟩ := hbody [] s t hst r J s₁ hfirst hr
  obtain ⟨t', hback', hst'⟩ := rollback_moved J s₁ t₁ hst₁ () s' hback
  exact ⟨t', transaction_none.2 ⟨r', J.move σ, t₁, hfirst', hr', hback'⟩, hst'⟩

/-- Both sides see the same name. -/
theorem onName_silent {name : OpName} {pattern : Pattern}
    (h : ∀ op, Silent σ (pattern op) (pattern (σ.op op))) (op : OpRef) :
    Silent σ (onName name pattern op) (onName name pattern (σ.op op)) :=
  .query (fun _ _ hst => isNamed_moved hst op name) fun _ => .ite .rfl (h op) .pure

/-- An application that is not raised stays as it is in the padded store. -/
theorem raiseApply_silent (limit : Nat) (op : OpRef) :
    Silent σ (raiseApply limit op) (raiseApply limit (σ.op op)) := by
  refine onName_silent (fun op => .query (fun _ _ hst => opMap?_moved hst op) fun map => ?_) op
  cases map with
  | none => exact .pure
  | some map =>
    refine .query (fun _ _ hst => hst.operandsOf op) fun operands => transaction_silent ?_
    refine .bind (normalizeMap_moved op limit ⟨map, operands⟩) fun b => ?_
    refine .ite .rfl (.pure _ _ id) (.bind (.ask fun _ _ hst => hst.result op 0) fun result => ?_)
    refine .bind (.ask fun _ _ hst => hst.typeOf result) fun ty => .of_asks ?_
    exact .lift_bind fun new => .pure (by simp)

/-- A cast that does not fold does not fold in the padded store. -/
theorem foldIndexCast_silent (op : OpRef) :
    Silent σ (foldIndexCast op) (foldIndexCast (σ.op op)) := by
  refine onName_silent (fun op => ?_) op
  refine .query (fun _ _ hst => hst.operand op 0) fun input => ?_
  refine .query (fun _ _ hst => hst.result op 0) fun result => ?_
  refine .query (fun _ _ hst => hst.typeOf result) fun ty => ?_
  refine .query (fun _ _ hst => hst.definingOp? input) fun inner => ?_
  cases inner with
  | none => exact .pure
  | some inner =>
    refine .query (fun _ _ hst => arithKind?_moved hst inner) fun kind => ?_
    rcases kind with _ | kind
    · exact .pure
    · cases kind with
      | indexCast =>
        refine .query (fun _ _ hst => hst.operand inner 0) fun source => ?_
        refine .query (fun _ _ hst => hst.typeOf source) fun sourceTy => ?_
        exact .ite .rfl (.pure_ne (by simp)) .pure
      | const =>
        refine .query (fun _ _ hst => constValue?_moved hst inner) fun value => ?_
        cases value with
        | none => exact .pure
        | some value =>
          refine .query (fun _ _ hst => hst.typeOf input) fun inputTy => ?_
          exact .ite .rfl (.of_ne (by simp)) .pure
      | _ => exact .pure

/-- An access whose subscripts are no symbols is left alone on both sides, whatever it would be
replaced by. -/
theorem raiseSubscripts_silent (limit : Nat) (op : OpRef) (indices : List ValueRef)
    (build build' : Binding → OpSpec) : Silent σ (raiseSubscripts limit op indices build)
      (raiseSubscripts limit (σ.op op) (indices.map σ.value) build') := by
  refine transaction_silent ?_
  rw [List.length_map]
  refine .bind (normalizeMap_moved op limit ⟨_, indices⟩) fun b => .of_asks ?_
  exact .lift_bind fun new => .pure (by simp)

theorem allIndices_moved (h : Padded σ s t) (indices : List ValueRef) :
    Same (allInOrder (isIndex s) indices) (allInOrder (isIndex t) (indices.map σ.value)) :=
  allInOrder_moved (isIndex_moved h) indices

theorem raiseLoad_silent (limit : Nat) (op : OpRef) :
    Silent σ (raiseLoad limit op) (raiseLoad limit (σ.op op)) := by
  refine onName_silent (fun op => ?_) op
  refine .query (fun _ _ hst => operandsFrom_moved hst op 1) fun indices => ?_
  refine .query (fun _ _ hst => allIndices_moved hst indices) fun _ => .ite .rfl .pure ?_
  refine .query (fun _ _ hst => hst.operand op 0) fun memory => .op_bind fun d e hlike => ?_
  rw [hlike.resultTypes]
  cases d.resultTypes with
  | nil => exact .pure
  | cons ty types => exact raiseSubscripts_silent limit op indices _ _

theorem raiseStore_silent (limit : Nat) (op : OpRef) :
    Silent σ (raiseStore limit op) (raiseStore limit (σ.op op)) := by
  refine onName_silent (fun op => ?_) op
  refine .query (fun _ _ hst => operandsFrom_moved hst op 2) fun indices => ?_
  refine .query (fun _ _ hst => allIndices_moved hst indices) fun _ => .ite .rfl .pure ?_
  refine .query (fun _ _ hst => hst.operand op 0) fun value => ?_
  refine .query (fun _ _ hst => hst.operand op 1) fun memory => ?_
  exact raiseSubscripts_silent limit op indices _ _

theorem map_value_inj {l l' : List ValueRef} : l.map σ.value = l'.map σ.value ↔ l = l' :=
  (List.map_injective_iff.2 Padding.value_injective).eq_iff

/-- An access whose map is in normal form already is left alone on both sides. -/
theorem normalizeAccess_silent (limit : Nat) (op : OpRef) :
    Silent σ (normalizeAccess limit op) (normalizeAccess limit (σ.op op)) := by
  refine .op_bind fun d e hlike => ?_
  rw [hlike.name, hlike.attrs, hlike.operands]
  cases AccessKind.ofName? d.name with
  | none => exact .pure
  | some kind =>
    cases (d.attrs.get? "map").bind Attr.map? with
    | none => exact .pure
    | some map =>
      simp only [← List.map_drop, List.length_map]
      refine .ite .rfl .pure (transaction_silent ?_)
      refine .bind (normalizeMap_moved op limit ⟨map, d.operands.drop kind.mapStart⟩) fun b => ?_
      refine .ite ?_ (.pure _ _ id) (.of_asks ?_)
      · simp only [Bool.and_eq_true, decide_eq_true_eq]
        exact and_congr .rfl map_value_inj.symm
      intro J s r J' t hrun
      obtain ⟨d', _, hrest⟩ := Compose.ask_bind.1 hrun
      exact Compose.Asks.lift_bind (fun new => .pure (by simp)) J s r J' t hrest

theorem normalizeCondition_silent (limit : Nat) (op : OpRef) :
    Silent σ (normalizeCondition limit op) (normalizeCondition limit (σ.op op)) := by
  refine onName_silent (fun op => .query (fun _ _ hst => conditionSet?_moved hst op)
    fun set => ?_) op
  cases set with
  | none => exact .pure
  | some set =>
    refine .query (fun _ _ hst => hst.operandsOf op) fun operands => transaction_silent ?_
    refine .bind (normalizeSet_moved op limit ⟨set, operands⟩) fun b => ?_
    refine .ite ?_ (.pure _ _ id) (.of_asks ?_)
    · simp only [Bool.and_eq_true, decide_eq_true_eq]
      exact and_congr .rfl map_value_inj.symm
    exact .lift_bind fun _ => .pure (by simp)

theorem isInLoopFuel_moved (h : Padded σ s t) (n : Nat) : ∀ (m : Nat), n ≤ m → ∀ o : OpRef,
    Same (isInLoopFuel s n o) (isInLoopFuel t m (σ.op o)) := by
  induction n with
  | zero => exact fun _ _ _ => .throw
  | succ n ih =>
    intro m hm o
    obtain ⟨m, rfl⟩ : ∃ k, m = k + 1 := ⟨m - 1, by omega⟩
    refine .bind (h.enclosingOp? o) fun parent => ?_
    cases parent with
    | none => exact .pure rfl
    | some parent =>
      exact .bind (h.nameOf parent) fun _ => .ite .rfl (.pure rfl) (ih m (by omega) parent)

/-- A conditional that cannot be lowered, or stands in no loop, is left alone on both sides. -/
theorem raiseConditional_silent (limit : Nat) (op : OpRef) :
    Silent σ (raiseConditional limit op) (raiseConditional limit (σ.op op)) := by
  refine onName_silent (fun op => ?_) op
  refine .op_bind fun d e hlike => .ite (by simp [hlike.regions]) .pure ?_
  refine .query (fun _ _ hst => isInLoopFuel_moved hst _ _ hst.depthBound_le op) fun _ =>
    .ite .rfl .pure ?_
  refine .query (fun _ _ hst => hst.operand op 0) fun condition => ?_
  refine .query (fun _ _ hst => lowerCondition?_moved hst condition) fun guard => ?_
  cases guard with
  | none => exact .pure
  | some guard =>
    refine transaction_silent ?_
    have hset : (guard.move σ).toSet = guard.toSet.move σ := by
      simp [Guard.toSet, Guard.move, SetBinding.move]
    show Compose.Declines σ _ (normalizeSet (σ.op op) limit (guard.move σ).toSet >>= _)
    rw [hset]
    refine .bind (normalizeSet_moved op limit guard.toSet) fun b => .of_asks ?_
    intro J s r J' t hrun
    obtain ⟨d', _, hrest⟩ := Compose.ask_bind.1 hrun
    exact Compose.Asks.lift_bind (fun _ => .lift_bind fun _ => .pure (by simp)) J s r J' t hrest

theorem expandBound?_moved (h : Padded σ s t) (side : BoundSide) (b : Binding) :
    Moved (Option.map (Binding.move σ)) (expandBound? s side b)
      (expandBound? t side (b.move σ)) := by
  have hforwarded : forwardedOperand? (b.move σ) = (forwardedOperand? b).map σ.value := by
    obtain ⟨⟨numDims, numSymbols, results⟩, operands⟩ := b
    simp only [forwardedOperand?, Binding.move]
    split <;> simp
  unfold expandBound?
  rw [hforwarded]
  cases forwardedOperand? b with
  | none => exact .pure rfl
  | some v =>
    refine .bind (expandChoice?_moved h v) fun tree => ?_
    cases tree with
    | none => exact .pure rfl
    | some tree =>
      refine .ite (by cases side <;> simp [MinMax.move]) (.pure ?_) (.pure rfl)
      simp [MinMax.move, Binding.move]

/-- A bound that is in normal form already is left alone on both sides. -/
theorem normalizeBound_silent (limit : Nat) (op : OpRef) (side : BoundSide) (b : Binding) :
    Silent σ (normalizeBound limit op side b)
      (normalizeBound limit (σ.op op) side (b.move σ)) := by
  refine transaction_silent ?_
  refine .bind (.ask fun _ _ hst => expandBound?_moved hst side b) fun expanded => ?_
  have hgetD : (expanded.map (Binding.move σ)).getD (b.move σ) = (expanded.getD b).move σ := by
    cases expanded <;> rfl
  rw [hgetD]
  refine .bind (normalizeMap_moved op limit _) fun new => ?_
  refine .ite ?_ (.pure _ _ id) (.of_asks ?_)
  · simp only [Bool.and_eq_true, decide_eq_true_eq]
    exact and_congr .rfl map_value_inj.symm
  exact .lift_bind fun _ => .pure (by simp)

/-- Both bounds have to be left alone for the pattern to decline. -/
theorem normalizeBounds_silent (limit : Nat) (op : OpRef) :
    Silent σ (normalizeBounds limit op) (normalizeBounds limit (σ.op op)) := by
  refine onName_silent (fun op => ?_) op
  refine .query (fun _ _ hst => boundMap?_moved hst op .lower) fun lower => ?_
  refine .query (fun _ _ hst => boundMap?_moved hst op .upper) fun upper => ?_
  cases lower with
  | none => exact .pure
  | some lower =>
    cases upper with
    | none => exact .pure
    | some upper =>
      refine .query (fun _ _ hst => boundOperands_moved hst op .lower) fun lowerOperands => ?_
      refine .query (fun _ _ hst => boundOperands_moved hst op .upper) fun upperOperands => ?_
      intro s t hst s' hrun
      obtain ⟨first, s₁, hfirst, hrest⟩ := Edit.bind_ok.1 hrun
      obtain ⟨second, s₂, hsecond, hrest⟩ := Edit.bind_ok.1 hrest
      -- both bounds declined, so both decline again
      rw [Edit.ite_run] at hrest
      split at hrest
      · rename_i hnone
        cases hrest
        simp only [Bool.and_eq_true, decide_eq_true_eq] at hnone
        obtain ⟨rfl, rfl⟩ := hnone
        obtain ⟨t₁, hfirst', hst₁⟩ :=
          normalizeBound_silent limit op .lower ⟨lower, lowerOperands⟩ s t hst s₁ hfirst
        obtain ⟨t', hsecond', hst'⟩ :=
          normalizeBound_silent limit op .upper ⟨upper, upperOperands⟩ s₁ t₁ hst₁ s' hsecond
        refine ⟨t', ?_, hst'⟩
        exact Edit.bind_ok.2 ⟨_, t₁, hfirst', Edit.bind_ok.2 ⟨_, t', hsecond', rfl⟩⟩
      · cases hrest

/-- A pattern that does not apply to an operation does not apply to it in a padded store. -/
theorem patterns_silent {limit : Nat} {pattern : Pattern} (hp : pattern ∈ patterns limit)
    (op : OpRef) : Silent σ (pattern op) (pattern (σ.op op)) := by
  simp only [patterns, List.mem_cons, List.not_mem_nil, or_false] at hp
  rcases hp with rfl | rfl | rfl | rfl | rfl | rfl | rfl | rfl
  · exact raiseApply_silent limit op
  · exact foldIndexCast_silent op
  · exact normalizeAccess_silent limit op
  · exact normalizeCondition_silent limit op
  · exact raiseStore_silent limit op
  · exact raiseConditional_silent limit op
  · exact raiseLoad_silent limit op
  · exact normalizeBounds_silent limit op

end AffineRaising.Raise
