/-
# AffineRaising.Proofs.Raise.ComposeValue — composition keeps the value of a map.

A composition folds into a map what the operands compute.  Where it moves nothing, the composed map
has at its operands the values that the map had before, for every assignment at which the operands
can be read off their definitions, as long as no coefficient leaves the word range:
`composeMap_meaning`.  With canonicalization after it, and for assignments that satisfy the
definitions on the chains of the operands: `composed_map_meaning`.

The induction is on the steps of the composition, and within a step on the operands; its invariant
is that the values at the positions are readable and the map has its old value at them (`Binds`).
Where the run hoists nothing no value is replaced by a copy, which is why the journal is asked to
have no hoists; casts may be inserted, and have the number of what they cast.
-/
import AffineRaising.Proofs.Raise.Cast
import AffineRaising.Proofs.Raise.Rebind

namespace AffineRaising.Raise

open AffineRaising.IR AffineRaising.IR.Store AffineRaising.Ops AffineRaising.Analysis
open AffineRaising.Affine (Expr Map)

variable {s t : Store} {J J' : Journal} {rho : Assignment} {P Q : ValueRef → Prop}
  {p p' : Positions} {v : ValueRef}

/-! ## Operands -/

theorem bindAll_binds {bind : Positions → ValueRef → Expr × Positions}
    (hbind : ∀ p v, P v → Binds rho P true v p (bind p v).1 (bind p v).2) {vs : List ValueRef} :
    ∀ p : Positions, (∀ v ∈ vs, P v) →
      BindsList rho P (fun _ => true) vs p (bindAll bind p vs).1 (bindAll bind p vs).2 := by
  induction vs with
  | nil =>
    intro p _
    exact .nil _
  | cons v vs ih =>
    intro p hP
    exact .cons (hbind p v (hP v List.mem_cons_self))
      (ih (bind p v).2 fun w hw => hP w (List.mem_cons_of_mem v hw))

/-- Operands of an applied map are bound to dimensions. -/
theorem bindAll_dims (rho : Assignment) (p : Positions) {vs : List ValueRef} (h : ∀ v ∈ vs, P v) :
    BindsList rho P (fun _ => true) vs p (bindAll Positions.dim p vs).1
      (bindAll Positions.dim p vs).2 :=
  bindAll_binds (fun p _ hv => p.dim_binds hv true) p h

/-- The inputs of a shape are bound to symbols. -/
theorem bindAll_symbols (rho : Assignment) (p : Positions) {vs : List ValueRef}
    (h : ∀ v ∈ vs, P v) :
    BindsList rho P (fun _ => true) vs p (bindAll Positions.symbol p vs).1
      (bindAll Positions.symbol p vs).2 :=
  bindAll_binds (fun p _ hv => p.symbol_binds hv true) p h

/-- Whether folding an operand stays in the word range. -/
def operandFits (s : Store) (p : Positions) (operand : ValueRef) : Except Fault Bool := do
  let decast ← stripCasts s operand
  let t := if ← isSymbol s operand then operand else decast
  match ← inlineShape? s t decast with
  | some shape => return shape.expr.substituteFits [] (bindAll Positions.symbol p shape.inputs).1
  | none =>
    match ← appliedMap? s t with
    | some (m, result, operands) =>
      let (dims, p) := bindAll Positions.dim p (operands.take m.numDims)
      return result.substituteFits dims (bindAll Positions.symbol p (operands.drop m.numDims)).1
    | none => return true

/-- To make a symbol, a composition hoists. -/
theorem requireSymbol_follows (v : ValueRef) : Compose.Follows HoistStep (requireSymbol v) := by
  refine .bind (.ask _) fun sym => .ite (.pure _) (.bind (.draft (promote_follows v false)) ?_)
  intro w
  cases w with
  | none => exact .throw _
  | some w => exact .bind (.ask _) fun _ => .ite (.pure _) (.throw _)

/-- A symbol that nothing had to be moved for is the value itself. -/
theorem requireSymbol_quiet {w : ValueRef}
    (h : requireSymbol v J s = .ok ((.ok w, J'), t))
    (hquiet : Journal.hoists J' = Journal.hoists J) : w = v := by
  unfold requireSymbol at h
  rw [Compose.ask_bind] at h
  obtain ⟨sym, _, h⟩ := h
  cases sym with
  | true =>
    obtain ⟨h, _⟩ := Compose.pure_ok.1 h
    exact (Except.ok.inj h).symm
  | false =>
    simp only [Bool.false_eq_true, if_false] at h
    rw [Compose.bind_ok] at h
    obtain ⟨r, J₁, s₁, hpromote, h⟩ := h
    obtain ⟨_, hpromote, hr⟩ := Compose.draft_ok.1 hpromote
    cases hr
    cases r with
    | none => simp at h
    | some x =>
      simp only at h
      rw [Compose.ask_bind] at h
      obtain ⟨sym', _, h⟩ := h
      cases sym' with
      | false => simp at h
      | true =>
        obtain ⟨hx, rfl, rfl⟩ := Compose.pure_ok.1 h
        cases hx
        simp only [promote, Draft.bind_ok, Draft.lift_ok, Edit.get_run] at hpromote
        obtain ⟨_, _, _, ⟨hget, rfl⟩, hpromote⟩ := hpromote
        cases hget
        rcases promoteFuel_some hpromote with rfl | ⟨y, hhoists, hlast⟩
        · rfl
        · -- the last move would have been counted
          have hle := hhoists.le
          have hlt := hlast.lt
          simp only at hle hlt
          omega

/-- The rest of `composeOperand` once it is known which value to look at. -/
def foldValue (p : Positions) (t decast : ValueRef) (isDim : Bool) :
    Compose (Expr × Positions) := do
  match ← Compose.ask (inlineShape? · t decast) with
  | some shape =>
    let (syms, p) := bindAll Positions.symbol p shape.inputs
    let e ← Compose.ask fun _ => liftAffine (shape.expr.substitute [] syms)
    return (e, p)
  | none =>
    if ← Compose.ask (isLoopArg · t) then return p.dim t
    match ← Compose.ask (appliedMap? · t) with
    | some (m, result, operands) =>
      let (dims, p) := bindAll Positions.dim p (operands.take m.numDims)
      let (syms, p) := bindAll Positions.symbol p (operands.drop m.numDims)
      let e ← Compose.ask fun _ => liftAffine (result.substitute dims syms)
      return (e, p)
    | none =>
      let t ← requireSymbol t
      return if isDim then p.dim t else p.symbol t

/-- An operand is folded as itself if it is a symbol, and without its casts otherwise. -/
theorem composeOperand_eq (p : Positions) (operand : ValueRef) (isDim : Bool) :
    composeOperand p operand isDim = (do
      let decast ← Compose.ask (stripCasts · operand)
      let sym ← Compose.ask (isSymbol · operand)
      foldValue p (if sym then operand else decast) decast isDim) := by
  unfold composeOperand
  congr 1
  funext decast
  congr 1
  funext sym
  cases sym <;> rfl

/-- Folding an operand hoists at most. -/
theorem composeOperand_follows (p : Positions) (operand : ValueRef) (isDim : Bool) :
    Compose.Follows HoistStep (composeOperand p operand isDim) := by
  rw [composeOperand_eq]
  refine .bind (.ask _) fun decast => .bind (.ask _) fun sym => .bind (.ask _) fun shape => ?_
  cases shape with
  | some shape => exact .bind (.ask _) fun _ => .pure _
  | none =>
    refine .bind (.ask _) fun arg => .ite (.pure _) (.bind (.ask _) fun applied => ?_)
    cases applied with
    | some applied => exact .bind (.ask _) fun _ => .pure _
    | none => exact .bind (requireSymbol_follows _) fun _ => .pure _

/-- Each of the ways to fold a value gives an expression of the same number. -/
theorem foldValue_binds {t' decast : ValueRef} {isDim : Bool} {e : Expr}
    (hQ : Readable s rho Q) (ht : Q t') (hd : Q decast) (heq : rho decast = rho t')
    (h : foldValue p t' decast isDim J s = .ok ((.ok (e, p'), J'), t))
    (hquiet : Journal.hoists J' = Journal.hoists J)
    (hshape : ∀ shape, inlineShape? s t' decast = .ok (some shape) →
      shape.expr.substituteFits [] (bindAll Positions.symbol p shape.inputs).1 = true)
    (hmap : ∀ m result operands, inlineShape? s t' decast = .ok none →
      appliedMap? s t' = .ok (some (m, result, operands)) →
      result.substituteFits (bindAll Positions.dim p (operands.take m.numDims)).1
        (bindAll Positions.symbol (bindAll Positions.dim p (operands.take m.numDims)).2
          (operands.drop m.numDims)).1 = true) :
    Binds rho Q true t' p e p' := by
  unfold foldValue at h
  rw [Compose.ask_bind] at h
  obtain ⟨shape?, hshape?, h⟩ := h
  cases shape? with
  | some shape =>
    obtain ⟨hin, hmean⟩ := hQ.inlineShape ht hd heq hshape?
    have hbinds := bindAll_symbols rho p hin
    simp only at h
    rw [Compose.ask_bind] at h
    obtain ⟨e', he, h⟩ := h
    obtain ⟨h, _⟩ := Compose.pure_ok.1 h
    cases h
    refine ⟨hbinds.grows, hbinds.all, fun _ => ?_⟩
    exact Expr.substitute_meaning (fun i e x _ hi => by simp at hi)
      ((hbinds.replaces (.refl _)).mono fun _ _ => rfl) (liftAffine_ok.1 he) (hshape shape hshape?)
      hmean
  | none =>
    simp only at h
    rw [Compose.ask_bind] at h
    obtain ⟨arg, _, h⟩ := h
    cases arg with
    | true =>
      obtain ⟨h, _⟩ := Compose.pure_ok.1 h
      cases h
      exact p.dim_binds ht true
    | false =>
      simp only [Bool.false_eq_true, if_false] at h
      rw [Compose.ask_bind] at h
      obtain ⟨applied, happlied, h⟩ := h
      cases applied with
      | some applied =>
        obtain ⟨m, result, operands⟩ := applied
        obtain ⟨hin, hmean⟩ := hQ.appliedMap ht happlied
        have hdims := bindAll_dims rho p fun v (hv : v ∈ operands.take m.numDims) =>
          hin v (List.mem_of_mem_take hv)
        have hsyms := bindAll_symbols rho (bindAll Positions.dim p (operands.take m.numDims)).2
          fun v (hv : v ∈ operands.drop m.numDims) => hin v (List.mem_of_mem_drop hv)
        simp only at h
        rw [Compose.ask_bind] at h
        obtain ⟨e', he, h⟩ := h
        obtain ⟨h, _⟩ := Compose.pure_ok.1 h
        cases h
        refine ⟨hdims.grows.trans hsyms.grows, fun hp => hsyms.all (hdims.all hp), fun _ => ?_⟩
        exact Expr.substitute_meaning ((hdims.replaces hsyms.grows).mono fun _ _ => rfl)
          ((hsyms.replaces (.refl _)).mono fun _ _ => rfl) (liftAffine_ok.1 he)
          (hmap m result operands hshape? happlied) hmean
      | none =>
        simp only at h
        rw [Compose.bind_ok] at h
        obtain ⟨w, J₁, s₁, hsym, h⟩ := h
        obtain ⟨h, rfl, rfl⟩ := Compose.pure_ok.1 h
        cases requireSymbol_quiet hsym hquiet
        cases isDim with
        | true =>
          cases h
          exact p.dim_binds ht true
        | false =>
          cases h
          exact p.symbol_binds ht true

/-- An operand is replaced by an expression of the same number. -/
theorem composeOperand_binds {isDim : Bool} {e : Expr} (hQ : Readable s rho Q) (hv : Q v)
    (h : composeOperand p v isDim J s = .ok ((.ok (e, p'), J'), t))
    (hquiet : Journal.hoists J' = Journal.hoists J) (hfits : operandFits s p v = .ok true) :
    Binds rho Q true v p e p' := by
  rw [composeOperand_eq, Compose.ask_bind] at h
  obtain ⟨decast, hdecast, h⟩ := h
  rw [Compose.ask_bind] at h
  obtain ⟨sym, hsym, h⟩ := h
  simp only [operandFits, except_bind_ok] at hfits
  obtain ⟨decast', hdecast', sym', hsym', shape?, hshape?, hfits⟩ := hfits
  cases hdecast.symm.trans hdecast'
  cases hsym.symm.trans hsym'
  obtain ⟨hd, heq⟩ := hQ.stripCasts hv hdecast
  -- the value that is looked at has the number of the operand
  have ht : Q (if sym then v else decast) ∧ rho (if sym then v else decast) = rho v := by
    cases sym with
    | true => exact ⟨hv, rfl⟩
    | false => exact ⟨hd, heq⟩
  have hbinds : Binds rho Q true (if sym then v else decast) p e p' := by
    refine foldValue_binds hQ ht.1 hd (heq.trans ht.2.symm) h hquiet (fun shape hshape => ?_)
      (fun m result operands hnone happlied => ?_)
    · cases hshape?.symm.trans hshape
      simpa using hfits
    · cases hshape?.symm.trans hnone
      simp only [except_bind_ok] at hfits
      obtain ⟨applied, happlied', hfits⟩ := hfits
      cases happlied.symm.trans happlied'
      simpa using hfits
  exact ⟨hbinds.grows, hbinds.all, fun hu => ht.2 ▸ hbinds.reads hu⟩

/-- Operands are folded one by one. -/
theorem composeOperands_follows (numDims : Nat) (vs : List ValueRef) :
    ∀ i p, Compose.Follows HoistStep (composeOperands numDims i p vs) := by
  induction vs with
  | nil => exact fun _ _ => .pure _
  | cons v vs ih =>
    intro i p
    exact .bind (composeOperand_follows p v _) fun r => .bind (ih (i + 1) r.2) fun _ => .pure _

/-- Folding each of the operands stays in the word range. -/
def OperandsFit (numDims : Nat) : Nat → Positions → List ValueRef → Journal → Store → Prop
  | _, _, [], _, _ => True
  | i, p, v :: rest, J, s => operandFits s p v = .ok true ∧
    ∀ e p' J' s', composeOperand p v (decide (i < numDims)) J s = .ok ((.ok (e, p'), J'), s') →
      OperandsFit numDims (i + 1) p' rest J' s'

/-- Each operand is replaced by an expression of its number. -/
theorem composeOperands_binds (hQ : Readable s rho Q) {numDims : Nat} {vs : List ValueRef} :
    ∀ {i : Nat} {p p' : Positions} {J J' : Journal} {t : Store} {es : List Expr},
      (∀ v ∈ vs, Q v) →
      composeOperands numDims i p vs J s = .ok ((.ok (es, p'), J'), t) →
      Journal.hoists J' = Journal.hoists J → OperandsFit numDims i p vs J s →
      BindsList rho Q (fun _ => true) vs p es p' := by
  induction vs with
  | nil =>
    intro i p p' J J' t es _ h _ _
    obtain ⟨h, _⟩ := Compose.pure_ok.1 h
    cases h
    exact .nil _
  | cons v vs ih =>
    intro i p p' J J' t es hvs h hquiet hfits
    unfold composeOperands at h
    rw [Compose.bind_ok] at h
    obtain ⟨⟨e, p₁⟩, J₁, s₁, hfirst, h⟩ := h
    rw [Compose.bind_ok] at h
    obtain ⟨⟨es', p₂⟩, J₂, s₂, hrest, h⟩ := h
    obtain ⟨h, rfl, rfl⟩ := Compose.pure_ok.1 h
    cases h
    have hle := Hoists.le (composeOperand_follows p v _ J s _ J₁ s₁ hfirst)
    have hle' := Hoists.le (composeOperands_follows numDims vs _ _ J₁ s₁ _ J₂ s₂ hrest)
    simp only at hle hle'
    have hquiet₁ : Journal.hoists J₁ = Journal.hoists J := by omega
    obtain ⟨rfl, rfl⟩ := Prod.mk.inj
      (Hoists.eq_of_quiet (composeOperand_follows p v _ J s _ J₁ s₁ hfirst) hquiet₁)
    refine .cons (composeOperand_binds hQ (hvs v List.mem_cons_self) hfirst hquiet₁ hfits.1) ?_
    exact ih (fun w hw => hvs w (List.mem_cons_of_mem v hw)) hrest hquiet
      (hfits.2 e p₁ J₁ s₁ hfirst)

/-! ## Steps -/

/-- A step hoists at most; canonicalization changes no program. -/
theorem composeStep_follows (b : Binding) : Compose.Follows HoistStep (composeStep b) :=
  .bind (composeOperands_follows _ _ _ _) fun _ => .bind (.ask _) fun _ => .ask _

/-- A step stays in the word range. -/
def StepFits (b : Binding) (J : Journal) (s : Store) : Prop :=
  OperandsFit b.map.numDims 0 Positions.empty b.operands J s ∧
    ∀ exprs p J' s', composeOperands b.map.numDims 0 Positions.empty b.operands J s =
      .ok ((.ok (exprs, p), J'), s') →
      (∀ e ∈ b.map.results, e.substituteFits (exprs.take b.map.numDims)
        (exprs.drop b.map.numDims) = true) ∧
      ∀ m, b.map.substitute (exprs.take b.map.numDims) (exprs.drop b.map.numDims) p.dims.length
        p.symbols.length = .ok m → canonicalizeFits s' ⟨m, p.operands⟩ = .ok true

/-- A step keeps the value of the map. -/
theorem composeStep_meaning (hQ : Readable s rho Q) {b next : Binding} {xs : List Int}
    (hvs : ∀ v ∈ b.operands, Q v)
    (h : composeStep b J s = .ok ((.ok next, J'), t))
    (hquiet : Journal.hoists J' = Journal.hoists J) (hfits : StepFits b J s)
    (hxs : b.meaning rho = some xs) :
    next.meaning rho = some xs ∧ ∀ v ∈ next.operands, Q v := by
  unfold composeStep at h
  rw [Compose.bind_ok] at h
  obtain ⟨⟨exprs, p⟩, J₁, s₁, hoperands, h⟩ := h
  rw [Compose.ask_bind] at h
  obtain ⟨m, hm, h⟩ := h
  obtain ⟨_, hcanon, hnext, rfl, rfl⟩ := Compose.ask_ok.1 h
  cases hnext
  obtain ⟨rfl, rfl⟩ := Prod.mk.inj (Hoists.eq_of_quiet
    (composeOperands_follows _ _ _ _ J s _ J₁ s₁ hoperands) hquiet)
  obtain ⟨hsub, hcan⟩ := hfits.2 exprs p J₁ s₁ hoperands
  have hbinds := composeOperands_binds hQ hvs hoperands hquiet hfits.1
  have hm := liftAffine_ok.1 hm
  have hreplaces := hbinds.replaces (.refl p)
  have hmeaning : Binding.meaning rho ⟨m, p.operands⟩ = some xs := by
    rw [Binding.meaning_positions (Map.substitute_numDims hm)]
    rw [Binding.meaning, List.map_take, List.map_drop] at hxs
    exact Map.substitute_meaning (hreplaces.take _ _) (hreplaces.drop _ _) hm hsub hxs
  have hall : ∀ v ∈ p.operands, Q v :=
    hbinds.all fun v hv => by cases hv
  obtain ⟨hmean, hmem⟩ := canonicalize_meaning (fun v hv c hc => hQ.constant (hall v hv) hc) hcanon
    (hcan m hm) hmeaning
  exact ⟨hmean, fun v hv => hall v (hmem v hv)⟩

theorem composeSteps_follows (left : Nat) :
    ∀ b, Compose.Follows HoistStep (composeSteps left b) := by
  induction left with
  | zero =>
    intro b
    unfold composeSteps
    exact .bind (.ask _) fun _ => .ite (.pure _) (.pure _)
  | succ left ih =>
    intro b
    unfold composeSteps
    exact .bind (.ask _) fun _ => .ite (.pure _)
      (.bind (composeStep_follows b) fun next => .ite (.pure _) (ih next))

/-- All steps stay in the word range. -/
def StepsFit : Nat → Binding → Journal → Store → Prop
  | 0, _, _, _ => True
  | left + 1, b, J, s => anyFoldable s b.map.numDims 0 b.operands = .ok true → StepFits b J s ∧
    ∀ next J' s', composeStep b J s = .ok ((.ok next, J'), s') → next ≠ b →
      StepsFit left next J' s'

theorem composeSteps_meaning (hQ : Readable s rho Q) {xs : List Int} (left : Nat) :
    ∀ {b b' : Binding} {J J' : Journal} {t : Store}, (∀ v ∈ b.operands, Q v) →
      composeSteps left b J s = .ok ((.ok b', J'), t) → Journal.hoists J' = Journal.hoists J →
      StepsFit left b J s → b.meaning rho = some xs →
      b'.meaning rho = some xs ∧ ∀ v ∈ b'.operands, Q v := by
  induction left with
  | zero =>
    intro b b' J J' t hvs h _ _ hxs
    unfold composeSteps at h
    rw [Compose.ask_bind] at h
    obtain ⟨foldable, _, h⟩ := h
    have hb : b = b' := by
      cases foldable with
      | true => exact Except.ok.inj (Compose.pure_ok.1 h).1
      | false => exact Except.ok.inj (Compose.pure_ok.1 h).1
    exact hb ▸ ⟨hxs, hvs⟩
  | succ left ih =>
    intro b b' J J' t hvs h hquiet hfits hxs
    unfold composeSteps at h
    rw [Compose.ask_bind] at h
    obtain ⟨foldable, hfoldable, h⟩ := h
    cases foldable with
    | false =>
      have hb : b = b' := Except.ok.inj (Compose.pure_ok.1 h).1
      exact hb ▸ ⟨hxs, hvs⟩
    | true =>
      obtain ⟨hstep, hrest⟩ := hfits hfoldable
      simp only [Bool.not_true, Bool.false_eq_true, if_false] at h
      rw [Compose.bind_ok] at h
      obtain ⟨next, J₁, s₁, hnext, h⟩ := h
      by_cases heq : next = b
      · rw [if_pos heq] at h
        have hb : b = b' := Except.ok.inj (Compose.pure_ok.1 h).1
        exact hb ▸ ⟨hxs, hvs⟩
      · rw [if_neg heq] at h
        have hle := Hoists.le (composeStep_follows b J s _ J₁ s₁ hnext)
        have hle' := Hoists.le (composeSteps_follows left next J₁ s₁ _ J' t h)
        simp only at hle hle'
        have hquiet₁ : Journal.hoists J₁ = Journal.hoists J := by omega
        obtain ⟨rfl, rfl⟩ := Prod.mk.inj
          (Hoists.eq_of_quiet (composeStep_follows b J s _ J₁ s₁ hnext) hquiet₁)
        obtain ⟨hmean, hall⟩ := composeStep_meaning hQ hvs hnext hquiet₁ hstep hxs
        exact ih hall h hquiet (hrest next J₁ s₁ hnext heq) hmean

/-! ## Whole compositions -/

/-- The check of the positions makes no step of any kind. -/
theorem checkPositions_follows (S : Journal × Store → Journal × Store → Prop) (numDims : Nat)
    (vs : List ValueRef) : ∀ i, Compose.Follows S (checkPositions numDims i vs) := by
  induction vs with
  | nil => exact fun _ => .pure _
  | cons v vs ih =>
    intro i
    have hrest : ∀ valid : Bool, Compose.Follows S (do
        if !valid then throw (.notAffine v)
        checkPositions numDims (i + 1) vs) := fun valid =>
      .ite (.bind (.throw _) fun _ => ih _) (ih _)
    exact .bind (.ask _) fun _ => .ite (.bind (.pure _) hrest)
      (.ite (.bind (.ask _) hrest) (.bind (.pure _) hrest))

theorem checkPositions_ok {numDims i : Nat} {vs : List ValueRef} {r : Except ComposeError Unit}
    (h : checkPositions numDims i vs J s = .ok ((r, J'), t)) : J' = J ∧ t = s := by
  cases checkPositions_follows (fun _ _ => False) numDims vs i J s r J' t h with
  | refl => exact ⟨rfl, rfl⟩
  | tail _ hstep => exact hstep.elim

theorem composeMap_ok {anchor : OpRef} {limit : Nat} {b c : Binding}
    (h : composeMap anchor limit b J s = .ok ((.ok c, J'), t)) :
    ∃ b₁ J₁ s₁, composeSteps limit b J s = .ok ((.ok b₁, J₁), s₁) ∧
      indexOperands anchor [] b₁.operands J₁ s₁ = .ok ((.ok c.operands, J'), t) ∧
      c.map = b₁.map.simplify ∧
      checkPositions b₁.map.numDims 0 b₁.operands J₁ s₁ = .ok ((.ok (), J₁), s₁) := by
  unfold composeMap at h
  rw [Compose.bind_ok] at h
  obtain ⟨b₁, J₁, s₁, hsteps, h⟩ := h
  rw [Compose.bind_ok] at h
  obtain ⟨_, J₂, s₂, hcheck, h⟩ := h
  obtain ⟨rfl, rfl⟩ := checkPositions_ok hcheck
  rw [Compose.bind_ok] at h
  obtain ⟨operands, J₃, s₃, hcasts, h⟩ := h
  obtain ⟨h, rfl, rfl⟩ := Compose.pure_ok.1 h
  cases h
  exact ⟨b₁, J₂, s₂, hsteps, hcasts, rfl, hcheck⟩

/-- A composition stays in the word range. -/
def MapFits (limit : Nat) (b : Binding) (J : Journal) (s : Store) : Prop :=
  StepsFit limit b J s ∧ ∀ b₁ J₁ s₁, composeSteps limit b J s = .ok ((.ok b₁, J₁), s₁) →
    ∀ e ∈ b₁.map.results, e.simplifyFits = true

/-- Casts in the place of operands have the same integers. -/
theorem map_rho_casts (hQ : Readable t rho Q) {vs cs : List ValueRef}
    (h : List.Forall₂ (fun v c => c = v ∨ IsCast t v c) vs cs) (hcs : ∀ c ∈ cs, Q c) :
    cs.map rho = vs.map rho := by
  induction h with
  | nil => rfl
  | cons hfirst _ ih =>
    rename_i v c vs cs _
    have hvalue : rho c = rho v := by
      rcases hfirst with rfl | hcast
      · rfl
      · exact hcast.value hQ (hcs c List.mem_cons_self)
    rw [List.map_cons, List.map_cons, hvalue, ih fun w hw => hcs w (List.mem_cons_of_mem c hw)]

/-- A composition that promotes nothing keeps the value of a map, if the operands that are given and
those that are returned can be read off their definitions. -/
theorem composeMap_meaning {Q' : ValueRef → Prop} {gone : OpRef → Prop} {anchor : OpRef}
    {limit : Nat} {b c : Binding} {xs : List Int} (hQ : Readable s rho Q) (hQ' : Readable t rho Q')
    (hk : Kept s gone) (hcompose : composeMap anchor limit b J s = .ok ((.ok c, J'), t))
    (hquiet : Journal.hoists J' = Journal.hoists J) (hgiven : ∀ v ∈ b.operands, Q v)
    (hreturned : ∀ v ∈ c.operands, Q' v) (hfits : MapFits limit b J s)
    (hxs : b.meaning rho = some xs) : c.meaning rho = some xs := by
  obtain ⟨b₁, J₁, s₁, hsteps, hcasts, hmap, _⟩ := composeMap_ok hcompose
  have hhoists : Hoists (J, s) (J₁, s₁) := composeSteps_follows limit b J s _ _ _ hsteps
  have hstepsCasts : Casts (J₁, s₁) (J', t) := indexOperands_follows anchor _ _ J₁ s₁ _ _ _ hcasts
  have hquiet₁ : Journal.hoists J₁ = Journal.hoists J := hstepsCasts.hoists.symm.trans hquiet
  obtain ⟨hmeaning, _⟩ := composeSteps_meaning hQ limit hgiven hsteps hquiet₁ hfits.1 hxs
  obtain ⟨rfl, rfl⟩ := Prod.mk.inj (hhoists.eq_of_quiet hquiet₁)
  have hforall := indexOperands_casts hk (fun p hp => by cases hp) hcasts
  have hsame := map_rho_casts hQ' hforall hreturned
  -- the composed map over the casts reads as the map after the steps
  have hdims : c.map.numDims = b₁.map.numDims := by rw [hmap]; rfl
  rw [Binding.meaning, List.map_take, List.map_drop, hsame, hdims, hmap]
  rw [Binding.meaning, List.map_take, List.map_drop] at hmeaning
  exact Map.simplify_meaning (hfits.2 b₁ J₁ s₁ hsteps) hmeaning

/-- Composition followed by canonicalization keeps the value of a map.  In a store whose links and
uses are consistent, let both return and let no operand be promoted on the way.  Then at every
assignment that satisfies the definitions behind the operands, those given and those returned, and
at which the map has a value, the new map has as many results as the old one, and the same values in
the same order, unless a coefficient leaves the word range. -/
theorem composed_map_meaning {gone : OpRef → Prop} {anchor : OpRef} {limit : Nat}
    {b c b' : Binding} {xs : List Int} (hk : Kept s gone)
    (hcompose : composeMap anchor limit b J s = .ok ((.ok c, J'), t))
    (hcanon : canonicalize t c = .ok b') (hquiet : Journal.hoists J' = Journal.hoists J)
    (hgiven : ∀ v ∈ b.operands, ChainHolds s rho v)
    (hreturned : ∀ v ∈ c.operands, ChainHolds t rho v)
    (hfits : MapFits limit b J s) (hfits' : canonicalizeFits t c = .ok true)
    (hxs : b.meaning rho = some xs) :
    b'.map.numResults = b.map.numResults ∧ b'.meaning rho = some xs := by
  have hreadable := ChainHolds.readable t rho
  have hcomposed := composeMap_meaning (ChainHolds.readable s rho) hreadable hk hcompose hquiet
    hgiven hreturned hfits hxs
  obtain ⟨hfinal, _⟩ := canonicalize_meaning
    (fun v hv k hc => hreadable.constant (hreturned v hv) hc) hcanon hfits' hcomposed
  refine ⟨?_, hfinal⟩
  rw [← Map.length_of_meaning hfinal, ← Map.length_of_meaning hxs]

/-- A sum of an argument and a constant, of another type than the index type, is folded into the map
`2 * s0`; a new cast of the argument takes its place. -/
theorem composed_map_meaning_cast :
    ∃ s t b', composeMap ⟨1⟩ 1 ⟨⟨0, 1, [.bin .mul (.symbol 0) (.const 2)]⟩, [⟨2⟩]⟩ [] s =
        .ok ((.ok b', [.inserted ⟨3⟩]), t) ∧
      canonicalize t b' = .ok b' ∧ b'.operands = [⟨3⟩] ∧
      b'.meaning (fun v => [5, 1, 6, 5].getD v.index 0) = some [12] := by
  let word : Ty := .mk "core" "i64" [] []
  let value : OpData := ⟨ArithKind.const.opName, [], [⟨1⟩], [word], [("value", .int 1)], [], [],
    some ⟨0⟩⟩
  let sum : OpData := ⟨ArithKind.add.opName, [⟨0⟩, ⟨1⟩], [⟨2⟩], [word], [], [], [], some ⟨0⟩⟩
  let function : OpData := ⟨funcName, [], [], [], [], [⟨0⟩], [], none⟩
  let cast : OpData := ⟨ArithKind.indexCast.opName, [⟨0⟩], [⟨3⟩], [.index], [], [], [], some ⟨0⟩⟩
  let values : Array ValueData :=
    #[⟨.argument ⟨0⟩ 0, word⟩, ⟨.result ⟨0⟩ 0, word⟩, ⟨.result ⟨1⟩ 0, word⟩]
  let s : Store :=
    { ops := #[value, sum, function]
      values := values
      blocks := #[⟨[⟨0⟩], [word], [⟨0⟩, ⟨1⟩], some ⟨0⟩⟩]
      regions := #[⟨[⟨0⟩], some ⟨2⟩⟩]
      uses := #[[⟨⟨1⟩, 0⟩], [⟨⟨1⟩, 1⟩]] }
  let t : Store :=
    { s with
      ops := #[value, sum, function, cast]
      values := values.push ⟨.result ⟨3⟩ 0, .index⟩
      blocks := #[⟨[⟨0⟩], [word], [⟨3⟩, ⟨0⟩, ⟨1⟩], some ⟨0⟩⟩]
      uses := #[[⟨⟨1⟩, 0⟩, ⟨⟨3⟩, 0⟩], [⟨⟨1⟩, 1⟩]] }
  have h : Reached Store.empty _ := .empty
  have h := h.step (.createBlock [word]) (by simp [Command.names]) (by cbv)
  have h := h.step (.createOp (constantSpec word 1)) (by simp [Command.names]) (by cbv)
  have h := h.step (.createOp (binarySpec .add ⟨0⟩ ⟨1⟩ word)) (by simp [Command.names]) (by cbv)
  have h := h.step (.pushOp ⟨0⟩ ⟨0⟩) (by simp [Command.names, Command.removes]) (by cbv)
  have h := h.step (.pushOp ⟨0⟩ ⟨1⟩) (by simp [Command.names, Command.removes]) (by cbv)
  have h := h.step (.createRegion [⟨0⟩]) (by simp [Command.names]) (by cbv)
  have h := h.step (t := s) (.createOp { name := funcName, regions := [⟨0⟩] })
    (by simp [Command.names]) (by cbv)
  let rho : Assignment := fun v => [5, 1, 6, 5].getD v.index 0
  let b : Binding := ⟨⟨0, 1, [.bin .mul (.symbol 0) (.const 2)]⟩, [⟨2⟩]⟩
  let b' : Binding := ⟨⟨0, 1, [.bin .add (.bin .mul (.symbol 0) (.const 2)) (.const 2)]⟩, [⟨3⟩]⟩
  let b₁ : Binding := { b' with operands := [⟨0⟩] }
  have hcompose : composeMap ⟨1⟩ 1 b [] s = .ok ((.ok b', [.inserted ⟨3⟩]), t) := by cbv
  have hoperands : composeOperands 0 0 Positions.empty b.operands [] s =
      .ok ((.ok ([.bin .add (.symbol 0) (.symbol 1)], ⟨[], [⟨0⟩, ⟨1⟩]⟩), []), s) := by cbv
  have hsteps : composeSteps 1 b [] s = .ok ((.ok b₁, []), s) := by cbv
  have hcanon : canonicalize t b' = .ok b' := by cbv
  -- the integers fit every definition
  have hargument : ArgHolds function 0 5 := fun m hm => by cases hm
  have hvalue : OpHolds rho value 1 := fun k hk => by cases hk; rfl
  have hsum : OpHolds rho sum 6 := ⟨⟨0⟩, ⟨1⟩, rfl, rfl⟩
  have hgiven : ∀ w, Satisfied s rho w := by
    rintro ⟨_ | _ | _ | n⟩
    · rintro o d ho hd
      cases ho
      cases hd
      exact hargument
    · rintro d hd
      cases hd
      exact hvalue
    · rintro d hd
      cases hd
      exact hsum
    · trivial
  have hreturned : ∀ w, Satisfied t rho w := by
    rintro ⟨_ | _ | _ | _ | n⟩
    · rintro o d ho hd
      cases ho
      cases hd
      exact hargument
    · rintro d hd
      cases hd
      exact hvalue
    · rintro d hd
      cases hd
      exact hsum
    · rintro d hd
      cases hd
      exact ⟨⟨0⟩, rfl, rfl⟩
    · trivial
  have hfits : MapFits 1 b [] s := by
    refine ⟨fun _ => ⟨⟨⟨by cbv, fun _ _ _ _ _ => trivial⟩, ?_⟩, fun _ _ _ _ _ => trivial⟩, ?_⟩
    · intro exprs p J' s' hrun
      cases hoperands.symm.trans hrun
      refine ⟨by decide, fun m hm => ?_⟩
      have hm' : b.map.substitute [] [.bin .add (.symbol 0) (.symbol 1)] 0 2 =
          .ok ⟨0, 2, [.bin .add (.bin .mul (.symbol 0) (.const 2))
            (.bin .mul (.symbol 1) (.const 2))]⟩ := by cbv
      cases hm'.symm.trans hm
      cbv
    · intro c J₁ s₁ hrun
      cases hsteps.symm.trans hrun
      decide
  exact ⟨s, t, b', hcompose, hcanon, rfl, (composed_map_meaning (Kept.of_reached h) hcompose hcanon
    rfl (fun v _ w _ => hgiven w) (fun v _ w _ => hreturned w) hfits (by cbv) (by cbv)).2⟩

end AffineRaising.Raise
