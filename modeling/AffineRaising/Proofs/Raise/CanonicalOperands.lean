/-
# AffineRaising.Proofs.Raise.CanonicalOperands — canonicalizing operands ends in canonical form.

A round binds every operand that is used, none of them twice, without constants and with symbols in
symbol positions, and writes the results canonically.  A round over such a binding drops an operand
if one is not used, and else changes nothing.  So the bindings that a round leaves alone are the
canonical ones (`rebindOnce_eq_self_iff`), and canonicalizing comes to one of them, in fewer rounds
than it is given.
-/
import AffineRaising.Proofs.Affine.Instance
import AffineRaising.Proofs.Raise.Answers
import AffineRaising.Proofs.Raise.Rebind

namespace AffineRaising.Raise

open AffineRaising.IR AffineRaising.IR.Store AffineRaising.Ops AffineRaising.Analysis
open AffineRaising.Affine (Expr Map)

variable {s : Store} {isDim used : Bool} {p p' p₁ p₂ : Positions} {v w : ValueRef} {e : Expr}
  {b b' next : Binding}

/-! ## Rebinding single operands -/

/-- What an operand can be rebound to: an expression, and the positions after it is bound. -/
inductive ReboundTo (s : Store) (isDim used : Bool) (p : Positions) (v : ValueRef) :
    Expr → Positions → Prop where
  | unused (hu : used = false) : ReboundTo s isDim used p v (.const 0) p
  | constant (hu : used = true) {c : Int64} (hc : constantOf? s v = .ok (some c)) :
    ReboundTo s isDim used p v (.const c) p
  | symbol (hu : used = true) (hc : constantOf? s v = .ok none)
    (hs : isDim = true → isSymbol s v = .ok true) :
    ReboundTo s isDim used p v (p.symbol v).1 (p.symbol v).2
  | dim (hu : used = true) (hc : constantOf? s v = .ok none) (hdim : isDim = true)
    (hs : isSymbol s v = .ok false) :
    ReboundTo s isDim used p v (p.dim v).1 (p.dim v).2

theorem rebindSymbol_ok (h : rebindSymbol s used p v = .ok (e, p')) :
    ReboundTo s false used p v e p' := by
  cases used with
  | false =>
    cases h
    exact .unused rfl
  | true =>
    simp only [rebindSymbol, Bool.not_true, Bool.false_eq_true, if_false, except_bind_ok] at h
    obtain ⟨c?, hc, h⟩ := h
    cases c? with
    | some c =>
      cases h
      exact .constant rfl hc
    | none =>
      cases h
      exact .symbol rfl hc nofun

theorem rebindDim_ok (h : rebindDim s used p v = .ok (e, p')) : ReboundTo s true used p v e p' := by
  cases used with
  | false =>
    cases h
    exact .unused rfl
  | true =>
    simp only [rebindDim, Bool.not_true, Bool.false_eq_true, if_false, except_bind_ok] at h
    obtain ⟨c?, hc, h⟩ := h
    cases c? with
    | some c =>
      cases h
      exact .constant rfl hc
    | none =>
      simp only [except_bind_ok] at h
      obtain ⟨sym, hs, h⟩ := h
      cases sym with
      | true =>
        cases h
        exact .symbol rfl hc fun _ => hs
      | false =>
        cases h
        exact .dim rfl hc rfl hs

theorem slot_nodup {list : List ValueRef} (h : list.Nodup) (v : ValueRef) :
    (slot list v).2.Nodup := by
  unfold slot
  cases hi : list.idxOf? v with
  | some i => exact h
  | none =>
    have hnew : v ∉ list := List.idxOf?_eq_none_iff.1 hi
    exact List.nodup_append.2 ⟨h, List.nodup_singleton v, fun a ha b hb heq =>
      hnew (List.mem_singleton.1 hb ▸ heq ▸ ha)⟩

theorem slot_lt (list : List ValueRef) (v : ValueRef) :
    (slot list v).1 < (slot list v).2.length := by
  obtain ⟨_, hget, _⟩ := slot_spec list v
  exact (List.getElem?_eq_some_iff.1 hget).1

theorem slot_length (list : List ValueRef) (v : ValueRef) :
    (slot list v).2.length ≤ list.length + 1 := by
  unfold slot
  cases list.idxOf? v with
  | some i => exact Nat.le_succ _
  | none => exact Nat.le_of_eq List.length_append

theorem slot_fresh {list : List ValueRef} (h : v ∉ list) :
    slot list v = (list.length, list ++ [v]) := by
  rw [slot, List.idxOf?_eq_none_iff.2 h]

/-- No value is bound twice in one kind of position, no constant is bound, and no symbol to a
dimension. -/
structure Positions.Distinct (s : Store) (p : Positions) : Prop where
  dims : p.dims.Nodup
  symbols : p.symbols.Nodup
  noConstants : ∀ v ∈ p.operands, constantOf? s v = .ok none
  noSymbolDims : ∀ v ∈ p.dims, isSymbol s v = .ok false

theorem Positions.Distinct.empty : Positions.empty.Distinct s :=
  ⟨List.nodup_nil, List.nodup_nil, nofun, nofun⟩

namespace ReboundTo

variable (h : ReboundTo s isDim used p v e p')

include h

theorem grows : p.Grows p' := by
  cases h with
  | unused => exact .refl p
  | constant => exact .refl p
  | symbol => exact ⟨List.prefix_rfl, (slot_spec p.symbols v).1⟩
  | dim => exact ⟨(slot_spec p.dims v).1, List.prefix_rfl⟩

theorem settled : e.Settled := by
  cases h <;> trivial

theorem inRange : e.InRange p'.dims.length p'.symbols.length := by
  cases h with
  | unused => exact Expr.inRange_const 0
  | constant => exact Expr.inRange_const _
  | symbol => exact Expr.inRange_symbol.2 (slot_lt p.symbols v)
  | dim => exact Expr.inRange_dim.2 (slot_lt p.dims v)

theorem mem_dims (hw : w ∈ p'.dims) : w ∈ p.dims ∨ w = v ∧ isDim = true := by
  cases h with
  | unused => exact .inl hw
  | constant => exact .inl hw
  | symbol => exact .inl hw
  | dim _ _ hdim => exact ((slot_spec p.dims v).2.2 w hw).imp_right fun heq => ⟨heq, hdim⟩

theorem mem_symbols (hw : w ∈ p'.symbols) :
    w ∈ p.symbols ∨ w = v ∧ (isDim = true → isSymbol s w = .ok true) := by
  cases h with
  | unused => exact .inl hw
  | constant => exact .inl hw
  | symbol _ _ hs =>
    refine ((slot_spec p.symbols v).2.2 w hw).imp_right ?_
    rintro rfl
    exact ⟨rfl, hs⟩
  | dim => exact .inl hw

/-- At most one value is bound, and none for an operand that is not used. -/
theorem length_le : p'.operands.length ≤ p.operands.length + used.toNat := by
  cases h with
  | unused => exact Nat.le_add_right _ _
  | constant => exact Nat.le_add_right _ _
  | symbol hu =>
    have hslot := slot_length p.symbols v
    subst hu
    simp only [Positions.symbol, Positions.operands, List.length_append, Bool.toNat_true]
    omega
  | dim hu =>
    have hslot := slot_length p.dims v
    subst hu
    simp only [Positions.dim, Positions.operands, List.length_append, Bool.toNat_true]
    omega

theorem distinct (hp : p.Distinct s) : p'.Distinct s := by
  cases h with
  | unused => exact hp
  | constant => exact hp
  | symbol _ hc =>
    refine ⟨hp.dims, slot_nodup hp.symbols v, fun w hw => ?_, hp.noSymbolDims⟩
    rcases List.mem_append.1 hw with hw | hw
    · exact hp.noConstants w (List.mem_append_left _ hw)
    · rcases (slot_spec p.symbols v).2.2 w hw with hw | rfl
      · exact hp.noConstants w (List.mem_append_right _ hw)
      · exact hc
  | dim _ hc _ hs =>
    refine ⟨slot_nodup hp.dims v, hp.symbols, fun w hw => ?_, fun w hw => ?_⟩
    · rcases List.mem_append.1 hw with hw | hw
      · rcases (slot_spec p.dims v).2.2 w hw with hw | rfl
        · exact hp.noConstants w (List.mem_append_left _ hw)
        · exact hc
      · exact hp.noConstants w (List.mem_append_right _ hw)
    · rcases (slot_spec p.dims v).2.2 w hw with hw | rfl
      · exact hp.noSymbolDims w hw
      · exact hs

end ReboundTo

/-! ## Rebinding lists -/

/-- What operands can be rebound to in order; the number is the position of the first one. -/
inductive ReboundAll (s : Store) (isDim : Bool) (used : Nat → Bool) :
    Nat → Positions → List ValueRef → List Expr → Positions → Prop where
  | nil {i : Nat} {p : Positions} : ReboundAll s isDim used i p [] [] p
  | cons {i : Nat} {p p₁ p₂ : Positions} {v : ValueRef} {vs : List ValueRef} {e : Expr}
    {es : List Expr} (hfirst : ReboundTo s isDim (used i) p v e p₁)
    (hrest : ReboundAll s isDim used (i + 1) p₁ vs es p₂) :
    ReboundAll s isDim used i p (v :: vs) (e :: es) p₂

section List

variable {uses : Nat → Bool} {i : Nat} {vs : List ValueRef} {es : List Expr}
  {rebind : Nat → Positions → ValueRef → Except Fault (Expr × Positions)}

theorem rebindList_ok
    (hstep : ∀ i p v e p', rebind i p v = .ok (e, p') → ReboundTo s isDim (uses i) p v e p') :
    ∀ {vs : List ValueRef} {i : Nat} {p p' : Positions} {es : List Expr},
      rebindList rebind i p vs = .ok (es, p') → ReboundAll s isDim uses i p vs es p' := by
  intro vs
  induction vs with
  | nil =>
    intro i p p' es h
    cases h
    exact .nil
  | cons v vs ih =>
    intro i p p' es h
    simp only [rebindList, except_bind_ok] at h
    obtain ⟨⟨e, p₁⟩, hfirst, ⟨es', p₂⟩, hrest, h⟩ := h
    cases h
    exact .cons (hstep i p v e p₁ hfirst) (ih hrest)

theorem rebindList_symbols
    (h : rebindList (fun j => rebindSymbol s (uses j)) i p vs = .ok (es, p')) :
    ReboundAll s false uses i p vs es p' := by
  refine rebindList_ok (fun j p v e p' hrun => ?_) h
  exact rebindSymbol_ok hrun

theorem rebindList_dims (h : rebindList (fun j => rebindDim s (uses j)) i p vs = .ok (es, p')) :
    ReboundAll s true uses i p vs es p' := by
  refine rebindList_ok (fun j p v e p' hrun => ?_) h
  exact rebindDim_ok hrun

theorem rebindList_answers {vs : List ValueRef} (h : ∀ i p, ∀ v ∈ vs, Answers (rebind i p v)) :
    ∀ i p, Answers (rebindList rebind i p vs) := by
  induction vs with
  | nil => exact fun _ _ => .pure _
  | cons v vs ih =>
    intro i p
    refine (h i p v List.mem_cons_self).bind fun _ _ => ?_
    refine (ih (fun i p w hw => h i p w (List.mem_cons_of_mem v hw)) _ _).bind fun _ _ => .pure _

namespace ReboundAll

variable (h : ReboundAll s isDim uses i p vs es p')

include h

theorem length_eq : es.length = vs.length := by
  induction h with
  | nil => rfl
  | cons _ _ ih => exact congrArg (· + 1) ih

theorem grows : p.Grows p' := by
  induction h with
  | nil => exact .refl _
  | cons hfirst _ ih => exact hfirst.grows.trans ih

theorem settled : ∀ e ∈ es, e.Settled := by
  induction h with
  | nil => exact nofun
  | cons hfirst _ ih => exact List.forall_mem_cons.2 ⟨hfirst.settled, ih⟩

theorem inRange : ∀ e ∈ es, e.InRange p'.dims.length p'.symbols.length := by
  induction h with
  | nil => exact nofun
  | cons hfirst hrest ih =>
    have hgrows := hrest.grows
    exact List.forall_mem_cons.2
      ⟨Expr.inRange_mono hfirst.inRange hgrows.1.length_le hgrows.2.length_le, ih⟩

theorem distinct : p.Distinct s → p'.Distinct s := by
  induction h with
  | nil => exact id
  | cons hfirst _ ih => exact fun hp => ih (hfirst.distinct hp)

theorem mem_dims (hw : w ∈ p'.dims) : w ∈ p.dims ∨ w ∈ vs ∧ isDim = true := by
  induction h with
  | nil => exact .inl hw
  | cons hfirst _ ih =>
    rcases ih hw with hw | ⟨hw, hdim⟩
    · rcases hfirst.mem_dims hw with hw | ⟨rfl, hdim⟩
      · exact .inl hw
      · exact .inr ⟨List.mem_cons_self, hdim⟩
    · exact .inr ⟨List.mem_cons_of_mem _ hw, hdim⟩

theorem mem_symbols (hw : w ∈ p'.symbols) :
    w ∈ p.symbols ∨ w ∈ vs ∧ (isDim = true → isSymbol s w = .ok true) := by
  induction h with
  | nil => exact .inl hw
  | cons hfirst _ ih =>
    rcases ih hw with hw | ⟨hw, hs⟩
    · rcases hfirst.mem_symbols hw with hw | ⟨rfl, hs⟩
      · exact .inl hw
      · exact .inr ⟨List.mem_cons_self, hs⟩
    · exact .inr ⟨List.mem_cons_of_mem _ hw, hs⟩

theorem length_le : p'.operands.length ≤ p.operands.length + vs.length := by
  induction h with
  | nil => exact Nat.le_refl _
  | @cons i _ _ _ _ _ _ _ hfirst _ ih =>
    have hle := hfirst.length_le
    have hone := Bool.toNat_le (uses i)
    rw [List.length_cons]
    omega

/-- As many values are bound as there are operands only if every operand is used. -/
theorem uses_of_length (hlength : p.operands.length + vs.length ≤ p'.operands.length) :
    ∀ k < vs.length, uses (i + k) = true := by
  induction h with
  | nil => exact fun k hk => absurd hk (Nat.not_lt_zero k)
  | @cons i p p₁ p₂ v vs e es hfirst hrest ih =>
    have hle := hfirst.length_le
    have hone := Bool.toNat_le (uses i)
    have hrestle := hrest.length_le
    rw [List.length_cons] at hlength
    intro k hk
    cases k with
    | zero =>
      refine Bool.eq_true_of_not_eq_false fun hunused => ?_
      rw [show uses i = false from hunused, Bool.toNat_false] at hle
      omega
    | succ k =>
      have hshift : i + (k + 1) = i + 1 + k := by omega
      rw [hshift]
      exact ih (by omega) k (Nat.lt_of_succ_lt_succ hk)

end ReboundAll

/-- Operands that are bound to new positions one after the other are bound to themselves. -/
theorem rebindList_fresh {position : Nat → Expr} (bound : List ValueRef → Positions)
    {all : List ValueRef} (hnodup : all.Nodup)
    (hstep : ∀ done v rest, all = done ++ v :: rest → v ∉ done →
      rebind done.length (bound done) v = .ok (position done.length, bound (done ++ [v]))) :
    ∀ vs done : List ValueRef, all = done ++ vs →
      rebindList rebind done.length (bound done) vs =
        .ok ((List.range' done.length vs.length).map position, bound all) := by
  intro vs
  induction vs with
  | nil =>
    intro done hall
    rw [hall, List.append_nil]
    rfl
  | cons v vs ih =>
    intro done hall
    have hfresh : v ∉ done := fun hv =>
      (List.nodup_append.1 (hall ▸ hnodup)).2.2 v hv v List.mem_cons_self rfl
    have hrest := ih (done ++ [v]) (by rw [hall, List.append_assoc]; rfl)
    rw [List.length_append] at hrest
    rw [rebindList, hstep done v vs hall hfresh]
    show (rebindList rebind (done.length + 1) (bound (done ++ [v])) vs >>= _) = _
    rw [show done.length + 1 = done.length + [v].length from rfl, hrest]
    rfl

end List

/-! ## Rounds -/

/-- A map is bound to as many operands as it takes, and its results use only what it binds. -/
structure Binding.WellBound (b : Binding) : Prop where
  inputs : b.map.numInputs = b.operands.length
  inRange : ∀ e ∈ b.map.results, e.InRange b.map.numDims b.map.numSymbols

/-- The form that a round gives to a binding: every operand is bound once in its kind of position,
none is constant, no symbol is bound to a dimension, and the results are written canonically. -/
structure Rebound (s : Store) (b : Binding) : Prop extends b.WellBound where
  distinctDims : (b.operands.take b.map.numDims).Nodup
  distinctSymbols : (b.operands.drop b.map.numDims).Nodup
  noConstants : ∀ v ∈ b.operands, constantOf? s v = .ok none
  noSymbolDims : ∀ v ∈ b.operands.take b.map.numDims, isSymbol s v = .ok false
  simplified : ∀ e ∈ b.map.results, e.simplify = e

/-- The canonical form: every operand is used as well. -/
structure Canonical (s : Store) (b : Binding) : Prop extends Rebound s b where
  usesDims : ∀ i < b.map.numDims, b.map.usesDim i = true
  usesSymbols : ∀ j < b.map.numSymbols, b.map.usesSymbol j = true

/-- What a round is made of: the expressions for symbols and for dimensions, the positions after
the symbols and after all, and the new results. -/
structure Round (s : Store) (b next : Binding) (symExprs dimExprs : List Expr)
    (p p' : Positions) : Prop where
  symbols : ReboundAll s false b.map.usesSymbol 0 Positions.empty (b.operands.drop b.map.numDims)
    symExprs p
  dims : ReboundAll s true b.map.usesDim 0 p (b.operands.take b.map.numDims) dimExprs p'
  results : b.map.results.mapM (·.substitute dimExprs symExprs) = .ok next.map.results
  numDims : next.map.numDims = p'.dims.length
  numSymbols : next.map.numSymbols = p'.symbols.length
  operands : next.operands = p'.operands

theorem rebindOnce_round (h : rebindOnce s b = .ok next) :
    ∃ symExprs dimExprs p p', Round s b next symExprs dimExprs p p' := by
  simp only [rebindOnce, except_bind_ok, liftAffine_ok, Map.substitute] at h
  obtain ⟨⟨symExprs, p⟩, hsyms, ⟨dimExprs, p'⟩, hdims, m, ⟨results, hresults, hm⟩, h⟩ := h
  cases h
  cases hm
  refine ⟨symExprs, dimExprs, p, p', ?_, ?_, hresults, rfl, rfl, rfl⟩
  · exact rebindList_symbols hsyms
  · exact rebindList_dims hdims

namespace Round

variable {symExprs dimExprs : List Expr} (h : Round s b next symExprs dimExprs p p')

include h

theorem take_operands : next.operands.take next.map.numDims = p'.dims := by
  rw [h.operands, h.numDims, Positions.operands, List.take_left]

theorem drop_operands : next.operands.drop next.map.numDims = p'.symbols := by
  rw [h.operands, h.numDims, Positions.operands, List.drop_left]

theorem rebound : Rebound s next := by
  have hdistinct := h.dims.distinct (h.symbols.distinct .empty)
  have hrange : ∀ e ∈ symExprs, e.InRange p'.dims.length p'.symbols.length := fun e he =>
    Expr.inRange_mono (h.symbols.inRange e he) h.dims.grows.1.length_le h.dims.grows.2.length_le
  refine { inputs := ?_, inRange := ?_, distinctDims := ?_, distinctSymbols := ?_,
           noConstants := ?_, noSymbolDims := ?_, simplified := ?_ }
  · rw [Map.numInputs, h.numDims, h.numSymbols, h.operands, Positions.operands, List.length_append]
  · intro e he
    obtain ⟨e₀, _, he₀⟩ := (mem_of_mapM_ok h.results e).1 he
    rw [h.numDims, h.numSymbols]
    exact Expr.substitute_inRange h.dims.inRange hrange he₀
  · rw [h.take_operands]
    exact hdistinct.dims
  · rw [h.drop_operands]
    exact hdistinct.symbols
  · rw [h.operands]
    exact hdistinct.noConstants
  · rw [h.take_operands]
    exact hdistinct.noSymbolDims
  · intro e he
    obtain ⟨e₀, _, he₀⟩ := (mem_of_mapM_ok h.results e).1 he
    exact Expr.simplify_of_settled (Expr.substitute_settled h.dims.settled h.symbols.settled he₀)

/-- A round binds no more values than there were, and fewer if one was not used. -/
theorem length_le : next.operands.length ≤ b.operands.length := by
  have hsymbols := h.symbols.length_le
  have hdims := h.dims.length_le
  rw [h.operands]
  rw [List.length_drop] at hsymbols
  rw [List.length_take] at hdims
  have hempty : Positions.empty.operands.length = 0 := rfl
  omega

theorem uses_of_length (hb : b.WellBound) (hlength : next.operands.length = b.operands.length) :
    (∀ i < b.map.numDims, b.map.usesDim i = true) ∧
      ∀ j < b.map.numSymbols, b.map.usesSymbol j = true := by
  have hsymbols := h.symbols.length_le
  have hdims := h.dims.length_le
  have hempty : Positions.empty.operands.length = 0 := rfl
  have hinputs : b.map.numDims + b.map.numSymbols = b.operands.length := hb.inputs
  rw [h.operands] at hlength
  rw [List.length_drop] at hsymbols
  rw [List.length_take] at hdims
  constructor
  · intro i hi
    have huses := h.dims.uses_of_length (by rw [List.length_take]; omega) i
      (by rw [List.length_take]; omega)
    rwa [Nat.zero_add] at huses
  · intro j hj
    have huses := h.symbols.uses_of_length (by rw [List.length_drop]; omega) j
      (by rw [List.length_drop]; omega)
    rwa [Nat.zero_add] at huses

/-- Dimensions were dimensions, and symbols were symbols or dimensions that are symbols. -/
theorem mem_take (hv : v ∈ next.operands.take next.map.numDims) :
    v ∈ b.operands.take b.map.numDims := by
  rw [h.take_operands] at hv
  rcases h.dims.mem_dims hv with hv | ⟨hv, _⟩
  · rcases h.symbols.mem_dims hv with hv | ⟨_, hdim⟩
    · cases hv
    · cases hdim
  · exact hv

theorem mem_drop (hv : v ∈ next.operands.drop next.map.numDims) :
    v ∈ b.operands.drop b.map.numDims ∨
      v ∈ b.operands.take b.map.numDims ∧ isSymbol s v = .ok true := by
  rw [h.drop_operands] at hv
  rcases h.dims.mem_symbols hv with hv | ⟨hv, hs⟩
  · rcases h.symbols.mem_symbols hv with hv | ⟨hv, _⟩
    · cases hv
    · exact .inl hv
  · exact .inr ⟨hv, hs rfl⟩

theorem mem_operands (hv : v ∈ next.operands) : v ∈ b.operands := by
  rw [← List.take_append_drop next.map.numDims next.operands] at hv
  rcases List.mem_append.1 hv with hv | hv
  · exact List.mem_of_mem_take (h.mem_take hv)
  · rcases h.mem_drop hv with hv | ⟨hv, _⟩
    · exact List.mem_of_mem_drop hv
    · exact List.mem_of_mem_take hv

end Round

namespace Canonical

variable (h : Canonical s b)

include h

theorem rebindSymbols : rebindList (fun j => rebindSymbol s (b.map.usesSymbol j)) 0
    Positions.empty (b.operands.drop b.map.numDims) =
      .ok (Expr.ownSymbols b.map.numSymbols, ⟨[], b.operands.drop b.map.numDims⟩) := by
  have hlength : (b.operands.drop b.map.numDims).length = b.map.numSymbols := by
    have hinputs : b.map.numDims + b.map.numSymbols = b.operands.length := h.inputs
    rw [List.length_drop]
    omega
  rw [Expr.ownSymbols, List.range_eq_range', ← hlength]
  refine rebindList_fresh (fun vs => ⟨[], vs⟩) h.distinctSymbols ?_ _ [] rfl
  intro done v rest hall hv
  have hmem : v ∈ b.operands.drop b.map.numDims := by simp [hall]
  have hused : b.map.usesSymbol done.length = true := by
    refine h.usesSymbols _ ?_
    rw [← hlength, hall, List.length_append, List.length_cons]
    omega
  rw [hused, rebindSymbol, h.noConstants v (List.mem_of_mem_drop hmem)]
  exact congrArg Except.ok (Prod.ext (by rw [Positions.symbol, slot_fresh hv])
    (by rw [Positions.symbol, slot_fresh hv]))

theorem rebindDims : rebindList (fun i => rebindDim s (b.map.usesDim i)) 0
    ⟨[], b.operands.drop b.map.numDims⟩ (b.operands.take b.map.numDims) =
      .ok (Expr.ownDims b.map.numDims,
        ⟨b.operands.take b.map.numDims, b.operands.drop b.map.numDims⟩) := by
  have hlength : (b.operands.take b.map.numDims).length = b.map.numDims := by
    have hinputs : b.map.numDims + b.map.numSymbols = b.operands.length := h.inputs
    rw [List.length_take]
    omega
  have hown : Expr.ownDims b.map.numDims =
      (List.range' 0 (b.operands.take b.map.numDims).length).map .dim := by
    rw [hlength, Expr.ownDims, List.range_eq_range']
  rw [hown]
  refine rebindList_fresh (fun vs => ⟨vs, b.operands.drop b.map.numDims⟩) h.distinctDims ?_ _ []
    rfl
  intro done v rest hall hv
  have hmem : v ∈ b.operands.take b.map.numDims := by simp [hall]
  have hused : b.map.usesDim done.length = true := by
    refine h.usesDims _ ?_
    rw [← hlength, hall, List.length_append, List.length_cons]
    omega
  rw [hused, rebindDim, h.noConstants v (List.mem_of_mem_take hmem), h.noSymbolDims v hmem]
  exact congrArg Except.ok (Prod.ext (by rw [Positions.dim, slot_fresh hv])
    (by rw [Positions.dim, slot_fresh hv]))

/-- A round leaves a canonical binding alone. -/
theorem rebindOnce : rebindOnce s b = .ok b := by
  have hinputs : b.map.numDims + b.map.numSymbols = b.operands.length := h.inputs
  have hresults : b.map.results.mapM
      (·.substitute (Expr.ownDims b.map.numDims) (Expr.ownSymbols b.map.numSymbols)) =
        .ok b.map.results :=
    Expr.substituteAll_own fun e he =>
      ⟨h.inRange e he, Expr.simplify_eq_self_iff.1 (h.simplified e he)⟩
  have hdims : (b.operands.take b.map.numDims).length = b.map.numDims := by
    rw [List.length_take]
    omega
  have hsymbols : (b.operands.drop b.map.numDims).length = b.map.numSymbols := by
    rw [List.length_drop]
    omega
  simp only [Raise.rebindOnce, except_bind_ok, liftAffine_ok, Map.substitute]
  refine ⟨_, h.rebindSymbols, _, h.rebindDims, b.map, ⟨b.map.results, hresults, ?_⟩, ?_⟩
  · rw [hdims, hsymbols]
    rfl
  · rw [Positions.operands, List.take_append_drop]
    rfl

end Canonical

/-- The bindings that a round leaves alone are the canonical ones. -/
theorem rebindOnce_eq_self_iff : rebindOnce s b = .ok b ↔ Canonical s b := by
  refine ⟨fun h => ?_, fun h => h.rebindOnce⟩
  obtain ⟨symExprs, dimExprs, p, p', hround⟩ := rebindOnce_round h
  obtain ⟨hdims, hsymbols⟩ := hround.uses_of_length hround.rebound.toWellBound rfl
  exact { hround.rebound with usesDims := hdims, usesSymbols := hsymbols }

/-- A round over a binding that a round has made drops an operand or changes nothing. -/
theorem Rebound.shrinks (hb : Rebound s b) (h : rebindOnce s b = .ok next) (hne : next ≠ b) :
    next.operands.length < b.operands.length := by
  obtain ⟨symExprs, dimExprs, p, p', hround⟩ := rebindOnce_round h
  refine Nat.lt_of_le_of_ne hround.length_le fun hlength => hne ?_
  obtain ⟨hdims, hsymbols⟩ := hround.uses_of_length hb.toWellBound hlength
  have hsame := rebindOnce_eq_self_iff.2 { hb with usesDims := hdims, usesSymbols := hsymbols }
  exact Except.ok.inj (h.symm.trans hsame)

/-! ## Rounds until nothing moves -/

/-- It is known of every operand whether it is constant and whether it is a symbol. -/
def Classified (s : Store) (b : Binding) : Prop :=
  ∀ v ∈ b.operands, Answers (constantOf? s v) ∧ Answers (isSymbol s v)

theorem rebindOnce_answers (hb : b.WellBound) (hknown : Classified s b) :
    Answers (rebindOnce s b) := by
  have hsymbols : ∀ i p, Answers (rebindList (fun j => rebindSymbol s (b.map.usesSymbol j)) i p
      (b.operands.drop b.map.numDims)) := by
    refine rebindList_answers fun j p v hv => .ite (fun _ => .pure _) fun _ => ?_
    obtain ⟨hconstant, _⟩ := hknown v (List.mem_of_mem_drop hv)
    exact hconstant.bind fun c? _ => by cases c? <;> exact .pure _
  have hdims : ∀ i p, Answers (rebindList (fun i => rebindDim s (b.map.usesDim i)) i p
      (b.operands.take b.map.numDims)) := by
    refine rebindList_answers fun i p v hv => .ite (fun _ => .pure _) fun _ => ?_
    obtain ⟨hconstant, hsymbol⟩ := hknown v (List.mem_of_mem_take hv)
    refine hconstant.bind fun c? _ => ?_
    cases c? with
    | some c => exact .pure _
    | none => exact hsymbol.bind fun _ _ => .ite (fun _ => .pure _) fun _ => .pure _
  have hinputs : b.map.numDims + b.map.numSymbols = b.operands.length := hb.inputs
  refine (hsymbols 0 Positions.empty).bind fun ⟨symExprs, p⟩ hsyms => ?_
  refine (hdims 0 p).bind fun ⟨dimExprs, p'⟩ hdims => ?_
  have hlengths : dimExprs.length = b.map.numDims ∧ symExprs.length = b.map.numSymbols := by
    rw [(rebindList_dims hdims).length_eq, (rebindList_symbols hsyms).length_eq, List.length_take,
      List.length_drop]
    omega
  obtain ⟨results, hresults⟩ : ∃ results,
      b.map.results.mapM (·.substitute dimExprs symExprs) = .ok results := by
    refine mapM_total fun e he => Expr.exists_substitute ?_
    rw [hlengths.1, hlengths.2]
    exact hb.inRange e he
  refine Answers.bind ⟨⟨p'.dims.length, p'.symbols.length, results⟩, ?_⟩ fun _ _ => .pure _
  simp only [Map.substitute, hresults]
  rfl

theorem Classified.round {symExprs dimExprs : List Expr} (hknown : Classified s b)
    (h : Round s b next symExprs dimExprs p p') : Classified s next :=
  fun v hv => hknown v (h.mem_operands hv)

/-- Rounds come to an end after as many as there are operands, and one more. -/
theorem rebindFuel_answers (n : Nat) : ∀ {b : Binding}, Rebound s b → Classified s b →
    b.operands.length < n → Answers (rebindFuel s n b) := by
  induction n with
  | zero => exact fun _ _ hn => absurd hn (Nat.not_lt_zero _)
  | succ n ih =>
    intro b hb hknown hn
    refine (rebindOnce_answers hb.toWellBound hknown).bind fun next hnext => ?_
    refine .ite (fun _ => .pure _) fun hne => ?_
    obtain ⟨symExprs, dimExprs, p, p', hround⟩ := rebindOnce_round hnext
    have hshrinks := hb.shrinks hnext hne
    exact ih hround.rebound (hknown.round hround) (by omega)

theorem canonicalize_answers (hb : b.WellBound) (hknown : Classified s b) :
    Answers (canonicalize s b) := by
  refine (rebindOnce_answers hb hknown).bind fun next hnext => ?_
  refine .ite (fun _ => .pure _) fun _ => ?_
  obtain ⟨symExprs, dimExprs, p, p', hround⟩ := rebindOnce_round hnext
  have hlength := hround.length_le
  exact rebindFuel_answers _ hround.rebound (hknown.round hround) (by omega)

/-- What every round keeps holds of what rounds come to, and a round leaves that alone. -/
theorem rebindFuel_induct {P : Binding → Prop} (n : Nat)
    (hround : ∀ {b next}, rebindOnce s b = .ok next → P b → P next) :
    ∀ {b b' : Binding}, rebindFuel s n b = .ok b' → P b → P b' ∧ rebindOnce s b' = .ok b' := by
  induction n with
  | zero =>
    intro b b' h
    cases h
  | succ n ih =>
    intro b b' h hb
    simp only [rebindFuel, except_bind_ok] at h
    obtain ⟨next, hnext, h⟩ := h
    split at h
    · cases h
      rename_i hsame
      subst hsame
      exact ⟨hb, hnext⟩
    · exact ih h (hround hnext hb)

theorem canonicalize_canonical (h : canonicalize s b = .ok b') : Canonical s b' :=
  rebindOnce_eq_self_iff.1 (rebindFuel_induct (P := fun _ => True) _ (fun _ _ => trivial) h
    trivial).2

theorem Canonical.canonicalize (h : Canonical s b) : canonicalize s b = .ok b := by
  simp only [Raise.canonicalize, rebindFuel, except_bind_ok]
  exact ⟨b, h.rebindOnce, if_pos rfl⟩

theorem canonicalize_numResults (h : canonicalize s b = .ok b') :
    b'.map.numResults = b.map.numResults := by
  refine (rebindFuel_induct (P := fun c => c.map.numResults = b.map.numResults) _
    (fun hnext hb => ?_) h rfl).1
  obtain ⟨symExprs, dimExprs, p, p', hround⟩ := rebindOnce_round hnext
  exact (Map.substituteAll_related hround.results).length_eq.symm.trans hb

/-! ## Contexts -/

/-- Where definitions are acyclic, every value that is there can be classified. -/
theorem classified_of_acyclic (hl : Linked s) (hg : Grounded s)
    (hacyclic : ∀ o, ¬ Relation.TransGen (ComputesWith s) o o)
    (hoperands : ∀ v ∈ b.operands, ∃ e, s.value? v = some e) : Classified s b := by
  intro v hv
  obtain ⟨e, he⟩ := hoperands v hv
  have hdescends := descending_of_acyclic hacyclic
  refine ⟨constantOf?_answers hl he,
    isSymbol_answers hl hg (fun o d w _ hd hw => hdescends.operand_lt hd hw)
      (Nat.lt_succ_self s.ops.size) he ?_⟩
  unfold valueRank
  split
  · exact card_metFrom_le s _ _
  · exact Nat.zero_le _

/-! ## Sets -/

namespace SetBinding

variable {c : SetBinding} {new : Binding}

theorem toBinding_withBinding (h : new.map.numResults = c.set.constraints.length) :
    (c.withBinding new).toBinding = new := by
  have hexprs : ∀ (cs : List Affine.Constraint) (es : List Expr), es.length = cs.length →
      (List.zipWith (fun c e => { c with expr := e }) cs es).map (·.expr) = es := by
    intro cs
    induction cs with
    | nil => exact fun es hes => (List.length_eq_zero_iff.1 hes).symm
    | cons c cs ih =>
      intro es hes
      cases es with
      | nil => cases hes
      | cons e es => exact congrArg _ (ih es (Nat.succ.inj hes))
  show Binding.mk ⟨_, _, _⟩ _ = new
  exact congrArg (fun es => Binding.mk ⟨new.map.numDims, new.map.numSymbols, es⟩ new.operands)
    (hexprs _ _ h)

/-- Putting in new expressions keeps the relations of all constraints. -/
theorem equationFlags_withBinding (h : new.map.numResults = c.set.constraints.length) :
    (c.withBinding new).set.equationFlags = c.set.equationFlags := by
  have hflags : ∀ (cs : List Affine.Constraint) (es : List Expr), es.length = cs.length →
      (List.zipWith (fun c e => { c with expr := e }) cs es).map
        (fun c => decide (c.relation = .equal)) = cs.map fun c => decide (c.relation = .equal) := by
    intro cs
    induction cs with
    | nil => exact fun _ _ => rfl
    | cons c cs ih =>
      intro es hes
      cases es with
      | nil => cases hes
      | cons e es => exact congrArg (_ :: ·) (ih es (Nat.succ.inj hes))
  exact hflags _ _ h

/-- Expressions that are put in once more replace those that were put in before, if these were
enough. -/
theorem zipWith_expr_zipWith (cs : List Affine.Constraint) : ∀ {es es' : List Expr},
    es.length ≤ es'.length ∨ cs.length ≤ es'.length →
    List.zipWith (fun c e => { c with expr := e })
      (List.zipWith (fun c e => { c with expr := e }) cs es') es =
      List.zipWith (fun c e => { c with expr := e }) cs es := by
  induction cs with
  | nil => exact fun _ => rfl
  | cons c cs ih =>
    intro es es' h
    cases es with
    | nil => cases es' <;> rfl
    | cons e es =>
      cases es' with
      | nil => simp at h
      | cons e' es' => exact congrArg _ (ih (by simpa using h))

theorem withBinding_withBinding : (c.withBinding new).withBinding new = c.withBinding new :=
  congrArg (fun cs => SetBinding.mk ⟨new.map.numDims, new.map.numSymbols, cs⟩ new.operands)
    (zipWith_expr_zipWith _ (.inl le_rfl))

end SetBinding

/-- Where definitions are acyclic, canonicalizing comes to an end for every map and every set that
is bound to as many operands as it takes and uses only what it binds.  The result is bound in
canonical form: to as many operands as it takes, each of them used, none of them twice in one kind
of position, none of them constant and no symbol among the dimensions, with results that
simplification leaves alone.  It has as many results as before, or constraints with the same
relations, and canonicalizing it again changes nothing. -/
theorem canonicalization_ends_canonical (hl : Linked s) (hg : Grounded s)
    (hacyclic : ∀ o, ¬ Relation.TransGen (ComputesWith s) o o) :
    (∀ b : Binding, b.WellBound → (∀ v ∈ b.operands, ∃ e, s.value? v = some e) →
      ∃ b', canonicalize s b = .ok b' ∧ Canonical s b' ∧ b'.map.numResults = b.map.numResults ∧
        canonicalize s b' = .ok b') ∧
    ∀ c : SetBinding, c.toBinding.WellBound → (∀ v ∈ c.operands, ∃ e, s.value? v = some e) →
      ∃ c', canonicalizeSet s c = .ok c' ∧ Canonical s c'.toBinding ∧
        c'.set.equationFlags = c.set.equationFlags ∧ canonicalizeSet s c' = .ok c' := by
  have hmap : ∀ b : Binding, b.WellBound → (∀ v ∈ b.operands, ∃ e, s.value? v = some e) →
      ∃ b', canonicalize s b = .ok b' ∧ Canonical s b' ∧ b'.map.numResults = b.map.numResults ∧
        canonicalize s b' = .ok b' := by
    intro b hb hoperands
    obtain ⟨b', hb'⟩ := canonicalize_answers hb (classified_of_acyclic hl hg hacyclic hoperands)
    have hcanonical := canonicalize_canonical hb'
    exact ⟨b', hb', hcanonical, canonicalize_numResults hb', hcanonical.canonicalize⟩
  refine ⟨hmap, fun c hc hoperands => ?_⟩
  obtain ⟨b', hb', hcanonical, hresults, hagain⟩ := hmap c.toBinding hc hoperands
  have hlength : b'.map.numResults = c.set.constraints.length :=
    hresults.trans (List.length_map _)
  have hback := SetBinding.toBinding_withBinding hlength
  refine ⟨c.withBinding b', ?_, by rwa [hback], SetBinding.equationFlags_withBinding hlength, ?_⟩
  · rw [canonicalizeSet, hb']
    rfl
  · rw [canonicalizeSet, hback, hagain]
    exact congrArg Except.ok SetBinding.withBinding_withBinding

/-- `(d0 + 2·d1 - s0 + 2·d2 + d3 - s2, s1 floordiv 2 + d0)`, all four dimensions and three symbols
of which are used. -/
def mixedMap : Map :=
  let minus (l r : Expr) : Expr := .bin .add l (.bin .mul r (.const (-1)))
  let double (e : Expr) : Expr := .bin .mul e (.const 2)
  ⟨4, 3,
    [minus (.bin .add (.bin .add (minus (.bin .add (.dim 0) (double (.dim 1))) (.symbol 0))
        (double (.dim 2))) (.dim 3)) (.symbol 2),
      .bin .add (.bin .floorDiv (.symbol 1) (.const 2)) (.dim 0)]⟩

/-- A loop over `i`, with a constant in it, in a function of `a` and `b`: `i`, `a`, the constant and
`b` are bound to dimensions, and all but `i` to symbols too. -/
theorem mixed_operands_rebound :
    let constant := Surface.Op.mk ⟨["k"], "arith", "const", none, [], [], [], none,
      [("value", .int 4)], [.index]⟩ []
    let tree := Surface.Op.program [⟨"a", .index⟩, ⟨"b", .index⟩]
      [.loop [constant], .plain returnName [] [] [] []]
    let results : List Expr := [.bin .add (.bin .add (.dim 0) (.symbol 0)) (.const 8),
      .bin .add (.dim 0) (.const 2)]
    ∃ root scope s, tree.oneBlock = true ∧
      buildOp Scope.empty tree Store.empty = .ok (.ok (root, scope), s) ∧ s.values.size = 4 ∧
      canonicalize s ⟨mixedMap, [⟨2⟩, ⟨0⟩, ⟨3⟩, ⟨1⟩, ⟨0⟩, ⟨3⟩, ⟨1⟩]⟩ =
        .ok ⟨⟨1, 1, results⟩, [⟨2⟩, ⟨0⟩]⟩ :=
  ⟨_, _, _, by cbv, by cbv, by cbv, by cbv⟩

theorem canonicalization_ends_canonical_mixed :
    let results : List Expr := [.bin .add (.bin .add (.dim 0) (.symbol 0)) (.const 8),
      .bin .add (.dim 0) (.const 2)]
    ∃ s, canonicalize s ⟨mixedMap, [⟨2⟩, ⟨0⟩, ⟨3⟩, ⟨1⟩, ⟨0⟩, ⟨3⟩, ⟨1⟩]⟩ =
        .ok ⟨⟨1, 1, results⟩, [⟨2⟩, ⟨0⟩]⟩ ∧
      Canonical s ⟨⟨1, 1, results⟩, [⟨2⟩, ⟨0⟩]⟩ ∧
      canonicalize s ⟨⟨1, 1, results⟩, [⟨2⟩, ⟨0⟩]⟩ = .ok ⟨⟨1, 1, results⟩, [⟨2⟩, ⟨0⟩]⟩ := by
  obtain ⟨root, scope, s, hone, hbuild, hsize, hrun⟩ := mixed_operands_rebound
  have hkept := kept_of_read hbuild
  have hacyclic : AcyclicDefinitions s := .of_sees hkept.linked (acyclic_of_read hbuild)
    fun x d v hx hv => sees_of_read hbuild hone hx hv
  have hwell : Binding.WellBound ⟨mixedMap, [⟨2⟩, ⟨0⟩, ⟨3⟩, ⟨1⟩, ⟨0⟩, ⟨3⟩, ⟨1⟩]⟩ :=
    ⟨rfl, by simp [mixedMap, Expr.inRange_bin, Expr.inRange_dim, Expr.inRange_symbol,
      Expr.inRange_const]⟩
  have hvalue : ∀ v : ValueRef, v.index < 4 → ∃ e, s.value? v = some e := fun v hv =>
    ⟨_, Array.getElem?_eq_getElem (hsize ▸ hv)⟩
  obtain ⟨hmap, _⟩ := canonicalization_ends_canonical hkept.linked (grounded_of_read hbuild)
    hacyclic.computesWith
  obtain ⟨b', hb', hcanonical, _, hagain⟩ := hmap _ hwell fun v hv => hvalue v (by
    simp only [List.mem_cons, List.not_mem_nil, or_false] at hv
    rcases hv with rfl | rfl | rfl | rfl | rfl | rfl | rfl <;> decide)
  obtain rfl := Except.ok.inj (hrun.symm.trans hb')
  exact ⟨s, hrun, hcanonical, hagain⟩

end AffineRaising.Raise
