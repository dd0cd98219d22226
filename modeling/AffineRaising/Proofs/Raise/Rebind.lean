/-
# AffineRaising.Proofs.Raise.Rebind — renumbering operands keeps the value of a map.

Positions only grow at their ends, so an expression keeps its value while more values are bound.
Canonicalizing a map replaces what is not used by zero, what is constant by its number and the rest
by positions of the same values: `canonicalize_meaning`.

The number of a value is given by an assignment (`Assignment`), and `Positions.Reads` says of an
expression that it has the number of a value where every position has that of its own.  One round
replaces each operand by an expression that reads as the operand does (`Binds`, `BindsList`), so a
map reads the same afterwards (`rebindOnce_meaning`); rounds are repeated until nothing changes.
All this is over the integers, and holds where no word wraps (`canonicalizeFits`).
-/
import AffineRaising.Proofs.Raise.Chain

namespace AffineRaising.Raise

open AffineRaising.IR AffineRaising.Ops
open AffineRaising.Affine (Expr Map)

variable {s : Store} {rho : Assignment} {P : ValueRef → Prop} {p p₁ p₂ : Positions}

/-! ## Positions -/

namespace Positions

/-- Everything that is bound stays where it is. -/
def Grows (p p' : Positions) : Prop := p.dims <+: p'.dims ∧ p.symbols <+: p'.symbols

/-- Only values that satisfy `P` are bound. -/
def All (P : ValueRef → Prop) (p : Positions) : Prop := ∀ v ∈ p.operands, P v

/-- The expression has value `x` where every position has the number of its value. -/
def Reads (rho : Assignment) (p : Positions) (e : Expr) (x : Int) : Prop :=
  e.meaning (p.dims.map rho) (p.symbols.map rho) = some x

theorem Grows.refl (p : Positions) : p.Grows p := ⟨List.prefix_rfl, List.prefix_rfl⟩

theorem Grows.trans (h : p.Grows p₁) (h' : p₁.Grows p₂) : p.Grows p₂ :=
  ⟨h.1.trans h'.1, h.2.trans h'.2⟩

theorem Reads.mono {e : Expr} {x : Int} (h : p.Reads rho e x) (hg : p.Grows p₁) :
    p₁.Reads rho e x :=
  Expr.meaning_mono (hg.1.map rho) (hg.2.map rho) h

end Positions

/-- Expression `e` was bound for value `v`; if it is used, it has the number of `v`. -/
structure Binds (rho : Assignment) (P : ValueRef → Prop) (used : Bool) (v : ValueRef)
    (p : Positions) (e : Expr) (p' : Positions) : Prop where
  grows : p.Grows p'
  all : p.All P → p'.All P
  reads : used = true → p'.Reads rho e (rho v)

/-- Expressions were bound for values in order; `used` tells by position which ones are used. -/
structure BindsList (rho : Assignment) (P : ValueRef → Prop) (used : Nat → Bool)
    (vs : List ValueRef) (p : Positions) (es : List Expr) (p' : Positions) : Prop where
  grows : p.Grows p'
  all : p.All P → p'.All P
  reads : ∀ (k : Nat) (e : Expr) (v : ValueRef), used k = true → es[k]? = some e →
    vs[k]? = some v → p'.Reads rho e (rho v)

theorem BindsList.nil (used : Nat → Bool) : BindsList rho P used [] p [] p :=
  ⟨.refl p, id, by simp⟩

/-- The first value is bound, and then the others. -/
theorem BindsList.cons {used : Nat → Bool} {v : ValueRef} {vs : List ValueRef} {e : Expr}
    {es : List Expr} (h : Binds rho P (used 0) v p e p₁)
    (hrest : BindsList rho P (fun k => used (k + 1)) vs p₁ es p₂) :
    BindsList rho P used (v :: vs) p (e :: es) p₂ := by
  refine ⟨h.grows.trans hrest.grows, fun hp => hrest.all (h.all hp), ?_⟩
  intro k e' v' hk he hv
  cases k with
  | zero =>
    cases he
    cases hv
    exact (h.reads hk).mono hrest.grows
  | succ k => exact hrest.reads k e' v' hk he hv

/-- Expressions that read as the values do can be substituted for positions. -/
theorem BindsList.replaces {used : Nat → Bool} {vs : List ValueRef} {es : List Expr}
    (h : BindsList rho P used vs p es p₁) (hg : p₁.Grows p₂) :
    Expr.Replaces (p₂.dims.map rho) (p₂.symbols.map rho) used es (vs.map rho) := by
  intro i e x hi he hx
  rw [List.getElem?_map] at hx
  obtain ⟨v, hv, rfl⟩ := Option.map_eq_some_iff.1 hx
  exact (h.reads i e v hi he hv).mono hg

/-- A value is at its place afterwards, and nothing else was added. -/
theorem slot_spec (list : List ValueRef) (v : ValueRef) :
    list <+: (slot list v).2 ∧ (slot list v).2[(slot list v).1]? = some v ∧
      ∀ w ∈ (slot list v).2, w ∈ list ∨ w = v := by
  unfold slot
  cases hi : list.idxOf? v with
  | some i =>
    obtain ⟨hlt, hget, _⟩ := List.idxOf?_eq_some_iff.1 hi
    exact ⟨List.prefix_rfl, by rw [List.getElem?_eq_getElem hlt, hget], fun w hw => .inl hw⟩
  | none =>
    refine ⟨List.prefix_append _ _, by simp, fun w hw => ?_⟩
    simpa using hw

/-- A dimension position reads as its value. -/
theorem Positions.dim_binds (p : Positions) {v : ValueRef} (hv : P v) (used : Bool) :
    Binds rho P used v p (p.dim v).1 (p.dim v).2 := by
  obtain ⟨hgrows, hget, hmem⟩ := slot_spec p.dims v
  refine ⟨⟨hgrows, List.prefix_rfl⟩, fun hp w hw => ?_, fun _ => ?_⟩
  · rcases List.mem_append.1 hw with hw | hw
    · rcases hmem w hw with hw | rfl
      · exact hp w (List.mem_append_left _ hw)
      · exact hv
    · exact hp w (List.mem_append_right _ hw)
  · show ((slot p.dims v).2.map rho)[(slot p.dims v).1]? = _
    rw [List.getElem?_map, hget]
    rfl

/-- A symbol position reads as its value. -/
theorem Positions.symbol_binds (p : Positions) {v : ValueRef} (hv : P v) (used : Bool) :
    Binds rho P used v p (p.symbol v).1 (p.symbol v).2 := by
  obtain ⟨hgrows, hget, hmem⟩ := slot_spec p.symbols v
  refine ⟨⟨List.prefix_rfl, hgrows⟩, fun hp w hw => ?_, fun _ => ?_⟩
  · rcases List.mem_append.1 hw with hw | hw
    · exact hp w (List.mem_append_left _ hw)
    · rcases hmem w hw with hw | rfl
      · exact hp w (List.mem_append_right _ hw)
      · exact hv
  · show ((slot p.symbols v).2.map rho)[(slot p.symbols v).1]? = _
    rw [List.getElem?_map, hget]
    rfl

/-- An expression without identifiers binds nothing. -/
theorem binds_const {used : Bool} {v : ValueRef} {c : Int64} (h : used = true → rho v = c.toInt) :
    Binds rho P used v p (.const c) p :=
  ⟨.refl p, id, fun hu => by rw [h hu]; rfl⟩

/-! ## Rounds -/

/-- What an assignment must know of constants. -/
def KnowsConstant (s : Store) (rho : Assignment) (v : ValueRef) : Prop :=
  ∀ c, constantOf? s v = .ok (some c) → rho v = c.toInt

/-- A symbol becomes zero, its number, or a position that reads as it does. -/
theorem rebindSymbol_binds {used : Bool} {v : ValueRef} {e : Expr} (hv : P v)
    (hc : KnowsConstant s rho v) (h : rebindSymbol s used p v = .ok (e, p₁)) :
    Binds rho P used v p e p₁ := by
  unfold rebindSymbol at h
  cases used with
  | false =>
    cases h
    exact binds_const (by simp)
  | true =>
    simp only [Bool.not_true, Bool.false_eq_true, if_false, except_bind_ok] at h
    obtain ⟨c?, hc?, h⟩ := h
    cases c? with
    | some c =>
      cases h
      exact binds_const fun _ => hc c hc?
    | none =>
      cases h
      exact p.symbol_binds hv true

/-- A dimension becomes zero, its number, or a position that reads as it does. -/
theorem rebindDim_binds {used : Bool} {v : ValueRef} {e : Expr} (hv : P v)
    (hc : KnowsConstant s rho v) (h : rebindDim s used p v = .ok (e, p₁)) :
    Binds rho P used v p e p₁ := by
  unfold rebindDim at h
  cases used with
  | false =>
    cases h
    exact binds_const (by simp)
  | true =>
    simp only [Bool.not_true, Bool.false_eq_true, if_false, except_bind_ok] at h
    obtain ⟨c?, hc?, h⟩ := h
    cases c? with
    | some c =>
      cases h
      exact binds_const fun _ => hc c hc?
    | none =>
      simp only [except_bind_ok] at h
      obtain ⟨sym, _, h⟩ := h
      cases sym with
      | true =>
        cases h
        exact p.symbol_binds hv true
      | false =>
        cases h
        exact p.dim_binds hv true

/-- A list of operands is bound value by value. -/
theorem rebindList_binds
    {rebind : Nat → Positions → ValueRef → Except Fault (Expr × Positions)} (used : Nat → Bool)
    (hstep : ∀ i p v e p', P v → rebind i p v = .ok (e, p') → Binds rho P (used i) v p e p') :
    ∀ {vs : List ValueRef} {i : Nat} {p p' : Positions} {es : List Expr}, (∀ v ∈ vs, P v) →
      rebindList rebind i p vs = .ok (es, p') →
      BindsList rho P (fun k => used (i + k)) vs p es p' := by
  intro vs
  induction vs with
  | nil =>
    intro i p p' es _ h
    cases h
    exact .nil _
  | cons v vs ih =>
    intro i p p' es hP h
    simp only [rebindList, except_bind_ok] at h
    obtain ⟨⟨e, p₁⟩, hfirst, ⟨es', p₂⟩, hrest, h⟩ := h
    cases h
    refine .cons (hstep i p v e p₁ (hP v List.mem_cons_self) hfirst) ?_
    have hcons := ih (fun w hw => hP w (List.mem_cons_of_mem v hw)) hrest
    have hshift : (fun k => used (i + 1 + k)) = fun k => used (i + (k + 1)) := by
      funext k
      rw [Nat.add_assoc, Nat.add_comm 1 k]
    rw [hshift] at hcons
    exact hcons

/-- The results of the map at the numbers of its operands. -/
def Binding.meaning (rho : Assignment) (b : Binding) : Option (List Int) :=
  b.map.meaning ((b.operands.take b.map.numDims).map rho) ((b.operands.drop b.map.numDims).map rho)

/-- A map over positions, bound to their values, reads as the positions do. -/
theorem Binding.meaning_positions {m : Map} (hdims : m.numDims = p.dims.length) :
    Binding.meaning rho ⟨m, p.operands⟩ = m.meaning (p.dims.map rho) (p.symbols.map rho) := by
  rw [Binding.meaning, hdims, Positions.operands, List.take_left, List.drop_left]

/-- Whether a round of rebinding stays in the word range. -/
def rebindFits (s : Store) (b : Binding) : Except Fault Bool := do
  let (symExprs, p) ← rebindList (fun j => rebindSymbol s (b.map.usesSymbol j)) 0 Positions.empty
    (b.operands.drop b.map.numDims)
  let (dimExprs, _) ← rebindList (fun i => rebindDim s (b.map.usesDim i)) 0 p
    (b.operands.take b.map.numDims)
  return b.map.results.all (·.substituteFits dimExprs symExprs)

theorem liftAffine_ok {α : Type} {x : Except Affine.DomainError α} {a : α} :
    liftAffine x = .ok a ↔ x = .ok a := by
  cases x <;> simp [liftAffine]

/-- One round keeps the value of a map and binds nothing new. -/
theorem rebindOnce_meaning {b next : Binding} {vs : List Int}
    (hc : ∀ v ∈ b.operands, KnowsConstant s rho v) (h : rebindOnce s b = .ok next)
    (hfits : rebindFits s b = .ok true) (hvs : b.meaning rho = some vs) :
    next.meaning rho = some vs ∧ ∀ v ∈ next.operands, v ∈ b.operands := by
  simp only [rebindOnce, except_bind_ok] at h
  obtain ⟨⟨symExprs, p⟩, hsyms, ⟨dimExprs, p'⟩, hdims, m, hm, h⟩ := h
  cases h
  have hfits : ∀ e ∈ b.map.results, e.substituteFits dimExprs symExprs = true := by
    simp only [rebindFits, except_bind_ok] at hfits
    obtain ⟨⟨symExprs', p₁⟩, hsyms', ⟨dimExprs', p₂⟩, hdims', hall⟩ := hfits
    cases hsyms.symm.trans hsyms'
    cases hdims.symm.trans hdims'
    simpa using hall
  have hdrop : ∀ v ∈ b.operands.drop b.map.numDims, v ∈ b.operands := fun v => List.mem_of_mem_drop
  have htake : ∀ v ∈ b.operands.take b.map.numDims, v ∈ b.operands := fun v => List.mem_of_mem_take
  have hbs := rebindList_binds b.map.usesSymbol
    (fun _ _ v _ _ hv hrun => rebindSymbol_binds hv (hc v hv) hrun) hdrop hsyms
  have hbd := rebindList_binds b.map.usesDim
    (fun _ _ v _ _ hv hrun => rebindDim_binds hv (hc v hv) hrun) htake hdims
  simp only [Nat.zero_add] at hbs hbd
  have hm := liftAffine_ok.1 hm
  refine ⟨?_, ?_⟩
  · rw [Binding.meaning_positions (Map.substitute_numDims hm)]
    exact Map.substitute_meaning (hbd.replaces (.refl p')) (hbs.replaces hbd.grows) hm hfits hvs
  · refine hbd.all (hbs.all ?_)
    intro v hv
    cases hv

/-! ## Canonical form -/

/-- Whether all rounds stay in the word range. -/
def rebindFuelFits (s : Store) : Nat → Binding → Except Fault Bool
  | 0, _ => throw .cyclic
  | fuel + 1, b => do
    if !(← rebindFits s b) then return false
    let next ← rebindOnce s b
    if next = b then return true else rebindFuelFits s fuel next

/-- Whether canonicalizing stays in the word range. -/
def canonicalizeFits (s : Store) (b : Binding) : Except Fault Bool :=
  rebindFuelFits s (2 * b.operands.length + 8) b

/-- Any number of rounds does. -/
theorem rebindFuel_meaning (n : Nat) : ∀ {b b' : Binding} {vs : List Int},
    (∀ v ∈ b.operands, KnowsConstant s rho v) → rebindFuel s n b = .ok b' →
    rebindFuelFits s n b = .ok true → b.meaning rho = some vs →
    b'.meaning rho = some vs ∧ ∀ v ∈ b'.operands, v ∈ b.operands := by
  induction n with
  | zero =>
    intro b b' vs _ h
    cases h
  | succ n ih =>
    intro b b' vs hc h hfits hvs
    simp only [rebindFuel, except_bind_ok] at h
    obtain ⟨next, hnext, h⟩ := h
    simp only [rebindFuelFits, except_bind_ok] at hfits
    obtain ⟨fits, hround, hfits⟩ := hfits
    cases fits with
    | false => simp at hfits
    | true =>
      simp only [Bool.not_true, Bool.false_eq_true, if_false, except_bind_ok] at hfits
      obtain ⟨next', hnext', hfits⟩ := hfits
      cases hnext.symm.trans hnext'
      obtain ⟨hmean, hmem⟩ := rebindOnce_meaning hc hnext hround hvs
      split at h
      · cases h
        exact ⟨hmean, hmem⟩
      · rename_i hne
        rw [if_neg hne] at hfits
        obtain ⟨hmean', hmem'⟩ := ih (fun v hv => hc v (hmem v hv)) h hfits hmean
        exact ⟨hmean', fun v hv => hmem v (hmem' v hv)⟩

/-- Canonicalizing keeps the value of a map, and binds it to some of the operands it had. -/
theorem canonicalize_meaning {b b' : Binding} {vs : List Int}
    (hc : ∀ v ∈ b.operands, KnowsConstant s rho v) (h : canonicalize s b = .ok b')
    (hfits : canonicalizeFits s b = .ok true) (hvs : b.meaning rho = some vs) :
    b'.meaning rho = some vs ∧ ∀ v ∈ b'.operands, v ∈ b.operands :=
  rebindFuel_meaning _ hc h hfits hvs

end AffineRaising.Raise
