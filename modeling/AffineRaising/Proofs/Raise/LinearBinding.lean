/-
# AffineRaising.Proofs.Raise.LinearBinding — canonical forms of linear maps with their operands.

A linear map that is bound to operands computes, over 64-bit words, a function of the words that the
operands stand for, and canonicalizing it keeps that function (`canonicalize_linear`).  In canonical
form nothing is bound that the function does not depend on: an operand has a coefficient in some
result, and that can be told at the point where the operand is one and all others are zero
(`unitAt`).  So the canonical forms of one function bind the same operands to dimensions and the
same operands to symbols, and the order in which they list them is all that they can differ in
(`Canonical.reorders`).

A value that is bound to a dimension and to a symbol is two inputs of the function, unless it is a
symbol: dimensions that are symbols are made symbols on the way (`Agrees`).
-/
import AffineRaising.Proofs.Affine.LinearInstance
import AffineRaising.Proofs.Raise.CanonicalOperands

namespace AffineRaising.Raise

open AffineRaising.IR AffineRaising.IR.Store AffineRaising.Ops AffineRaising.Analysis
open AffineRaising.Affine (Expr Map)
open AffineRaising.Affine.Expr (ident unitValues)
open AffineRaising.Affine.Linear (ofExpr)

variable {s : Store} {b c c' next : Binding} {v w : ValueRef} {k k' isDim : Bool} {i : Nat}
  {rho : Bool → ValueRef → Int64} {p p' p₂ : Positions} {used : Nat → Bool} {vs : List ValueRef}
  {es : List Expr}

/-! ## Functions of operands -/

namespace Binding

/-- All results are linear. -/
def IsLinear (b : Binding) : Prop := ∀ e ∈ b.map.results, e.IsLinear

/-- What is bound to dimensions, or to symbols. -/
def bound (b : Binding) (isDim : Bool) : List ValueRef :=
  if isDim then b.operands.take b.map.numDims else b.operands.drop b.map.numDims

/-- The results over 64-bit words, where dimensions and symbols stand for the words of what is bound
to them. -/
def residue (b : Binding) (rho : Bool → ValueRef → Int64) : List Int64 :=
  b.map.results.map
    (·.residue ((b.bound true).map (rho true)) ((b.bound false).map (rho false)))

/-- Two bindings that can differ in the order of what they bind, and in nothing else. -/
structure Reorders (c c' : Binding) : Prop where
  perm : ∀ k, (c.bound k).Perm (c'.bound k)
  eq_iff : c = c' ↔ c.operands = c'.operands

end Binding

theorem Binding.mem_of_bound (hv : v ∈ b.bound k) : v ∈ b.operands := by
  cases k with
  | true => exact List.mem_of_mem_take hv
  | false => exact List.mem_of_mem_drop hv

/-- Words for values as dimensions and as symbols: a constant has its number, and a symbol has one
word. -/
structure Agrees (s : Store) (rho : Bool → ValueRef → Int64) : Prop where
  constant : ∀ v c, constantOf? s v = .ok (some c) → ∀ k, rho k v = c
  symbol : ∀ v, isSymbol s v = .ok true → rho true v = rho false v

/-! ## Simplified maps -/

section Simplified

variable {ops : List ValueRef}

theorem Binding.WellBound.simplify (hb : b.WellBound) (h : ops.length = b.operands.length) :
    (⟨b.map.simplify, ops⟩ : Binding).WellBound := by
  refine ⟨hb.inputs.trans h.symm, fun e he => ?_⟩
  obtain ⟨e₀, he₀, rfl⟩ := List.mem_map.1 he
  exact Expr.simplify_inRange (hb.inRange e₀ he₀)

theorem Binding.IsLinear.simplify (hlin : b.IsLinear) :
    (⟨b.map.simplify, ops⟩ : Binding).IsLinear := by
  intro e he
  obtain ⟨e₀, he₀, rfl⟩ := List.mem_map.1 he
  exact (hlin e₀ he₀).simplify

theorem Binding.IsLinear.residue_simplify (hlin : b.IsLinear) :
    (⟨b.map.simplify, ops⟩ : Binding).residue rho = (⟨b.map, ops⟩ : Binding).residue rho := by
  show (b.map.results.map Expr.simplify).map _ = b.map.results.map _
  rw [List.map_map]
  exact List.map_congr_left fun e he => Expr.simplify_residue (hlin e he)

end Simplified

/-! ## Rounds -/

/-- A residue over positions. -/
abbrev Positions.residue (rho : Bool → ValueRef → Int64) (p : Positions) (e : Expr) : Int64 :=
  e.residue (p.dims.map (rho true)) (p.symbols.map (rho false))

theorem getD_map_mono {l l' : List ValueRef} (h : l <+: l') (hv : l[i]? = some v)
    (f : ValueRef → Int64) : (l'.map f).getD i 0 = f v := by
  obtain ⟨more, rfl⟩ := h
  obtain ⟨hi, _⟩ := List.getElem?_eq_some_iff.1 hv
  rw [List.getD_eq_getElem?_getD, List.getElem?_map, List.getElem?_append_left hi, hv]
  rfl

theorem ReboundTo.residue {u : Bool} {e : Expr} (h : ReboundTo s isDim u p v e p')
    (ha : Agrees s rho) (hu : u = true) (hg : p'.Grows p₂) : p₂.residue rho e = rho isDim v := by
  cases h with
  | unused hunused => cases hunused.symm.trans hu
  | constant _ hc => exact (ha.constant v _ hc isDim).symm
  | symbol _ _ hs =>
    have hword : rho false v = rho isDim v := by
      cases isDim with
      | false => rfl
      | true => exact (ha.symbol v (hs rfl)).symm
    rw [← hword]
    exact getD_map_mono hg.2 (slot_spec p.symbols v).2.1 (rho false)
  | dim _ _ hdim =>
    subst hdim
    exact getD_map_mono hg.1 (slot_spec p.dims v).2.1 (rho true)

theorem ReboundAll.residue (h : ReboundAll s isDim used i p vs es p') (ha : Agrees s rho)
    (hg : p'.Grows p₂) : ∀ {n : Nat} {v : ValueRef}, used (i + n) = true → vs[n]? = some v →
      (es.map (p₂.residue rho)).getD n 0 = rho isDim v := by
  induction h with
  | nil => exact fun _ hv => by cases hv
  | @cons i p p₁ p' v vs e es hfirst hrest ih =>
    intro n w hu hw
    cases n with
    | zero =>
      cases hw
      exact hfirst.residue ha hu (hrest.grows.trans hg)
    | succ n =>
      rw [← Nat.add_assoc, Nat.add_right_comm] at hu
      exact ih hg hu hw

theorem ReboundAll.overIdentifiers (h : ReboundAll s isDim used i p vs es p') :
    ∀ e ∈ es, e.OverIdentifiers := by
  induction h with
  | nil => exact nofun
  | cons hfirst _ ih =>
    refine List.forall_mem_cons.2 ⟨?_, ih⟩
    cases hfirst with
    | unused => exact Expr.const_overIdentifiers 0
    | constant => exact Expr.const_overIdentifiers _
    | symbol => exact Expr.overIdentifiers_of_isIdentifier rfl
    | dim => exact Expr.overIdentifiers_of_isIdentifier rfl

/-- A round keeps a linear map linear, and what it computes. -/
theorem rebindOnce_linear (hb : b.WellBound) (hlin : b.IsLinear) (h : rebindOnce s b = .ok next) :
    next.IsLinear ∧ ∀ rho, Agrees s rho → next.residue rho = b.residue rho := by
  obtain ⟨symExprs, dimExprs, p, p', hround⟩ := rebindOnce_round h
  have hrelated := Map.substituteAll_related hround.results
  have hinstance : ∀ {e e' : Expr}, e.IsLinear → e.substitute dimExprs symExprs = .ok e' → _ :=
    fun he => Expr.substitute_linear hround.dims.overIdentifiers hround.symbols.overIdentifiers he
  constructor
  · intro e' he'
    obtain ⟨e, he, hsub⟩ := (mem_of_mapM_ok hround.results e').1 he'
    refine Expr.isLinear_of_settled ?_ (hinstance (hlin e he) hsub).1
    exact Expr.substitute_settled hround.dims.settled hround.symbols.settled hsub
  · intro rho ha
    have hdims : next.bound true = p'.dims := hround.take_operands
    have hsymbols : next.bound false = p'.symbols := hround.drop_operands
    rw [Binding.residue, hdims, hsymbols, Binding.residue]
    have hinputs : b.map.numDims + b.map.numSymbols = b.operands.length := hb.inputs
    have hresult : ∀ e ∈ b.map.results, ∀ e', e.substitute dimExprs symExprs = .ok e' →
        p'.residue rho e' = e.residue ((b.bound true).map (rho true))
          ((b.bound false).map (rho false)) := by
      intro e he e' hsub
      rw [Positions.residue, (hinstance (hlin e he) hsub).2]
      have hrange := hb.inRange e he
      refine Expr.residue_congr (fun i hi => ?_) fun j hj => ?_
      · have hlt : i < (b.operands.take b.map.numDims).length := by
          have := hrange.dim i hi
          rw [List.length_take]
          omega
        obtain ⟨v, hv⟩ : ∃ v, (b.bound true)[i]? = some v := ⟨_, List.getElem?_eq_getElem hlt⟩
        rw [hround.dims.residue ha (.refl p') (n := i) (by
          rw [Nat.zero_add]
          exact List.any_eq_true.2 ⟨e, he, hi⟩) hv]
        exact (getD_map_mono List.prefix_rfl hv (rho true)).symm
      · have hlt : j < (b.operands.drop b.map.numDims).length := by
          have := hrange.symbol j hj
          rw [List.length_drop]
          omega
        obtain ⟨v, hv⟩ : ∃ v, (b.bound false)[j]? = some v := ⟨_, List.getElem?_eq_getElem hlt⟩
        rw [hround.symbols.residue ha hround.dims.grows (n := j) (by
          rw [Nat.zero_add]
          exact List.any_eq_true.2 ⟨e, he, hj⟩) hv]
        exact (getD_map_mono List.prefix_rfl hv (rho false)).symm
    have hall : ∀ {es es' : List Expr},
        List.Forall₂ (fun e e' => e.substitute dimExprs symExprs = .ok e') es es' →
        (∀ e ∈ es, e ∈ b.map.results) → es'.map (p'.residue rho) =
          es.map (·.residue ((b.bound true).map (rho true)) ((b.bound false).map (rho false))) := by
      intro es es' h hmem
      induction h with
      | nil => rfl
      | cons hsub _ ih =>
        obtain ⟨he, hes⟩ := List.forall_mem_cons.1 hmem
        rw [List.map_cons, List.map_cons, ih hes, hresult _ he _ hsub]
    exact hall hrelated fun _ he => he

/-- Canonicalizing does. -/
theorem canonicalize_linear (hb : b.WellBound) (hlin : b.IsLinear) (h : canonicalize s b = .ok c) :
    c.IsLinear ∧ ∀ rho, Agrees s rho → c.residue rho = b.residue rho := by
  refine (rebindFuel_induct (P := fun next => next.WellBound ∧ next.IsLinear ∧
    ∀ rho, Agrees s rho → next.residue rho = b.residue rho) _ (fun hnext hkept => ?_) h
    ⟨hb, hlin, fun _ _ => rfl⟩).1.2
  obtain ⟨hbound, hlin, hsame⟩ := hkept
  obtain ⟨hlin', hsame'⟩ := rebindOnce_linear hbound hlin hnext
  obtain ⟨_, _, _, _, hround⟩ := rebindOnce_round hnext
  exact ⟨hround.rebound.toWellBound, hlin', fun rho ha => (hsame' rho ha).trans (hsame rho ha)⟩

/-! ## Points -/

/-- Constants have their numbers, and everything else is zero. -/
def originAt (s : Store) (v : ValueRef) : Int64 :=
  match constantOf? s v with
  | .ok (some c) => c
  | _ => 0

/-- One value is one, as a dimension or as a symbol, and in both places if it is a symbol; nothing
else differs from the origin. -/
def unitAt (s : Store) (k : Bool) (v : ValueRef) (k' : Bool) (w : ValueRef) : Int64 :=
  if w = v ∧ (k' = k ∨ isSymbol s v = .ok true) then 1 else originAt s w

theorem agrees_origin : Agrees s fun _ => originAt s :=
  ⟨fun v c hc _ => by rw [originAt, hc], fun _ _ => rfl⟩

theorem agrees_unit (hv : constantOf? s v = .ok none) : Agrees s (unitAt s k v) := by
  refine ⟨fun w c hc k' => ?_, fun w hw => ?_⟩
  · have hne : w ≠ v := by
      rintro rfl
      cases hc.symm.trans hv
    rw [unitAt, if_neg fun h => hne h.1, originAt, hc]
  · by_cases hwv : w = v
    · subst hwv
      rw [unitAt, unitAt, if_pos ⟨rfl, .inr hw⟩, if_pos ⟨rfl, .inr hw⟩]
    · rw [unitAt, unitAt, if_neg fun h => hwv h.1, if_neg fun h => hwv h.1]

namespace Canonical

variable (hc : Canonical s c)

include hc

theorem nodup_bound (k : Bool) : (c.bound k).Nodup := by
  cases k with
  | true => exact hc.distinctDims
  | false => exact hc.distinctSymbols

theorem length_bound : (c.bound true).length = c.map.numDims ∧
    (c.bound false).length = c.map.numSymbols := by
  have hinputs : c.map.numDims + c.map.numSymbols = c.operands.length := hc.inputs
  constructor
  · show (c.operands.take _).length = _
    rw [List.length_take]
    omega
  · show (c.operands.drop _).length = _
    rw [List.length_drop]
    omega

theorem origin_of_mem (hv : v ∈ c.bound k) : originAt s v = 0 := by
  rw [originAt, hc.noConstants v (c.mem_of_bound hv)]

/-- What is bound to a symbol and to a dimension is no symbol. -/
theorem kind_of_symbol (hv : v ∈ c.bound k) (hs : isSymbol s v = .ok true) : k = false := by
  cases k with
  | false => rfl
  | true => cases (hc.noSymbolDims v hv).symm.trans hs

theorem uses (hi : i < (c.bound k).length) :
    ∃ e ∈ c.map.results, e.usesIdent k i = true := by
  cases k with
  | true => exact List.any_eq_true.1 (hc.usesDims i (hc.length_bound.1 ▸ hi))
  | false => exact List.any_eq_true.1 (hc.usesSymbols i (hc.length_bound.2 ▸ hi))

/-- At the unit point of a bound value its identifier is one and all others are zero. -/
theorem bound_unit (hv : (c.bound k)[i]? = some v) (k' : Bool) :
    (c.bound k').map (unitAt s k v k') =
      unitValues (c.bound k').length (ident k') (ident k i) := by
  refine List.ext_getElem? fun j => ?_
  rw [unitValues, List.getElem?_map, List.getElem?_map]
  by_cases hj : j < (c.bound k').length
  · rw [List.getElem?_eq_getElem hj, List.getElem?_range hj, Option.map_some, Option.map_some]
    have hiff : ((c.bound k')[j] = v ∧ (k' = k ∨ isSymbol s v = .ok true)) ↔
        ident k' j = ident k i := by
      rw [Expr.ident_inj]
      constructor
      · rintro ⟨hw, hkind⟩
        have hmem : v ∈ c.bound k' := hw ▸ List.getElem_mem hj
        have hk : k' = k := hkind.elim id fun hs =>
          (hc.kind_of_symbol hmem hs).trans (hc.kind_of_symbol (List.mem_of_getElem? hv) hs).symm
        subst hk
        refine ⟨rfl, ?_⟩
        have hw' : (c.bound k')[j]? = some v := by rw [List.getElem?_eq_getElem hj, hw]
        exact (List.getElem?_inj hj (hc.nodup_bound k')).1 (hw'.trans hv.symm)
      · rintro ⟨rfl, rfl⟩
        rw [List.getElem?_eq_getElem hj] at hv
        exact ⟨Option.some.inj hv, .inl rfl⟩
    rw [unitAt, hc.origin_of_mem (List.getElem_mem hj)]
    simp only [hiff]
  · rw [List.getElem?_eq_none (Nat.le_of_not_lt hj), List.getElem?_eq_none (by simpa using hj)]
    rfl

theorem bound_origin (k : Bool) :
    (c.bound k).map (originAt s) = unitValues (c.bound k).length (ident k) (.const 0) := by
  refine List.ext_getElem? fun j => ?_
  rw [unitValues, List.getElem?_map, List.getElem?_map]
  by_cases hj : j < (c.bound k).length
  · rw [List.getElem?_eq_getElem hj, List.getElem?_range hj, Option.map_some, Option.map_some,
      hc.origin_of_mem (List.getElem_mem hj), if_neg (by cases k <;> simp [ident])]
  · rw [List.getElem?_eq_none (Nat.le_of_not_lt hj), List.getElem?_eq_none (by simpa using hj)]
    rfl

theorem settled {e : Expr} (he : e ∈ c.map.results) : e.Settled :=
  Expr.simplify_eq_self_iff.1 (hc.simplified e he)

theorem ident_inRange (k : Bool) (i : Nat) :
    (ident k i).InRange c.map.numDims c.map.numSymbols ↔ i < (c.bound k).length := by
  rw [Expr.ident_inRange]
  cases k with
  | true => rw [hc.length_bound.1]; rfl
  | false => rw [hc.length_bound.2]; rfl

variable (hlin : c.IsLinear)

include hlin

theorem overIdentifiers {e : Expr} (he : e ∈ c.map.results) : e.OverIdentifiers := by
  have hover := (hlin e he).overIdentifiers
  rwa [hc.simplified e he] at hover

theorem residue_unit (hv : (c.bound k)[i]? = some v) : c.residue (unitAt s k v) =
    c.map.results.map fun e => (ofExpr e).coefficient (some (ident k i)) +
      (ofExpr e).constant := by
  refine List.map_congr_left fun e he => ?_
  rw [hc.bound_unit hv true, hc.bound_unit hv false, hc.length_bound.1, hc.length_bound.2]
  exact Expr.residue_unit_point (hc.overIdentifiers hlin he)
    ((hc.ident_inRange k i).2 (List.getElem?_eq_some_iff.1 hv).1)

theorem residue_origin : c.residue (fun _ => originAt s) =
    c.map.results.map fun e => (ofExpr e).constant := by
  refine List.map_congr_left fun e he => ?_
  show e.residue ((c.bound true).map (originAt s)) ((c.bound false).map (originAt s)) = _
  rw [hc.bound_origin true, hc.bound_origin false]
  exact (Affine.Linear.ofExpr_residue e).symm.trans
    (Expr.linear_residue_origin (hc.overIdentifiers hlin he))

/-- Only identifiers with operands have coefficients. -/
theorem coefficient_eq_zero {e x : Expr} (he : e ∈ c.map.results)
    (hx : ∀ k i v, x = ident k i → (c.bound k)[i]? ≠ some v) :
    (ofExpr e).coefficient (some x) = 0 := by
  refine Affine.Linear.coefficientIn_eq_zero fun t ht heq => ?_
  obtain ⟨k, i, hident⟩ := Expr.exists_ident (hc.overIdentifiers hlin he t ht)
  have hrange := Expr.atoms_inRange (hc.inRange e he) t ht
  rw [hident, hc.ident_inRange] at hrange
  exact hx k i _ (heq ▸ hident) (List.getElem?_eq_getElem hrange)

end Canonical

section SameFunction

variable (hc : Canonical s c) (hc' : Canonical s c') (hlin : c.IsLinear) (hlin' : c'.IsLinear)
  (hsame : ∀ rho, Agrees s rho → c.residue rho = c'.residue rho)

include hc hc' hlin hsame

/-- A value that one canonical form binds is bound by every canonical form of the same function. -/
theorem Canonical.mem_of_residue (hv : v ∈ c.bound k) : v ∈ c'.bound k := by
  by_contra hne
  obtain ⟨i, hi⟩ := List.mem_iff_getElem?.1 hv
  have hconst := hc.noConstants v (c.mem_of_bound hv)
  -- the other form does not tell the unit point of the value from the origin
  have hforgets : c'.residue (unitAt s k v) = c'.residue fun _ => originAt s := by
    have hbound : ∀ k', (c'.bound k').map (unitAt s k v k') = (c'.bound k').map (originAt s) := by
      intro k'
      refine List.map_congr_left fun w hw => if_neg ?_
      rintro ⟨rfl, rfl | hs⟩
      · exact hne hw
      · rw [hc'.kind_of_symbol hw hs, ← hc.kind_of_symbol hv hs] at hw
        exact hne hw
    rw [Binding.residue, hbound, hbound]
    rfl
  rw [← hsame _ (agrees_unit hconst), ← hsame _ agrees_origin, hc.residue_unit hlin hi,
    hc.residue_origin hlin] at hforgets
  obtain ⟨e, he, huses⟩ := hc.uses (List.getElem?_eq_some_iff.1 hi).1
  have hzero := List.map_inj_left.1 hforgets e he
  refine Expr.coefficient_ne_zero_of_uses (hc.settled he) (hc.overIdentifiers hlin he) huses ?_
  grind

include hlin'

/-- Canonical forms of one linear function that bind the same operands are the same. -/
theorem Canonical.results_of_residue (hbound : ∀ k, c.bound k = c'.bound k) :
    c.map.results = c'.map.results := by
  have hconstants := hsame _ agrees_origin
  rw [hc.residue_origin hlin, hc'.residue_origin hlin'] at hconstants
  refine List.ext_getElem (by simpa using congrArg List.length hconstants) fun n hn hn' => ?_
  have he := List.getElem_mem hn
  have he' := List.getElem_mem hn'
  have hconstant : (ofExpr c.map.results[n]).constant = (ofExpr c'.map.results[n]).constant := by
    simpa [hn, hn'] using congrArg (·[n]?) hconstants
  refine Expr.eq_of_coefficient (hc.settled he) (hc'.settled he') fun x => ?_
  cases x with
  | none => exact hconstant
  | some x =>
    by_cases hx : ∃ k i v, x = ident k i ∧ (c.bound k)[i]? = some v
    · obtain ⟨k, i, v, rfl, hv⟩ := hx
      have hunit := hsame _ (agrees_unit (k := k)
        (hc.noConstants v (c.mem_of_bound (List.mem_of_getElem? hv))))
      rw [hc.residue_unit hlin hv, hc'.residue_unit hlin' (hbound k ▸ hv)] at hunit
      have hsum := congrArg (·[n]?) hunit
      simp only [List.getElem?_map, List.getElem?_eq_getElem hn, List.getElem?_eq_getElem hn',
        Option.map_some, Option.some.injEq, hconstant] at hsum
      grind
    · -- an identifier without an operand has no coefficient in either form
      have hx' : ∀ k i v, x = ident k i → (c.bound k)[i]? ≠ some v := fun k i v hident hv =>
        hx ⟨k, i, v, hident, hv⟩
      rw [hc.coefficient_eq_zero hlin he hx',
        hc'.coefficient_eq_zero hlin' he' fun k => hbound k ▸ hx' k]

/-- Canonical forms of one linear function bind the same values, and are equal if they list them in
the same order. -/
theorem Canonical.reorders : c.Reorders c' := by
  have hperm : ∀ k, (c.bound k).Perm (c'.bound k) := fun k =>
    (List.perm_ext_iff_of_nodup (hc.nodup_bound k) (hc'.nodup_bound k)).2 fun _ =>
      ⟨hc.mem_of_residue hc' hlin hsame,
        hc'.mem_of_residue hc hlin' fun rho ha => (hsame rho ha).symm⟩
  refine ⟨hperm, congrArg _, fun hoperands => ?_⟩
  have hdims : c.map.numDims = c'.map.numDims := by
    rw [← hc.length_bound.1, ← hc'.length_bound.1]
    exact (hperm true).length_eq
  have hsymbols : c.map.numSymbols = c'.map.numSymbols := by
    rw [← hc.length_bound.2, ← hc'.length_bound.2]
    exact (hperm false).length_eq
  have hbound : ∀ k, c.bound k = c'.bound k := fun k => by
    cases k <;> simp only [Binding.bound, hoperands, hdims]
  have hmap : c.map = c'.map := by
    rw [Map.mk.injEq]
    exact ⟨hdims, hsymbols, hc.results_of_residue hc' hlin hlin' hsame hbound⟩
  rw [Binding.mk.injEq]
  exact ⟨hmap, hoperands⟩

end SameFunction

end AffineRaising.Raise
