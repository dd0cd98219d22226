/-
# AffineRaising.Proofs.Surface.CanonicalText — canonical expressions are closed under construction.

The reader builds expressions with the canonical constructors alone.  So what holds of constants and
of the identifiers bound, and passes from the sides of a constructor to its result, holds of every
expression that is read (`expression_yields`): among other things, that its identifiers are bound
and that it is canonical.

Canonicity itself is a fact about the constructors (`Affine.Canonical`): each of them makes a
settled expression of settled ones.  The module adds that no other constructor is used between the
characters and the tree, and puts the closure properties together in `canonical_expressions_closed`.
-/
import AffineRaising.Proofs.Affine.Instance
import AffineRaising.Proofs.Text.Yield
import AffineRaising.Surface.AffineGrammar

namespace AffineRaising.Surface

open AffineRaising.Affine AffineRaising.Text AffineRaising.Text.Reader

variable {b : Bindings} {P : Expr → Prop} {item : Reader Expr} {name : String} {e : Expr}

/-! ## What expressions are read as -/

section Closed

variable (hconst : ∀ c, P (.const c)) (hcombine : ∀ op l r, P l → P r → P (Expr.combine op l r))
include hcombine

/-- The operators of products are canonical constructors. -/
theorem productOperator_yields : Yields productOperator fun o =>
    ∀ combine, o = some combine → ∀ l r, P l → P r → P (combine l r) := by
  refine .skip fun _ => (Yields.any _).bind fun found _ => .pure ?_
  intro combine hfound l r hl hr
  obtain ⟨op, -, rfl⟩ := Option.map_eq_some_iff.1 hfound
  exact hcombine op l r hl hr

include hconst

/-- A negation is a product with a constant. -/
theorem negate_closed (h : P e) : P e.negate :=
  hcombine .mul e (.const (-1)) h (hconst _)

/-- So are those of sums; a difference is a sum with the negated right side. -/
theorem sumOperator_yields : Yields sumOperator fun o =>
    ∀ combine, o = some combine → ∀ l r, P l → P r → P (combine l r) := by
  refine .skip fun _ => .optional (.orElse (.skip fun _ => .pure ?_) (.skip fun _ => .pure ?_))
  · exact hcombine .add
  · exact fun l r hl hr => hcombine .add l r.negate hl (negate_closed hconst hcombine hr)

/-- A sum keeps what its constructors keep. -/
theorem sumOf_yields (h : Yields item P) : Yields (sumOf item) P :=
  .chain (sumOperator_yields hconst hcombine) (.chain (productOperator_yields hcombine) h)

/-- By induction on the depth of parentheses. -/
theorem factor_yields (hlookup : ∀ name e, b.lookup? name = some e → P e) :
    ∀ depth, Yields (factor b depth) P := by
  intro depth
  induction depth with
  | zero => exact .fail
  | succ depth ih =>
    refine .skip fun _ => .skip fun negative => .ite ?negation
      (.skip fun group => .ite ?group ?leaf)
    case negation => exact ih.bind fun e he => .pure (negate_closed hconst hcombine he)
    case group =>
      exact (sumOf_yields hconst hcombine ih).bind fun e he =>
        .skip fun _ => .skip fun _ => .pure he
    case leaf =>
      refine .skip fun digits => ?_
      cases digits with
      | some n => exact .skip fun c => .pure (hconst c)
      | none => exact .skip fun name => .ofOption fun e he => hlookup name e he

/-- What the canonical constructors keep holds of every expression that is read. -/
theorem expression_yields (hlookup : ∀ name e, b.lookup? name = some e → P e) :
    Yields (expression b) P :=
  fun _ _ _ hread => sumOf_yields hconst hcombine (factor_yields hconst hcombine hlookup _) hread

end Closed

/-! ## Maps and sets -/

/-- A canonical expression over the first `numDims` dimensions and `numSymbols` symbols. -/
structure WellRead (numDims numSymbols : Nat) (e : Expr) : Prop where
  settled : e.Settled
  inRange : e.InRange numDims numSymbols

/-- A name stands for a bound identifier. -/
theorem lookup?_wellRead (h : b.lookup? name = some e) :
    WellRead b.dims.length b.symbols.length e := by
  unfold Bindings.lookup? at h
  split at h
  · rename_i i hi
    cases h
    obtain ⟨hlt, -⟩ := List.idxOf?_eq_some_iff.1 hi
    exact ⟨trivial, Expr.inRange_dim.2 hlt⟩
  · obtain ⟨i, hi, rfl⟩ := Option.map_eq_some_iff.1 h
    obtain ⟨hlt, -⟩ := List.idxOf?_eq_some_iff.1 hi
    exact ⟨trivial, Expr.inRange_symbol.2 hlt⟩

theorem WellRead.const {n m : Nat} (c : Int64) : WellRead n m (.const c) :=
  ⟨trivial, Expr.inRange_const c⟩

theorem WellRead.combine {n m : Nat} (op : BinOp) (l r : Expr) (hl : WellRead n m l)
    (hr : WellRead n m r) : WellRead n m (Expr.combine op l r) :=
  ⟨Expr.combine_settled op hl.settled hr.settled, Expr.combine_inRange op hl.inRange hr.inRange⟩

/-- Every expression that is read is canonical and over the names bound. -/
theorem expression_wellRead (b : Bindings) :
    Yields (expression b) (WellRead b.dims.length b.symbols.length) :=
  expression_yields WellRead.const WellRead.combine fun _ _ => lookup?_wellRead

/-- A constraint is read as a difference of two expressions, so it is canonical too. -/
theorem constraint_wellRead (b : Bindings) :
    Yields (constraint b) fun c => WellRead b.dims.length b.symbols.length c.expr := by
  refine (expression_wellRead b).bind fun l hl => .skip fun _ => .skip fun relation => ?_
  refine (expression_wellRead b).bind fun r hr => .pure ?_
  exact .combine .add l r.negate hl (negate_closed WellRead.const WellRead.combine hr)

theorem resultList_yields {α : Type} {item : Reader α} {Q : α → Prop} (h : Yields item Q) :
    Yields (resultList item) fun as => ∀ a ∈ as, Q a := by
  refine .skip fun _ => .skip fun _ => .skip fun _ => (Yields.separated h).bind fun as has => ?_
  exact .skip fun _ => .skip fun _ => .skip fun _ => .skip fun _ => .pure has

theorem affineMap_wellRead : Yields affineMap fun map =>
    ∀ e ∈ map.results, WellRead map.numDims map.numSymbols e := by
  refine .skip fun _ => .skip fun _ => .skip fun _ => .skip fun _ => .skip fun b => ?_
  refine .skip fun _ => .skip fun _ => (resultList_yields (expression_wellRead b)).bind ?_
  exact fun results h => .pure h

theorem affineSet_wellRead : Yields affineSet fun set =>
    ∀ c ∈ set.constraints, WellRead set.numDims set.numSymbols c.expr := by
  refine .skip fun _ => .skip fun _ => .skip fun _ => .skip fun _ => .skip fun b => ?_
  refine .skip fun _ => .skip fun _ => (resultList_yields (constraint_wellRead b)).bind ?_
  exact fun constraints h => .pure h

/-! ## Closure -/

/-- Simplification does not change the expression. -/
def IsCanonical (e : Expr) : Prop :=
  e.simplify = e

/-- The fixed points of simplification are the settled expressions. -/
theorem isCanonical_iff : IsCanonical e ↔ e.Settled :=
  Expr.simplify_eq_self_iff

/-- Canonical replacements for all identifiers give a canonical instance. -/
theorem substitute_isCanonical {ds ss : List Expr} (hds : ∀ d ∈ ds, IsCanonical d)
    (hss : ∀ s ∈ ss, IsCanonical s) (h : e.InRange ds.length ss.length) :
    ∃ e', e.substitute ds ss = .ok e' ∧ IsCanonical e' := by
  obtain ⟨e', he'⟩ := Expr.exists_substitute h
  refine ⟨e', he', isCanonical_iff.2 ?_⟩
  refine Expr.substitute_settled (fun d hd => ?_) (fun s hs => ?_) he'
  · exact isCanonical_iff.1 (hds d hd)
  · exact isCanonical_iff.1 (hss s hs)

/-- Simplification makes expressions canonical, the constructors keep them so, instances by
canonical replacements are canonical, and so is every expression of a map or set that is read. -/
theorem canonical_expressions_closed :
    (∀ e : Expr, IsCanonical e.simplify) ∧
    (∀ a b : Expr, IsCanonical a → IsCanonical b →
      IsCanonical (a.plus b) ∧ IsCanonical (a.minus b) ∧ IsCanonical a.negate ∧
      IsCanonical (a.times b) ∧ IsCanonical (a.floorDivide b) ∧ IsCanonical (a.ceilDivide b) ∧
      IsCanonical (a.modulo b)) ∧
    (∀ (e : Expr) (ds ss : List Expr), (∀ d ∈ ds, IsCanonical d) → (∀ s ∈ ss, IsCanonical s) →
      e.InRange ds.length ss.length → ∃ e', e.substitute ds ss = .ok e' ∧ IsCanonical e') ∧
    (∀ text map rest, affineMap text = .ok map rest → ∀ e ∈ map.results, IsCanonical e) ∧
    ∀ text set rest, affineSet text = .ok set rest → ∀ e ∈ set.exprs, IsCanonical e := by
  refine ⟨fun e => isCanonical_iff.2 (Expr.simplify_settled e), fun a b ha hb => ?constructors,
    fun e ds ss hds hss h => substitute_isCanonical hds hss h, fun text map rest h e he => ?map,
    fun text set rest h e he => ?set⟩
  case constructors =>
    have closed : ∀ op l r, IsCanonical l → IsCanonical r → IsCanonical (Expr.combine op l r) :=
      fun op l r hl hr => isCanonical_iff.2
        (Expr.combine_settled op (isCanonical_iff.1 hl) (isCanonical_iff.1 hr))
    have negated : ∀ e, IsCanonical e → IsCanonical e.negate :=
      fun e he => negate_closed (fun _ => rfl) closed he
    exact ⟨closed .add a b ha hb, closed .add a b.negate ha (negated b hb), negated a ha,
      closed .mul a b ha hb, closed .floorDiv a b ha hb, closed .ceilDiv a b ha hb,
      closed .mod a b ha hb⟩
  case map => exact isCanonical_iff.2 (affineMap_wellRead h e he).settled
  case set =>
    obtain ⟨c, hc, rfl⟩ := List.mem_map.1 he
    exact isCanonical_iff.2 (affineSet_wellRead h c hc).settled

/-- A product of two identifiers stays opaque, its even multiples drop out modulo two, and the
exact quotient is divided term by term. -/
theorem canonical_expressions_closed_opaque_product :
    let text := "affine_map<(d0)[s0] -> ((d0 * s0 * 6 + d0 * 5) mod 2, (d0 * 4 - 8) floordiv 4)>"
    let map : Map := ⟨1, 1, [.bin .mod (.bin .mul (.dim 0) (.const 5)) (.const 2),
      .bin .add (.dim 0) (.const (-2))]⟩
    affineMap text.toList = .ok map [] ∧ ∀ e ∈ map.results, IsCanonical e := by
  intro text map
  have hread : affineMap text.toList = .ok map [] := by decide +kernel
  obtain ⟨-, -, -, hmap, -⟩ := canonical_expressions_closed
  exact ⟨hread, hmap _ map [] hread⟩

end AffineRaising.Surface
