/-
# AffineRaising.Proofs.Affine.LinearFunction — canonical forms decide equality of linear functions.

A tree of sums and of products with a side that holds no identifier is a linear function of its
identifiers.  Over 64-bit words the canonical constructors compute with the residues of values
modulo `2^64`, whether or not they wrap, so equal canonical forms are equal functions.  Conversely
the origin and the unit points tell apart any two functions with different coefficients.
-/
import AffineRaising.Proofs.Affine.Canonical

namespace AffineRaising.Affine

open Linear

/-! ## Residues -/

namespace Expr

/-- The value of a tree of sums and products over 64-bit words; identifiers without a value, and
quotients and remainders, count as zero. -/
def residue (dims syms : List Int64) : Expr → Int64
  | .dim i => dims.getD i 0
  | .symbol i => syms.getD i 0
  | .const c => c
  | .bin .add l r => l.residue dims syms + r.residue dims syms
  | .bin .mul l r => l.residue dims syms * r.residue dims syms
  | .bin _ _ _ => 0

end Expr

variable {dims syms : List Int64}

/-- The value of a list of terms over 64-bit words. -/
def termsResidue (dims syms : List Int64) : List (Expr × Int64) → Int64
  | [] => 0
  | (x, c) :: rest => c * x.residue dims syms + termsResidue dims syms rest

namespace Linear

/-- The value of a sum over 64-bit words. -/
def residue (dims syms : List Int64) (lin : Linear) : Int64 :=
  termsResidue dims syms lin.terms + lin.constant

variable {lin a b : Linear} {ts : List (Expr × Int64)} {c scale : Int64}

theorem addTerm_residue (x : Expr) : termsResidue dims syms (addTerm x c ts) =
    c * x.residue dims syms + termsResidue dims syms ts := by
  induction ts with
  | nil => rfl
  | cons t rest ih =>
    obtain ⟨y, k⟩ := t
    unfold addTerm
    cases hcmp : x.compare y with
    | lt => rfl
    | eq =>
      cases Expr.eq_of_compare hcmp
      simp only [termsResidue]
      grind
    | gt =>
      simp only [termsResidue, ih]
      grind

theorem addAtom_residue (x : Expr) : (lin.addAtom x c).residue dims syms =
    lin.residue dims syms + c * x.residue dims syms := by
  simp only [residue, addAtom, addTerm_residue]
  grind

theorem accumulate_residue {e : Expr} : ∀ {lin : Linear} {scale : Int64},
    (accumulate lin scale e).residue dims syms =
      lin.residue dims syms + scale * e.residue dims syms := by
  induction e using Expr.sumInduction with
  | const c =>
    intro lin scale
    simp only [accumulate, residue, Expr.residue]
    grind
  | add l r ihl ihr =>
    intro lin scale
    rw [accumulate, ihr, ihl, Expr.residue]
    grind
  | scaleRight l c ih =>
    intro lin scale
    rw [accumulate_scaleRight, ih]
    simp only [Expr.residue]
    grind
  | scaleLeft c r hr ih =>
    intro lin scale
    rw [accumulate_scaleLeft hr, ih]
    simp only [Expr.residue]
    grind
  | atom x hx =>
    intro lin scale
    rw [accumulate_atom hx, addAtom_residue]

theorem ofExpr_residue (e : Expr) :
    (ofExpr e).residue dims syms = e.residue dims syms := by
  rw [ofExpr, accumulate_residue, Int64.one_mul]
  exact Int64.zero_add _

theorem merge_residue : (a.merge b).residue dims syms =
    a.residue dims syms + b.residue dims syms := by
  have hterms : ∀ us ts : List (Expr × Int64),
      termsResidue dims syms (us.foldl (fun ts t => addTerm t.1 t.2 ts) ts) =
        termsResidue dims syms ts + termsResidue dims syms us := by
    intro us
    induction us with
    | nil => intro ts; exact (Int64.add_zero _).symm
    | cons u us ih =>
      intro ts
      rw [List.foldl_cons, ih, addTerm_residue, termsResidue]
      grind
  simp only [residue, merge, hterms]
  grind

theorem scale_residue (factor : Int64) : (lin.scale factor).residue dims syms =
    lin.residue dims syms * factor := by
  have hterms : ∀ ts : List (Expr × Int64),
      termsResidue dims syms (ts.map fun t => (t.1, t.2 * factor)) =
        termsResidue dims syms ts * factor := by
    intro ts
    induction ts with
    | nil => simp [termsResidue]
    | cons t ts ih =>
      rw [List.map_cons, termsResidue, termsResidue, ih]
      grind
  simp only [residue, scale, hterms]
  grind

/-- A sum that is written and collected again keeps its terms, apart from those that vanish. -/
theorem toExpr_residue (h : lin.Proper) :
    lin.toExpr.residue dims syms = lin.residue dims syms := by
  have htrim : ∀ ts : List (Expr × Int64),
      termsResidue dims syms (ts.filter fun t => t.2 != 0) = termsResidue dims syms ts := by
    intro ts
    induction ts with
    | nil => rfl
    | cons t ts ih =>
      obtain ⟨x, k⟩ := t
      by_cases hk : k = 0
      · subst hk
        rw [List.filter_cons_of_neg (by simp), ih, termsResidue]
        simp
      · rw [List.filter_cons_of_pos (by simpa using hk), termsResidue, termsResidue, ih]
  rw [← ofExpr_residue, ofExpr_toExpr_trim h]
  simp only [residue, trim, htrim]

end Linear

namespace Expr

variable {e e₁ e₂ l r : Expr}

theorem plus_residue (l r : Expr) : (l.plus r).residue dims syms =
    l.residue dims syms + r.residue dims syms := by
  rw [plus, toExpr_residue (merge_proper (ofExpr_proper l) (ofExpr_proper r)), merge_residue,
    ofExpr_residue, ofExpr_residue]

theorem times_residue (l r : Expr) : (l.times r).residue dims syms =
    l.residue dims syms * r.residue dims syms := by
  cases hr : r.constant? with
  | some c =>
    cases constant?_eq hr
    rw [times_const, toExpr_residue (scale_proper l c), scale_residue, ofExpr_residue]
    rfl
  | none =>
    cases hl : l.constant? with
    | some c =>
      cases constant?_eq hl
      rw [const_times, times_const, toExpr_residue (scale_proper r c), scale_residue,
        ofExpr_residue, Int64.mul_comm]
      rfl
    | none =>
      simp only [times, hl, hr]
      rfl

/-! ## Linear trees -/

/-- No identifier occurs. -/
def isClosed : Expr → Bool
  | .dim _ => false
  | .symbol _ => false
  | .const _ => true
  | .bin _ l r => l.isClosed && r.isClosed

/-- Trees of sums and of products with a side that holds no identifier. -/
inductive IsLinear : Expr → Prop where
  | dim (i : Nat) : IsLinear (.dim i)
  | symbol (i : Nat) : IsLinear (.symbol i)
  | const (c : Int64) : IsLinear (.const c)
  | add {l r : Expr} : IsLinear l → IsLinear r → IsLinear (.bin .add l r)
  | mul {l r : Expr} : (l.isClosed || r.isClosed) = true → IsLinear l → IsLinear r →
      IsLinear (.bin .mul l r)

/-- A linear tree has a value at every point that covers its identifiers, and its residue is that of
the value. -/
theorem exists_meaning (h : e.IsLinear) (hrange : e.InRange dims.length syms.length) :
    ∃ v, e.meaning (dims.map Int64.toInt) (syms.map Int64.toInt) = some v ∧
      Int64.ofInt v = e.residue dims syms := by
  induction h with
  | dim i =>
    have hi := inRange_dim.1 hrange
    exact ⟨(dims.get ⟨i, hi⟩).toInt, by simp [meaning, hi], by simp [residue, hi]⟩
  | symbol i =>
    have hi := inRange_symbol.1 hrange
    exact ⟨(syms.get ⟨i, hi⟩).toInt, by simp [meaning, hi], by simp [residue, hi]⟩
  | const c => exact ⟨c.toInt, rfl, Int64.ofInt_toInt c⟩
  | add _ _ ihl ihr =>
    obtain ⟨hl, hr⟩ := inRange_bin.1 hrange
    obtain ⟨x, hx, hxr⟩ := ihl hl
    obtain ⟨y, hy, hyr⟩ := ihr hr
    exact ⟨x + y, meaning_bin.2 ⟨x, y, hx, hy, rfl⟩, by rw [Int64.ofInt_add, hxr, hyr, residue]⟩
  | mul _ _ _ ihl ihr =>
    obtain ⟨hl, hr⟩ := inRange_bin.1 hrange
    obtain ⟨x, hx, hxr⟩ := ihl hl
    obtain ⟨y, hy, hyr⟩ := ihr hr
    exact ⟨x * y, meaning_bin.2 ⟨x, y, hx, hy, rfl⟩, by rw [Int64.ofInt_mul, hxr, hyr, residue]⟩

theorem simplify_residue (h : e.IsLinear) :
    e.simplify.residue dims syms = e.residue dims syms := by
  induction h with
  | dim i => rfl
  | symbol i => rfl
  | const c => rfl
  | @add l r _ _ ihl ihr =>
    show (l.simplify.plus r.simplify).residue dims syms = _
    rw [plus_residue, ihl, ihr, residue]
  | @mul l r _ _ _ ihl ihr =>
    show (l.simplify.times r.simplify).residue dims syms = _
    rw [times_residue, ihl, ihr, residue]

/-! ## Linear forms over identifiers -/

/-- A bare dimension or symbol. -/
def isIdentifier : Expr → Bool
  | .dim _ => true
  | .symbol _ => true
  | _ => false

theorem simplify_of_closed (h : e.IsLinear) (hclosed : e.isClosed = true) :
    ∃ c, e.simplify = .const c := by
  induction h with
  | dim i => cases hclosed
  | symbol i => cases hclosed
  | const c => exact ⟨c, rfl⟩
  | @add l r _ _ ihl ihr =>
    obtain ⟨hl, hr⟩ := Bool.and_eq_true_iff.1 hclosed
    obtain ⟨x, hx⟩ := ihl hl
    obtain ⟨y, hy⟩ := ihr hr
    rw [simplify, hx, hy]
    exact ⟨_, rfl⟩
  | @mul l r _ _ _ ihl ihr =>
    obtain ⟨hl, hr⟩ := Bool.and_eq_true_iff.1 hclosed
    obtain ⟨x, hx⟩ := ihl hl
    obtain ⟨y, hy⟩ := ihr hr
    rw [simplify, hx, hy]
    exact ⟨_, rfl⟩

/-- Every atom of the sum that the expression denotes is an identifier. -/
def OverIdentifiers (e : Expr) : Prop := ∀ t ∈ (ofExpr e).terms, t.1.isIdentifier = true

theorem toExpr_overIdentifiers {lin : Linear} (h : lin.Proper)
    (hatoms : ∀ t ∈ lin.terms, t.1.isIdentifier = true) : lin.toExpr.OverIdentifiers := by
  intro t ht
  rw [ofExpr_toExpr_trim h] at ht
  exact hatoms t (List.mem_of_mem_filter ht)

theorem plus_overIdentifiers (hl : l.OverIdentifiers) (hr : r.OverIdentifiers) :
    (l.plus r).OverIdentifiers :=
  toExpr_overIdentifiers (merge_proper (ofExpr_proper _) (ofExpr_proper _))
    (merge_forall (P := (·.isIdentifier = true)) hl hr)

theorem times_const_overIdentifiers (h : e.OverIdentifiers) (c : Int64) :
    (e.times (.const c)).OverIdentifiers := by
  rw [times_const]
  refine toExpr_overIdentifiers (scale_proper e c) fun t ht => ?_
  obtain ⟨u, hu, rfl⟩ := List.mem_map.1 ht
  exact h u hu

theorem overIdentifiers_of_isIdentifier (h : e.isIdentifier = true) : e.OverIdentifiers := by
  intro t ht
  cases e with
  | dim i =>
    rw [List.mem_singleton.1 ht]
    rfl
  | symbol i =>
    rw [List.mem_singleton.1 ht]
    rfl
  | const c => cases h
  | bin op l r => cases h

theorem const_overIdentifiers (c : Int64) : (const c).OverIdentifiers := fun _ ht => by cases ht

/-- Every atom of a canonical linear expression is an identifier. -/
theorem IsLinear.overIdentifiers (h : e.IsLinear) : e.simplify.OverIdentifiers := by
  induction h with
  | dim i => exact overIdentifiers_of_isIdentifier rfl
  | symbol i => exact overIdentifiers_of_isIdentifier rfl
  | const c => exact const_overIdentifiers c
  | add _ _ ihl ihr => exact plus_overIdentifiers ihl ihr
  | @mul l r hclosed hl hr ihl ihr =>
    show (l.simplify.times r.simplify).OverIdentifiers
    -- the side without identifiers is a constant by now
    rcases Bool.or_eq_true_iff.1 hclosed with hside | hside
    · obtain ⟨c, hc⟩ := simplify_of_closed hl hside
      rw [hc, const_times]
      exact times_const_overIdentifiers ihr c
    · obtain ⟨c, hc⟩ := simplify_of_closed hr hside
      rw [hc]
      exact times_const_overIdentifiers ihl c

/-! ## Points -/

/-- Values of the first `n` identifiers of a kind: one for the given identifier, zero for all
others. -/
def unitValues (n : Nat) (ident : Nat → Expr) (x : Expr) : List Int64 :=
  (List.range n).map fun i => if ident i = x then 1 else 0

theorem length_unitValues (n : Nat) (ident : Nat → Expr) (x : Expr) :
    (unitValues n ident x).length = n := by
  simp [unitValues]

/-- At the unit point of an identifier every other identifier is zero. -/
theorem residue_unit {n m : Nat} {x y : Expr} (hx : x.InRange n m) (hy : y.isIdentifier = true) :
    y.residue (unitValues n .dim x) (unitValues m .symbol x) = if y = x then 1 else 0 := by
  cases y with
  | dim i =>
    by_cases hi : i < n
    · simp [residue, unitValues, hi]
    · have hne : Expr.dim i ≠ x := by
        rintro rfl
        exact hi (inRange_dim.1 hx)
      simp [residue, unitValues, hi, hne]
  | symbol i =>
    by_cases hi : i < m
    · simp [residue, unitValues, hi]
    · have hne : Expr.symbol i ≠ x := by
        rintro rfl
        exact hi (inRange_symbol.1 hx)
      simp [residue, unitValues, hi, hne]
  | const c => cases hy
  | bin op l r => cases hy

/-- At the unit point of an identifier a linear form takes its coefficient, plus the constant. -/
theorem linear_residue_unit {n m : Nat} {x : Expr} {lin : Linear} (hx : x.InRange n m)
    (hlin : ∀ t ∈ lin.terms, t.1.isIdentifier = true) :
    lin.residue (unitValues n .dim x) (unitValues m .symbol x) =
      lin.coefficient (some x) + lin.constant := by
  have hterms : ∀ ts : List (Expr × Int64), (∀ t ∈ ts, t.1.isIdentifier = true) →
      termsResidue (unitValues n .dim x) (unitValues m .symbol x) ts = coefficientIn ts x := by
    intro ts hts
    induction ts with
    | nil => rfl
    | cons t ts ih =>
      obtain ⟨ht, hts⟩ := List.forall_mem_cons.1 hts
      rw [termsResidue, coefficientIn, ih hts, residue_unit hx ht]
      split <;> simp
  rw [Linear.residue, hterms lin.terms hlin]
  rfl

/-- The constant of a linear form is its value at the origin, the unit point of no identifier. -/
theorem linear_residue_origin {n m : Nat} {lin : Linear}
    (hlin : ∀ t ∈ lin.terms, t.1.isIdentifier = true) :
    lin.residue (unitValues n .dim (.const 0)) (unitValues m .symbol (.const 0)) =
      lin.coefficient none := by
  have hnone : coefficientIn lin.terms (.const 0) = 0 := by
    apply coefficientIn_eq_zero
    intro t ht heq
    have hident := hlin t ht
    rw [heq] at hident
    cases hident
  rw [linear_residue_unit (inRange_const 0) hlin]
  show coefficientIn lin.terms (.const 0) + lin.constant = lin.constant
  rw [hnone, Int64.zero_add]

theorem inRange_mono {n m n' m' : Nat} (h : e.InRange n m) (hn : n ≤ n') (hm : m ≤ m') :
    e.InRange n' m' :=
  ⟨fun i hi => Nat.lt_of_lt_of_le (h.dim i hi) hn,
    fun i hi => Nat.lt_of_lt_of_le (h.symbol i hi) hm⟩

theorem exists_inRange (e : Expr) : ∃ n, e.InRange n n := by
  induction e with
  | dim i => exact ⟨i + 1, inRange_dim.2 (by omega)⟩
  | symbol i => exact ⟨i + 1, inRange_symbol.2 (by omega)⟩
  | const c => exact ⟨0, inRange_const c⟩
  | bin op l r ihl ihr =>
    obtain ⟨n, hl⟩ := ihl
    obtain ⟨m, hr⟩ := ihr
    exact ⟨n + m, inRange_bin.2 ⟨inRange_mono hl (by omega) (by omega),
      inRange_mono hr (by omega) (by omega)⟩⟩

/-- Linear forms over identifiers that agree at the origin and at the unit points agree in every
coefficient. -/
theorem coefficient_eq_of_residue {lin lin' : Linear}
    (hlin : ∀ t ∈ lin.terms, t.1.isIdentifier = true)
    (hlin' : ∀ t ∈ lin'.terms, t.1.isIdentifier = true) (n : Nat)
    (h : ∀ m, n ≤ m → ∀ x, lin.residue (unitValues m .dim x) (unitValues m .symbol x) =
      lin'.residue (unitValues m .dim x) (unitValues m .symbol x)) (k : Option Expr) :
    lin.coefficient k = lin'.coefficient k := by
  have horigin : lin.coefficient none = lin'.coefficient none := by
    rw [← linear_residue_origin (n := n) (m := n) hlin,
      ← linear_residue_origin (n := n) (m := n) hlin']
    exact h n (Nat.le_refl n) (.const 0)
  cases k with
  | none => exact horigin
  | some x =>
    obtain ⟨m, hm⟩ := exists_inRange x
    have hx : x.InRange (n + m) (n + m) := inRange_mono hm (by omega) (by omega)
    have hunit := h (n + m) (by omega) x
    rw [linear_residue_unit hx hlin, linear_residue_unit hx hlin'] at hunit
    -- both sides carry the same constant
    have hconst : lin.constant = lin'.constant := horigin
    rw [hconst] at hunit
    grind

/-! ## Equality of linear functions -/

theorem ofInt_eq_iff_modEq {v w : Int} :
    Int64.ofInt v = Int64.ofInt w ↔ v ≡ w [ZMOD 2 ^ 64] := by
  rw [← Int64.toInt_inj, Int64.toInt_ofInt, Int64.toInt_ofInt]
  constructor
  · intro h
    have hmod := congrArg (· % (Int64.size : Int)) h
    simp only [Int.bmod_emod] at hmod
    exact hmod
  · intro h
    have hmod : v % (Int64.size : Int) = w % (Int64.size : Int) := h
    rw [← Int.emod_bmod v, ← Int.emod_bmod w, hmod]

/-- Canonical forms of linear trees are equal exactly when their residues are, at every point. -/
theorem simplify_eq_iff_residue (h₁ : e₁.IsLinear) (h₂ : e₂.IsLinear) :
    e₁.simplify = e₂.simplify ↔ ∀ dims syms : List Int64, e₁.InRange dims.length syms.length →
      e₂.InRange dims.length syms.length → e₁.residue dims syms = e₂.residue dims syms := by
  constructor
  · intro h dims syms _ _
    rw [← simplify_residue h₁, ← simplify_residue h₂, h]
  · intro h
    obtain ⟨n₁, hn₁⟩ := exists_inRange e₁
    obtain ⟨n₂, hn₂⟩ := exists_inRange e₂
    rw [← toExpr_ofExpr (simplify_settled e₁), ← toExpr_ofExpr (simplify_settled e₂)]
    refine toExpr_congr (ofExpr_proper _) (ofExpr_proper _) ?_
    refine coefficient_eq_of_residue h₁.overIdentifiers h₂.overIdentifiers (n₁ + n₂) ?_
    intro m hm x
    rw [ofExpr_residue, ofExpr_residue, simplify_residue h₁, simplify_residue h₂]
    refine h _ _ (inRange_mono hn₁ ?_ ?_) (inRange_mono hn₂ ?_ ?_) <;>
      rw [length_unitValues] <;> omega

/-- Two linear trees have the same canonical form exactly when they take, modulo `2^64`, the same
value at every point that covers their identifiers.  Canonical sums commute and associate, and
constant factors distribute over them, whether or not words wrap. -/
theorem canonical_form_decides_linear (h₁ : e₁.IsLinear) (h₂ : e₂.IsLinear) :
    (e₁.simplify = e₂.simplify ↔ ∀ dims syms : List Int64, e₁.InRange dims.length syms.length →
      e₂.InRange dims.length syms.length →
      ∃ v₁ v₂, e₁.meaning (dims.map Int64.toInt) (syms.map Int64.toInt) = some v₁ ∧
        e₂.meaning (dims.map Int64.toInt) (syms.map Int64.toInt) = some v₂ ∧
        v₁ ≡ v₂ [ZMOD 2 ^ 64]) ∧
    ∀ (a b c : Expr) (k : Int64), a.plus b = b.plus a ∧
      (a.plus b).plus c = a.plus (b.plus c) ∧
      (Expr.const k).times a = a.times (.const k) ∧
      (a.plus b).times (.const k) = (a.times (.const k)).plus (b.times (.const k)) := by
  refine ⟨(simplify_eq_iff_residue h₁ h₂).trans ⟨?_, ?_⟩, fun a b c k => ?_⟩
  · intro h dims syms hr₁ hr₂
    obtain ⟨v₁, hv₁, hres₁⟩ := exists_meaning h₁ hr₁
    obtain ⟨v₂, hv₂, hres₂⟩ := exists_meaning h₂ hr₂
    refine ⟨v₁, v₂, hv₁, hv₂, ofInt_eq_iff_modEq.1 ?_⟩
    rw [hres₁, hres₂, h dims syms hr₁ hr₂]
  · intro h dims syms hr₁ hr₂
    obtain ⟨v₁, hv₁, hres₁⟩ := exists_meaning h₁ hr₁
    obtain ⟨v₂, hv₂, hres₂⟩ := exists_meaning h₂ hr₂
    obtain ⟨w₁, w₂, hw₁, hw₂, hmod⟩ := h dims syms hr₁ hr₂
    cases hv₁.symm.trans hw₁
    cases hv₂.symm.trans hw₂
    rw [← hres₁, ← hres₂]
    exact ofInt_eq_iff_modEq.2 hmod
  · exact ⟨plus_comm a b, plus_assoc a b c, const_times a k, plus_times_const a b k⟩

/-- `d0 · 2^62 · 4 + d1` wraps to `d1`: the two are `3 · 2^64 + 5` and `5` at `(3, 5)`. -/
theorem canonical_form_decides_linear_wrapped :
    let e₁ : Expr := .bin .add
      (.bin .mul (.bin .mul (.dim 0) (.const 4611686018427387904)) (.const 4)) (.dim 1)
    let e₂ : Expr := .dim 1
    e₁.simplify = e₂.simplify ∧
      ∃ v₁ v₂, e₁.meaning [3, 5] [] = some v₁ ∧ e₂.meaning [3, 5] [] = some v₂ ∧
        v₁ ≡ v₂ [ZMOD 2 ^ 64] := by
  intro e₁ e₂
  have h₁ : e₁.IsLinear := .add (.mul rfl (.mul rfl (.dim 0) (.const _)) (.const 4)) (.dim 1)
  have h₂ : e₂.IsLinear := .dim 1
  have hsame : e₁.simplify = e₂.simplify := by decide
  have hr₁ : e₁.InRange 2 0 :=
    inRange_bin.2 ⟨inRange_bin.2 ⟨inRange_bin.2 ⟨inRange_dim.2 (by decide), inRange_const _⟩,
      inRange_const 4⟩, inRange_dim.2 (by decide)⟩
  exact ⟨hsame, (canonical_form_decides_linear h₁ h₂).1.1 hsame [3, 5] [] hr₁
    (inRange_dim.2 (by decide))⟩

end Expr

end AffineRaising.Affine
