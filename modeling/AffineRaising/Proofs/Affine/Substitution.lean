/-
# AffineRaising.Proofs.Affine.Substitution — substitution is composition of meanings.

An expression whose identifiers all have replacements can be instantiated, and the instance means at
a point what the expression means at the values of the replacements there.  Simplification is the
substitution of every identifier for itself.
-/
import AffineRaising.Proofs.Affine.Meaning

namespace AffineRaising.Affine.Expr

/-! ## Identifiers in range -/

/-- Every identifier that occurs is one of the first `numDims` dimensions or one of the first
`numSymbols` symbols. -/
structure InRange (numDims numSymbols : Nat) (e : Expr) : Prop where
  dim : ∀ i, e.usesDim i = true → i < numDims
  symbol : ∀ i, e.usesSymbol i = true → i < numSymbols

variable {numDims numSymbols : Nat} {op : BinOp} {e l r : Expr}

theorem inRange_const (c : Int64) : (Expr.const c).InRange numDims numSymbols :=
  ⟨fun _ h => by simp [usesDim] at h, fun _ h => by simp [usesSymbol] at h⟩

theorem inRange_dim {i : Nat} : (Expr.dim i).InRange numDims numSymbols ↔ i < numDims := by
  refine ⟨fun h => h.dim i (by simp [usesDim]), fun h => ⟨fun j hj => ?_, fun j hj => ?_⟩⟩
  · have hij : i = j := by simpa [usesDim] using hj
    exact hij ▸ h
  · simp [usesSymbol] at hj

theorem inRange_symbol {i : Nat} :
    (Expr.symbol i).InRange numDims numSymbols ↔ i < numSymbols := by
  refine ⟨fun h => h.symbol i (by simp [usesSymbol]), fun h => ⟨fun j hj => ?_, fun j hj => ?_⟩⟩
  · simp [usesDim] at hj
  · have hij : i = j := by simpa [usesSymbol] using hj
    exact hij ▸ h

theorem inRange_bin : (Expr.bin op l r).InRange numDims numSymbols ↔
    l.InRange numDims numSymbols ∧ r.InRange numDims numSymbols := by
  constructor
  · intro h
    exact ⟨⟨fun i hi => h.dim i (by simp [usesDim, hi]),
        fun i hi => h.symbol i (by simp [usesSymbol, hi])⟩,
      ⟨fun i hi => h.dim i (by simp [usesDim, hi]),
        fun i hi => h.symbol i (by simp [usesSymbol, hi])⟩⟩
  · rintro ⟨hl, hr⟩
    refine ⟨fun i hi => ?_, fun i hi => ?_⟩
    · rcases Bool.or_eq_true_iff.1 (show (l.usesDim i || r.usesDim i) = true from hi) with hi | hi
      · exact hl.dim i hi
      · exact hr.dim i hi
    · rcases Bool.or_eq_true_iff.1
        (show (l.usesSymbol i || r.usesSymbol i) = true from hi) with hi | hi
      · exact hl.symbol i hi
      · exact hr.symbol i hi

/-! ## Instances -/

theorem substitute_bin {ds ss : List Expr} {l' r' : Expr} (hl : l.substitute ds ss = .ok l')
    (hr : r.substitute ds ss = .ok r') :
    (Expr.bin op l r).substitute ds ss = .ok (combine op l' r') := by
  rw [substitute, hl, hr]
  rfl

/-- A substitution that covers the identifiers of an expression has an instance of it. -/
theorem exists_substitute {ds ss : List Expr} (h : e.InRange ds.length ss.length) :
    ∃ e', e.substitute ds ss = .ok e' := by
  induction e with
  | dim i =>
    have hi := inRange_dim.1 h
    exact ⟨ds.get ⟨i, hi⟩, by simp [substitute, hi]⟩
  | symbol i =>
    have hi := inRange_symbol.1 h
    exact ⟨ss.get ⟨i, hi⟩, by simp [substitute, hi]⟩
  | const c => exact ⟨.const c, rfl⟩
  | bin op l r ihl ihr =>
    obtain ⟨hl, hr⟩ := inRange_bin.1 h
    obtain ⟨l', hl'⟩ := ihl hl
    obtain ⟨r', hr'⟩ := ihr hr
    exact ⟨combine op l' r', substitute_bin hl' hr'⟩

/-! ## Every identifier for itself -/

/-- The first dimensions, each by itself. -/
def ownDims (numDims : Nat) : List Expr := (List.range numDims).map .dim

/-- The first symbols, each by itself. -/
def ownSymbols (numSymbols : Nat) : List Expr := (List.range numSymbols).map .symbol

theorem substitute_own (h : e.InRange numDims numSymbols) :
    e.substitute (ownDims numDims) (ownSymbols numSymbols) = .ok e.simplify := by
  induction e with
  | dim i => simp [substitute, ownDims, inRange_dim.1 h, simplify]
  | symbol i => simp [substitute, ownSymbols, inRange_symbol.1 h, simplify]
  | const c => rfl
  | bin op l r ihl ihr =>
    obtain ⟨hl, hr⟩ := inRange_bin.1 h
    exact substitute_bin (ihl hl) (ihr hr)

/-- The substitution of every identifier for itself computes what simplification computes, so it
leaves the word range exactly when simplification does. -/
theorem substituteFits_own (h : e.InRange numDims numSymbols) :
    e.substituteFits (ownDims numDims) (ownSymbols numSymbols) = e.simplifyFits := by
  induction e with
  | dim i => rfl
  | symbol i => rfl
  | const c => rfl
  | bin op l r ihl ihr =>
    obtain ⟨hl, hr⟩ := inRange_bin.1 h
    rw [substituteFits, simplifyFits, substitute_own hl, substitute_own hr, ihl hl, ihr hr]

/-! ## Meanings -/

/-- A substitution that covers the identifiers of an expression has an instance, and the instance
means at every point what the expression means at the values of the replacements there, unless a
sum or a product of words wraps on the way; only replacements that the expression uses need values.
Simplification is the substitution of every identifier for itself. -/
theorem substitution_keeps_meaning {ds ss : List Expr} (h : e.InRange ds.length ss.length) :
    (∃ e', e.substitute ds ss = .ok e' ∧
      ∀ (dims syms dvals svals : List Int) (v : Int),
        Replaces dims syms (e.usesDim ·) ds dvals → Replaces dims syms (e.usesSymbol ·) ss svals →
        e.substituteFits ds ss = true → e.meaning dvals svals = some v →
        e'.meaning dims syms = some v) ∧
    ∀ numDims numSymbols, e.InRange numDims numSymbols →
      e.substitute (ownDims numDims) (ownSymbols numSymbols) = .ok e.simplify ∧
      e.substituteFits (ownDims numDims) (ownSymbols numSymbols) = e.simplifyFits := by
  obtain ⟨e', he'⟩ := exists_substitute h
  refine ⟨⟨e', he', fun dims syms dvals svals v hd hs hfits hv => ?_⟩, fun n m hrange => ?_⟩
  · exact substitute_meaning hd hs he' hfits hv
  · exact ⟨substitute_own hrange, substituteFits_own hrange⟩

/-- `(4·d0 + s0) floordiv 4` with `s0 + 1` for `d0` and `8·s0` for `s0` becomes an exact division:
`3·s0 + 1`, which is `-8` where `s0` is `-3`. -/
theorem substitution_keeps_meaning_exact_division :
    let e : Expr :=
      .bin .floorDiv (.bin .add (.bin .mul (.dim 0) (.const 4)) (.symbol 0)) (.const 4)
    let ds : List Expr := [.bin .add (.symbol 0) (.const 1)]
    let ss : List Expr := [.bin .mul (.symbol 0) (.const 8)]
    ∃ e', e.substitute ds ss = .ok e' ∧
      e' = .bin .add (.bin .mul (.symbol 0) (.const 3)) (.const 1) ∧
      e.meaning [-2] [-24] = some (-8) ∧ e'.meaning [] [-3] = some (-8) := by
  intro e ds ss
  have hrange : e.InRange ds.length ss.length :=
    inRange_bin.2 ⟨inRange_bin.2 ⟨inRange_bin.2 ⟨inRange_dim.2 (by decide), inRange_const 4⟩,
      inRange_symbol.2 (by decide)⟩, inRange_const 4⟩
  obtain ⟨⟨e', he', hmeaning⟩, _⟩ := substitution_keeps_meaning hrange
  have hvalue : e.meaning [-2] [-24] = some (-8) := by decide
  have hdims : Replaces [] [-3] (e.usesDim ·) ds [-2] := by
    rintro (_ | i) r v _ hr hv
    · cases hr
      cases hv
      decide
    · cases hr
  have hsyms : Replaces [] [-3] (e.usesSymbol ·) ss [-24] := by
    rintro (_ | i) r v _ hr hv
    · cases hr
      cases hv
      decide
    · cases hr
  have hfits : e.substituteFits ds ss = true := by decide
  have hinstance : e.substitute ds ss =
      .ok (.bin .add (.bin .mul (.symbol 0) (.const 3)) (.const 1)) := by rfl
  exact ⟨e', he', Except.ok.inj (he'.symm.trans hinstance), hvalue,
    hmeaning [] [-3] [-2] [-24] (-8) hdims hsyms hfits hvalue⟩

end AffineRaising.Affine.Expr
