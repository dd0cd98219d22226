/-
# AffineRaising.Proofs.Affine.LinearInstance — instances of linear trees.

An instance of a linear tree is a sum over identifiers if the replacements are, and its residue is
that of the tree at the residues of the replacements.  Canonical sums over identifiers are linear
trees again, so both can be said of instances of instances.

An identifier that occurs in a canonical sum has a coefficient there
(`coefficient_ne_zero_of_uses`), which is what the sum takes at the unit point of the identifier on
top of its constant (`residue_unit_point`).
-/
import AffineRaising.Proofs.Affine.Instance

namespace AffineRaising.Affine

open Linear

namespace Expr

variable {e l r : Expr} {ds ss : List Expr} {dims syms dims' syms' : List Int64}

/-! ## Instances -/

/-- Without identifiers nothing is replaced, and the canonical constructors fold the rest. -/
theorem substitute_of_closed (h : e.IsLinear) (hclosed : e.isClosed = true) :
    ∀ {e' : Expr}, e.substitute ds ss = .ok e' → ∃ c, e' = .const c := by
  have hsides : ∀ (op : BinOp) {l r e' : Expr},
      (∀ x y, ∃ c, combine op (.const x) (.const y) = .const c) →
      (∀ {l' : Expr}, l.substitute ds ss = .ok l' → ∃ c, l' = .const c) →
      (∀ {r' : Expr}, r.substitute ds ss = .ok r' → ∃ c, r' = .const c) →
      (bin op l r).substitute ds ss = .ok e' → ∃ c, e' = .const c := by
    intro op l r e' hop hl hr h
    obtain ⟨l', r', hl', hr', rfl⟩ := substitute_bin_iff.1 h
    obtain ⟨x, rfl⟩ := hl hl'
    obtain ⟨y, rfl⟩ := hr hr'
    exact hop x y
  induction h with
  | dim i => cases hclosed
  | symbol i => cases hclosed
  | const c =>
    intro e' h
    cases h
    exact ⟨c, rfl⟩
  | add _ _ ihl ihr =>
    obtain ⟨hl, hr⟩ := Bool.and_eq_true_iff.1 hclosed
    exact fun {_} => hsides .add (fun _ _ => ⟨_, rfl⟩) (ihl hl) (ihr hr)
  | mul _ _ _ ihl ihr =>
    obtain ⟨hl, hr⟩ := Bool.and_eq_true_iff.1 hclosed
    exact fun {_} => hsides .mul (fun _ _ => ⟨_, rfl⟩) (ihl hl) (ihr hr)

/-- An instance of a linear tree is a sum over identifiers if the replacements are, and its residue
is that of the tree at the residues of the replacements. -/
theorem substitute_linear (hds : ∀ x ∈ ds, x.OverIdentifiers) (hss : ∀ x ∈ ss, x.OverIdentifiers)
    (h : e.IsLinear) : ∀ {e' : Expr}, e.substitute ds ss = .ok e' → e'.OverIdentifiers ∧
      ∀ dims syms, e'.residue dims syms =
        e.residue (ds.map (·.residue dims syms)) (ss.map (·.residue dims syms)) := by
  induction h with
  | dim i =>
    intro e' h
    rw [substitute] at h
    split at h
    · cases h
      rename_i hx
      exact ⟨hds _ (List.mem_of_getElem? hx), fun dims syms => by simp [residue, hx]⟩
    · cases h
  | symbol i =>
    intro e' h
    rw [substitute] at h
    split at h
    · cases h
      rename_i hx
      exact ⟨hss _ (List.mem_of_getElem? hx), fun dims syms => by simp [residue, hx]⟩
    · cases h
  | const c =>
    intro e' h
    cases h
    exact ⟨const_overIdentifiers c, fun _ _ => rfl⟩
  | add _ _ ihl ihr =>
    intro e' h
    obtain ⟨l', r', hl', hr', rfl⟩ := substitute_bin_iff.1 h
    obtain ⟨hl, hlres⟩ := ihl hl'
    obtain ⟨hr, hrres⟩ := ihr hr'
    refine ⟨plus_overIdentifiers hl hr, fun dims syms => ?_⟩
    show (l'.plus r').residue dims syms = _
    rw [plus_residue, hlres, hrres, residue]
  | mul hclosed hlinl hlinr ihl ihr =>
    intro e' h
    obtain ⟨l', r', hl', hr', rfl⟩ := substitute_bin_iff.1 h
    obtain ⟨hl, hlres⟩ := ihl hl'
    obtain ⟨hr, hrres⟩ := ihr hr'
    refine ⟨?_, fun dims syms => ?_⟩
    · show (l'.times r').OverIdentifiers
      rcases Bool.or_eq_true_iff.1 hclosed with hside | hside
      · obtain ⟨c, rfl⟩ := substitute_of_closed hlinl hside hl'
        rw [const_times]
        exact times_const_overIdentifiers hr c
      · obtain ⟨c, rfl⟩ := substitute_of_closed hlinr hside hr'
        exact times_const_overIdentifiers hl c
    · show (l'.times r').residue dims syms = _
      rw [times_residue, hlres, hrres, residue]

theorem isLinear_of_isIdentifier (h : e.isIdentifier = true) : e.IsLinear := by
  cases e with
  | dim i => exact .dim i
  | symbol i => exact .symbol i
  | const c => cases h
  | bin op l r => cases h

/-- A canonical sum over identifiers is a linear tree. -/
theorem isLinear_of_settled (hs : e.Settled) (h : e.OverIdentifiers) : e.IsLinear := by
  rw [← toExpr_ofExpr hs]
  refine toExpr_forall .const .add fun t ht _ => ?_
  have ht := isLinear_of_isIdentifier (h t ht)
  unfold termExpr
  split
  · exact ht
  · exact .mul (by simp [isClosed]) ht (.const _)

theorem IsLinear.simplify (h : e.IsLinear) : e.simplify.IsLinear :=
  isLinear_of_settled (simplify_settled e) h.overIdentifiers

/-- A residue depends on the words of identifiers that occur. -/
theorem residue_congr (hdims : ∀ i, e.usesDim i = true → dims.getD i 0 = dims'.getD i 0)
    (hsyms : ∀ j, e.usesSymbol j = true → syms.getD j 0 = syms'.getD j 0) :
    e.residue dims syms = e.residue dims' syms' := by
  induction e with
  | dim i => exact hdims i (by simp [usesDim])
  | symbol j => exact hsyms j (by simp [usesSymbol])
  | const c => rfl
  | bin op l r ihl ihr =>
    have hl := ihl (fun i hi => hdims i (by simp [usesDim, hi]))
      fun j hj => hsyms j (by simp [usesSymbol, hj])
    have hr := ihr (fun i hi => hdims i (by simp [usesDim, hi]))
      fun j hj => hsyms j (by simp [usesSymbol, hj])
    cases op <;> simp only [residue, hl, hr]

/-! ## Coefficients -/

/-- The identifier of a number, a dimension or a symbol. -/
def ident (isDim : Bool) (i : Nat) : Expr := if isDim then .dim i else .symbol i

/-- Whether an identifier occurs. -/
def usesIdent (isDim : Bool) (i : Nat) (e : Expr) : Bool :=
  if isDim then e.usesDim i else e.usesSymbol i

variable {k k' : Bool} {i j : Nat}

theorem ident_inj : ident k i = ident k' j ↔ k = k' ∧ i = j := by
  cases k <;> cases k' <;> simp [ident]

theorem usesIdent_bin {op : BinOp} :
    (Expr.bin op l r).usesIdent k i = (l.usesIdent k i || r.usesIdent k i) := by
  cases k <;> rfl

theorem eq_ident_of_uses (h : e.isIdentifier = true) (huses : e.usesIdent k i = true) :
    e = ident k i := by
  cases e with
  | dim d => cases k <;> simp_all [usesIdent, usesDim, usesSymbol, ident]
  | symbol d => cases k <;> simp_all [usesIdent, usesDim, usesSymbol, ident]
  | const c => cases h
  | bin op l r => cases h

/-- In ascending terms an atom has the coefficient that it is listed with. -/
theorem coefficientIn_of_mem {ts : List (Expr × Int64)} (hasc : Ascending ts) {t : Expr × Int64}
    (ht : t ∈ ts) : coefficientIn ts t.1 = t.2 := by
  induction ts with
  | nil => cases ht
  | cons u ts ih =>
    obtain ⟨hfirst, hrest⟩ := List.pairwise_cons.1 hasc
    have hne : ∀ v ∈ ts, u.1 ≠ v.1 := fun v hv heq => by
      have hlt := hfirst v hv
      rw [heq, compare_self] at hlt
      cases hlt
    rcases List.mem_cons.1 ht with rfl | ht
    · rw [coefficientIn, if_pos rfl, coefficientIn_eq_zero fun v hv => (hne v hv).symm,
        Int64.add_zero]
    · rw [coefficientIn, if_neg (hne t ht), ih hrest ht]

/-- Canonical sums are told by their coefficients. -/
theorem eq_of_coefficient {e' : Expr} (hs : e.Settled) (hs' : e'.Settled)
    (h : ∀ x, (ofExpr e).coefficient x = (ofExpr e').coefficient x) : e = e' := by
  rw [← toExpr_ofExpr hs, ← toExpr_ofExpr hs']
  exact toExpr_congr (ofExpr_proper e) (ofExpr_proper e') h

theorem exists_ident (h : e.isIdentifier = true) : ∃ k i, e = ident k i := by
  cases e with
  | dim i => exact ⟨true, i, rfl⟩
  | symbol i => exact ⟨false, i, rfl⟩
  | const c => cases h
  | bin op l r => cases h

theorem ident_inRange {n m : Nat} : (ident k i).InRange n m ↔ i < if k then n else m := by
  cases k with
  | true => exact inRange_dim
  | false => exact inRange_symbol

/-- What occurs in a canonical sum over identifiers has a coefficient. -/
theorem coefficient_ne_zero_of_uses (hs : e.Settled) (h : e.OverIdentifiers)
    (huses : e.usesIdent k i = true) : (ofExpr e).coefficient (some (ident k i)) ≠ 0 := by
  intro hzero
  have hunused : (ofExpr e).toExpr.usesIdent k i = false := by
    refine toExpr_forall (P := fun x => x.usesIdent k i = false) (fun c => by cases k <;> rfl)
      (fun hl hr => by rw [usesIdent_bin, hl, hr]; rfl) fun t ht hne => ?_
    have hterm : t.1.usesIdent k i = false := Bool.eq_false_iff.2 fun hu => hne (by
      rw [← coefficientIn_of_mem (ofExpr_proper e).ascending ht, eq_ident_of_uses (h t ht) hu]
      exact hzero)
    unfold termExpr
    split
    · exact hterm
    · rw [usesIdent_bin, hterm]
      cases k <;> rfl
  rw [toExpr_ofExpr hs, huses] at hunused
  cases hunused

/-- At the unit point of an identifier a sum over identifiers takes the coefficient, on top of the
constant. -/
theorem residue_unit_point {n m : Nat} {x : Expr} (h : e.OverIdentifiers) (hx : x.InRange n m) :
    e.residue (unitValues n .dim x) (unitValues m .symbol x) =
      (ofExpr e).coefficient (some x) + (ofExpr e).constant := by
  rw [← ofExpr_residue, linear_residue_unit hx h]

end Expr

end AffineRaising.Affine
