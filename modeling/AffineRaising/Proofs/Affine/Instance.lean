/-
# AffineRaising.Proofs.Affine.Instance — what instances of expressions consist of.

The canonical constructors rearrange the atoms of their sides and introduce no identifiers
(`Expr.combine_inRange`).  So an instance has the identifiers of the replacements, and it is settled
if they are.

This is the frame of substitution: nothing that holds of the replacements and of constants and is
kept by the constructors gets lost (`substitute_forall`), whatever the expression is into which they
are put.
-/
import AffineRaising.Proofs.Affine.Canonical
import AffineRaising.Proofs.Affine.LinearFunction

namespace AffineRaising.Affine

open Linear

namespace Expr

variable {n m : Nat} {op : BinOp} {e e' l r : Expr} {ts : List (Expr × Int64)} {lin : Linear}
  {ds ss : List Expr} {d : Int64}

/-! ## Sums over atoms -/

/-- What holds of constants and of terms, and passes to sums, holds of a sum that is written out. -/
theorem toExpr_forall {P : Expr → Prop} (hconst : ∀ c, P (.const c))
    (hadd : ∀ {l r : Expr}, P l → P r → P (.bin .add l r))
    (hterm : ∀ t ∈ lin.terms, t.2 ≠ 0 → P (termExpr t)) : P lin.toExpr := by
  have hchain : ∀ ts : List (Expr × Int64), (∀ t ∈ ts, t.2 ≠ 0 → P (termExpr t)) →
      ∀ {e : Expr}, termsExpr? ts = some e → P e := by
    intro ts
    induction ts using List.reverseRecOn with
    | nil => intro _ e he; cases he
    | append_singleton ts t ih =>
      intro h e he
      obtain ⟨hts, ht⟩ := List.forall_mem_append.1 h
      by_cases hzero : t.2 = 0
      · have hdropped : termsExpr? (ts ++ [t]) = termsExpr? ts := by simp [termsExpr?, hzero]
        exact ih hts (hdropped.symm.trans he)
      · rw [termsExpr?_append ts hzero] at he
        have hlast := ht t List.mem_cons_self hzero
        cases hfront : termsExpr? ts with
        | none =>
          rw [hfront] at he
          cases he
          exact hlast
        | some e₁ =>
          rw [hfront] at he
          cases he
          exact hadd (ih hts hfront) hlast
  unfold toExpr
  cases hterms : termsExpr? lin.terms with
  | none => exact hconst _
  | some e =>
    have he := hchain lin.terms hterm hterms
    show P (if _ then _ else _)
    split
    · exact he
    · exact hadd he (hconst _)

theorem termExpr_inRange {t : Expr × Int64} (h : t.1.InRange n m) : (termExpr t).InRange n m := by
  unfold termExpr
  split
  · exact h
  · exact inRange_bin.2 ⟨h, inRange_const t.2⟩

theorem toExpr_inRange (h : ∀ t ∈ lin.terms, t.1.InRange n m) : lin.toExpr.InRange n m :=
  toExpr_forall inRange_const (fun hl hr => inRange_bin.2 ⟨hl, hr⟩) fun t ht _ =>
    termExpr_inRange (h t ht)

/-- The atoms of an expression have its identifiers. -/
theorem atoms_inRange (h : e.InRange n m) : ∀ t ∈ (ofExpr e).terms, t.1.InRange n m := by
  have hcollect : ∀ {lin : Linear} {scale : Int64}, e.InRange n m →
      (∀ t ∈ lin.terms, t.1.InRange n m) →
      ∀ t ∈ (accumulate lin scale e).terms, t.1.InRange n m := by
    induction e using sumInduction with
    | const c => exact fun _ hlin => hlin
    | add l r ihl ihr =>
      intro lin scale h hlin
      obtain ⟨hl, hr⟩ := inRange_bin.1 h
      exact ihr hr hr (ihl hl hl hlin)
    | scaleRight l c ih =>
      intro lin scale h hlin
      rw [accumulate_scaleRight]
      exact ih (inRange_bin.1 h).1 (inRange_bin.1 h).1 hlin
    | scaleLeft c r hr ih =>
      intro lin scale h hlin
      rw [accumulate_scaleLeft hr]
      exact ih (inRange_bin.1 h).2 (inRange_bin.1 h).2 hlin
    | atom a ha =>
      intro lin scale h hlin
      rw [accumulate_atom ha]
      exact addTerm_forall (P := (·.InRange n m)) h hlin
  exact hcollect h fun t ht => by cases ht

/-- Changing coefficients brings in no identifiers. -/
theorem mapTerms_inRange (h : e.InRange n m) (f : Int64 → Int64) (k : Int64) :
    (toExpr ⟨(ofExpr e).terms.map fun t => (t.1, f t.2), k⟩).InRange n m := by
  refine toExpr_inRange fun t ht => ?_
  obtain ⟨t', ht', rfl⟩ := List.mem_map.1 ht
  exact atoms_inRange h t' ht'

/-! ## The canonical constructors -/

theorem plus_inRange (hl : l.InRange n m) (hr : r.InRange n m) : (l.plus r).InRange n m :=
  toExpr_inRange (merge_forall (P := (·.InRange n m)) (atoms_inRange hl) (atoms_inRange hr))

theorem times_inRange (hl : l.InRange n m) (hr : r.InRange n m) : (l.times r).InRange n m := by
  unfold times
  split
  · exact mapTerms_inRange hl (· * _) _
  · exact mapTerms_inRange hr (· * _) _
  · exact inRange_bin.2 ⟨hl, hr⟩

/-- A quotient by a constant has the identifiers of its dividend. -/
theorem divideBy_inRange (quotient : Int64 → Int64 → Int64) (hl : l.InRange n m) :
    (divideBy op quotient l d).InRange n m := by
  unfold divideBy
  split
  · exact hl
  · split
    · exact inRange_const _
    · show (if _ then _ else _ : Expr).InRange n m
      split
      · exact mapTerms_inRange hl (· / d) _
      · exact inRange_bin.2 ⟨hl, inRange_const d⟩

theorem modulo_inRange (hl : l.InRange n m) (hr : r.InRange n m) : (l.modulo r).InRange n m := by
  unfold modulo
  split
  · show (if _ then _ else _ : Expr).InRange n m
    split
    · exact inRange_const _
    · refine inRange_bin.2 ⟨toExpr_inRange fun t ht => ?_, hr⟩
      exact atoms_inRange hl t (List.mem_of_mem_filter ht)
  · exact inRange_bin.2 ⟨hl, hr⟩

/-- The canonical constructors introduce no identifiers. -/
theorem combine_inRange (op : BinOp) (hl : l.InRange n m) (hr : r.InRange n m) :
    (combine op l r).InRange n m := by
  cases op with
  | add => exact plus_inRange hl hr
  | mul => exact times_inRange hl hr
  | floorDiv =>
    show (floorDivide l r).InRange n m
    unfold floorDivide
    split
    · exact divideBy_inRange _ hl
    · exact inRange_bin.2 ⟨hl, hr⟩
  | ceilDiv =>
    show (ceilDivide l r).InRange n m
    unfold ceilDivide
    split
    · exact divideBy_inRange _ hl
    · exact inRange_bin.2 ⟨hl, hr⟩
  | mod => exact modulo_inRange hl hr

/-! ## Instances -/

theorem substitute_bin_iff : (bin op l r).substitute ds ss = .ok e' ↔
    ∃ l' r', l.substitute ds ss = .ok l' ∧ r.substitute ds ss = .ok r' ∧ combine op l' r' = e' := by
  constructor
  · intro h
    cases hl : l.substitute ds ss with
    | error err =>
      rw [substitute, hl] at h
      cases h
    | ok l' =>
      cases hr : r.substitute ds ss with
      | error err =>
        rw [substitute, hl, hr] at h
        cases h
      | ok r' =>
        rw [substitute_bin hl hr] at h
        cases h
        exact ⟨l', r', rfl, rfl, rfl⟩
  · rintro ⟨l', r', hl, hr, rfl⟩
    exact substitute_bin hl hr

/-- What holds of all replacements and of constants, and passes from sides to what the canonical
constructors make of them, holds of instances. -/
theorem substitute_forall {P : Expr → Prop} (hconst : ∀ c, P (.const c))
    (hcombine : ∀ op l r, P l → P r → P (combine op l r)) (hds : ∀ e ∈ ds, P e)
    (hss : ∀ e ∈ ss, P e) : ∀ {e' : Expr}, e.substitute ds ss = .ok e' → P e' := by
  induction e with
  | dim i =>
    intro e' h
    rw [substitute] at h
    split at h
    · cases h
      exact hds _ (List.mem_of_getElem? ‹_›)
    · cases h
  | symbol i =>
    intro e' h
    rw [substitute] at h
    split at h
    · cases h
      exact hss _ (List.mem_of_getElem? ‹_›)
    · cases h
  | const c =>
    intro e' h
    cases h
    exact hconst c
  | bin op l r ihl ihr =>
    intro e' h
    obtain ⟨l', r', hl, hr, rfl⟩ := substitute_bin_iff.1 h
    exact hcombine op l' r' (ihl hl) (ihr hr)

theorem substitute_settled (hds : ∀ e ∈ ds, e.Settled) (hss : ∀ e ∈ ss, e.Settled)
    (h : e.substitute ds ss = .ok e') : e'.Settled :=
  substitute_forall (fun _ => trivial) (fun op _ _ => combine_settled op) hds hss h

theorem substitute_inRange (hds : ∀ e ∈ ds, e.InRange n m) (hss : ∀ e ∈ ss, e.InRange n m)
    (h : e.substitute ds ss = .ok e') : e'.InRange n m :=
  substitute_forall inRange_const (fun op _ _ => combine_inRange op) hds hss h

theorem simplify_inRange (h : e.InRange n m) : e.simplify.InRange n m := by
  refine substitute_inRange (fun x hx => ?_) (fun x hx => ?_) (substitute_own h)
  · obtain ⟨i, hi, rfl⟩ := List.mem_map.1 hx
    exact inRange_dim.2 (List.mem_range.1 hi)
  · obtain ⟨i, hi, rfl⟩ := List.mem_map.1 hx
    exact inRange_symbol.2 (List.mem_range.1 hi)

/-- Settled expressions are their own instances, with every identifier for itself. -/
theorem substituteAll_own {es : List Expr} (h : ∀ e ∈ es, e.InRange n m ∧ e.Settled) :
    es.mapM (·.substitute (ownDims n) (ownSymbols m)) = .ok es := by
  induction es with
  | nil => rfl
  | cons e es ih =>
    obtain ⟨⟨hrange, hsettled⟩, hes⟩ := List.forall_mem_cons.1 h
    rw [List.mapM_cons, substitute_own hrange, simplify_of_settled hsettled, ih hes]
    rfl

end Expr

end AffineRaising.Affine
