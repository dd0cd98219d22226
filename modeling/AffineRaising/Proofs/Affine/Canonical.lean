/-
# AffineRaising.Proofs.Affine.Canonical — what canonical expressions look like.

An expression is settled when every compound part of it is what the canonical constructor of its
operator makes of its sides.  The constructors yield settled expressions from settled ones
(`Expr.combine_settled`), so simplification settles every tree, and an expression is a fixed point
of simplification exactly when it is settled (`Expr.simplify_eq_self_iff`).

Three facts carry the closure.  The sum of a settled expression is proper (`Coefficient`) and has
settled atoms; a proper sum of settled atoms is written as a settled expression; and the quotients
and remainders that stay opaque are those whose dividends are not reduced any further, so building
them again changes nothing.
-/
import AffineRaising.Proofs.Affine.Coefficient

namespace AffineRaising.Affine

open Linear

namespace Expr

/-- Every compound part is what the canonical constructor of its operator makes of its sides. -/
def Settled : Expr → Prop
  | .bin op l r => l.Settled ∧ r.Settled ∧ combine op l r = .bin op l r
  | _ => True

variable {a e l r : Expr} {op : BinOp} {c d : Int64}

theorem simplify_of_settled : ∀ {e : Expr}, e.Settled → e.simplify = e
  | .dim _, _ | .symbol _, _ | .const _, _ => rfl
  | .bin _ _ _, ⟨hl, hr, hcombine⟩ => by
    rw [simplify, simplify_of_settled hl, simplify_of_settled hr, hcombine]

/-! ## Sums of settled atoms -/

theorem ofExpr_atom (ha : a.isAtom = true) : ofExpr a = ⟨[(a, 1)], 0⟩ :=
  accumulate_atom ha

theorem toExpr_single (hc : c ≠ 0) : toExpr ⟨[(a, c)], 0⟩ = termExpr (a, c) := by
  have hterms : termsExpr? [(a, c)] = some (termExpr (a, c)) := termsExpr?_append [] hc
  rw [toExpr, hterms]
  rfl

/-- An atom times a constant is one term. -/
theorem times_atom (ha : a.isAtom = true) (hc : c ≠ 0) :
    a.times (.const c) = termExpr (a, c) := by
  have hscale : (ofExpr a).scale c = ⟨[(a, c)], 0⟩ := by
    rw [ofExpr_atom ha]
    simp [scale]
  rw [times_const, hscale, toExpr_single hc]

theorem termExpr_settled {t : Expr × Int64} (ht : t.1.isAtom = true) (hs : t.1.Settled)
    (hne : t.2 ≠ 0) : (termExpr t).Settled := by
  have htimes := times_atom ht hne
  unfold termExpr at htimes ⊢
  split
  · exact hs
  · rename_i hone
    rw [if_neg hone] at htimes
    exact ⟨hs, trivial, htimes⟩

/-- Terms in order, with settled atoms and without zeros, are written as a settled expression. -/
theorem termsExpr?_settled {ts : List (Expr × Int64)} (hasc : Ascending ts)
    (hatoms : ∀ t ∈ ts, t.1.isAtom = true) (hne : ∀ t ∈ ts, t.2 ≠ 0)
    (hs : ∀ t ∈ ts, t.1.Settled) : ∀ {e : Expr}, termsExpr? ts = some e → e.Settled := by
  induction ts using List.reverseRecOn with
  | nil => intro e he; cases he
  | append_singleton ts t ih =>
    intro e he
    obtain ⟨hasc', _, hlast⟩ := List.pairwise_append.1 hasc
    obtain ⟨hatoms', ht⟩ := List.forall_mem_append.1 hatoms
    obtain ⟨hne', ht0⟩ := List.forall_mem_append.1 hne
    obtain ⟨hs', hts⟩ := List.forall_mem_append.1 hs
    have hatom : t.1.isAtom = true := ht t List.mem_cons_self
    have ht0 : t.2 ≠ 0 := ht0 t List.mem_cons_self
    have hterm := termExpr_settled hatom (hts t List.mem_cons_self) ht0
    have happend := termsExpr?_append ts ht0
    cases hterms : termsExpr? ts with
    | none =>
      rw [happend, hterms] at he
      cases he
      exact hterm
    | some e' =>
      rw [hterms] at happend
      rw [happend] at he
      cases he
      refine ⟨ih hasc' hatoms' hne' hs' hterms, hterm, ?_⟩
      -- the sum of the chain and one more term is the longer chain
      have hfront := ofExpr_terms hasc' hatoms' hne' hterms
      have hback : ofExpr (termExpr t) = ⟨[t], 0⟩ := accumulate_termExpr hatom
      have hend : addTerm t.1 t.2 ts = ts ++ [t] :=
        addTerm_append fun s hs => hlast s hs t List.mem_cons_self
      show (e'.plus (termExpr t)) = _
      rw [plus, hfront, hback, merge, List.foldl_cons, List.foldl_nil, hend, toExpr, happend]
      rfl

/-- A sum of settled atoms is written as a settled expression. -/
theorem toExpr_settled {lin : Linear} (h : lin.Proper) (hs : ∀ t ∈ lin.terms, t.1.Settled) :
    lin.toExpr.Settled := by
  have hn := trim_normal h
  have hs' : ∀ t ∈ lin.trim.terms, t.1.Settled := fun t ht => hs t (List.mem_of_mem_filter ht)
  rw [← toExpr_trim]
  unfold toExpr
  cases hterms : termsExpr? lin.trim.terms with
  | none => trivial
  | some e =>
    have he := termsExpr?_settled hn.ascending hn.atoms hn.nonzero hs' hterms
    show (if _ then _ else _ : Expr).Settled
    split
    · exact he
    · rename_i hconstant
      refine ⟨he, trivial, ?_⟩
      have hfront := ofExpr_terms hn.ascending hn.atoms hn.nonzero hterms
      have hback : ofExpr (.const lin.trim.constant) = ⟨[], lin.trim.constant⟩ := by
        simp [ofExpr, accumulate, zero]
      show e.plus (.const lin.trim.constant) = _
      rw [plus, hfront, hback, merge, List.foldl_nil, Int64.zero_add, toExpr, hterms]
      exact if_neg hconstant

/-- The atoms of a settled expression are settled. -/
theorem atoms_settled (h : e.Settled) : ∀ t ∈ (ofExpr e).terms, t.1.Settled := by
  have hcollect : ∀ {lin : Linear} {scale : Int64}, e.Settled → (∀ t ∈ lin.terms, t.1.Settled) →
      ∀ t ∈ (accumulate lin scale e).terms, t.1.Settled := by
    induction e using sumInduction with
    | const c => exact fun _ hlin => hlin
    | add l r ihl ihr => exact fun ⟨hl, hr, _⟩ hlin => ihr hr hr (ihl hl hl hlin)
    | scaleRight l c ih =>
      intro lin scale ⟨hl, _⟩ hlin
      rw [accumulate_scaleRight]
      exact ih hl hl hlin
    | scaleLeft c r hr ih =>
      intro lin scale ⟨_, hr', _⟩ hlin
      rw [accumulate_scaleLeft hr]
      exact ih hr' hr' hlin
    | atom a ha =>
      intro lin scale hs hlin
      rw [accumulate_atom ha]
      exact addTerm_forall (P := Settled) hs hlin
  exact hcollect h fun t ht => by cases ht

/-! ## The constructors keep expressions settled -/

/-- Sums of settled expressions are settled. -/
theorem plus_settled (hl : l.Settled) (hr : r.Settled) : (l.plus r).Settled := by
  refine toExpr_settled (merge_proper (ofExpr_proper l) (ofExpr_proper r)) ?_
  exact merge_forall (P := Settled) (atoms_settled hl) (atoms_settled hr)

theorem scale_settled (h : e.Settled) : ((ofExpr e).scale c).toExpr.Settled := by
  refine toExpr_settled (scale_proper e c) fun t ht => ?_
  obtain ⟨s, hs, rfl⟩ := List.mem_map.1 ht
  exact atoms_settled h s hs

/-- Products of settled expressions are settled; without a constant side they stay opaque. -/
theorem times_settled (hl : l.Settled) (hr : r.Settled) : (l.times r).Settled := by
  cases hcr : r.constant? with
  | some c =>
    rw [constant?_eq hcr, times_const]
    exact scale_settled hl
  | none =>
    cases hcl : l.constant? with
    | some c =>
      rw [constant?_eq hcl, const_times, times_const]
      exact scale_settled hr
    | none =>
      have htimes : l.times r = .bin .mul l r := by simp only [times, hcl, hcr]
      rw [htimes]
      exact ⟨hl, hr, htimes⟩

/-- A quotient by a positive constant is settled, or opaque as it is. -/
theorem divideBy_settled (quotient : Int64 → Int64 → Int64) (hl : l.Settled) :
    (divideBy op quotient l d).Settled ∨ divideBy op quotient l d = .bin op l (.const d) := by
  unfold divideBy
  split
  · exact .inl hl
  · cases l.constant? with
    | some c => exact .inl trivial
    | none =>
      show (if _ then _ else _ : Expr).Settled ∨ (if _ then _ else _ : Expr) = _
      split
      · refine .inl (toExpr_settled (mapTerms_proper (ofExpr_proper l) (· / d) _) fun t ht => ?_)
        obtain ⟨s, hs, rfl⟩ := List.mem_map.1 ht
        exact atoms_settled hl s hs
      · exact .inr rfl

/-- Both quotients at once: `combine op` divides by positive constants and keeps other divisors. -/
theorem quotient_settled (quotient : Int64 → Int64 → Int64) (hop : ∀ l r, combine op l r =
      match r.positive? with
      | some d => divideBy op quotient l d
      | none => .bin op l r)
    (hl : l.Settled) (hr : r.Settled) : (combine op l r).Settled := by
  have hcombine := hop l r
  cases hpos : r.positive? with
  | none =>
    rw [hpos] at hcombine
    rw [hcombine]
    exact ⟨hl, hr, hcombine⟩
  | some d =>
    rw [hpos] at hcombine
    obtain ⟨rfl, _⟩ := positive?_eq hpos
    rcases divideBy_settled quotient hl with hs | hstay
    · rw [hcombine]
      exact hs
    · have hsame := hcombine.trans hstay
      rw [hsame]
      exact ⟨hl, trivial, hsame⟩

/-- Coefficients that are reduced already are not reduced any further. -/
theorem reduceModulo_reduceModulo (lin : Linear) (hpos : 0 < d.toInt) :
    ((lin.reduceModulo d).trim).reduceModulo d = lin.reduceModulo d := by
  have hnonzero : ∀ t ∈ (lin.reduceModulo d).terms, t.2 ≠ 0 := by
    intro t ht hzero
    have hmod := (List.mem_filter.1 ht).2
    rw [hzero] at hmod
    simp at hmod
  have hremainder : euclideanRemainder (euclideanRemainder lin.constant d) d =
      euclideanRemainder lin.constant d := by
    apply Int64.toInt_inj.1
    rw [toInt_euclideanRemainder hpos, toInt_euclideanRemainder hpos, Int.emod_emod]
  rw [trim_of_nonzero hnonzero]
  simp only [reduceModulo, List.filter_filter, Bool.and_self, hremainder]

/-- Remainders of settled expressions are settled. -/
theorem modulo_settled (hl : l.Settled) (hr : r.Settled) : (l.modulo r).Settled := by
  have hmodulo : ∀ l : Expr, l.modulo r = (match r.positive? with
    | some d =>
      if ((ofExpr l).reduceModulo d).terms.isEmpty then
        .const ((ofExpr l).reduceModulo d).constant
      else .bin .mod ((ofExpr l).reduceModulo d).toExpr r
    | none => .bin .mod l r) := fun _ => rfl
  cases hpos : r.positive? with
  | none =>
    simp only [hpos] at hmodulo
    rw [hmodulo]
    exact ⟨hl, hr, hmodulo l⟩
  | some d =>
    simp only [hpos] at hmodulo
    rw [hmodulo]
    split
    · trivial
    · rename_i hterms
      have hproper : ((ofExpr l).reduceModulo d).Proper := filterTerms_proper (ofExpr_proper l) _ _
      refine ⟨toExpr_settled hproper fun t ht => ?_, hr, ?_⟩
      · exact atoms_settled hl t (List.mem_of_mem_filter ht)
      · -- a reduced dividend is reduced to itself
        have hfix := reduceModulo_reduceModulo (ofExpr l) (positive?_eq hpos).2
        show modulo _ r = _
        rw [hmodulo, ofExpr_toExpr_trim hproper, hfix, if_neg hterms]

/-- The canonical constructors make settled expressions of settled ones. -/
theorem combine_settled (op : BinOp) (hl : l.Settled) (hr : r.Settled) :
    (combine op l r).Settled := by
  cases op with
  | add => exact plus_settled hl hr
  | mul => exact times_settled hl hr
  | floorDiv => exact quotient_settled floorQuotient (fun _ _ => rfl) hl hr
  | ceilDiv => exact quotient_settled ceilQuotient (fun _ _ => rfl) hl hr
  | mod => exact modulo_settled hl hr

theorem simplify_settled : ∀ e : Expr, e.simplify.Settled
  | .dim _ | .symbol _ | .const _ => trivial
  | .bin op l r => combine_settled op (simplify_settled l) (simplify_settled r)

/-- The fixed points of simplification are the settled expressions. -/
theorem simplify_eq_self_iff : e.simplify = e ↔ e.Settled :=
  ⟨fun h => h ▸ simplify_settled e, simplify_of_settled⟩

/-- A settled expression is what its own sum is written as. -/
theorem toExpr_ofExpr (h : e.Settled) : (ofExpr e).toExpr = e := by
  have hwritten : ∀ {lin : Linear}, lin.Proper → e = lin.toExpr → (ofExpr e).toExpr = e := by
    rintro lin hlin rfl
    rw [ofExpr_toExpr_trim hlin, toExpr_trim]
  cases e using sumInduction with
  | const c => simp [ofExpr, accumulate, zero, toExpr, termsExpr?]
  | add l r =>
    exact hwritten (merge_proper (ofExpr_proper l) (ofExpr_proper r)) h.2.2.symm
  | scaleRight l c =>
    exact hwritten (scale_proper l c) (h.2.2.symm.trans (times_const l c))
  | scaleLeft c r hr =>
    exact hwritten (scale_proper r c)
      (h.2.2.symm.trans ((const_times r c).trans (times_const r c)))
  | atom a ha =>
    rw [ofExpr_atom ha, toExpr_single (by decide)]
    rfl

/-! ## Sums nest to the left -/

/-- A sum of two expressions. -/
def isSum : Expr → Bool
  | .bin .add _ _ => true
  | _ => false

theorem isSum_termExpr {t : Expr × Int64} (ht : t.1.isAtom = true) :
    (termExpr t).isSum = false := by
  obtain ⟨x, k⟩ := t
  unfold termExpr
  split
  · cases x with
    | bin op l r => cases op <;> first | rfl | cases ht
    | _ => rfl
  · rfl

/-- The right side of a settled sum is a single term or the constant. -/
theorem isSum_right (h : (Expr.bin .add l r).Settled) : r.isSum = false := by
  have hterms : ∀ {ts : List (Expr × Int64)}, (∀ t ∈ ts, t.1.isAtom = true) →
      (∀ t ∈ ts, t.2 ≠ 0) → termsExpr? ts = some (.bin .add l r) → r.isSum = false := by
    intro ts hatoms hne heq
    cases ts using List.reverseRecOn with
    | nil => cases heq
    | append_singleton ts t =>
      have hterm := isSum_termExpr (hatoms t (by simp))
      rw [termsExpr?_append ts (hne t (by simp))] at heq
      cases hfront : termsExpr? ts with
      | none =>
        rw [hfront] at heq
        have hlone : termExpr t = .bin .add l r := Option.some.inj heq
        rw [hlone] at hterm
        cases hterm
      | some e =>
        rw [hfront] at heq
        cases heq
        exact hterm
  have hn := trim_normal (merge_proper (ofExpr_proper l) (ofExpr_proper r))
  have hsum : (((ofExpr l).merge (ofExpr r)).trim).toExpr = .bin .add l r :=
    (toExpr_trim _).trans h.2.2
  unfold toExpr at hsum
  split at hsum
  · cases hsum
  · rename_i e he
    split at hsum
    · exact hterms hn.atoms hn.nonzero (hsum ▸ he)
    · injection hsum with _ _ hright
      rw [← hright]
      rfl

end Expr

end AffineRaising.Affine
