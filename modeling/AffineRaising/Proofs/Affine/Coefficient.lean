/-
# AffineRaising.Proofs.Affine.Coefficient — sums are determined by their coefficients.

A sum lists its terms strictly ascending in their atoms.  Every operation on sums is stated here by
what it does to the coefficients, words that wrap; `Linear.toExpr_congr` says that two sums with the
same coefficients are written as the same expression.  The laws of canonical addition and scaling
are then laws of 64-bit arithmetic, one coefficient at a time.

The order of expressions (`Expr.compare`) is what makes the list canonical, so the module begins
with its laws.  A sum is proper if it is over atoms in their order; proper sums with the same
coefficients differ at most in terms with coefficient zero, which are not written.
-/
import AffineRaising.Proofs.Affine.Substitution

namespace AffineRaising.Affine

/-! ## The order of expressions -/

namespace Expr

/-- The order is reflexive. -/
theorem compare_self : ∀ e : Expr, e.compare e = .eq
  | .dim _ | .symbol _ | .const _ => by simp [compare]
  | .bin _ l r => by simp [compare, compare_self l, compare_self r]

/-- Comparing the other way round gives the opposite result. -/
theorem compare_swap : ∀ a b : Expr, (a.compare b).swap = b.compare a
  | .dim _, .dim _ | .symbol _, .symbol _ => by simp [compare, Nat.compare_swap]
  | .const a, .const b => by
    have hswap : Ord.compare b a = (Ord.compare a b).swap := Std.OrientedCmp.eq_swap
    exact hswap.symm
  | .bin _ l r, .bin _ l' r' => by
    simp only [compare, Ordering.swap_then, compare_swap l l', compare_swap r r', Nat.compare_swap]
  | .dim _, .symbol _ | .dim _, .const _ | .dim _, .bin _ _ _
  | .symbol _, .dim _ | .symbol _, .const _ | .symbol _, .bin _ _ _
  | .const _, .dim _ | .const _, .symbol _ | .const _, .bin _ _ _
  | .bin _ _ _, .dim _ | .bin _ _ _, .symbol _ | .bin _ _ _, .const _ => rfl

theorem compare_lt_of_gt {a b : Expr} (h : a.compare b = .gt) : b.compare a = .lt := by
  rw [← compare_swap a b, h]
  rfl

/-- The order is transitive. -/
theorem compare_lt_trans {a b c : Expr} (hab : a.compare b = .lt) (hbc : b.compare c = .lt) :
    a.compare c = .lt := by
  induction a generalizing b c with
  | dim i =>
    cases c with
    | dim k =>
      cases b <;> simp_all [compare, Nat.compare_eq_lt]
      omega
    | _ => rfl
  | symbol i =>
    cases c with
    | dim k => cases b <;> simp_all [compare]
    | symbol k =>
      cases b <;> simp_all [compare, Nat.compare_eq_lt]
      omega
    | _ => rfl
  | const i =>
    cases c with
    | bin => rfl
    | const k =>
      cases b with
      | const j =>
        have hij : Ord.compare i j = .lt := hab
        have hjk : Ord.compare j k = .lt := hbc
        have hik : Ord.compare i k = .lt := Std.TransCmp.lt_trans hij hjk
        exact hik
      | _ => simp_all [compare]
    | _ => cases b <;> simp_all [compare]
  | bin o l r ihl ihr =>
    cases b with
    | bin o' l' r' =>
      cases c with
      | bin o'' l'' r'' =>
        simp only [compare, Ordering.then_eq_lt, Nat.compare_eq_lt, Nat.compare_eq_eq] at hab hbc ⊢
        rcases hab with ho | ⟨ho, hl | ⟨hl, hr⟩⟩ <;> rcases hbc with ho' | ⟨ho', hl' | ⟨hl', hr'⟩⟩
        · exact .inl (ho.trans ho')
        · exact .inl (ho' ▸ ho)
        · exact .inl (ho' ▸ ho)
        · exact .inl (ho ▸ ho')
        · exact .inr ⟨ho.trans ho', .inl (ihl hl hl')⟩
        · exact .inr ⟨ho.trans ho', .inl (eq_of_compare hl' ▸ hl)⟩
        · exact .inl (ho ▸ ho')
        · exact .inr ⟨ho.trans ho', .inl (eq_of_compare hl ▸ hl')⟩
        · cases eq_of_compare hl
          exact .inr ⟨ho.trans ho', .inr ⟨hl', ihr hr hr'⟩⟩
      | _ => simp_all [compare]
    | _ => simp_all [compare]

/-! ## Atoms -/

/-- Expressions that a sum takes as they are: identifiers, quotients, remainders, and products
without a constant side. -/
def isAtom : Expr → Bool
  | .const _ => false
  | .bin .add _ _ => false
  | .bin .mul l r => !l.isConstant && !r.isConstant
  | _ => true

/-- Induction along the way in which an expression is collected into a sum. -/
@[elab_as_elim]
theorem sumInduction {motive : Expr → Prop} (const : ∀ c, motive (.const c))
    (add : ∀ l r, motive l → motive r → motive (.bin .add l r))
    (scaleRight : ∀ l c, motive l → motive (.bin .mul l (.const c)))
    (scaleLeft : ∀ c r, r.constant? = none → motive r → motive (.bin .mul (.const c) r))
    (atom : ∀ a, a.isAtom = true → motive a) : ∀ e, motive e
  | .dim _ => atom _ rfl
  | .symbol _ => atom _ rfl
  | .const c => const c
  | .bin .add l r => add l r (sumInduction const add scaleRight scaleLeft atom l)
      (sumInduction const add scaleRight scaleLeft atom r)
  | .bin .mul l (.const c) => scaleRight l c (sumInduction const add scaleRight scaleLeft atom l)
  | .bin .mul (.const c) (.dim _) => scaleLeft c _ rfl (atom _ rfl)
  | .bin .mul (.const c) (.symbol _) => scaleLeft c _ rfl (atom _ rfl)
  | .bin .mul (.const c) (.bin o l r) =>
    scaleLeft c _ rfl (sumInduction const add scaleRight scaleLeft atom (.bin o l r))
  | .bin .mul (.dim _) (.dim _) | .bin .mul (.dim _) (.symbol _) | .bin .mul (.dim _) (.bin _ _ _)
  | .bin .mul (.symbol _) (.dim _) | .bin .mul (.symbol _) (.symbol _)
  | .bin .mul (.symbol _) (.bin _ _ _) | .bin .mul (.bin _ _ _) (.dim _)
  | .bin .mul (.bin _ _ _) (.symbol _) | .bin .mul (.bin _ _ _) (.bin _ _ _) => atom _ rfl
  | .bin .floorDiv _ _ => atom _ rfl
  | .bin .ceilDiv _ _ => atom _ rfl
  | .bin .mod _ _ => atom _ rfl

end Expr

namespace Linear

variable {lin a b : Linear} {ts us : List (Expr × Int64)} {atom : Expr} {c scale : Int64}

theorem accumulate_atom (h : atom.isAtom = true) :
    accumulate lin scale atom = lin.addAtom atom scale := by
  cases atom with
  | dim i => rfl
  | symbol i => rfl
  | const c => cases h
  | bin op l r =>
    cases op with
    | add => cases h
    | mul =>
      have hsides : l.constant? = none ∧ r.constant? = none := by
        simpa [Expr.isAtom, Expr.isConstant] using h
      simp only [accumulate, hsides]
    | floorDiv => rfl
    | ceilDiv => rfl
    | mod => rfl

theorem accumulate_scaleRight (l : Expr) :
    accumulate lin scale (.bin .mul l (.const c)) = accumulate lin (scale * c) l := by
  simp only [accumulate, Expr.constant?_const]

theorem accumulate_scaleLeft {r : Expr} (h : r.constant? = none) :
    accumulate lin scale (.bin .mul (.const c) r) = accumulate lin (scale * c) r := by
  simp only [accumulate, Expr.constant?_const, h]

/-! ## Ascending terms -/

/-- Terms strictly ascending in their atoms. -/
def Ascending (ts : List (Expr × Int64)) : Prop :=
  ts.Pairwise fun s t => s.1.compare t.1 = .lt

theorem addTerm_forall {P : Expr → Prop} (hatom : P atom) (hts : ∀ t ∈ ts, P t.1) :
    ∀ t ∈ addTerm atom c ts, P t.1 := by
  induction ts with
  | nil =>
    intro t ht
    rw [addTerm, List.mem_singleton] at ht
    exact ht ▸ hatom
  | cons s rest ih =>
    obtain ⟨x, k⟩ := s
    obtain ⟨hx, hrest⟩ := List.forall_mem_cons.1 hts
    unfold addTerm
    cases atom.compare x with
    | lt => exact List.forall_mem_cons.2 ⟨hatom, hts⟩
    | eq => exact List.forall_mem_cons.2 ⟨hx, hrest⟩
    | gt => exact List.forall_mem_cons.2 ⟨hx, ih hrest⟩

/-- Terms are added at the place of their atom. -/
theorem addTerm_ascending (h : Ascending ts) : Ascending (addTerm atom c ts) := by
  induction ts with
  | nil => exact List.pairwise_singleton _ _
  | cons s rest ih =>
    obtain ⟨x, k⟩ := s
    obtain ⟨hx, hrest⟩ := List.pairwise_cons.1 h
    unfold addTerm
    cases hcmp : atom.compare x with
    | lt =>
      refine List.pairwise_cons.2 ⟨List.forall_mem_cons.2 ⟨hcmp, fun t ht => ?_⟩, h⟩
      exact Expr.compare_lt_trans hcmp (hx t ht)
    | eq => exact List.pairwise_cons.2 ⟨hx, hrest⟩
    | gt =>
      refine List.pairwise_cons.2 ⟨?_, ih hrest⟩
      exact addTerm_forall (P := fun y => x.compare y = .lt) (Expr.compare_lt_of_gt hcmp) hx

/-- A term after all others goes to the end. -/
theorem addTerm_append (h : ∀ t ∈ ts, t.1.compare atom = .lt) :
    addTerm atom c ts = ts ++ [(atom, c)] := by
  induction ts with
  | nil => rfl
  | cons s rest ih =>
    obtain ⟨x, k⟩ := s
    obtain ⟨hx, hrest⟩ := List.forall_mem_cons.1 h
    have hcmp : atom.compare x = .gt := by
      rw [← Expr.compare_swap, hx]
      rfl
    rw [addTerm, hcmp]
    exact congrArg ((x, k) :: ·) (ih hrest)

/-- A sum over atoms, in their order. -/
structure Proper (lin : Linear) : Prop where
  ascending : Ascending lin.terms
  atoms : ∀ t ∈ lin.terms, t.1.isAtom = true

/-- Adding an atom keeps a sum proper. -/
theorem addAtom_proper (h : lin.Proper) (hatom : atom.isAtom = true) :
    (lin.addAtom atom c).Proper :=
  ⟨addTerm_ascending h.ascending, addTerm_forall (P := (·.isAtom = true)) hatom h.atoms⟩

theorem accumulate_proper {e : Expr} :
    ∀ {lin : Linear} {scale : Int64}, lin.Proper → (accumulate lin scale e).Proper := by
  induction e using Expr.sumInduction with
  | const c => exact fun h => ⟨h.ascending, h.atoms⟩
  | add l r ihl ihr => exact fun h => ihr (ihl h)
  | scaleRight l c ih =>
    intro lin scale h
    rw [accumulate_scaleRight]
    exact ih h
  | scaleLeft c r hr ih =>
    intro lin scale h
    rw [accumulate_scaleLeft hr]
    exact ih h
  | atom a ha =>
    intro lin scale h
    rw [accumulate_atom ha]
    exact addAtom_proper h ha

theorem ofExpr_proper (e : Expr) : (ofExpr e).Proper :=
  accumulate_proper ⟨List.Pairwise.nil, fun t ht => by cases ht⟩

theorem merge_forall {P : Expr → Prop} (ha : ∀ t ∈ a.terms, P t.1) (hb : ∀ t ∈ b.terms, P t.1) :
    ∀ t ∈ (a.merge b).terms, P t.1 := by
  unfold merge
  generalize a.terms = ts at ha
  generalize b.terms = us at hb
  induction us generalizing ts with
  | nil => exact ha
  | cons u us ih =>
    obtain ⟨hu, hus⟩ := List.forall_mem_cons.1 hb
    exact ih _ (addTerm_forall hu ha) hus

theorem merge_ascending (ha : Ascending a.terms) : Ascending (a.merge b).terms := by
  unfold merge
  generalize a.terms = ts at ha
  generalize b.terms = us
  induction us generalizing ts with
  | nil => exact ha
  | cons u us ih => exact ih _ (addTerm_ascending ha)

theorem merge_proper (ha : a.Proper) (hb : b.Proper) : (a.merge b).Proper :=
  ⟨merge_ascending ha.ascending, merge_forall (P := (·.isAtom = true)) ha.atoms hb.atoms⟩

/-- Changing coefficients keeps a sum proper. -/
theorem mapTerms_proper (h : lin.Proper) (f : Int64 → Int64) (k : Int64) :
    Proper ⟨lin.terms.map fun t => (t.1, f t.2), k⟩ := by
  refine ⟨List.pairwise_map.2 h.ascending, fun t ht => ?_⟩
  obtain ⟨s, hs, rfl⟩ := List.mem_map.1 ht
  exact h.atoms s hs

/-- Dropping terms keeps a sum proper. -/
theorem filterTerms_proper (h : lin.Proper) (p : Expr × Int64 → Bool) (k : Int64) :
    Proper ⟨lin.terms.filter p, k⟩ :=
  ⟨h.ascending.filter p, fun t ht => h.atoms t (List.mem_of_mem_filter ht)⟩

/-! ## Coefficients -/

/-- The coefficient of an atom in a list of terms. -/
def coefficientIn (ts : List (Expr × Int64)) (atom : Expr) : Int64 :=
  match ts with
  | [] => 0
  | (x, c) :: rest => if x = atom then c + coefficientIn rest atom else coefficientIn rest atom

/-- The coefficient of an atom, and the constant, which has no atom. -/
def coefficient (lin : Linear) : Option Expr → Int64
  | none => lin.constant
  | some atom => coefficientIn lin.terms atom

theorem coefficientIn_eq_zero (h : ∀ t ∈ ts, t.1 ≠ atom) : coefficientIn ts atom = 0 := by
  induction ts with
  | nil => rfl
  | cons t rest ih =>
    obtain ⟨ht, hrest⟩ := List.forall_mem_cons.1 h
    rw [coefficientIn, if_neg ht, ih hrest]

theorem coefficientIn_addTerm (y : Expr) :
    coefficientIn (addTerm atom c ts) y = coefficientIn ts y + if atom = y then c else 0 := by
  induction ts with
  | nil => by_cases hy : atom = y <;> simp [addTerm, coefficientIn, hy]
  | cons t rest ih =>
    obtain ⟨x, k⟩ := t
    unfold addTerm
    cases hcmp : atom.compare x with
    | lt => by_cases hy : atom = y <;> simp [coefficientIn, hy, Int64.add_comm]
    | eq =>
      cases Expr.eq_of_compare hcmp
      by_cases hy : atom = y
      · simp only [coefficientIn, if_pos hy]
        grind
      · simp [coefficientIn, hy]
    | gt =>
      simp only [coefficientIn, ih]
      by_cases hx : x = y
      · simp only [if_pos hx]
        grind
      · simp [hx]

theorem coefficientIn_map (f : Int64 → Int64) (hf : f 0 = 0) (hadd : ∀ x y, f (x + y) = f x + f y)
    (y : Expr) : coefficientIn (ts.map fun t => (t.1, f t.2)) y = f (coefficientIn ts y) := by
  induction ts with
  | nil => exact hf.symm
  | cons t rest ih =>
    rw [List.map_cons, coefficientIn, coefficientIn, ih]
    split
    · rw [hadd]
    · rfl

theorem coefficientIn_filter (y : Expr) :
    coefficientIn (ts.filter fun t => t.2 != 0) y = coefficientIn ts y := by
  induction ts with
  | nil => rfl
  | cons t rest ih =>
    obtain ⟨x, k⟩ := t
    by_cases hk : k = 0
    · subst hk
      rw [List.filter_cons_of_neg (by simp), ih, coefficientIn]
      simp
    · rw [List.filter_cons_of_pos (by simpa using hk), coefficientIn, coefficientIn, ih]

/-- Ascending terms that do not vanish are determined by their coefficients. -/
theorem eq_of_coefficientIn (hts : Ascending ts) (hus : Ascending us) (hts0 : ∀ t ∈ ts, t.2 ≠ 0)
    (hus0 : ∀ u ∈ us, u.2 ≠ 0) (h : ∀ y, coefficientIn ts y = coefficientIn us y) : ts = us := by
  -- the least atom of the two lists has a coefficient in one of them only, unless it heads both
  have hhead : ∀ {x : Expr} {k : Int64} {rest vs : List (Expr × Int64)},
      Ascending ((x, k) :: rest) → k ≠ 0 → (∀ v ∈ vs, x.compare v.1 = .lt) →
      coefficientIn ((x, k) :: rest) x ≠ coefficientIn vs x := by
    intro x k rest vs hasc hk hvs
    have hne : ∀ {v : Expr}, x.compare v = .lt → v ≠ x := by
      rintro v hv rfl
      rw [Expr.compare_self] at hv
      cases hv
    rw [coefficientIn_eq_zero fun v hv => hne (hvs v hv), coefficientIn, if_pos rfl,
      coefficientIn_eq_zero fun t ht => hne ((List.pairwise_cons.1 hasc).1 t ht), Int64.add_zero]
    exact hk
  induction ts generalizing us with
  | nil =>
    cases us with
    | nil => rfl
    | cons u us =>
      exact absurd (h u.1).symm
        (hhead hus (hus0 u List.mem_cons_self) fun v hv => by cases hv)
  | cons t ts ih =>
    cases us with
    | nil =>
      exact absurd (h t.1) (hhead hts (hts0 t List.mem_cons_self) fun v hv => by cases hv)
    | cons u us =>
      obtain ⟨x, k⟩ := t
      obtain ⟨y, m⟩ := u
      obtain ⟨hx, hts'⟩ := List.pairwise_cons.1 hts
      obtain ⟨hy, hus'⟩ := List.pairwise_cons.1 hus
      obtain ⟨hk, hts0'⟩ := List.forall_mem_cons.1 hts0
      obtain ⟨hm, hus0'⟩ := List.forall_mem_cons.1 hus0
      cases hcmp : x.compare y with
      | lt =>
        refine absurd (h x) (hhead hts hk (List.forall_mem_cons.2 ⟨hcmp, fun v hv => ?_⟩))
        exact Expr.compare_lt_trans hcmp (hy v hv)
      | gt =>
        have hlt := Expr.compare_lt_of_gt hcmp
        refine absurd (h y).symm (hhead hus hm (List.forall_mem_cons.2 ⟨hlt, fun v hv => ?_⟩))
        exact Expr.compare_lt_trans hlt (hx v hv)
      | eq =>
        cases Expr.eq_of_compare hcmp
        have habsent : ∀ {vs : List (Expr × Int64)}, (∀ v ∈ vs, x.compare v.1 = .lt) →
            coefficientIn vs x = 0 := by
          intro vs hvs
          refine coefficientIn_eq_zero fun v hv heq => ?_
          have hlt := hvs v hv
          rw [heq, Expr.compare_self] at hlt
          cases hlt
        have hkm : k = m := by
          have := h x
          simpa [coefficientIn, habsent hx, habsent hy] using this
        have htail : ts = us := by
          refine ih hts' hus' hts0' hus0' fun z => ?_
          by_cases hz : x = z
          · subst hz
            rw [habsent hx, habsent hy]
          · have := h z
            simpa [coefficientIn, hz] using this
        rw [hkm, htail]

theorem coefficient_merge (k : Option Expr) :
    (a.merge b).coefficient k = a.coefficient k + b.coefficient k := by
  have hterms : ∀ (us ts : List (Expr × Int64)) (y : Expr),
      coefficientIn (us.foldl (fun ts t => addTerm t.1 t.2 ts) ts) y =
        coefficientIn ts y + coefficientIn us y := by
    intro us
    induction us with
    | nil => simp [coefficientIn]
    | cons u us ih =>
      intro ts y
      rw [List.foldl_cons, ih, coefficientIn_addTerm, coefficientIn]
      split
      · grind
      · grind
  cases k with
  | none => rfl
  | some y => exact hterms b.terms a.terms y

theorem coefficient_scale (factor : Int64) (k : Option Expr) :
    (lin.scale factor).coefficient k = lin.coefficient k * factor := by
  cases k with
  | none => rfl
  | some y => exact coefficientIn_map (· * factor) (by simp) (fun _ _ => by grind) y

theorem coefficient_ofConst (c : Int64) (k : Option Expr) :
    (ofExpr (.const c)).coefficient k = if k = none then c else 0 := by
  cases k <;> simp [ofExpr, accumulate, coefficient, zero, coefficientIn]

/-! ## Writing sums -/

/-- A sum without the terms that vanish. -/
def trim (lin : Linear) : Linear :=
  { lin with terms := lin.terms.filter fun t => t.2 != 0 }

/-- A sum that is written as it is: no term vanishes. -/
structure Normal (lin : Linear) : Prop extends lin.Proper where
  nonzero : ∀ t ∈ lin.terms, t.2 ≠ 0

theorem trim_normal (h : lin.Proper) : lin.trim.Normal :=
  ⟨filterTerms_proper h _ _, fun t ht => by simpa using (List.mem_filter.1 ht).2⟩

theorem trim_of_nonzero (h : ∀ t ∈ lin.terms, t.2 ≠ 0) : lin.trim = lin := by
  rw [trim, List.filter_eq_self.2 fun t ht => by simpa using h t ht]

theorem coefficient_trim (lin : Linear) (k : Option Expr) :
    lin.trim.coefficient k = lin.coefficient k := by
  cases k with
  | none => rfl
  | some y => exact coefficientIn_filter y

theorem toExpr_trim (lin : Linear) : lin.trim.toExpr = lin.toExpr := by
  have hterms : termsExpr? lin.trim.terms = termsExpr? lin.terms := by
    rw [termsExpr?, termsExpr?, trim, List.filter_filter]
    simp
  rw [toExpr, toExpr, hterms]
  rfl

/-- Sums with the same coefficients are written as the same expression. -/
theorem toExpr_congr (ha : a.Proper) (hb : b.Proper)
    (h : ∀ k, a.coefficient k = b.coefficient k) : a.toExpr = b.toExpr := by
  have hconstant : a.trim.constant = b.trim.constant := h none
  have hterms : a.trim.terms = b.trim.terms := by
    refine eq_of_coefficientIn (trim_normal ha).ascending (trim_normal hb).ascending
      (trim_normal ha).nonzero (trim_normal hb).nonzero fun y => ?_
    have hy := h (some y)
    rwa [← coefficient_trim a, ← coefficient_trim b] at hy
  rw [← toExpr_trim a, ← toExpr_trim b, toExpr, toExpr, hterms, hconstant]

/-- The chain of terms grows at its end. -/
theorem termsExpr?_append (ts : List (Expr × Int64)) {t : Expr × Int64} (ht : t.2 ≠ 0) :
    termsExpr? (ts ++ [t]) = some (match termsExpr? ts with
      | none => termExpr t
      | some e => .bin .add e (termExpr t)) := by
  have hfilter : (ts ++ [t]).filter (fun t => t.2 != 0) = ts.filter (fun t => t.2 != 0) ++ [t] := by
    rw [List.filter_append, List.filter_cons_of_pos (by simpa using ht)]
    rfl
  rw [termsExpr?, hfilter, List.foldl_concat, ← termsExpr?]
  cases termsExpr? ts <;> rfl

theorem termsExpr?_eq_none (hne : ∀ t ∈ ts, t.2 ≠ 0) (h : termsExpr? ts = none) : ts = [] := by
  induction ts using List.reverseRecOn with
  | nil => rfl
  | append_singleton ts t _ =>
    rw [termsExpr?_append ts (hne t (by simp))] at h
    cases h

theorem accumulate_termExpr {t : Expr × Int64} (ht : t.1.isAtom = true) :
    accumulate lin 1 (termExpr t) = lin.addAtom t.1 t.2 := by
  obtain ⟨x, k⟩ := t
  unfold termExpr
  split
  · rename_i hk
    have hone : k = 1 := hk
    rw [hone]
    exact accumulate_atom ht
  · rw [accumulate_scaleRight, accumulate_atom ht, Int64.one_mul]

/-- A chain of ascending terms is collected into these terms. -/
theorem ofExpr_terms (hasc : Ascending ts) (hatoms : ∀ t ∈ ts, t.1.isAtom = true)
    (hne : ∀ t ∈ ts, t.2 ≠ 0) : ∀ {e : Expr}, termsExpr? ts = some e → ofExpr e = ⟨ts, 0⟩ := by
  induction ts using List.reverseRecOn with
  | nil => intro e he; cases he
  | append_singleton ts t ih =>
    intro e he
    obtain ⟨hasc', _, hlast⟩ := List.pairwise_append.1 hasc
    obtain ⟨hatoms', ht⟩ := List.forall_mem_append.1 hatoms
    obtain ⟨hne', ht0⟩ := List.forall_mem_append.1 hne
    have hatom : t.1.isAtom = true := ht t List.mem_cons_self
    have hend : addTerm t.1 t.2 ts = ts ++ [t] :=
      addTerm_append fun s hs => hlast s hs t List.mem_cons_self
    rw [termsExpr?_append ts (ht0 t List.mem_cons_self)] at he
    cases hterms : termsExpr? ts with
    | none =>
      rw [hterms] at he
      cases he
      cases termsExpr?_eq_none hne' hterms
      exact accumulate_termExpr hatom
    | some e' =>
      rw [hterms] at he
      cases he
      have hfront : accumulate zero 1 e' = ⟨ts, 0⟩ := ih hasc' hatoms' hne' hterms
      rw [ofExpr, accumulate, hfront, accumulate_termExpr hatom, addAtom, hend]

/-- What a normal sum is written as is collected into the same sum. -/
theorem ofExpr_toExpr (h : lin.Normal) : ofExpr lin.toExpr = lin := by
  unfold toExpr
  cases hterms : termsExpr? lin.terms with
  | none =>
    have hnil := termsExpr?_eq_none h.nonzero hterms
    show (⟨[], 0 + lin.constant * 1⟩ : Linear) = lin
    rw [← hnil, Int64.mul_one, Int64.zero_add]
  | some e =>
    have he := ofExpr_terms h.ascending h.atoms h.nonzero hterms
    show ofExpr (if _ then _ else _) = lin
    split
    · rename_i hconstant
      rw [he, ← hconstant]
    · have hfront : accumulate zero 1 e = ⟨lin.terms, 0⟩ := he
      rw [ofExpr, accumulate, hfront, accumulate, Int64.mul_one, Int64.zero_add]

theorem ofExpr_toExpr_trim (h : lin.Proper) : ofExpr lin.toExpr = lin.trim := by
  rw [← toExpr_trim, ofExpr_toExpr (trim_normal h)]

theorem coefficient_toExpr (h : lin.Proper) (k : Option Expr) :
    (ofExpr lin.toExpr).coefficient k = lin.coefficient k := by
  rw [ofExpr_toExpr_trim h, coefficient_trim]

end Linear

/-! ## Laws of the canonical constructors -/

namespace Expr

open Linear

variable (a b c : Expr) (k m : Int64)

theorem times_const : a.times (.const k) = ((ofExpr a).scale k).toExpr := by
  simp only [times, constant?_const]

theorem coefficient_plus (y : Option Expr) : (ofExpr (a.plus b)).coefficient y =
    (ofExpr a).coefficient y + (ofExpr b).coefficient y := by
  rw [plus, coefficient_toExpr (merge_proper (ofExpr_proper a) (ofExpr_proper b)),
    coefficient_merge]

theorem scale_proper : ((ofExpr a).scale k).Proper :=
  mapTerms_proper (ofExpr_proper a) (· * k) _

theorem coefficient_times_const (y : Option Expr) :
    (ofExpr (a.times (.const k))).coefficient y = (ofExpr a).coefficient y * k := by
  rw [times_const, coefficient_toExpr (scale_proper a k), coefficient_scale]

/-- Canonical sums with the same coefficients are equal. -/
theorem plus_congr {a b a' b' : Expr}
    (h : ∀ y, (ofExpr a).coefficient y + (ofExpr b).coefficient y =
      (ofExpr a').coefficient y + (ofExpr b').coefficient y) : a.plus b = a'.plus b' := by
  refine toExpr_congr (merge_proper (ofExpr_proper a) (ofExpr_proper b))
    (merge_proper (ofExpr_proper a') (ofExpr_proper b')) fun y => ?_
  rw [coefficient_merge, coefficient_merge, h]

theorem plus_comm : a.plus b = b.plus a :=
  plus_congr fun _ => Int64.add_comm _ _

theorem plus_assoc : (a.plus b).plus c = a.plus (b.plus c) :=
  plus_congr fun y => by rw [coefficient_plus, coefficient_plus, Int64.add_assoc]

theorem plus_times_const : (a.plus b).times (.const k) =
    (a.times (.const k)).plus (b.times (.const k)) := by
  rw [times_const]
  refine toExpr_congr (scale_proper _ k) (merge_proper (ofExpr_proper _) (ofExpr_proper _))
    fun y => ?_
  rw [coefficient_scale, coefficient_plus, coefficient_merge, coefficient_times_const,
    coefficient_times_const]
  grind

/-- A constant factor may stand on either side. -/
theorem const_times : (Expr.const k).times a = a.times (.const k) := by
  cases ha : a.constant? with
  | none => simp only [times, constant?_const, ha]
  | some c =>
    cases constant?_eq ha
    show (Expr.const k).times (.const c) = (Expr.const c).times (.const k)
    rw [times_const, times_const]
    refine toExpr_congr (scale_proper _ c) (scale_proper _ k) fun y => ?_
    rw [coefficient_scale, coefficient_scale, coefficient_ofConst, coefficient_ofConst]
    split
    · exact Int64.mul_comm k c
    · simp

theorem times_const_times_const : (a.times (.const k)).times (.const m) =
    a.times (.const (k * m)) := by
  rw [times_const _ m, times_const a (k * m)]
  refine toExpr_congr (scale_proper _ m) (scale_proper _ _) fun y => ?_
  rw [coefficient_scale, coefficient_scale, coefficient_times_const]
  grind

end Expr

end AffineRaising.Affine
