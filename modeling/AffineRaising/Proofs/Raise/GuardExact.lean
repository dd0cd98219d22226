/-
# AffineRaising.Proofs.Raise.GuardExact — a guard holds exactly where its condition does.

At run time values are 64-bit words.  An assignment of words decides comparisons, conjunctions and
selections if each of their results has the word that its operands give it.  Under such an
assignment a flattened side of a comparison is the least or the greatest of its leaves
(`MinMax.Stands`), so a comparison that was added to a guard is true where its constraints hold, and
a condition where all constraints of its guard hold: `guard_lowering_exact`.
-/
import AffineRaising.Proofs.Affine.Canonical
import AffineRaising.Proofs.Raise.Promoted
import AffineRaising.Proofs.Raise.Termination

namespace AffineRaising.Affine.Linear

/-- The difference of two symbols and a constant. -/
def difference (i j : Nat) (c : Int64) : Linear :=
  ⟨addTerm (.symbol j) (-1) [(.symbol i, 1)], c⟩

section Difference

variable {i j : Nat}

theorem minus_symbols (i j : Nat) :
    (Expr.symbol i).minus (.symbol j) = (difference i j 0).toExpr := by
  have hj : ofExpr (termExpr (.symbol j, -1)) = ⟨[(.symbol j, -1)], 0⟩ := accumulate_termExpr rfl
  rw [Expr.minus, Expr.negate, Expr.times_atom rfl (by decide), Expr.plus, Expr.ofExpr_atom rfl, hj]
  rfl

theorem difference_normal (hij : i ≠ j) : (difference i j 0).Normal where
  ascending := addTerm_ascending (List.pairwise_singleton _ _)
  atoms := addTerm_forall (P := (·.isAtom = true)) rfl (by simp [Expr.isAtom])
  nonzero := by
    -- the two symbols are different, so no coefficient is the sum of both
    have hcmp : (Expr.symbol j).compare (.symbol i) ≠ .eq := fun h =>
      hij (Nat.compare_eq_eq.1 h).symm
    have hone : (1 : Int64) ≠ 0 := by decide
    have hneg : (-1 : Int64) ≠ 0 := by decide
    intro t ht
    unfold difference addTerm at ht
    cases hlt : (Expr.symbol j).compare (.symbol i) with
    | eq => exact absurd hlt hcmp
    | lt | gt =>
      simp only [hlt, addTerm, List.mem_cons, List.not_mem_nil, or_false] at ht
      rcases ht with rfl | rfl <;> assumption

theorem difference_minus_one (hij : i ≠ j) :
    ((difference i j 0).toExpr).minus (.const 1) = (difference i j (-1)).toExpr := by
  have hone : ofExpr (Expr.const 1).negate = ⟨[], -1⟩ := by decide
  rw [Expr.minus, Expr.plus, ofExpr_toExpr (difference_normal hij), hone, merge, List.foldl_nil]
  simp only [difference, Int64.zero_add]

theorem difference_meaning {syms : List Int} {x y : Int} (hij : i ≠ j) (c : Int64)
    (hx : syms[i]? = some x) (hy : syms[j]? = some y) :
    (difference i j c).toExpr.meaning [] syms = some (x - y + c.toInt) := by
  have hfits : addTermFits (.symbol j) (-1) [(.symbol i, 1)] = true := by
    unfold addTermFits
    cases hcmp : (Expr.symbol j).compare (.symbol i) with
    | lt | gt => rfl
    | eq => exact absurd (Nat.compare_eq_eq.1 hcmp).symm hij
  have hfirst : termsMeaning [] syms [(.symbol i, 1)] = some x :=
    termsMeaning_cons.2 ⟨x, 0, hx, rfl, by simp⟩
  have hsecond : (Expr.symbol j).meaning [] syms = some y := hy
  refine toExpr_meaning (meaning_iff.2 ⟨_, addTerm_meaning hsecond hfits hfirst, ?_⟩)
  have hneg : (-1 : Int64).toInt = -1 := by decide
  show x - y + c.toInt = (-1 : Int64).toInt * y + x + c.toInt
  rw [hneg]
  ring

end Difference

end AffineRaising.Affine.Linear

namespace AffineRaising.Affine

/-- Whether an integer stands in a relation to zero. -/
def Relation.HoldsOf : Relation → Int → Prop
  | .equal, x => x = 0
  | .atLeast, x => 0 ≤ x

/-- The constraint has a value, over unbounded integers, that stands in its relation to zero. -/
def Constraint.Holds (c : Constraint) (dims syms : List Int) : Prop :=
  ∃ x, c.expr.meaning dims syms = some x ∧ c.relation.HoldsOf x

end AffineRaising.Affine

namespace AffineRaising.Ops.Predicate

/-- Whether a predicate is true of two words.  Unsigned ones compare them modulo `2 ^ 64`. -/
def holds : Predicate → Int64 → Int64 → Bool
  | .eq, a, b => a == b
  | .ne, a, b => a != b
  | .slt, a, b => decide (a.toInt < b.toInt)
  | .sle, a, b => decide (a.toInt ≤ b.toInt)
  | .sgt, a, b => decide (b.toInt < a.toInt)
  | .sge, a, b => decide (b.toInt ≤ a.toInt)
  | .ult, a, b => decide (a.toInt % 2 ^ 64 < b.toInt % 2 ^ 64)
  | .ule, a, b => decide (a.toInt % 2 ^ 64 ≤ b.toInt % 2 ^ 64)
  | .ugt, a, b => decide (b.toInt % 2 ^ 64 < a.toInt % 2 ^ 64)
  | .uge, a, b => decide (b.toInt % 2 ^ 64 ≤ a.toInt % 2 ^ 64)

/-- On words that are not negative, an unsigned predicate is the signed one. -/
theorem holds_signed {p : Predicate} {a b : Int64}
    (h : p.isUnsigned = true → 0 ≤ a.toInt ∧ 0 ≤ b.toInt) :
    p.signed.holds a b = p.holds a b := by
  have hsmall : ∀ c : Int64, 0 ≤ c.toInt → c.toInt % 2 ^ 64 = c.toInt := by
    intro c hc
    have hlt := c.toInt_lt
    exact Int.emod_eq_of_lt hc (by omega)
  cases p with
  | ult | ule | ugt | uge =>
    obtain ⟨ha, hb⟩ := h rfl
    simp only [holds, signed, hsmall a ha, hsmall b hb]
  | _ => rfl

end AffineRaising.Ops.Predicate

namespace AffineRaising.Raise

open AffineRaising.IR AffineRaising.IR.Store AffineRaising.Ops AffineRaising.Analysis
open AffineRaising.Affine (Expr Constraint Relation)

variable {s : Store} {rho : ValueRef → Int64}

/-! ## Words -/

/-- The word that an operation gives its result: a comparison yields 1 or 0, a conjunction the bits
that its operands share, and a selection chooses by its condition.  Operations of other kinds leave
the word open. -/
def givenWord? (rho : ValueRef → Int64) (d : OpData) : Option Int64 :=
  match ArithKind.ofName? d.name with
  | some .cmp => do
    let a ← d.operands[0]?
    let b ← d.operands[1]?
    let p ← ((d.attrs.get? "predicate").bind Attr.symbol?).bind Predicate.ofName?
    return if p.holds (rho a) (rho b) then 1 else 0
  | some .and => some (d.operands.foldl (fun w v => w &&& rho v) (-1))
  | some .select => do
    let c ← d.operands[0]?
    let a ← d.operands[1]?
    let b ← d.operands[2]?
    return if rho c = 0 then rho b else rho a
  | _ => none

/-- Every result of a comparison, a conjunction or a selection has the word that its definition
gives it. -/
def Decided (s : Store) (rho : ValueRef → Int64) : Prop :=
  ∀ v o k d x, s.originOf v = some (.result o k) → s.op? o = some d → givenWord? rho d = some x →
    rho v = x

/-! ## Ordered choices -/

/-- What is known of a value that selects between the sides of a comparison. -/
theorem orderedChoice?_some {v : ValueRef} {choice : OrderedChoice}
    (h : orderedChoice? s v = .ok (some choice)) :
    ∃ select k sd c cmp k' cd p, s.originOf v = some (.result select k) ∧
      s.op? select = some sd ∧ ArithKind.ofName? sd.name = some .select ∧
      sd.operands[0]? = some c ∧ sd.operands[1]? = some choice.lhs ∧
      sd.operands[2]? = some choice.rhs ∧ s.originOf c = some (.result cmp k') ∧
      s.op? cmp = some cd ∧ ArithKind.ofName? cd.name = some .cmp ∧
      cd.operands[0]? = some choice.lhs ∧ cd.operands[1]? = some choice.rhs ∧
      ((cd.attrs.get? "predicate").bind Attr.symbol?).bind Predicate.ofName? = some p ∧
      selectsMin? p = some choice.isMin := by
  simp only [orderedChoice?, except_bind_ok] at h
  obtain ⟨select?, hselect, h⟩ := h
  cases select? with
  | none => simp at h
  | some select =>
    obtain ⟨k, horigin⟩ := definingOp?_some hselect
    simp only [except_bind_ok] at h
    obtain ⟨named, hnamed, h⟩ := h
    obtain ⟨sd, hsd, hname⟩ := isNamed_ok.1 hnamed
    cases named with
    | false => simp at h
    | true =>
      simp only [Bool.not_true, Bool.false_eq_true, if_false, except_bind_ok, operand_ok] at h
      obtain ⟨c, ⟨sd', hsd', hc⟩, cmp?, hcmp, h⟩ := h
      cases hsd.symm.trans hsd'
      cases cmp? with
      | none => simp at h
      | some cmp =>
        obtain ⟨k', horigin'⟩ := definingOp?_some hcmp
        simp only [except_bind_ok] at h
        obtain ⟨named', hnamed', h⟩ := h
        obtain ⟨cd, hcd, hname'⟩ := isNamed_ok.1 hnamed'
        cases named' with
        | false => simp at h
        | true =>
          simp only [Bool.not_true, Bool.false_eq_true, if_false, comparison, except_bind_ok,
            operand_ok, except_pure, Except.ok.injEq] at h
          obtain ⟨_, ⟨l, ⟨cd₁, hcd₁, hl⟩, r, ⟨cd₂, hcd₂, hr⟩, rfl⟩, l', ⟨sd₁, hsd₁, hl'⟩, h⟩ := h
          cases hcd.symm.trans hcd₁
          cases hcd.symm.trans hcd₂
          cases hsd.symm.trans hsd₁
          by_cases hll : l = l'
          · simp only [hll, ne_eq, not_true, if_false, except_bind_ok, operand_ok] at h
            obtain ⟨r', ⟨sd₂, hsd₂, hr'⟩, h⟩ := h
            cases hsd.symm.trans hsd₂
            by_cases hrr : r = r'
            · simp only [hrr, not_true, if_false, except_bind_ok, cmpPredicate?,
                attr?_ok, except_pure, Except.ok.injEq] at h
              obtain ⟨_, ⟨_, ⟨cd₃, hcd₃, rfl⟩, rfl⟩, h⟩ := h
              cases hcd.symm.trans hcd₃
              obtain ⟨isMin, hmin, rfl⟩ := Option.map_eq_some_iff.1 h
              obtain ⟨p, hp, hmin⟩ := Option.bind_eq_some_iff.1 hmin
              subst hll hrr
              refine ⟨select, k, sd, c, cmp, k', cd, p, horigin, hsd, ?_, hc, hl', hr', horigin',
                hcd, ?_, hl, hr, hp, hmin⟩
              · rw [beq_iff_eq.1 hname]
                rfl
              · rw [beq_iff_eq.1 hname']
                rfl
            · simp [hrr] at h
          · simp [hll] at h

/-- A choice has the word of one of its sides: the smaller one if it is a minimum, the larger one if
it is a maximum. -/
theorem Decided.choice (hrho : Decided s rho) {v : ValueRef} {choice : OrderedChoice}
    (h : orderedChoice? s v = .ok (some choice)) :
    (rho v = rho choice.lhs ∨ rho v = rho choice.rhs) ∧
      if choice.isMin then
        (rho v).toInt ≤ (rho choice.lhs).toInt ∧ (rho v).toInt ≤ (rho choice.rhs).toInt
      else (rho choice.lhs).toInt ≤ (rho v).toInt ∧ (rho choice.rhs).toInt ≤ (rho v).toInt := by
  obtain ⟨select, k, sd, c, cmp, k', cd, p, hv, hsd, hselect, hc, hl, hr, hcv, hcd, hcmp, hl', hr',
    hp, hmin⟩ := orderedChoice?_some h
  have hword := hrho v select k sd (if rho c = 0 then rho choice.rhs else rho choice.lhs) hv hsd
    (by simp [givenWord?, hselect, hc, hl, hr])
  have hbit := hrho c cmp k' cd
    (if p.holds (rho choice.lhs) (rho choice.rhs) then 1 else 0) hcv hcd
    (by simp [givenWord?, hcmp, hl', hr', hp])
  rw [hword, hbit]
  cases p <;> simp only [selectsMin?, Option.some.injEq, reduceCtorEq] at hmin <;>
    simp only [← hmin, Predicate.holds, decide_eq_true_eq, Bool.false_eq_true, if_true, if_false]
  all_goals
    split <;> simp_all
    omega

/-! ## Flattened sides -/

/-- A flattened tree has the word of one of its leaves: the least one as far as no maximum occurs,
the greatest one as far as no minimum does. -/
structure MinMax.Stands (rho : ValueRef → Int64) (v : ValueRef) (t : MinMax) : Prop where
  leaf : ∃ l ∈ t.leaves, rho l = rho v
  least : t.max = false → ∀ l ∈ t.leaves, (rho v).toInt ≤ (rho l).toInt
  greatest : t.min = false → ∀ l ∈ t.leaves, (rho l).toInt ≤ (rho v).toInt

theorem MinMax.Stands.of_leaf (v : ValueRef) : (MinMax.leaf v).Stands rho v where
  leaf := ⟨v, by simp [MinMax.leaf], rfl⟩
  least _ l hl := by
    rw [List.mem_singleton.1 hl]
  greatest _ l hl := by
    rw [List.mem_singleton.1 hl]

theorem MinMax.Stands.join {v a b : ValueRef} {ta tb : MinMax} {isMin : Bool}
    (ha : ta.Stands rho a) (hb : tb.Stands rho b) (hside : rho v = rho a ∨ rho v = rho b)
    (horder : if isMin then (rho v).toInt ≤ (rho a).toInt ∧ (rho v).toInt ≤ (rho b).toInt
      else (rho a).toInt ≤ (rho v).toInt ∧ (rho b).toInt ≤ (rho v).toInt) :
    (MinMax.join isMin ta tb).Stands rho v where
  leaf := by
    rcases hside with heq | heq
    · obtain ⟨l, hl, hla⟩ := ha.leaf
      exact ⟨l, List.mem_append_left _ hl, hla.trans heq.symm⟩
    · obtain ⟨l, hl, hlb⟩ := hb.leaf
      exact ⟨l, List.mem_append_right _ hl, hlb.trans heq.symm⟩
  least hmax l hl := by
    simp only [MinMax.join, Bool.or_eq_false_iff, Bool.not_eq_false'] at hmax
    obtain ⟨⟨rfl, hta⟩, htb⟩ := hmax
    obtain ⟨hva, hvb⟩ := horder
    rcases List.mem_append.1 hl with hl | hl
    · exact hva.trans (ha.least hta l hl)
    · exact hvb.trans (hb.least htb l hl)
  greatest hmin l hl := by
    simp only [MinMax.join, Bool.or_eq_false_iff] at hmin
    obtain ⟨⟨rfl, hta⟩, htb⟩ := hmin
    obtain ⟨hva, hvb⟩ := horder
    rcases List.mem_append.1 hl with hl | hl
    · exact (ha.greatest hta l hl).trans hva
    · exact (hb.greatest htb l hl).trans hvb

theorem flattenFuel_stands (hrho : Decided s rho) (n : Nat) : ∀ {v : ValueRef} {t : MinMax},
    flattenFuel s n v = .ok (some t) → t.Stands rho v := by
  induction n with
  | zero =>
    intro v t h
    cases h
  | succ n ih =>
    intro v t h
    simp only [flattenFuel, except_bind_ok] at h
    obtain ⟨index, _, h⟩ := h
    cases index with
    | true =>
      cases h
      exact .of_leaf v
    | false =>
      simp only [Bool.false_eq_true, if_false, except_bind_ok] at h
      obtain ⟨choice?, hchoice, h⟩ := h
      cases choice? with
      | none => simp at h
      | some choice =>
        simp only [except_bind_ok] at h
        obtain ⟨left?, hleft, h⟩ := h
        cases left? with
        | none => simp at h
        | some left =>
          simp only [except_bind_ok] at h
          obtain ⟨right?, hright, h⟩ := h
          cases right? with
          | none => simp at h
          | some right =>
            cases h
            obtain ⟨hside, horder⟩ := hrho.choice hchoice
            exact (ih hleft).join (ih hright) hside horder

theorem flatten?_stands (hrho : Decided s rho) {v : ValueRef} {t : MinMax}
    (h : flatten? s v = .ok (some t)) : t.Stands rho v := by
  simp only [flatten?, except_bind_ok, except_pure, Except.ok.injEq] at h
  obtain ⟨t?, ht, hunmixed⟩ := h
  obtain ⟨t', rfl, h⟩ := Option.bind_eq_some_iff.1 hunmixed
  have hsame : t' = t := by
    unfold MinMax.unmixed? at h
    split at h
    · cases h
    · exact Option.some.inj h
  exact hsame ▸ flattenFuel_stands hrho _ ht

section Comparison

variable {v w : ValueRef} {lhs rhs : MinMax} (hl : lhs.Stands rho v) (hr : rhs.Stands rho w)

include hl hr

/-- A minimum lies above a maximum, by at least `c`, exactly if all leaves do. -/
theorem MinMax.Stands.above_iff (hmax : lhs.max = false) (hmin : rhs.min = false) (c : Int) :
    (rho w).toInt + c ≤ (rho v).toInt ↔
      ∀ l ∈ lhs.leaves, ∀ r ∈ rhs.leaves, (rho r).toInt + c ≤ (rho l).toInt := by
  constructor
  · intro h l hlmem r hrmem
    have h₁ := hl.least hmax l hlmem
    have h₂ := hr.greatest hmin r hrmem
    omega
  · intro h
    obtain ⟨l, hlmem, hlv⟩ := hl.leaf
    obtain ⟨r, hrmem, hrw⟩ := hr.leaf
    rw [← hlv, ← hrw]
    exact h l hlmem r hrmem

end Comparison

/-- Without a choice all leaves have the word of the tree. -/
theorem MinMax.Stands.leaf_eq {v l : ValueRef} {t : MinMax} (h : t.Stands rho v)
    (hmin : t.min = false) (hmax : t.max = false) (hl : l ∈ t.leaves) : rho l = rho v := by
  have h₁ := h.least hmax l hl
  have h₂ := h.greatest hmin l hl
  exact Int64.toInt_inj.1 (by omega)

/-! ## Constraints -/

/-- All constraints of a set hold at the words of the operands bound to it. -/
def SetBinding.Holds (rho : ValueRef → Int64) (b : SetBinding) : Prop :=
  ∀ c ∈ b.set.constraints, c.Holds ((b.operands.take b.set.numDims).map fun v => (rho v).toInt)
    ((b.operands.drop b.set.numDims).map fun v => (rho v).toInt)

/-- The words of the operands of a guard. -/
def Guard.words (rho : ValueRef → Int64) (g : Guard) : List Int :=
  g.operands.map fun v => (rho v).toInt

/-- Every constraint has two operands of its own, and a value. -/
structure Guard.Valued (rho : ValueRef → Int64) (g : Guard) : Prop where
  length : g.operands.length = 2 * g.constraints.length
  value : ∀ c ∈ g.constraints, ∃ x, c.expr.meaning [] (g.words rho) = some x

/-- All constraints of a guard hold. -/
def Guard.Holds (rho : ValueRef → Int64) (g : Guard) : Prop :=
  ∀ c ∈ g.constraints, c.Holds [] (g.words rho)

theorem Guard.toSet_holds (g : Guard) : g.toSet.Holds rho ↔ g.Holds rho := Iff.rfl

/-- The expression that is built over the two symbols of a constraint has the value `f x y`. -/
def Builds (build : Expr → Expr → Expr) (f : Int → Int → Int) : Prop :=
  ∀ (syms : List Int) (k : Nat) (x y : Int), syms[2 * k]? = some x → syms[2 * k + 1]? = some y →
    (build (.symbol (2 * k)) (.symbol (2 * k + 1))).meaning [] syms = some (f x y)

theorem strictly_meaning {syms : List Int} {i j : Nat} {x y : Int} (hij : i ≠ j) (strict : Bool)
    (hx : syms[i]? = some x) (hy : syms[j]? = some y) :
    (strictly strict ((Expr.symbol i).minus (.symbol j))).meaning [] syms =
      some (x - y - if strict then 1 else 0) := by
  rw [Affine.Linear.minus_symbols]
  cases strict with
  | false =>
    show (Affine.Linear.difference i j 0).toExpr.meaning [] syms = _
    rw [Affine.Linear.difference_meaning hij 0 hx hy]
    simp
  | true =>
    show (Expr.minus _ (.const 1)).meaning [] syms = _
    rw [Affine.Linear.difference_minus_one hij, Affine.Linear.difference_meaning hij (-1) hx hy]
    rfl

theorem builds_minus (strict : Bool) : Builds (fun l r => strictly strict (l.minus r))
    fun x y => x - y - if strict then 1 else 0 :=
  fun _ _ _ _ hx hy => strictly_meaning (by omega) strict hx hy

theorem builds_minus_swapped (strict : Bool) : Builds (fun l r => strictly strict (r.minus l))
    fun x y => y - x - if strict then 1 else 0 :=
  fun _ _ _ _ hx hy => strictly_meaning (by omega) strict hy hx

namespace Guard

variable {g : Guard} {build : Expr → Expr → Expr} {f : Int → Int → Int}

theorem words_push (l r : ValueRef) (relation : Relation) : (g.push l r relation build).words rho =
    g.words rho ++ [(rho l).toInt, (rho r).toInt] := by
  simp [words, push]

/-- More operands change no constraint that has a value. -/
theorem holds_append {c : Constraint} {syms more : List Int} {x : Int}
    (hx : c.expr.meaning [] syms = some x) :
    c.Holds [] (syms ++ more) ↔ c.Holds [] syms := by
  have hmore : c.expr.meaning [] (syms ++ more) = some x :=
    Expr.meaning_mono (List.prefix_refl _) (List.prefix_append syms more) hx
  constructor
  · rintro ⟨y, hy, hrel⟩
    cases hmore.symm.trans hy
    exact ⟨x, hx, hrel⟩
  · rintro ⟨y, hy, hrel⟩
    cases hx.symm.trans hy
    exact ⟨x, hmore, hrel⟩

/-- One more constraint. -/
theorem push_holds (hg : g.Valued rho) (hbuild : Builds build f) (l r : ValueRef)
    (relation : Relation) :
    (g.push l r relation build).Valued rho ∧ ((g.push l r relation build).Holds rho ↔
      g.Holds rho ∧ relation.HoldsOf (f (rho l).toInt (rho r).toInt)) := by
  have hlen : (g.words rho).length = 2 * g.constraints.length := by
    rw [words, List.length_map, hg.length]
  have hnew := hbuild (g.words rho ++ [(rho l).toInt, (rho r).toInt]) g.constraints.length
    (rho l).toInt (rho r).toInt (by simp [← hlen]) (by simp [← hlen])
  refine ⟨⟨?_, fun c hc => ?_⟩, ?_⟩
  · simp only [push, List.length_append, List.length_cons, List.length_nil, hg.length]
    omega
  · rw [words_push]
    rcases List.mem_append.1 hc with hc | hc
    · obtain ⟨x, hx⟩ := hg.value c hc
      exact ⟨x, Expr.meaning_mono (List.prefix_refl _) (List.prefix_append _ _) hx⟩
    · rw [List.mem_singleton.1 hc]
      exact ⟨_, hnew⟩
  · rw [Holds, words_push]
    have hsplit : ∀ P : Constraint → Prop, (∀ c ∈ (g.push l r relation build).constraints, P c) ↔
        (∀ c ∈ g.constraints, P c) ∧ P ⟨_, relation⟩ := fun P => by
      simp only [push, List.forall_mem_append, List.forall_mem_singleton]
      exact Iff.rfl
    rw [hsplit]
    refine and_congr (forall₂_congr fun c hc => ?_) ?_
    · obtain ⟨x, hx⟩ := hg.value c hc
      exact holds_append hx
    · constructor
      · rintro ⟨y, hy, hrel⟩
        cases hnew.symm.trans hy
        exact hrel
      · exact fun hrel => ⟨_, hnew, hrel⟩

/-- One more constraint for each pair. -/
theorem foldl_push_holds (hbuild : Builds build f) (ps : List (ValueRef × ValueRef)) :
    ∀ {g : Guard}, g.Valued rho →
      (ps.foldl (fun g p => g.push p.1 p.2 .atLeast build) g).Valued rho ∧
        ((ps.foldl (fun g p => g.push p.1 p.2 .atLeast build) g).Holds rho ↔
          g.Holds rho ∧ ∀ p ∈ ps, 0 ≤ f (rho p.1).toInt (rho p.2).toInt) := by
  induction ps with
  | nil => exact fun hg => ⟨hg, by simp⟩
  | cons p ps ih =>
    intro g hg
    obtain ⟨hvalued, hholds⟩ := push_holds hg hbuild p.1 p.2 .atLeast
    obtain ⟨hvalued', hholds'⟩ := ih hvalued
    refine ⟨hvalued', hholds'.trans ?_⟩
    rw [hholds, List.forall_mem_cons, and_assoc]
    exact Iff.rfl

theorem pushPairs_holds (hg : g.Valued rho) (hbuild : Builds build f)
    (lefts rights : List ValueRef) : (g.pushPairs lefts rights build).Valued rho ∧
      ((g.pushPairs lefts rights build).Holds rho ↔ g.Holds rho ∧
        ∀ l ∈ lefts, ∀ r ∈ rights, 0 ≤ f (rho l).toInt (rho r).toInt) := by
  obtain ⟨hvalued, hholds⟩ := foldl_push_holds hbuild
    (lefts.flatMap fun l => rights.map fun r => (l, r)) hg
  refine ⟨hvalued, hholds.trans (and_congr_right fun _ => ?_)⟩
  simp only [List.mem_flatMap, List.mem_map]
  constructor
  · intro h l hl r hr
    exact h (l, r) ⟨l, hl, r, hr, rfl⟩
  · rintro h _ ⟨l, hl, r, hr, rfl⟩
    exact h l hl r hr

theorem foldl_push_operands (ps : List (ValueRef × ValueRef)) : ∀ g : Guard,
    (ps.foldl (fun g p => g.push p.1 p.2 .atLeast build) g).operands =
      g.operands ++ ps.flatMap fun p => [p.1, p.2] := by
  induction ps with
  | nil => simp
  | cons p ps ih =>
    intro g
    rw [List.foldl_cons, ih]
    simp [push]

/-- The operands of the constraints of pairs are the values of the pairs. -/
theorem mem_pushPairs_operands {lefts rights : List ValueRef} {v : ValueRef} :
    v ∈ (g.pushPairs lefts rights build).operands ↔
      v ∈ g.operands ∨ ∃ l ∈ lefts, ∃ r ∈ rights, v = l ∨ v = r := by
  rw [pushPairs, foldl_push_operands, List.mem_append]
  refine or_congr_right ?_
  simp only [List.mem_flatMap, List.mem_map, List.mem_cons, List.not_mem_nil, or_false]
  constructor
  · rintro ⟨_, ⟨l, hl, r, hr, rfl⟩, hv⟩
    exact ⟨l, hl, r, hr, hv⟩
  · rintro ⟨l, hl, r, hr, hv⟩
    exact ⟨(l, r), ⟨l, hl, r, hr, rfl⟩, hv⟩

end Guard

/-! ## Comparisons -/

section AddComparison

variable {g g' : Guard} {p : Predicate} {v w : ValueRef} {lhs rhs : MinMax}
  (h : addComparison g p lhs rhs = (true, g'))

include h

/-- A comparison is added only where it distributes over the leaves of its sides. -/
theorem addComparison_true :
    (p = .eq ∧ ∃ l ∈ lhs.leaves, ∃ r ∈ rhs.leaves, lhs.min = false ∧ lhs.max = false ∧
        rhs.min = false ∧ rhs.max = false ∧ g' = g.push l r .equal Expr.minus) ∨
      (∃ strict, p = (if strict then .sgt else .sge) ∧ lhs.max = false ∧ rhs.min = false ∧
        g' = g.pushPairs lhs.leaves rhs.leaves fun l r => strictly strict (l.minus r)) ∨
      ∃ strict, p = (if strict then .slt else .sle) ∧ lhs.min = false ∧ rhs.max = false ∧
        g' = g.pushPairs lhs.leaves rhs.leaves fun l r => strictly strict (r.minus l) := by
  have hite : ∀ {c : Bool} {x : Guard}, (if c = true then (false, g) else (true, x)) = (true, g') →
      c = false ∧ g' = x := by
    intro c x hx
    cases c with
    | true => cases hx
    | false =>
      cases hx
      exact ⟨rfl, rfl⟩
  cases p with
  | eq =>
    refine .inl ⟨rfl, ?_⟩
    obtain ⟨ls, lmin, lmax⟩ := lhs
    obtain ⟨rs, rmin, rmax⟩ := rhs
    cases ls with
    | nil => cases h
    | cons l ls =>
      cases rs with
      | nil => cases h
      | cons r rs =>
        obtain ⟨hflags, rfl⟩ := hite h
        simp only [Bool.or_eq_false_iff] at hflags
        exact ⟨l, List.mem_cons_self, r, List.mem_cons_self, hflags.1.1.1, hflags.1.1.2, hflags.1.2,
          hflags.2, rfl⟩
  | sge =>
    obtain ⟨hflags, rfl⟩ := hite h
    rw [Bool.or_eq_false_iff] at hflags
    exact .inr (.inl ⟨false, rfl, hflags.1, hflags.2, rfl⟩)
  | sgt =>
    obtain ⟨hflags, rfl⟩ := hite h
    rw [Bool.or_eq_false_iff] at hflags
    exact .inr (.inl ⟨true, rfl, hflags.1, hflags.2, rfl⟩)
  | sle =>
    obtain ⟨hflags, rfl⟩ := hite h
    rw [Bool.or_eq_false_iff] at hflags
    exact .inr (.inr ⟨false, rfl, hflags.1, hflags.2, rfl⟩)
  | slt =>
    obtain ⟨hflags, rfl⟩ := hite h
    rw [Bool.or_eq_false_iff] at hflags
    exact .inr (.inr ⟨true, rfl, hflags.1, hflags.2, rfl⟩)
  | _ => cases h

theorem addComparison_operands : g.operands ⊆ g'.operands := by
  obtain ⟨_, l, _, r, _, _, _, _, _, rfl⟩ | ⟨strict, _, _, _, rfl⟩ | ⟨strict, _, _, _, rfl⟩ :=
    addComparison_true h
  · exact List.subset_append_left _ _
  · exact fun x hx => Guard.mem_pushPairs_operands.2 (.inl hx)
  · exact fun x hx => Guard.mem_pushPairs_operands.2 (.inl hx)

/-- Leaves of the sides of an ordering comparison are operands of the guard. -/
theorem addComparison_leaves (hp : p ≠ .eq) {l r : ValueRef} (hl : l ∈ lhs.leaves)
    (hr : r ∈ rhs.leaves) : l ∈ g'.operands ∧ r ∈ g'.operands := by
  obtain ⟨heq, _⟩ | ⟨strict, _, _, _, rfl⟩ | ⟨strict, _, _, _, rfl⟩ := addComparison_true h
  · exact absurd heq hp
  all_goals
    exact ⟨Guard.mem_pushPairs_operands.2 (.inr ⟨l, hl, r, hr, .inl rfl⟩),
      Guard.mem_pushPairs_operands.2 (.inr ⟨l, hl, r, hr, .inr rfl⟩)⟩

/-- The constraints of a comparison hold exactly if the comparison is true. -/
theorem addComparison_exact (hg : g.Valued rho) (hl : lhs.Stands rho v) (hr : rhs.Stands rho w) :
    g'.Valued rho ∧
      (g'.Holds rho ↔ g.Holds rho ∧ p.holds (rho v) (rho w) = true) := by
  obtain ⟨rfl, l, hlmem, r, hrmem, hlmin, hlmax, hrmin, hrmax, rfl⟩ |
    ⟨strict, rfl, hmax, hmin, rfl⟩ | ⟨strict, rfl, hmin, hmax, rfl⟩ := addComparison_true h
  · obtain ⟨hvalued, hholds⟩ := Guard.push_holds hg (builds_minus false) l r .equal
    refine ⟨hvalued, hholds.trans (and_congr_right fun _ => ?_)⟩
    rw [hl.leaf_eq hlmin hlmax hlmem, hr.leaf_eq hrmin hrmax hrmem]
    simp only [Relation.HoldsOf, Predicate.holds, beq_iff_eq, ← Int64.toInt_inj]
    constructor <;> intro heq <;> simp at heq ⊢ <;> omega
  · obtain ⟨hvalued, hholds⟩ := Guard.pushPairs_holds hg (builds_minus strict) lhs.leaves rhs.leaves
    refine ⟨hvalued, hholds.trans (and_congr_right fun _ => ?_)⟩
    have habove := hl.above_iff hr hmax hmin (if strict then 1 else 0)
    cases strict <;>
      simp only [Predicate.holds, if_true, Bool.false_eq_true, if_false, decide_eq_true_eq]
        at habove ⊢
    · rw [← Int.add_zero (rho w).toInt, habove]
      exact forall₂_congr fun l _ => forall₂_congr fun r _ => by omega
    · rw [Int.lt_iff_add_one_le, habove]
      exact forall₂_congr fun l _ => forall₂_congr fun r _ => by omega
  · obtain ⟨hvalued, hholds⟩ := Guard.pushPairs_holds hg (builds_minus_swapped strict) lhs.leaves
      rhs.leaves
    refine ⟨hvalued, hholds.trans (and_congr_right fun _ => ?_)⟩
    have habove := hr.above_iff hl hmax hmin (if strict then 1 else 0)
    cases strict <;>
      simp only [Predicate.holds, if_true, Bool.false_eq_true, if_false, decide_eq_true_eq]
        at habove ⊢
    · rw [← Int.add_zero (rho v).toInt, habove]
      exact ⟨fun h r hr l hl => by have := h l hl r hr; omega,
        fun h l hl r hr => by have := h r hr l hl; omega⟩
    · rw [Int.lt_iff_add_one_le, habove]
      exact ⟨fun h r hr l hl => by have := h l hl r hr; omega,
        fun h l hl r hr => by have := h r hr l hl; omega⟩

end AddComparison

theorem addComparison_false {g g' : Guard} {p : Predicate} {lhs rhs : MinMax}
    (h : addComparison g p lhs rhs = (false, g')) : g' = g := by
  have hite : ∀ {c : Bool} {x : Guard}, (if c = true then (false, g) else (true, x)) = (false, g') →
      g' = g := by
    intro c x hx
    cases c with
    | true => exact (congrArg Prod.snd hx).symm
    | false => cases hx
  obtain ⟨ls, lmin, lmax⟩ := lhs
  obtain ⟨rs, rmin, rmax⟩ := rhs
  cases p with
  | eq =>
    cases ls with
    | nil => exact (congrArg Prod.snd h).symm
    | cons l ls =>
      cases rs with
      | nil => exact (congrArg Prod.snd h).symm
      | cons r rs => exact hite h
  | sge | sgt | sle | slt => exact hite h
  | _ => exact (congrArg Prod.snd h).symm

/-- A comparison that was looked at was added with its flattened sides, or nothing was. -/
theorem guardComparison_ok {g g' : Guard} {cmp : OpRef} {added : Bool}
    (h : guardComparison s g cmp = .ok (added, g')) :
    (added = false ∧ g' = g) ∨ ∃ d a b lhs rhs p, s.op? cmp = some d ∧
      d.operands[0]? = some a ∧ d.operands[1]? = some b ∧ flatten? s a = .ok (some lhs) ∧
      flatten? s b = .ok (some rhs) ∧
      ((d.attrs.get? "predicate").bind Attr.symbol?).bind Predicate.ofName? = some p ∧
      (p.isUnsigned = true → ∀ l ∈ lhs.leaves ++ rhs.leaves, isNonNegative s l = .ok true) ∧
      addComparison g p.signed lhs rhs = (added, g') := by
  simp only [guardComparison, except_bind_ok, operand_ok] at h
  obtain ⟨a, ⟨d, hd, ha⟩, lhs?, hlhs, b, ⟨d', hd', hb⟩, rhs?, hrhs, p?, hp, h⟩ := h
  cases hd.symm.trans hd'
  simp only [cmpPredicate?, except_bind_ok, attr?_ok, except_pure, Except.ok.injEq] at hp
  obtain ⟨_, ⟨d'', hd'', rfl⟩, hp⟩ := hp
  cases hd.symm.trans hd''
  cases lhs? with
  | none =>
    cases h
    exact .inl ⟨rfl, rfl⟩
  | some lhs =>
    cases rhs? with
    | none =>
      cases h
      exact .inl ⟨rfl, rfl⟩
    | some rhs =>
      cases p? with
      | none =>
        cases h
        exact .inl ⟨rfl, rfl⟩
      | some p =>
        -- the test of the signs comes before anything is added
        have hrest : ∀ comparable : Bool,
            (if comparable = true then pure (addComparison g p.signed lhs rhs)
              else pure (false, g) : Except Fault (Bool × Guard)) = .ok (added, g') →
            (added = false ∧ g' = g) ∨
              (comparable = true ∧ addComparison g p.signed lhs rhs = (added, g')) := by
          intro comparable hadd
          cases comparable with
          | false =>
            cases hadd
            exact .inl ⟨rfl, rfl⟩
          | true => exact .inr ⟨rfl, Except.ok.inj hadd⟩
        cases hunsigned : p.isUnsigned with
        | false =>
          simp only [hunsigned, Bool.false_eq_true, if_false] at h
          refine (hrest true h).imp id ?_
          rintro ⟨-, hadd⟩
          exact ⟨d, a, b, lhs, rhs, p, hd, ha, hb, hlhs, hrhs, hp, by simp [hunsigned], hadd⟩
        | true =>
          simp only [hunsigned, if_true, except_bind_ok] at h
          obtain ⟨comparable, hall, h⟩ := h
          refine (hrest comparable h).imp id ?_
          rintro ⟨rfl, hadd⟩
          exact ⟨d, a, b, lhs, rhs, p, hd, ha, hb, hlhs, hrhs, hp,
            fun _ l hl => allInOrder_true hall l hl, hadd⟩

/-! ## Conditions -/

/-- A truth value as a word: false, true, or true in every bit. -/
def IsTruth (w : Int64) : Prop := w = 0 ∨ w = 1 ∨ w = -1

theorem IsTruth.and {a b : Int64} (ha : IsTruth a) (hb : IsTruth b) :
    IsTruth (a &&& b) ∧ (a &&& b ≠ 0 ↔ a ≠ 0 ∧ b ≠ 0) := by
  rcases ha with rfl | rfl | rfl <;> rcases hb with rfl | rfl | rfl <;> unfold IsTruth <;> decide

theorem foldl_and_truth (vs : List ValueRef) : ∀ {w : Int64}, IsTruth w →
    (∀ v ∈ vs, IsTruth (rho v)) → IsTruth (vs.foldl (fun w v => w &&& rho v) w) ∧
      (vs.foldl (fun w v => w &&& rho v) w ≠ 0 ↔ w ≠ 0 ∧ ∀ v ∈ vs, rho v ≠ 0) := by
  induction vs with
  | nil => exact fun hw _ => ⟨hw, by simp⟩
  | cons v vs ih =>
    intro w hw hvs
    obtain ⟨hv, hvs⟩ := List.forall_mem_cons.1 hvs
    obtain ⟨htruth, hand⟩ := hw.and hv
    obtain ⟨htruth', hall⟩ := ih htruth hvs
    refine ⟨htruth', hall.trans ?_⟩
    rw [hand, List.forall_mem_cons, and_assoc]

section Conditions

variable (hrho : Decided s rho) {g g' : Guard}

/-- The leaves that are found not to be negative are not. -/
def SignsHold (s : Store) (rho : ValueRef → Int64) (g : Guard) : Prop :=
  ∀ v ∈ g.operands, isNonNegative s v = .ok true → 0 ≤ (rho v).toInt

theorem SignsHold.mono (h : SignsHold s rho g') (hsub : g.operands ⊆ g'.operands) :
    SignsHold s rho g :=
  fun v hv => h v (hsub hv)

theorem guardComparison_operands {cmp : OpRef} (h : guardComparison s g cmp = .ok (true, g')) :
    g.operands ⊆ g'.operands := by
  obtain ⟨hfalse, _⟩ | ⟨_, _, _, _, _, _, _, _, _, _, _, _, _, hadd⟩ := guardComparison_ok h
  · cases hfalse
  · exact addComparison_operands hadd

/-- A value of a level that is lowered is the result of a comparison, whose constraints are added,
or of a conjunction, whose operands are left to do. -/
theorem guardLevel_cons {v : ValueRef} {level next next' : List ValueRef}
    (h : guardLevel s g next (v :: level) = .ok (some (g', next'))) :
    ∃ o kind, s.definingOp? v = .ok (some o) ∧ arithKind? s o = .ok (some kind) ∧
      ((∃ g₁, kind = .cmp ∧ guardComparison s g o = .ok (true, g₁) ∧
          guardLevel s g₁ next level = .ok (some (g', next'))) ∨
        ∃ operands, kind = .and ∧ s.operandsOf o = .ok operands ∧
          guardLevel s g (next ++ operands) level = .ok (some (g', next'))) := by
  simp only [guardLevel, except_bind_ok] at h
  obtain ⟨o?, ho, h⟩ := h
  cases o? with
  | none => simp at h
  | some o =>
    simp only [except_bind_ok] at h
    obtain ⟨kind, hkind, h⟩ := h
    split at h
    · simp only [except_bind_ok] at h
      obtain ⟨⟨added, g₁⟩, hcmp, h⟩ := h
      cases added with
      | false => simp at h
      | true => exact ⟨o, .cmp, ho, hkind, .inl ⟨g₁, rfl, hcmp, h⟩⟩
    · simp only [except_bind_ok] at h
      obtain ⟨operands, hoperands, h⟩ := h
      exact ⟨o, .and, ho, hkind, .inr ⟨operands, rfl, hoperands, h⟩⟩
    · simp at h

/-- A level is lowered before what it leaves to do. -/
theorem guardLevels_cons {n : Nat} {v : ValueRef} {level : List ValueRef}
    (h : guardLevels s (n + 1) g (v :: level) = .ok (some g')) :
    ∃ g₁ next, guardLevel s g [] (v :: level) = .ok (some (g₁, next)) ∧
      guardLevels s n g₁ next = .ok (some g') := by
  simp only [guardLevels, except_bind_ok] at h
  obtain ⟨found, hfound, h⟩ := h
  cases found with
  | none => simp at h
  | some found => exact ⟨found.1, found.2, hfound, h⟩

include hrho

/-- The result of a comparison is true exactly if the constraints that were added hold. -/
theorem guardComparison_exact {cmp : OpRef} {v : ValueRef} {k : Nat} (hg : g.Valued rho)
    (hv : s.originOf v = some (.result cmp k)) (hkind : arithKind? s cmp = .ok (some .cmp))
    (h : guardComparison s g cmp = .ok (true, g')) (hsigns : SignsHold s rho g') :
    g'.Valued rho ∧ IsTruth (rho v) ∧ (g'.Holds rho ↔ g.Holds rho ∧ rho v ≠ 0) := by
  obtain ⟨hfalse, _⟩ | ⟨d, a, b, lhs, rhs, p, hd, ha, hb, hlhs, hrhs, hp, hleaves, hadd⟩ :=
    guardComparison_ok h
  · cases hfalse
  obtain ⟨d', hd', hname⟩ := arithKind?_ok.1 hkind
  cases hd.symm.trans hd'
  have hword := hrho v cmp k d (if p.holds (rho a) (rho b) then 1 else 0) hv hd
    (by simp [givenWord?, hname, ha, hb, hp])
  have hl := flatten?_stands hrho hlhs
  have hr := flatten?_stands hrho hrhs
  have hsigned : p.signed.holds (rho a) (rho b) = p.holds (rho a) (rho b) := by
    refine Predicate.holds_signed fun hunsigned => ?_
    have hne : p.signed ≠ .eq := by
      cases p <;> simp [Predicate.isUnsigned] at hunsigned <;> simp [Predicate.signed]
    -- each side has the word of a leaf, which is an operand of the guard
    obtain ⟨l, hlmem, hla⟩ := hl.leaf
    obtain ⟨r, hrmem, hrb⟩ := hr.leaf
    obtain ⟨hlop, hrop⟩ := addComparison_leaves hadd hne hlmem hrmem
    rw [← hla, ← hrb]
    exact ⟨hsigns l hlop (hleaves hunsigned l (List.mem_append_left _ hlmem)),
      hsigns r hrop (hleaves hunsigned r (List.mem_append_right _ hrmem))⟩
  obtain ⟨hvalued, hholds⟩ := addComparison_exact hadd hg hl hr
  rw [hsigned] at hholds
  refine ⟨hvalued, ?_, hholds.trans (and_congr_right fun _ => ?_)⟩
  · rw [hword]
    split
    · exact .inr (.inl rfl)
    · exact .inl rfl
  · rw [hword]
    split <;> simp_all

omit hrho in
theorem guardLevel_operands (level : List ValueRef) : ∀ {g g' : Guard} {next next' : List ValueRef},
    guardLevel s g next level = .ok (some (g', next')) → g.operands ⊆ g'.operands := by
  induction level with
  | nil =>
    intro g g' next next' h
    cases h
    exact List.Subset.refl _
  | cons v level ih =>
    intro g g' next next' h
    obtain ⟨o, _, _, _, ⟨g₁, _, hcmp, h⟩ | ⟨_, _, _, h⟩⟩ := guardLevel_cons h
    · exact List.Subset.trans (guardComparison_operands hcmp) (ih h)
    · exact ih h

omit hrho in
theorem guardLevels_operands (n : Nat) : ∀ {g g' : Guard} {level : List ValueRef},
    guardLevels s n g level = .ok (some g') → g.operands ⊆ g'.operands := by
  induction n with
  | zero =>
    intro g g' level h
    cases level with
    | nil =>
      cases h
      exact List.Subset.refl _
    | cons v level => cases h
  | succ n ih =>
    intro g g' level h
    cases level with
    | nil =>
      cases h
      exact List.Subset.refl _
    | cons v level =>
      obtain ⟨g₁, next, hfound, h⟩ := guardLevels_cons h
      exact List.Subset.trans (guardLevel_operands _ hfound) (ih h)

/-- One level: what was added and what is left to do are true together exactly if the level is. -/
theorem guardLevel_exact (level : List ValueRef) : ∀ {g g' : Guard} {next next' : List ValueRef},
    g.Valued rho → guardLevel s g next level = .ok (some (g', next')) → SignsHold s rho g' →
    g'.Valued rho ∧ ((∀ v ∈ next', IsTruth (rho v)) → (∀ v ∈ next ++ level, IsTruth (rho v)) ∧
      ((g'.Holds rho ∧ ∀ v ∈ next', rho v ≠ 0) ↔
        g.Holds rho ∧ ∀ v ∈ next ++ level, rho v ≠ 0)) := by
  induction level with
  | nil =>
    intro g g' next next' hg h hsigns
    cases h
    rw [List.append_nil]
    exact ⟨hg, fun htruth => ⟨htruth, Iff.rfl⟩⟩
  | cons v level ih =>
    intro g g' next next' hg h hsigns
    obtain ⟨o, kind, ho, hkind, ⟨g₁, rfl, hcmp, h⟩ | ⟨operands, rfl, hoperands, h⟩⟩ :=
      guardLevel_cons h
    · obtain ⟨k, hv⟩ := definingOp?_some ho
      have hsigns₁ := hsigns.mono (guardLevel_operands level h)
      obtain ⟨hg₁, hvtruth, hadded⟩ := guardComparison_exact hrho hg hv hkind hcmp hsigns₁
      obtain ⟨hg', hrest⟩ := ih hg₁ h hsigns
      refine ⟨hg', fun htruth => ?_⟩
      obtain ⟨hrest, hholds⟩ := hrest htruth
      simp only [List.forall_mem_append, List.forall_mem_cons] at hrest hholds ⊢
      refine ⟨⟨hrest.1, hvtruth, hrest.2⟩, hholds.trans ?_⟩
      rw [hadded]
      constructor
      · rintro ⟨⟨hg, hv⟩, hnext, hlevel⟩
        exact ⟨hg, hnext, hv, hlevel⟩
      · rintro ⟨hg, hnext, hv, hlevel⟩
        exact ⟨⟨hg, hv⟩, hnext, hlevel⟩
    · obtain ⟨k, hv⟩ := definingOp?_some ho
      obtain ⟨d, hd, rfl⟩ := operandsOf_ok.1 hoperands
      obtain ⟨d', hd', hname⟩ := arithKind?_ok.1 hkind
      cases hd.symm.trans hd'
      have hword := hrho v o k d _ hv hd (by rw [givenWord?, hname])
      obtain ⟨hg', hrest⟩ := ih hg h hsigns
      refine ⟨hg', fun htruth => ?_⟩
      obtain ⟨hrest, hholds⟩ := hrest htruth
      simp only [List.forall_mem_append, List.forall_mem_cons] at hrest hholds ⊢
      -- the operands are left to do, and their conjunction is the word of the value
      obtain ⟨hvtruth, hand⟩ := foldl_and_truth d.operands (.inr (.inr rfl)) hrest.1.2
      rw [← hword] at hvtruth hand
      refine ⟨⟨hrest.1.1, hvtruth, hrest.2⟩, hholds.trans ?_⟩
      rw [hand]
      constructor
      · rintro ⟨hg, ⟨hnext, hall⟩, hlevel⟩
        exact ⟨hg, hnext, ⟨by decide, hall⟩, hlevel⟩
      · rintro ⟨hg, hnext, ⟨-, hall⟩, hlevel⟩
        exact ⟨hg, ⟨hnext, hall⟩, hlevel⟩

/-- All levels. -/
theorem guardLevels_exact (n : Nat) : ∀ {g g' : Guard} {level : List ValueRef}, g.Valued rho →
    guardLevels s n g level = .ok (some g') → SignsHold s rho g' →
    g'.Valued rho ∧ (∀ v ∈ level, IsTruth (rho v)) ∧
      (g'.Holds rho ↔ g.Holds rho ∧ ∀ v ∈ level, rho v ≠ 0) := by
  induction n with
  | zero =>
    intro g g' level hg h hsigns
    cases level with
    | nil =>
      cases h
      exact ⟨hg, by simp, by simp⟩
    | cons v level => cases h
  | succ n ih =>
    intro g g' level hg h hsigns
    cases level with
    | nil =>
      cases h
      exact ⟨hg, by simp, by simp⟩
    | cons v level =>
      obtain ⟨g₁, next, hfound, h⟩ := guardLevels_cons h
      have hsigns₁ := hsigns.mono (guardLevels_operands n h)
      obtain ⟨hg₁, hlevel⟩ := guardLevel_exact hrho _ hg hfound hsigns₁
      obtain ⟨hg', htruth, hholds⟩ := ih hg₁ h hsigns
      obtain ⟨htruth', hlevel⟩ := hlevel htruth
      rw [List.nil_append] at htruth' hlevel
      exact ⟨hg', htruth', hholds.trans hlevel⟩

end Conditions

/-! ## Flattening and lowering come to an end -/

theorem orderedChoice?_ends (s : Store) (v : ValueRef) : Ends (orderedChoice? s v) := by
  refine (definingOp?_ends s v).bind fun select? _ => ?_
  cases select? with
  | none => exact .pure _
  | some select =>
    refine (isNamed_ends s select _).bind fun _ _ => .ite (fun _ => .pure _) fun _ => ?_
    refine (operand_ends s select 0).bind fun c _ => (definingOp?_ends s c).bind fun cmp? _ => ?_
    cases cmp? with
    | none => exact .pure _
    | some cmp =>
      have hsides : Ends (comparison s cmp) :=
        (operand_ends s cmp 0).bind fun _ _ => (operand_ends s cmp 1).bind fun _ _ => .pure _
      refine (isNamed_ends s cmp _).bind fun _ _ => .ite (fun _ => .pure _) fun _ => ?_
      refine hsides.bind fun sides _ => ?_
      refine (operand_ends s select 1).bind fun _ _ => .ite (fun _ => .pure _) fun _ => ?_
      refine (operand_ends s select 2).bind fun _ _ => .ite (fun _ => .pure _) fun _ => ?_
      exact (cmpPredicate?_ends s cmp).bind fun _ _ => .pure _

namespace Ranks

variable {rank : OpRef → Nat} (h : Ranks s rank)

include h

/-- The sides of a choice are of a lower rank. -/
theorem choice_lt {v : ValueRef} {choice : OrderedChoice}
    (hchoice : orderedChoice? s v = .ok (some choice)) :
    valueRank s rank choice.lhs < valueRank s rank v ∧
      valueRank s rank choice.rhs < valueRank s rank v := by
  obtain ⟨select, k, sd, _, _, _, _, _, hv, hsd, _, _, hl, hr, _⟩ := orderedChoice?_some hchoice
  have hrank : valueRank s rank v = rank select := by rw [valueRank, hv]
  rw [hrank]
  exact ⟨h.operand_lt hsd (List.mem_of_getElem? hl), h.operand_lt hsd (List.mem_of_getElem? hr)⟩

theorem flattenFuel_ends (n : Nat) :
    ∀ v : ValueRef, valueRank s rank v < n → Ends (flattenFuel s n v) := by
  induction n with
  | zero => intro v hv; omega
  | succ n ih =>
    intro v hv
    refine (h.isIndex_ends v).bind fun _ _ => .ite (fun _ => .pure _) fun _ => ?_
    refine (orderedChoice?_ends s v).bind fun choice? hchoice => ?_
    cases choice? with
    | none => exact .pure _
    | some choice =>
      obtain ⟨hleft, hright⟩ := h.choice_lt hchoice
      refine (ih choice.lhs (by omega)).bind fun left? _ => ?_
      cases left? with
      | none => exact .pure _
      | some left =>
        refine (ih choice.rhs (by omega)).bind fun right? _ => ?_
        cases right? <;> exact .pure _

theorem flatten?_ends (v : ValueRef) : Ends (flatten? s v) :=
  (h.flattenFuel_ends _ v (h.value_bound v)).bind fun _ _ => .pure _

theorem guardComparison_ends (g : Guard) (cmp : OpRef) : Ends (guardComparison s g cmp) := by
  refine (operand_ends s cmp 0).bind fun a _ => (h.flatten?_ends a).bind fun lhs? _ => ?_
  refine (operand_ends s cmp 1).bind fun b _ => (h.flatten?_ends b).bind fun rhs? _ => ?_
  refine (cmpPredicate?_ends s cmp).bind fun p? _ => ?_
  cases lhs? with
  | none => exact .pure _
  | some lhs =>
    cases rhs? with
    | none => exact .pure _
    | some rhs =>
      cases p? with
      | none => exact .pure _
      | some p =>
        have hrest : ∀ comparable : Bool, Ends (if comparable = true then
            pure (addComparison g p.signed lhs rhs) else pure (false, g)) := fun _ =>
          .ite (fun _ => .pure _) fun _ => .pure _
        refine .ite (fun _ => ?_) fun _ => hrest true
        exact (Ends.allInOrder fun v _ => h.isNonNegative_ends v).bind fun c _ => hrest c

theorem guardLevel_ends (level : List ValueRef) :
    ∀ (g : Guard) (next : List ValueRef), Ends (guardLevel s g next level) := by
  induction level with
  | nil => exact fun _ _ => .pure _
  | cons v level ih =>
    intro g next
    refine (definingOp?_ends s v).bind fun o? _ => ?_
    cases o? with
    | none => exact .pure _
    | some o =>
      refine (arithKind?_ends s o).bind fun kind _ => ?_
      split
      · refine (h.guardComparison_ends g o).bind fun added _ => ?_
        obtain ⟨added, g'⟩ := added
        cases added with
        | false => exact .pure _
        | true => exact ih g' next
      · exact (operandsOf_ends s o).bind fun operands _ => ih g _
      · exact .pure _

/-- What a level leaves to do is of a lower rank than something of the level. -/
theorem guardLevel_next (level : List ValueRef) : ∀ {g g' : Guard} {next next' : List ValueRef},
    guardLevel s g next level = .ok (some (g', next')) → ∀ w ∈ next', w ∈ next ∨
      ∃ v ∈ level, valueRank s rank w < valueRank s rank v := by
  induction level with
  | nil =>
    intro g g' next next' hrun w hw
    cases hrun
    exact .inl hw
  | cons v level ih =>
    intro g g' next next' hrun w hw
    have hlater : (∃ x ∈ level, valueRank s rank w < valueRank s rank x) →
        ∃ x ∈ v :: level, valueRank s rank w < valueRank s rank x := fun ⟨x, hx, hlt⟩ =>
      ⟨x, List.mem_cons_of_mem v hx, hlt⟩
    simp only [guardLevel, except_bind_ok] at hrun
    obtain ⟨o?, ho, hrun⟩ := hrun
    cases o? with
    | none => simp at hrun
    | some o =>
      simp only [except_bind_ok] at hrun
      obtain ⟨kind, _, hrun⟩ := hrun
      split at hrun
      · simp only [except_bind_ok] at hrun
        obtain ⟨⟨added, g₁⟩, _, hrun⟩ := hrun
        cases added with
        | false => simp at hrun
        | true => exact (ih hrun w hw).imp_right hlater
      · simp only [except_bind_ok] at hrun
        obtain ⟨operands, hoperands, hrun⟩ := hrun
        rcases ih hrun w hw with hw | hw
        · rcases List.mem_append.1 hw with hw | hw
          · exact .inl hw
          · have hlt := h.operandsOf_lt hoperands hw
            exact .inr ⟨v, List.mem_cons_self, by rwa [value_eq rank ho]⟩
        · exact .inr (hlater hw)
      · simp at hrun

theorem guardLevels_ends (n : Nat) : ∀ (g : Guard) (level : List ValueRef),
    (∀ v ∈ level, valueRank s rank v < n) → Ends (guardLevels s n g level) := by
  induction n with
  | zero =>
    intro g level hlevel
    cases level with
    | nil => exact .pure _
    | cons v level => exact absurd (hlevel v List.mem_cons_self) (Nat.not_lt_zero _)
  | succ n ih =>
    intro g level hlevel
    cases level with
    | nil => exact .pure _
    | cons v level =>
      refine (h.guardLevel_ends (v :: level) g []).bind fun found hfound => ?_
      cases found with
      | none => exact .pure _
      | some found =>
        refine ih _ _ fun w hw => ?_
        obtain hw | ⟨x, hx, hlt⟩ := h.guardLevel_next _ hfound w hw
        · cases hw
        · have := hlevel x hx
          omega

theorem lowerCondition?_ends (condition : ValueRef) : Ends (lowerCondition? s condition) :=
  h.guardLevels_ends _ _ _ fun v _ => h.value_bound v

end Ranks

/-! ## Exactness -/

/-- Where no operation needs itself, flattening and lowering come to an end.  A comparison that is
not added leaves the guard as it was.  And where a condition has a guard, every assignment of words
that decides comparisons, conjunctions and selections, and under which the operands that are found
not to be negative are not, gives each constraint a value over the integers, and makes the condition
true exactly if all constraints hold. -/
theorem guard_lowering_exact (hs : AcyclicDefinitions s) (condition : ValueRef) :
    Ends (lowerCondition? s condition) ∧ (∀ v, Ends (flatten? s v)) ∧
      (∀ g g' cmp, guardComparison s g cmp = .ok (false, g') → g' = g) ∧
      ∀ g, lowerCondition? s condition = .ok (some g) → ∀ rho, Decided s rho →
        (∀ v ∈ g.operands, isNonNegative s v = .ok true → 0 ≤ (rho v).toInt) →
        (∀ c ∈ g.toSet.set.constraints, ∃ x, c.expr.meaning []
          (g.toSet.operands.map fun v => (rho v).toInt) = some x) ∧
        (rho condition ≠ 0 ↔ g.toSet.Holds rho) := by
  refine ⟨hs.ranks.lowerCondition?_ends condition, hs.ranks.flatten?_ends, ?_, ?_⟩
  · intro g g' cmp h
    obtain ⟨_, hsame⟩ | ⟨_, _, _, _, _, _, _, _, _, _, _, _, _, hadd⟩ := guardComparison_ok h
    · exact hsame
    · exact addComparison_false hadd
  · intro g h rho hrho hsigns
    have hempty : Guard.empty.Valued rho := ⟨rfl, fun c hc => nomatch hc⟩
    obtain ⟨hvalued, _, hholds⟩ := guardLevels_exact hrho _ hempty h hsigns
    have hnone : Guard.empty.Holds rho := fun c hc => nomatch hc
    refine ⟨hvalued.value, ?_⟩
    rw [Guard.toSet_holds, hholds, List.forall_mem_singleton, and_iff_right hnone]

/-- Whether every value of a store has the word that its definition gives it. -/
def decides (s : Store) (rho : ValueRef → Int64) : Bool :=
  (List.range s.values.size).all fun i =>
    match s.originOf ⟨i⟩ with
    | some (.result o _) => (s.op? o).all fun d => (givenWord? rho d).all (rho ⟨i⟩ == ·)
    | _ => true

theorem Decided.of_check (h : decides s rho = true) : Decided s rho := by
  intro v o k d x hv hd hx
  obtain ⟨vd, hvd, _⟩ := Option.map_eq_some_iff.1 hv
  have hlt : v.index < s.values.size := (Array.getElem?_eq_some_iff.1 hvd).1
  have hcheck := List.all_eq_true.1 h v.index (List.mem_range.2 hlt)
  rw [show (⟨v.index⟩ : ValueRef) = v from rfl, hv] at hcheck
  simpa [hd, hx] using hcheck

/-- In a loop from 0, `min i a ≥ k` and `i < n` as unsigned numbers. -/
theorem bounded_minimum_lowered :
    let attributed (kind : ArithKind) (result : String) (operands : List String) (ty : Ty)
        (attr : String × Attr) : Surface.Op :=
      .mk ⟨[result], "arith", kind.name, none, [], operands, [], none, [attr], [ty]⟩ []
    let compared (result l r : String) (p : Predicate) : Surface.Op :=
      attributed .cmp result [l, r] .i1 ("predicate", .symbol p.name)
    let constant (result : String) (c : Int64) : Surface.Op :=
      attributed .const result [] .index ("value", .int c)
    let body := [constant "k" 2, constant "n" 8, compared "c" "i" "a" .slt,
      .plain ArithKind.select.opName ["m"] ["c", "i", "a"] [.index] [],
      compared "p" "m" "k" .sge, compared "q" "i" "n" .ult,
      .plain ArithKind.and.opName ["both"] ["p", "q"] [.i1] [],
      .plain ⟨"test", "use"⟩ [] ["both"] [] []]
    let loop := Surface.Op.mk ⟨[], "affine", "for", none, [], [], [], none,
      [("lower_bound", .map ⟨0, 0, [.const 0]⟩)], []⟩ [.mk [.mk "body" [⟨"i", .index⟩] body]]
    let tree := Surface.Op.program [⟨"a", .index⟩] [loop]
    ∃ root scope s g, tree.oneBlock = true ∧
      buildOp Scope.empty tree Store.empty = .ok (.ok (root, scope), s) ∧
      lowerCondition? s ⟨8⟩ = .ok (some g) ∧ g.operands = [⟨1⟩, ⟨2⟩, ⟨0⟩, ⟨2⟩, ⟨1⟩, ⟨3⟩] ∧
      decides s (fun v => [5, 3, 2, 8, 1, 3, 1, 1, 1].getD v.index 0) = true :=
  ⟨⟨10⟩, _, _, _, by cbv, by cbv, by cbv, by cbv, by cbv⟩

theorem guard_lowering_exact_bounded_minimum :
    ∃ s g, AcyclicDefinitions s ∧ lowerCondition? s ⟨8⟩ = .ok (some g) ∧
      ∃ rho, Decided s rho ∧ rho ⟨8⟩ ≠ 0 ∧
        g.operands.map (fun v => (rho v).toInt) = [3, 2, 5, 2, 3, 8] ∧ g.toSet.Holds rho := by
  obtain ⟨root, scope, s, g, hone, hbuild, hg, hoperands, hdecides⟩ := bounded_minimum_lowered
  have hs : AcyclicDefinitions s := .of_sees (kept_of_read hbuild).linked (acyclic_of_read hbuild)
    fun x d v hx hv => sees_of_read hbuild hone hx hv
  have hrho := Decided.of_check hdecides
  have hsigns : ∀ v ∈ g.operands,
      0 ≤ (([5, 3, 2, 8, 1, 3, 1, 1, 1] : List Int64).getD v.index 0).toInt := by
    rw [hoperands]
    decide
  obtain ⟨_, _, _, hexact⟩ := guard_lowering_exact hs ⟨8⟩
  obtain ⟨_, hiff⟩ := hexact g hg _ hrho fun v hv _ => hsigns v hv
  exact ⟨s, g, hs, hg, _, hrho, by decide, by rw [hoperands]; decide, hiff.1 (by decide)⟩

end AffineRaising.Raise
