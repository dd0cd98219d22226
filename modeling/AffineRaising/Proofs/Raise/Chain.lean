/-
# AffineRaising.Proofs.Raise.Chain — assignments that satisfy definitions.

An assignment gives every value an integer.  It satisfies a value if the operation or the loop that
defines the value allows its integer.  The chain of a value holds the value, the operands of its
definition, theirs, and so on.  Where an assignment satisfies a chain, what the analyses read off
the definitions is true of it: constants, signs, casts, shapes of arithmetic and applied maps.
-/
import AffineRaising.Proofs.Affine.Meaning
import AffineRaising.Proofs.Ops.Effect
import AffineRaising.Proofs.Store.UseChain
import AffineRaising.Raise.Compose

namespace AffineRaising.Raise

open AffineRaising.IR AffineRaising.IR.Store AffineRaising.Ops
open AffineRaising.Affine (Expr Map)

/-! ## Assignments -/

/-- Integers for all values. -/
abbrev Assignment := ValueRef → Int

/-- What operation `d` demands of the number `x` of its result.  Arithmetic is over unbounded
integers, signed quotients and remainders truncate, casts keep the number, and an application has
the value of its map.  Unsigned arithmetic reads words, so no number satisfies it here; operations
that are not listed demand nothing. -/
def OpHolds (rho : Assignment) (d : OpData) (x : Int) : Prop :=
  match ArithKind.ofName? d.name with
  | some .const => ∀ c, (d.attrs.get? "value").bind Attr.int? = some c → x = c.toInt
  | some .add => ∃ a b, d.operands = [a, b] ∧ x = rho a + rho b
  | some .sub => ∃ a b, d.operands = [a, b] ∧ x = rho a - rho b
  | some .mul => ∃ a b, d.operands = [a, b] ∧ x = rho a * rho b
  | some .divS => ∃ a b, d.operands = [a, b] ∧ x = (rho a).tdiv (rho b)
  | some .remS => ∃ a b, d.operands = [a, b] ∧ x = (rho a).tmod (rho b)
  | some .indexCast | some .extS => ∃ a, d.operands = [a] ∧ x = rho a
  | some .divU | some .remU | some .extU => False
  | some .and | some .cmp | some .select | some .trunc => True
  | none => d.name = applyName → ∀ m e, (d.attrs.get? "map").bind Attr.map? = some m →
      m.results = [e] → m.numInputs = d.operands.length →
      e.meaning ((d.operands.take m.numDims).map rho) ((d.operands.drop m.numDims).map rho) = some x

/-- What the owner of a block demands of the number `x` of argument `i`: an induction variable is at
least its lower bound if that is a constant. -/
def ArgHolds (d : OpData) (i : Nat) (x : Int) : Prop :=
  ∀ m, (d.attrs.get? BoundSide.lower.key).bind Attr.map? = some m →
    (d.name = forName → i = 0 → ∀ c, m.singleConstant? = some c → c.toInt ≤ x) ∧
    (d.name = parallelName → ∀ e c, m.results[i]? = some e → e.constant? = some c → c.toInt ≤ x)

/-- The definition of a value allows the number that it is assigned. -/
def Satisfied (s : Store) (rho : Assignment) (v : ValueRef) : Prop :=
  match s.originOf v with
  | some (.result o _) => ∀ d, s.op? o = some d → OpHolds rho d (rho v)
  | some (.argument b i) =>
    ∀ o d, s.blockOwner? b = .ok (some o) → s.op? o = some d → ArgHolds d i (rho v)
  | none => True

/-- Value `w` is an operand of the operation that defines `v`. -/
def Feeds (s : Store) (v w : ValueRef) : Prop :=
  ∃ o k d, s.originOf v = some (.result o k) ∧ s.op? o = some d ∧ w ∈ d.operands

/-- Value `w` is on the chain of definitions of `v`. -/
def Chain (s : Store) : ValueRef → ValueRef → Prop := Relation.ReflTransGen (Feeds s)

/-- The assignment satisfies every value on the chain of `v`. -/
def ChainHolds (s : Store) (rho : Assignment) (v : ValueRef) : Prop :=
  ∀ w, Chain s v w → Satisfied s rho w

/-! ## Readable values -/

/-- How a composition reads operation `d` with result number `x`: as `OpHolds` has it, and unsigned
arithmetic too, quotients and remainders by positive numbers as floor ones, extensions as casts of
numbers that are not negative. -/
def FoldHolds (rho : Assignment) (d : OpData) (x : Int) : Prop :=
  match ArithKind.ofName? d.name with
  | some .divU => ∃ a b, d.operands = [a, b] ∧ (0 < rho b → x = (rho a).fdiv (rho b))
  | some .remU => ∃ a b, d.operands = [a, b] ∧ (0 < rho b → x = rho a % rho b)
  | some .extU => ∃ a, d.operands = [a] ∧ x = rho a ∧ 0 ≤ x
  | _ => OpHolds rho d x

variable {s : Store} {rho : Assignment} {Q : ValueRef → Prop} {v w : ValueRef}

/-- What holds by definition holds as a composition reads it. -/
theorem OpHolds.fold {d : OpData} {x : Int} (h : OpHolds rho d x) : FoldHolds rho d x := by
  unfold FoldHolds
  split
  · rename_i hname
    simp only [OpHolds, hname] at h
  · rename_i hname
    simp only [OpHolds, hname] at h
  · rename_i hname
    simp only [OpHolds, hname] at h
  · exact h

/-- Values that can be read off their definitions: with each of them, the set holds the operands of
its definition, and its number is what a composition reads there. -/
structure Readable (s : Store) (rho : Assignment) (Q : ValueRef → Prop) : Prop where
  feeds : ∀ {v w}, Q v → Feeds s v w → Q w
  op : ∀ {v o k d}, Q v → s.originOf v = some (.result o k) → s.op? o = some d →
    FoldHolds rho d (rho v)
  argument : ∀ {v b i}, Q v → s.originOf v = some (.argument b i) →
    ∀ o d, s.blockOwner? b = .ok (some o) → s.op? o = some d → ArgHolds d i (rho v)

/-- The operands of a definition are readable with its result. -/
theorem Readable.operand (hQ : Readable s rho Q) (hv : Q v) {o : OpRef} {k : Nat} {d : OpData}
    (ho : s.originOf v = some (.result o k)) (hd : s.op? o = some d) (hw : w ∈ d.operands) : Q w :=
  hQ.feeds hv ⟨o, k, d, ho, hd, hw⟩

/-- The values whose chains an assignment satisfies are readable. -/
theorem ChainHolds.readable (s : Store) (rho : Assignment) : Readable s rho (ChainHolds s rho) where
  feeds hv hw x hx := hv x (.head hw hx)
  op {v} _ _ d hv ho hd := by
    have hsat := hv v .refl
    simp only [Satisfied, ho] at hsat
    exact (hsat d hd).fold
  argument {v} _ _ hv ho := by
    have hsat := hv v .refl
    simp only [Satisfied, ho] at hsat
    exact hsat

/-! ## Definitions -/

/-- An operation that is found to define a value has it as a result. -/
theorem definingOp?_some {o : OpRef} (h : s.definingOp? v = .ok (some o)) :
    ∃ k, s.originOf v = some (.result o k) := by
  obtain ⟨d, hd, ho⟩ := definingOp?_ok.1 h
  cases horigin : d.origin with
  | argument b i => simp [horigin, Origin.op?] at ho
  | result o' k =>
    simp only [horigin, Origin.op?, Option.some.injEq] at ho
    exact ⟨k, by simp [originOf, hd, horigin, ho]⟩

theorem definingOp?_of_result {o : OpRef} {k : Nat} (h : s.originOf v = some (.result o k)) :
    s.definingOp? v = .ok (some o) := by
  obtain ⟨d, hd, horigin⟩ := Option.map_eq_some_iff.1 h
  exact definingOp?_ok.2 ⟨d, hd, by rw [horigin]; rfl⟩

theorem arithKind?_ok {o : OpRef} {k : Option ArithKind} :
    arithKind? s o = .ok k ↔ ∃ d, s.op? o = some d ∧ ArithKind.ofName? d.name = k := by
  simp only [arithKind?, bind_pure_comp, except_map_ok, nameOf_ok]
  constructor
  · rintro ⟨n, ⟨d, hd, rfl⟩, hk⟩
    exact ⟨d, hd, hk⟩
  · rintro ⟨d, hd, hk⟩
    exact ⟨d.name, ⟨d, hd, rfl⟩, hk⟩

theorem isNamed_ok {o : OpRef} {n : OpName} {b : Bool} :
    isNamed s o n = .ok b ↔ ∃ d, s.op? o = some d ∧ (d.name == n) = b := by
  simp only [isNamed, bind_pure_comp, except_map_ok, nameOf_ok]
  constructor
  · rintro ⟨m, ⟨d, hd, rfl⟩, hb⟩
    exact ⟨d, hd, hb⟩
  · rintro ⟨d, hd, hb⟩
    exact ⟨d.name, ⟨d, hd, rfl⟩, hb⟩

theorem isNamed_of_kind {o : OpRef} {d : OpData} {kind : ArithKind} (hd : s.op? o = some d)
    (hkind : ArithKind.ofName? d.name = some kind) : isNamed s o kind.opName = .ok true :=
  isNamed_ok.2 ⟨d, hd, by
    have hname := List.find?_some hkind
    exact beq_iff_eq.2 (beq_iff_eq.1 hname).symm⟩

/-- A value is a constant if the operation that defines it is one with a number. -/
theorem constantOf?_some {c : Int64} (h : constantOf? s v = .ok (some c)) :
    ∃ o k d, s.originOf v = some (.result o k) ∧ s.op? o = some d ∧
      ArithKind.ofName? d.name = some .const ∧
      (d.attrs.get? "value").bind Attr.int? = some c := by
  simp only [constantOf?, except_bind_ok] at h
  obtain ⟨o?, ho, h⟩ := h
  cases o? with
  | none => simp at h
  | some o =>
    obtain ⟨k, horigin⟩ := definingOp?_some ho
    simp only [except_bind_ok] at h
    obtain ⟨kind, hkind, h⟩ := h
    obtain ⟨d, hd, hname⟩ := arithKind?_ok.1 hkind
    cases kind with
    | none => simp at h
    | some kind =>
      cases kind with
      | const =>
        simp only [constValue?, bind_pure_comp, except_map_ok, attr?_ok] at h
        obtain ⟨a, ⟨d', hd', rfl⟩, ha⟩ := h
        cases hd.symm.trans hd'
        exact ⟨o, k, d, horigin, hd, hname, ha⟩
      | _ => simp at h

/-- A constant has its number. -/
theorem Readable.constant (hQ : Readable s rho Q) (hv : Q v) {c : Int64}
    (hc : constantOf? s v = .ok (some c)) : rho v = c.toInt := by
  obtain ⟨o, k, d, horigin, hd, hname, hvalue⟩ := constantOf?_some hc
  have hop := hQ.op hv horigin hd
  simp only [FoldHolds, OpHolds, hname] at hop
  exact hop c hvalue

/-! ## Signs -/

theorem boundMap?_ok {o : OpRef} {side : BoundSide} {m : Option Map} :
    boundMap? s o side = .ok m ↔
      ∃ d, s.op? o = some d ∧ (d.attrs.get? side.key).bind Attr.map? = m := by
  simp only [boundMap?, bind_pure_comp, except_map_ok, attr?_ok]
  constructor
  · rintro ⟨a, ⟨d, hd, rfl⟩, hm⟩
    exact ⟨d, hd, hm⟩
  · rintro ⟨d, hd, hm⟩
    exact ⟨_, ⟨d, hd, rfl⟩, hm⟩

/-- A lower bound that is a constant and not negative keeps the induction variable there. -/
theorem nonneg_of_lower {b : BlockRef} {i : Nat} {x : Int}
    (harg : ∀ o d, s.blockOwner? b = .ok (some o) → s.op? o = some d → ArgHolds d i x)
    (h : hasNonNegativeLower s b i = .ok true) : 0 ≤ x := by
  simp only [hasNonNegativeLower, except_bind_ok] at h
  obtain ⟨owner?, howner, h⟩ := h
  cases owner? with
  | none => simp at h
  | some o =>
    simp only [except_bind_ok] at h
    obtain ⟨isFor, hfor, isParallel, hparallel, h⟩ := h
    obtain ⟨d, hd, hfor⟩ := isNamed_ok.1 hfor
    obtain ⟨d', hd', hparallel⟩ := isNamed_ok.1 hparallel
    cases hd.symm.trans hd'
    have hle : ∀ {c : Int64}, c.toInt ≤ x → (0 : Int64) ≤ c → 0 ≤ x := by
      intro c hx hc
      have hc : (0 : Int64).toInt ≤ c.toInt := Int64.le_iff_toInt_le.1 hc
      exact Int.le_trans hc hx
    have hbound : ∀ {lower : Option Int64}, (∀ c, lower = some c → c.toInt ≤ x) →
        lower.any (fun c => decide (0 ≤ c)) = true → 0 ≤ x := by
      intro lower hlower hany
      obtain ⟨c, hc, hpos⟩ := (Option.any_eq_true _ _).1 hany
      exact hle (hlower c hc) (by simpa using hpos)
    cases isFor with
    | true =>
      by_cases hi : i = 0
      · simp only [hi, if_true, except_bind_ok, except_pure, Except.ok.injEq] at h
        obtain ⟨m?, hm, lower, hlower, hany⟩ := h
        obtain ⟨d', hd', rfl⟩ := boundMap?_ok.1 hm
        cases hd.symm.trans hd'
        refine hbound (fun c hc => ?_) hany
        rw [← hlower, Option.bind_eq_some_iff] at hc
        obtain ⟨m, hm, hconst⟩ := hc
        exact (harg o d howner hd m hm).1 (by simpa using hfor) hi c hconst
      · simp [hi] at h
    | false =>
      cases isParallel with
      | true =>
        simp only [if_true, except_bind_ok, except_pure, Except.ok.injEq, Bool.false_eq_true,
          if_false] at h
        obtain ⟨m?, hm, lower, hlower, hany⟩ := h
        obtain ⟨d', hd', rfl⟩ := boundMap?_ok.1 hm
        cases hd.symm.trans hd'
        refine hbound (fun c hc => ?_) hany
        rw [← hlower, Option.bind_eq_some_iff] at hc
        obtain ⟨m, hm, hconst⟩ := hc
        obtain ⟨e, he, hconst⟩ := Option.bind_eq_some_iff.1 hconst
        exact (harg o d howner hd m hm).2 (by simpa using hparallel) e c he hconst
      | false => simp at h

/-- The kinds of arithmetic that keep numbers from being negative do so. -/
theorem FoldHolds.nonneg {d : OpData} {kind : ArithKind} {x : Int}
    (hname : ArithKind.ofName? d.name = some kind) (hkeeps : keepsNonNegative kind = true)
    (h : FoldHolds rho d x) (hops : ∀ a ∈ d.operands, 0 ≤ rho a) : 0 ≤ x := by
  cases kind <;> simp only [keepsNonNegative, Bool.false_eq_true] at hkeeps <;>
    simp only [FoldHolds, OpHolds, hname] at h
  case indexCast =>
    obtain ⟨a, ha, rfl⟩ := h
    exact hops a (by simp [ha])
  all_goals
    obtain ⟨a, b, hab, rfl⟩ := h
    have ha := hops a (by simp [hab])
    have hb := hops b (by simp [hab])
  case add => exact Int.add_nonneg ha hb
  case mul => exact Int.mul_nonneg ha hb
  case divS => exact Int.tdiv_nonneg ha hb
  case remS => exact Int.tmod_nonneg _ ha

/-- By induction on the steps along the chain. -/
theorem isNonNegativeFuel_sound (hQ : Readable s rho Q) (n : Nat) : ∀ {v : ValueRef}, Q v →
    isNonNegativeFuel s n v = .ok true → 0 ≤ rho v := by
  induction n with
  | zero =>
    intro v _ h
    cases h
  | succ n ih =>
    intro v hv h
    simp only [isNonNegativeFuel, except_bind_ok] at h
    obtain ⟨c?, hc, h⟩ := h
    cases c? with
    | some c =>
      have hpos : (0 : Int64) ≤ c := by simpa using h
      rw [hQ.constant hv hc]
      exact Int64.le_iff_toInt_le.1 hpos
    | none =>
      simp only [except_bind_ok, value_ok] at h
      obtain ⟨vd, hvd, h⟩ := h
      cases horigin : vd.origin with
      | argument b i =>
        simp only [horigin] at h
        have horigin : s.originOf v = some (.argument b i) := by simp [originOf, hvd, horigin]
        exact nonneg_of_lower (hQ.argument hv horigin) h
      | result o k =>
        simp only [horigin, except_bind_ok] at h
        have horigin : s.originOf v = some (.result o k) := by simp [originOf, hvd, horigin]
        obtain ⟨kind?, hkind, h⟩ := h
        obtain ⟨d, hd, hname⟩ := arithKind?_ok.1 hkind
        have hop := hQ.op hv horigin hd
        have hkeep : ∀ kind, kind? = some kind → keepsNonNegative kind = true →
            (do allInOrder (isNonNegativeFuel s n) (← s.operandsOf o)) = .ok true → 0 ≤ rho v := by
          intro kind hk hkeeps hall
          subst hk
          simp only [except_bind_ok, operandsOf_ok] at hall
          obtain ⟨_, ⟨d', hd', rfl⟩, hall⟩ := hall
          cases hd.symm.trans hd'
          refine hop.nonneg hname hkeeps fun a ha => ?_
          exact ih (hQ.operand hv horigin hd ha) (allInOrder_true hall a ha)
        cases kind? with
        | none => simp at h
        | some kind =>
          cases kind with
          | extU =>
            simp only [FoldHolds, hname] at hop
            obtain ⟨_, _, _, hpos⟩ := hop
            exact hpos
          | indexCast => exact hkeep _ rfl rfl h
          | add => exact hkeep _ rfl rfl h
          | mul => exact hkeep _ rfl rfl h
          | divS => exact hkeep _ rfl rfl h
          | remS => exact hkeep _ rfl rfl h
          | _ => simp [keepsNonNegative] at h

/-- A value that is found not to be negative is not. -/
theorem Readable.nonneg (hQ : Readable s rho Q) (hv : Q v) (h : isNonNegative s v = .ok true) :
    0 ≤ rho v :=
  isNonNegativeFuel_sound hQ _ hv h

/-! ## Casts -/

/-- Stripping casts follows the chain and keeps the number. -/
theorem stripFuel_sound (hQ : Readable s rho Q) {through : ArithKind → Bool}
    (hthrough : ∀ k, through k = true → k = .indexCast ∨ k = .extU ∨ k = .extS) (n : Nat) :
    ∀ {v w : ValueRef}, Q v → stripFuel through s n v = .ok w → Q w ∧ rho w = rho v := by
  induction n with
  | zero =>
    intro v w _ h
    cases h
  | succ n ih =>
    intro v w hv h
    simp only [stripFuel, except_bind_ok] at h
    obtain ⟨o?, ho, h⟩ := h
    cases o? with
    | none =>
      cases h
      exact ⟨hv, rfl⟩
    | some o =>
      obtain ⟨k, horigin⟩ := definingOp?_some ho
      simp only [except_bind_ok] at h
      obtain ⟨kind?, hkind, h⟩ := h
      obtain ⟨d, hd, hname⟩ := arithKind?_ok.1 hkind
      cases kind? with
      | none =>
        cases h
        exact ⟨hv, rfl⟩
      | some kind =>
        by_cases hk : through kind = true
        · simp only [hk, if_true, except_bind_ok, operand_ok] at h
          obtain ⟨a, ⟨d', hd', ha⟩, h⟩ := h
          cases hd.symm.trans hd'
          have hop := hQ.op hv horigin hd
          have hcast : ∃ b, d.operands = [b] ∧ rho v = rho b := by
            rcases hthrough kind hk with rfl | rfl | rfl
            · simpa only [FoldHolds, OpHolds, hname] using hop
            · simp only [FoldHolds, hname] at hop
              obtain ⟨b, hb, hvb, _⟩ := hop
              exact ⟨b, hb, hvb⟩
            · simpa only [FoldHolds, OpHolds, hname] using hop
          obtain ⟨b, hb, hvb⟩ := hcast
          rw [hb, List.getElem?_cons_zero, Option.some.injEq] at ha
          subst ha
          obtain ⟨hw, hwa⟩ := ih (hQ.operand hv horigin hd (by simp [hb])) h
          exact ⟨hw, hwa.trans hvb.symm⟩
        · simp only [if_neg hk] at h
          cases h
          exact ⟨hv, rfl⟩

/-- Stripping casts keeps the number. -/
theorem Readable.stripCasts (hQ : Readable s rho Q) (hv : Q v) (h : stripCasts s v = .ok w) :
    Q w ∧ rho w = rho v := by
  refine stripFuel_sound hQ (fun k hk => ?_) _ hv h
  simpa [or_assoc] using hk

/-! ## Shapes -/

/-- A shape has the number of the value at those of its inputs, which are readable too. -/
def Shape.Stands (Q : ValueRef → Prop) (rho : Assignment) (v : ValueRef) (shape : Shape) : Prop :=
  (∀ w ∈ shape.inputs, Q w) ∧
    shape.expr.meaning [] (shape.inputs.map rho) = some (rho v)

theorem timesFits_symbol_const (i : Nat) (c : Int64) :
    Expr.timesFits (.symbol i) (.const c) = true := by
  have hc : Affine.fitsWord c.toInt = true :=
    Affine.fitsWord_iff.2 ⟨c.le_toInt, c.toInt_lt⟩
  have hone : (1 : Int64).toInt * c.toInt = c.toInt := by
    rw [show (1 : Int64).toInt = 1 from rfl, Int.one_mul]
  have hzero : Affine.fitsWord ((0 : Int64).toInt * c.toInt) = true := by
    rw [show (0 : Int64).toInt = 0 from rfl, Int.zero_mul]
    decide
  simp only [Expr.timesFits, Expr.constant?_const, Expr.linearFits, Affine.Linear.accumulateFits,
    Affine.Linear.zero, Affine.Linear.addTermFits, Affine.Linear.scaleFits, Affine.Linear.ofExpr,
    Affine.Linear.accumulate, Affine.Linear.addAtom, Affine.Linear.addTerm, List.all_cons,
    List.all_nil, hone, hc, hzero, Bool.and_self]

section Shapes

variable {a b : ValueRef}

theorem plusShape_meaning :
    ((Expr.symbol 0).plus (.symbol 1)).meaning [] [rho a, rho b] = some (rho a + rho b) :=
  Expr.plus_meaning (by decide) rfl rfl

theorem minusShape_meaning :
    ((Expr.symbol 0).minus (.symbol 1)).meaning [] [rho a, rho b] = some (rho a - rho b) := by
  have hneg : ((Expr.symbol 1).negate).meaning [] [rho a, rho b] = some (rho b * (-1)) :=
    Expr.times_meaning (timesFits_symbol_const 1 (-1)) rfl rfl
  have hsum : (rho a - rho b) = rho a + rho b * (-1) := by ring
  rw [hsum]
  exact Expr.plus_meaning (by decide) rfl hneg

theorem timesShape_meaning (c : Int64) :
    ((Expr.symbol 0).times (.const c)).meaning [] [rho a] = some (rho a * c.toInt) :=
  Expr.times_meaning (timesFits_symbol_const 0 c) rfl rfl

theorem floorShape_meaning {c : Int64} (hc : 0 < c.toInt) :
    ((Expr.symbol 0).floorDivide (.const c)).meaning [] [rho a] =
      some ((rho a).fdiv c.toInt) := by
  have hv : Affine.BinOp.exact .floorDiv (rho a) c.toInt = some ((rho a).fdiv c.toInt) := by
    rw [Affine.BinOp.exact, if_neg (Int.ne_of_gt hc)]
  refine Expr.combine_meaning .floorDiv ?_ rfl rfl hv
  simp only [Expr.combineFits, Expr.divideFits]
  split <;> simp [Expr.linearFits, Affine.Linear.accumulateFits, Affine.Linear.addTermFits,
    Affine.Linear.zero]

theorem moduloShape_meaning {c : Int64} (hc : 0 < c.toInt) :
    ((Expr.symbol 0).modulo (.const c)).meaning [] [rho a] = some (rho a % c.toInt) := by
  have hv : Affine.BinOp.exact .mod (rho a) c.toInt = some (rho a % c.toInt) := by
    rw [Affine.BinOp.exact, if_neg (Int.ne_of_gt hc)]
  refine Expr.modulo_meaning ?_ rfl rfl hv
  simp only [Expr.moduloFits]
  split <;> rfl

/-- Over dividends that are not negative, truncation and floor agree. -/
theorem quotientShape_meaning {c : Int64} (ha : 0 ≤ rho a) (hc : 0 < c.toInt) :
    ((Expr.symbol 0).floorDivide (.const c)).meaning [] [rho a] =
      some ((rho a).tdiv c.toInt) := by
  rw [floorShape_meaning hc, Int.tdiv_eq_ediv_of_nonneg ha,
    Int.fdiv_eq_ediv_of_nonneg _ (Int.le_of_lt hc)]

theorem remainderShape_meaning {c : Int64} (ha : 0 ≤ rho a) (hc : 0 < c.toInt) :
    ((Expr.symbol 0).modulo (.const c)).meaning [] [rho a] = some ((rho a).tmod c.toInt) := by
  rw [moduloShape_meaning hc, Int.tmod_eq_emod_of_nonneg ha]

end Shapes

theorem positiveConst?_some {c? : Option Int64} {e : Expr} (h : positiveConst? c? = some e) :
    ∃ c, c? = some c ∧ 0 < c.toInt ∧ e = .const c := by
  obtain ⟨c, hc, rfl⟩ := Option.map_eq_some_iff.1 h
  obtain ⟨hc, hpos⟩ := Option.filter_eq_some_iff.1 hc
  refine ⟨c, hc, ?_, rfl⟩
  simpa [Int64.lt_iff_toInt_lt] using hpos

theorem scaledShape_some {combine : Expr → Expr → Expr} {a : ValueRef} {c? : Option Expr}
    {shape : Shape} (h : scaledShape combine a c? = some shape) :
    ∃ c, c? = some c ∧ shape = ⟨combine (.symbol 0) c, [a]⟩ := by
  obtain ⟨c, hc, rfl⟩ := Option.map_eq_some_iff.1 h
  exact ⟨c, hc, rfl⟩

/-- A dividend scaled by a positive constant stands for a value that the operation allows, if that
is what the scaling means for every such constant. -/
theorem scaledShape_sound (hQ : Readable s rho Q) {combine : Expr → Expr → Expr} {a b : ValueRef}
    {c? : Option Int64} {shape : Shape} (ha : Q a) (hb : Q b) (hc : constantOf? s b = .ok c?)
    (h : scaledShape combine a (positiveConst? c?) = some shape)
    (hmeans : ∀ c : Int64, 0 < c.toInt → rho b = c.toInt →
      (combine (.symbol 0) (.const c)).meaning [] [rho a] = some (rho v)) :
    shape.Stands Q rho v := by
  obtain ⟨e, he, rfl⟩ := scaledShape_some h
  obtain ⟨c, rfl, hpos, rfl⟩ := positiveConst?_some he
  exact ⟨fun w hw => List.mem_singleton.1 hw ▸ ha, hmeans c hpos (hQ.constant hb hc)⟩

/-- The shape of an operation on two operands stands for a value that the operation allows. -/
theorem binaryShape?_sound (hQ : Readable s rho Q) {d : OpData} {kind : ArithKind}
    {a b : ValueRef} {shape : Shape} (hname : ArithKind.ofName? d.name = some kind)
    (hops : d.operands = [a, b]) (hop : FoldHolds rho d (rho v)) (ha : Q a) (hb : Q b)
    (h : binaryShape? s kind a b = .ok (some shape)) : shape.Stands Q rho v := by
  have hpair : ∀ w ∈ [a, b], Q w := by
    intro w hw
    rcases List.mem_cons.1 hw with rfl | hw
    · exact ha
    · exact List.mem_singleton.1 hw ▸ hb
  cases kind <;> simp only [FoldHolds, OpHolds, hname, hops, List.cons.injEq, and_true] at hop <;>
    simp only [binaryShape?, except_bind_ok, except_pure, Except.ok.injEq, Option.some.injEq,
      reduceCtorEq] at h
  case add =>
    obtain ⟨_, _, ⟨rfl, rfl⟩, hv⟩ := hop
    subst h
    exact ⟨hpair, hv ▸ plusShape_meaning⟩
  case sub =>
    obtain ⟨_, _, ⟨rfl, rfl⟩, hv⟩ := hop
    subst h
    exact ⟨hpair, hv ▸ minusShape_meaning⟩
  case mul =>
    obtain ⟨_, _, ⟨rfl, rfl⟩, hv⟩ := hop
    obtain ⟨ca, hca, cb, hcb, h⟩ := h
    cases cb with
    | some c =>
      obtain ⟨_, hc, rfl⟩ := scaledShape_some (by simpa using h)
      cases hc
      refine ⟨fun w hw => List.mem_singleton.1 hw ▸ ha, ?_⟩
      rw [hv, hQ.constant hb hcb]
      exact timesShape_meaning c
    | none =>
      cases ca with
      | some c =>
        obtain ⟨_, hc, rfl⟩ := scaledShape_some (by simpa using h)
        cases hc
        refine ⟨fun w hw => List.mem_singleton.1 hw ▸ hb, ?_⟩
        rw [hv, hQ.constant ha hca, Int.mul_comm]
        exact timesShape_meaning c
      | none => simp at h
  case divS =>
    obtain ⟨_, _, ⟨rfl, rfl⟩, hv⟩ := hop
    obtain ⟨sign, hsign, h⟩ := h
    cases sign with
    | false => simp at h
    | true =>
      simp only [if_true, except_bind_ok, Except.ok.injEq] at h
      obtain ⟨c?, hc, h⟩ := h
      refine scaledShape_sound hQ ha hb hc h fun c hpos heq => ?_
      rw [hv, heq]
      exact quotientShape_meaning (hQ.nonneg ha hsign) hpos
  case remS =>
    obtain ⟨_, _, ⟨rfl, rfl⟩, hv⟩ := hop
    obtain ⟨sign, hsign, h⟩ := h
    cases sign with
    | false => simp at h
    | true =>
      simp only [if_true, except_bind_ok, Except.ok.injEq] at h
      obtain ⟨c?, hc, h⟩ := h
      refine scaledShape_sound hQ ha hb hc h fun c hpos heq => ?_
      rw [hv, heq]
      exact remainderShape_meaning (hQ.nonneg ha hsign) hpos
  case divU =>
    obtain ⟨_, _, ⟨rfl, rfl⟩, hv⟩ := hop
    obtain ⟨c?, hc, h⟩ := h
    refine scaledShape_sound hQ ha hb hc h fun c hpos heq => ?_
    rw [hv (heq ▸ hpos), heq]
    exact floorShape_meaning hpos
  case remU =>
    obtain ⟨_, _, ⟨rfl, rfl⟩, hv⟩ := hop
    obtain ⟨c?, hc, h⟩ := h
    refine scaledShape_sound hQ ha hb hc h fun c hpos heq => ?_
    rw [hv (heq ▸ hpos), heq]
    exact moduloShape_meaning hpos

theorem Readable.shape (hQ : Readable s rho Q) (hv : Q v) {shape : Shape}
    (h : shape? s v = .ok (some shape)) : shape.Stands Q rho v := by
  simp only [shape?, except_bind_ok] at h
  obtain ⟨c?, hc, h⟩ := h
  cases c? with
  | some c =>
    cases h
    refine ⟨by simp, ?_⟩
    rw [hQ.constant hv hc]
    rfl
  | none =>
    simp only [except_bind_ok] at h
    obtain ⟨o?, ho, h⟩ := h
    cases o? with
    | none => simp at h
    | some o =>
      obtain ⟨k, horigin⟩ := definingOp?_some ho
      simp only [except_bind_ok] at h
      obtain ⟨kind?, hkind, operands, hoperands, h⟩ := h
      obtain ⟨d, hd, hname⟩ := arithKind?_ok.1 hkind
      obtain ⟨d', hd', rfl⟩ := operandsOf_ok.1 hoperands
      cases hd.symm.trans hd'
      split at h
      · rename_i kind a b hops
        exact binaryShape?_sound hQ hname hops (hQ.op hv horigin hd)
          (hQ.operand hv horigin hd (by simp [hops])) (hQ.operand hv horigin hd (by simp [hops])) h
      · simp at h

/-- The shape of a value behind casts, if it is arithmetic with a constant. -/
def castShape? (s : Store) (w : ValueRef) : Except Fault (Option Shape) := do
  match ← s.definingOp? w with
  | none => return none
  | some o => if ← foldsConstant s o then shape? s w else return none

/-- An operand is folded with the shape of its value or of the value behind its casts. -/
theorem inlineShape?_some {shape : Shape} (h : inlineShape? s v w = .ok (some shape)) :
    shape? s v = .ok (some shape) ∨ shape? s w = .ok (some shape) := by
  simp only [inlineShape?, except_bind_ok] at h
  obtain ⟨sym, _, h⟩ := h
  have hbehind : castShape? s w = .ok (some shape) → shape? s w = .ok (some shape) := by
    intro h
    simp only [castShape?, except_bind_ok] at h
    obtain ⟨o?, _, h⟩ := h
    cases o? with
    | none => simp at h
    | some o =>
      simp only [except_bind_ok] at h
      obtain ⟨folds, _, h⟩ := h
      cases folds with
      | false => simp at h
      | true => exact h
  cases sym with
  | true => exact .inr (hbehind h)
  | false =>
    simp only [Bool.false_eq_true, if_false, except_bind_ok] at h
    obtain ⟨own, hown, h⟩ := h
    cases own with
    | some shape' =>
      cases h
      exact .inl hown
    | none => exact .inr (hbehind h)

theorem Readable.inlineShape (hQ : Readable s rho Q) (ht : Q v) (hw : Q w) (heq : rho w = rho v)
    {shape : Shape} (h : inlineShape? s v w = .ok (some shape)) : shape.Stands Q rho v := by
  rcases inlineShape?_some h with h | h
  · exact hQ.shape ht h
  · obtain ⟨hin, hmean⟩ := hQ.shape hw h
    exact ⟨hin, hmean.trans (by rw [heq])⟩

/-- The result of a map that is applied has the number of the value at those of the operands, which
are readable too. -/
theorem Readable.appliedMap (hQ : Readable s rho Q) (hv : Q v) {m : Map} {e : Expr}
    {operands : List ValueRef} (h : appliedMap? s v = .ok (some (m, e, operands))) :
    (∀ w ∈ operands, Q w) ∧
      e.meaning ((operands.take m.numDims).map rho) ((operands.drop m.numDims).map rho) =
        some (rho v) := by
  simp only [appliedMap?, except_bind_ok] at h
  obtain ⟨o?, ho, h⟩ := h
  cases o? with
  | none => simp at h
  | some o =>
    obtain ⟨k, horigin⟩ := definingOp?_some ho
    simp only [except_bind_ok] at h
    obtain ⟨named, hnamed, h⟩ := h
    obtain ⟨d, hd, hname⟩ := isNamed_ok.1 hnamed
    cases named with
    | false => simp at h
    | true =>
      have hname : d.name = applyName := by simpa using hname
      simp only [if_true, except_bind_ok, operandsOf_ok, opMap?, bind_pure_comp, except_map_ok,
        attr?_ok] at h
      obtain ⟨_, ⟨d', hd', rfl⟩, _, ⟨_, ⟨d'', hd'', rfl⟩, rfl⟩, h⟩ := h
      cases hd.symm.trans hd'
      cases hd.symm.trans hd''
      cases hm : (d.attrs.get? "map").bind Attr.map? with
      | none => simp [hm] at h
      | some m' =>
        simp only [hm] at h
        split at h
        · rename_i result hresults
          split at h
          · rename_i harity
            cases h
            have hop := hQ.op hv horigin hd
            have hkind : ArithKind.ofName? d.name = none := by
              rw [hname]
              rfl
            simp only [FoldHolds, OpHolds, hkind] at hop
            exact ⟨fun w hw => hQ.operand hv horigin hd hw, hop hname m e hm hresults harity⟩
          · simp at h
        · simp at h

end AffineRaising.Raise
