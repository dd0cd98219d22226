/-
# AffineRaising.Proofs.Affine.Evaluation — canonical forms evaluate like their trees.

Evaluation computes exactly and has no value where a word would overflow; the canonical constructors
wrap.  Modulo `2^64` that is harmless in sums and products, so a canonical form that has a value at
all has that of its tree (`canonical_form_evaluates_alike`), as long as every quotient and remainder
finds sides that have values too.  A dividend whose sum has wrapped is another number than the one
that is divided, and an exact division then changes the result
(`wrapped_dividend_divides_otherwise`).
-/
import AffineRaising.Proofs.Affine.Canonical

namespace AffineRaising.Affine

open Linear

variable {dims syms : List Int64} {e l r : Expr} {v w : Int64}

/-! ## Values are meanings -/

theorem fitsWord_toInt (v : Int64) : fitsWord v.toInt = true :=
  fitsWord_iff.2 ⟨v.le_toInt, v.toInt_lt⟩

theorem wordOf?_eq_some {n : Int} : wordOf? n = some v ↔ v.toInt = n := by
  unfold wordOf?
  constructor
  · intro h
    split at h
    · cases h
      exact toInt_ofInt_of_fits ‹_›
    · cases h
  · rintro rfl
    rw [if_pos (fitsWord_toInt v), Int64.ofInt_toInt]

section Quotients

variable {a b : Int64}

theorem toInt_euclideanRemainder_of_ne (hb : b ≠ 0) :
    (euclideanRemainder a b).toInt = a.toInt % b.toInt := by
  apply toInt_ofInt_of_fits
  rw [fitsWord_iff]
  have hlow := b.le_toInt
  have hhigh := b.toInt_lt
  have hne : b.toInt ≠ 0 := fun h => hb (Int64.toInt_inj.1 h)
  have hnonneg := Int.emod_nonneg a.toInt hne
  have hlt := Int.emod_lt a.toInt hne
  omega

theorem divideWords_ok {divide : Int64 → Int64 → Int64}
    (h : divideWords divide a b = .ok (some v)) :
    b ≠ 0 ∧ ¬ quotientOverflows a b = true ∧ v = divide a b := by
  unfold divideWords at h
  split at h
  · cases h
  · split at h
    · cases h
    · cases h
      exact ⟨‹_›, ‹_›, rfl⟩

/-- Where an operator has a value on words, it is the exact one. -/
theorem BinOp.exact_of_apply {op : BinOp} (h : op.apply a b = .ok (some v)) :
    op.exact a.toInt b.toInt = some v.toInt := by
  have hne : b ≠ 0 → b.toInt ≠ 0 := fun hb h => hb (Int64.toInt_inj.1 h)
  cases op with
  | add => rw [exact, wordOf?_eq_some.1 (Except.ok.inj h)]
  | mul => rw [exact, wordOf?_eq_some.1 (Except.ok.inj h)]
  | floorDiv =>
    obtain ⟨hb, hover, rfl⟩ := divideWords_ok h
    rw [exact, if_neg (hne hb), toInt_floorQuotient hb hover]
  | ceilDiv =>
    obtain ⟨hb, hover, rfl⟩ := divideWords_ok h
    rw [exact, if_neg (hne hb), toInt_ceilQuotient hb hover]
  | mod =>
    obtain ⟨hb, _, rfl⟩ := divideWords_ok h
    rw [exact, if_neg (hne hb), toInt_euclideanRemainder_of_ne hb]

end Quotients

namespace Expr

theorem eval_bin {op : BinOp} : (Expr.bin op l r).eval dims syms = .ok (some v) ↔
    ∃ a b, l.eval dims syms = .ok (some a) ∧ r.eval dims syms = .ok (some b) ∧
      op.apply a b = .ok (some v) := by
  rw [eval]
  cases hl : l.eval dims syms with
  | error f => simp [bind, Except.bind]
  | ok a? =>
    cases a? with
    | none => simp [bind, Except.bind, pure, Except.pure]
    | some a =>
      cases hr : r.eval dims syms with
      | error f => simp [bind, Except.bind]
      | ok b? => cases b? <;> simp [bind, Except.bind, pure, Except.pure]

/-- Where an expression has a value, it is its meaning. -/
theorem meaning_of_eval : ∀ {e : Expr} {v : Int64}, e.eval dims syms = .ok (some v) →
    e.meaning (dims.map Int64.toInt) (syms.map Int64.toInt) = some v.toInt
  | .dim i, v, h => by
    have hi : dims[i]? = some v := Except.ok.inj h
    simp [meaning, hi]
  | .symbol i, v, h => by
    have hi : syms[i]? = some v := Except.ok.inj h
    simp [meaning, hi]
  | .const c, v, h => by
    cases h
    rfl
  | .bin op l r, v, h => by
    obtain ⟨a, b, ha, hb, hab⟩ := eval_bin.1 h
    exact meaning_bin.2 ⟨a.toInt, b.toInt, meaning_of_eval ha, meaning_of_eval hb,
      BinOp.exact_of_apply hab⟩

end Expr

/-! ## Wrapped values

The meaning of an expression, wrapped to a word, is what the canonical constructors keep whether or
not their sums and products leave the range. -/

section Wrapped

variable {ds ss : List Int} {a b c k x y : Int64}

/-- The meaning of an expression, wrapped to a word. -/
def Expr.wrapped (ds ss : List Int) (e : Expr) : Option Int64 :=
  (e.meaning ds ss).map Int64.ofInt

/-- The value of a list of terms, wrapped to a word. -/
def termsWrapped (ds ss : List Int) (ts : List (Expr × Int64)) : Option Int64 :=
  (termsMeaning ds ss ts).map Int64.ofInt

/-- The value of a sum, wrapped to a word. -/
def Linear.wrapped (ds ss : List Int) (lin : Linear) : Option Int64 :=
  (lin.meaning ds ss).map Int64.ofInt

theorem Expr.wrapped_of_meaning {z : Int} (h : e.meaning ds ss = some z) :
    e.wrapped ds ss = some (Int64.ofInt z) := by
  rw [wrapped, h, Option.map_some]

theorem Expr.wrapped_add : (Expr.bin .add l r).wrapped ds ss = some v ↔
    ∃ x y, l.wrapped ds ss = some x ∧ r.wrapped ds ss = some y ∧ v = x + y := by
  simp only [wrapped, Option.map_eq_some_iff, meaning_bin, BinOp.exact, Option.some.injEq]
  constructor
  · rintro ⟨_, ⟨x, y, hx, hy, rfl⟩, rfl⟩
    exact ⟨_, _, ⟨x, hx, rfl⟩, ⟨y, hy, rfl⟩, Int64.ofInt_add x y⟩
  · rintro ⟨_, _, ⟨x, hx, rfl⟩, ⟨y, hy, rfl⟩, rfl⟩
    exact ⟨_, ⟨x, y, hx, hy, rfl⟩, Int64.ofInt_add x y⟩

theorem Expr.wrapped_mul : (Expr.bin .mul l r).wrapped ds ss = some v ↔
    ∃ x y, l.wrapped ds ss = some x ∧ r.wrapped ds ss = some y ∧ v = x * y := by
  simp only [wrapped, Option.map_eq_some_iff, meaning_bin, BinOp.exact, Option.some.injEq]
  constructor
  · rintro ⟨_, ⟨x, y, hx, hy, rfl⟩, rfl⟩
    exact ⟨_, _, ⟨x, hx, rfl⟩, ⟨y, hy, rfl⟩, Int64.ofInt_mul x y⟩
  · rintro ⟨_, _, ⟨x, hx, rfl⟩, ⟨y, hy, rfl⟩, rfl⟩
    exact ⟨_, ⟨x, y, hx, hy, rfl⟩, Int64.ofInt_mul x y⟩

theorem Expr.wrapped_const : (Expr.const c).wrapped ds ss = some c := by
  rw [wrapped_of_meaning rfl, Int64.ofInt_toInt]

theorem termsWrapped_cons {ts : List (Expr × Int64)} :
    termsWrapped ds ss ((e, c) :: ts) = some v ↔ ∃ x y, e.wrapped ds ss = some x ∧
      termsWrapped ds ss ts = some y ∧ v = c * x + y := by
  have hvalue : ∀ x y : Int, Int64.ofInt (c.toInt * x + y) = c * Int64.ofInt x + Int64.ofInt y := by
    intro x y
    rw [Int64.ofInt_add, Int64.ofInt_mul, Int64.ofInt_toInt]
  simp only [termsWrapped, Expr.wrapped, Option.map_eq_some_iff, termsMeaning_cons]
  constructor
  · rintro ⟨_, ⟨x, y, hx, hy, rfl⟩, rfl⟩
    exact ⟨_, _, ⟨x, hx, rfl⟩, ⟨y, hy, rfl⟩, hvalue x y⟩
  · rintro ⟨_, _, ⟨x, hx, rfl⟩, ⟨y, hy, rfl⟩, rfl⟩
    exact ⟨_, ⟨x, y, hx, hy, rfl⟩, hvalue x y⟩

namespace Linear

variable {lin lin' : Linear} {scale : Int64}

theorem wrapped_iff : lin.wrapped ds ss = some v ↔
    ∃ y, termsWrapped ds ss lin.terms = some y ∧ v = y + lin.constant := by
  have hvalue : ∀ y : Int, Int64.ofInt (y + lin.constant.toInt) =
      Int64.ofInt y + lin.constant := by
    intro y
    rw [Int64.ofInt_add, Int64.ofInt_toInt]
  simp only [wrapped, termsWrapped, Option.map_eq_some_iff, meaning_iff]
  constructor
  · rintro ⟨_, ⟨y, hy, rfl⟩, rfl⟩
    exact ⟨_, ⟨y, hy, rfl⟩, hvalue y⟩
  · rintro ⟨_, ⟨y, hy, rfl⟩, rfl⟩
    exact ⟨_, ⟨y, hy, rfl⟩, hvalue y⟩

theorem addTerm_wrapped (hx : e.wrapped ds ss = some x) : ∀ {ts : List (Expr × Int64)} {y : Int64},
    termsWrapped ds ss ts = some y → termsWrapped ds ss (addTerm e c ts) = some (c * x + y)
  | [], y, hy => termsWrapped_cons.2 ⟨x, y, hx, hy, rfl⟩
  | (a, k) :: rest, y, hy => by
    obtain ⟨z, u, hz, hu, rfl⟩ := termsWrapped_cons.1 hy
    unfold addTerm
    cases hcompare : e.compare a with
    | lt => exact termsWrapped_cons.2 ⟨x, _, hx, hy, rfl⟩
    | eq =>
      cases Expr.eq_of_compare hcompare
      cases hx.symm.trans hz
      exact termsWrapped_cons.2 ⟨x, u, hx, hu, by grind⟩
    | gt => exact termsWrapped_cons.2 ⟨z, c * x + u, hz, addTerm_wrapped hx hu, by grind⟩

theorem addAtom_wrapped (hlin : lin.wrapped ds ss = some y) (hx : e.wrapped ds ss = some x) :
    (lin.addAtom e c).wrapped ds ss = some (y + c * x) := by
  obtain ⟨z, hz, rfl⟩ := wrapped_iff.1 hlin
  exact wrapped_iff.2 ⟨c * x + z, addTerm_wrapped hx hz, by simp only [addAtom]; grind⟩

theorem accumulate_wrapped {e : Expr} : ∀ {lin : Linear} {scale x y : Int64},
    lin.wrapped ds ss = some y → e.wrapped ds ss = some x →
    (accumulate lin scale e).wrapped ds ss = some (y + scale * x) := by
  induction e using Expr.sumInduction with
  | const c =>
    intro lin scale x y hlin hx
    cases Expr.wrapped_const.symm.trans hx
    obtain ⟨z, hz, rfl⟩ := wrapped_iff.1 hlin
    exact wrapped_iff.2 ⟨z, hz, by simp only [accumulate]; grind⟩
  | add l r ihl ihr =>
    intro lin scale x y hlin hx
    obtain ⟨a, b, ha, hb, rfl⟩ := Expr.wrapped_add.1 hx
    rw [accumulate, ihr (ihl hlin ha) hb]
    congr 1
    grind
  | scaleRight l c ih =>
    intro lin scale x y hlin hx
    obtain ⟨a, b, ha, hb, rfl⟩ := Expr.wrapped_mul.1 hx
    cases Expr.wrapped_const.symm.trans hb
    rw [accumulate_scaleRight, ih hlin ha]
    congr 1
    grind
  | scaleLeft c r hr ih =>
    intro lin scale x y hlin hx
    obtain ⟨a, b, ha, hb, rfl⟩ := Expr.wrapped_mul.1 hx
    cases Expr.wrapped_const.symm.trans ha
    rw [accumulate_scaleLeft hr, ih hlin hb]
    congr 1
    grind
  | atom a ha =>
    intro lin scale x y hlin hx
    rw [accumulate_atom ha]
    exact addAtom_wrapped hlin hx

theorem ofExpr_wrapped (hx : e.wrapped ds ss = some x) : (ofExpr e).wrapped ds ss = some x := by
  have hzero : zero.wrapped ds ss = some 0 := rfl
  rw [ofExpr, accumulate_wrapped hzero hx, Int64.one_mul, Int64.zero_add]

theorem merge_wrapped (hx : lin.wrapped ds ss = some x) (hy : lin'.wrapped ds ss = some y) :
    (lin.merge lin').wrapped ds ss = some (x + y) := by
  have hterms : ∀ {us ts : List (Expr × Int64)} {x y : Int64}, termsWrapped ds ss ts = some x →
      termsWrapped ds ss us = some y →
      termsWrapped ds ss (us.foldl (fun ts t => addTerm t.1 t.2 ts) ts) = some (x + y) := by
    intro us
    induction us with
    | nil =>
      intro ts x y hx hy
      cases hy
      simpa using hx
    | cons t us ih =>
      obtain ⟨a, c⟩ := t
      intro ts x y hx hy
      obtain ⟨z, u, hz, hu, rfl⟩ := termsWrapped_cons.1 hy
      rw [List.foldl_cons, ih (addTerm_wrapped hz hx) hu]
      congr 1
      grind
  obtain ⟨z, hz, rfl⟩ := wrapped_iff.1 hx
  obtain ⟨u, hu, rfl⟩ := wrapped_iff.1 hy
  exact wrapped_iff.2 ⟨z + u, hterms hz hu, by simp only [merge]; grind⟩

theorem scale_wrapped (k : Int64) (hx : lin.wrapped ds ss = some x) :
    (lin.scale k).wrapped ds ss = some (x * k) := by
  have hterms : ∀ {ts : List (Expr × Int64)} {y : Int64}, termsWrapped ds ss ts = some y →
      termsWrapped ds ss (ts.map fun t => (t.1, t.2 * k)) = some (y * k) := by
    intro ts
    induction ts with
    | nil =>
      intro y hy
      cases hy
      simp [termsWrapped, termsMeaning]
    | cons t ts ih =>
      obtain ⟨a, c⟩ := t
      intro y hy
      obtain ⟨z, u, hz, hu, rfl⟩ := termsWrapped_cons.1 hy
      exact termsWrapped_cons.2 ⟨z, u * k, hz, ih hu, by grind⟩
  obtain ⟨z, hz, rfl⟩ := wrapped_iff.1 hx
  exact wrapped_iff.2 ⟨z * k, hterms hz, by simp only [scale]; grind⟩

theorem toExpr_wrapped (hx : lin.wrapped ds ss = some x) : lin.toExpr.wrapped ds ss = some x := by
  obtain ⟨z, hz, rfl⟩ := Option.map_eq_some_iff.1 hx
  exact Expr.wrapped_of_meaning (toExpr_meaning hz)

end Linear

namespace Expr

theorem plus_wrapped (hx : l.wrapped ds ss = some x) (hy : r.wrapped ds ss = some y) :
    (l.plus r).wrapped ds ss = some (x + y) :=
  toExpr_wrapped (merge_wrapped (ofExpr_wrapped hx) (ofExpr_wrapped hy))

theorem times_wrapped (hx : l.wrapped ds ss = some x) (hy : r.wrapped ds ss = some y) :
    (l.times r).wrapped ds ss = some (x * y) := by
  cases hr : r.constant? with
  | some c =>
    cases constant?_eq hr
    obtain rfl : y = c := Option.some.inj (hy.symm.trans wrapped_const)
    rw [times_const]
    exact toExpr_wrapped (scale_wrapped _ (ofExpr_wrapped hx))
  | none =>
    cases hl : l.constant? with
    | some c =>
      cases constant?_eq hl
      obtain rfl : x = c := Option.some.inj (hx.symm.trans wrapped_const)
      rw [const_times, times_const, Int64.mul_comm]
      exact toExpr_wrapped (scale_wrapped _ (ofExpr_wrapped hy))
    | none =>
      have htimes : l.times r = .bin .mul l r := by simp only [times, hl, hr]
      rw [htimes]
      exact wrapped_mul.2 ⟨x, y, hx, hy, rfl⟩

end Expr

end Wrapped

/-! ## Settled sums do not wrap -/

section Settled

variable {ts : List (Expr × Int64)} {lin : Linear} {scale c : Int64}

theorem addTermFits_append (h : ∀ t ∈ ts, t.1.compare e = .lt) : addTermFits e c ts = true := by
  induction ts with
  | nil => rfl
  | cons t rest ih =>
    obtain ⟨x, k⟩ := t
    obtain ⟨hx, hrest⟩ := List.forall_mem_cons.1 h
    have hcompare : e.compare x = .gt := by
      rw [← Expr.compare_swap, hx]
      rfl
    simp only [addTermFits, hcompare, ih hrest]

theorem accumulateFits_atom (h : e.isAtom = true) :
    accumulateFits lin scale e = addTermFits e scale lin.terms := by
  cases e with
  | dim i => rfl
  | symbol i => rfl
  | const c => cases h
  | bin op l r =>
    cases op with
    | add => cases h
    | mul =>
      have hsides : l.constant? = none ∧ r.constant? = none := by
        simpa [Expr.isAtom, Expr.isConstant] using h
      simp only [accumulateFits, hsides]
    | floorDiv => rfl
    | ceilDiv => rfl
    | mod => rfl

/-- A term behind all others is collected as it is. -/
theorem termExpr_fits {t : Expr × Int64} (ht : t.1.isAtom = true)
    (hlast : ∀ s ∈ lin.terms, s.1.compare t.1 = .lt) :
    accumulateFits lin 1 (termExpr t) = true := by
  obtain ⟨x, k⟩ := t
  unfold termExpr
  split
  · rw [accumulateFits_atom ht]
    exact addTermFits_append hlast
  · have hone : (1 : Int64).toInt = 1 := rfl
    simp only [accumulateFits, Expr.constant?_const, hone, Int.one_mul, fitsWord_toInt,
      Bool.true_and]
    rw [accumulateFits_atom ht]
    exact addTermFits_append hlast

theorem termsExpr?_fits (hasc : Ascending ts) (hatoms : ∀ t ∈ ts, t.1.isAtom = true)
    (hne : ∀ t ∈ ts, t.2 ≠ 0) : ∀ {e : Expr}, termsExpr? ts = some e → e.linearFits = true := by
  induction ts using List.reverseRecOn with
  | nil => intro e he; cases he
  | append_singleton ts t ih =>
    intro e he
    obtain ⟨hasc', _, hlast⟩ := List.pairwise_append.1 hasc
    obtain ⟨hatoms', ht⟩ := List.forall_mem_append.1 hatoms
    obtain ⟨hne', ht0⟩ := List.forall_mem_append.1 hne
    have hatom : t.1.isAtom = true := ht t List.mem_cons_self
    have hbehind : ∀ s ∈ ts, s.1.compare t.1 = .lt := fun s hs => hlast s hs t List.mem_cons_self
    rw [termsExpr?_append ts (ht0 t List.mem_cons_self)] at he
    cases hterms : termsExpr? ts with
    | none =>
      rw [hterms] at he
      cases he
      exact termExpr_fits hatom fun s hs => by cases hs
    | some e' =>
      rw [hterms] at he
      cases he
      have hfront : accumulate zero 1 e' = ⟨ts, 0⟩ := ofExpr_terms hasc' hatoms' hne' hterms
      show (accumulateFits zero 1 e' && accumulateFits (accumulate zero 1 e') 1 (termExpr t)) = true
      rw [hfront, termExpr_fits hatom hbehind, Bool.and_true]
      exact ih hasc' hatoms' hne' hterms

/-- What a normal sum is written as is collected without leaving the word range. -/
theorem toExpr_fits (h : lin.Normal) : lin.toExpr.linearFits = true := by
  have hconst : ∀ {sum : Linear} {c : Int64}, sum.constant = 0 →
      accumulateFits sum 1 (.const c) = true := by
    intro sum c hzero
    have hone : (1 : Int64).toInt = 1 := rfl
    have hnone : (0 : Int64).toInt = 0 := rfl
    simp only [accumulateFits, hzero, hone, hnone, Int.mul_one, Int64.mul_one, Int.zero_add,
      fitsWord_toInt, Bool.and_self]
  unfold toExpr
  cases hterms : termsExpr? lin.terms with
  | none => exact hconst rfl
  | some e =>
    have hfits := termsExpr?_fits h.ascending h.atoms h.nonzero hterms
    show (if _ then _ else _ : Expr).linearFits = true
    split
    · exact hfits
    · have hfront : accumulate zero 1 e = ⟨lin.terms, 0⟩ :=
        ofExpr_terms h.ascending h.atoms h.nonzero hterms
      show (accumulateFits zero 1 e && accumulateFits (accumulate zero 1 e) 1 _) = true
      rw [hfront, hconst rfl, Bool.and_true]
      exact hfits

theorem Expr.linearFits_of_settled (h : e.Settled) : e.linearFits = true := by
  have hsum : (ofExpr e).trim.toExpr = e := by rw [toExpr_trim, Expr.toExpr_ofExpr h]
  rw [← hsum]
  exact toExpr_fits (trim_normal (ofExpr_proper e))

end Settled

/-! ## Trees and canonical forms -/

/-- Quotients and remainders. -/
def BinOp.isDivision : BinOp → Bool
  | .add => false
  | .mul => false
  | _ => true

namespace Expr

/-- At every quotient and remainder of a tree, the canonical forms of both sides have values. -/
def DividesEvaluated (dims syms : List Int64) : Expr → Prop
  | .bin op l r => l.DividesEvaluated dims syms ∧ r.DividesEvaluated dims syms ∧
      (op.isDivision = true → (∃ x, l.simplify.eval dims syms = .ok (some x)) ∧
        ∃ y, r.simplify.eval dims syms = .ok (some y))
  | _ => True

/-- Quotients and remainders of settled sides do not wrap. -/
theorem division_meaning {op : BinOp} {a b : Expr} {ds ss : List Int} {x y z : Int}
    (hop : op.isDivision = true) (hs : a.Settled) (ha : a.meaning ds ss = some x)
    (hb : b.meaning ds ss = some y) (hz : op.exact x y = some z) :
    (combine op a b).meaning ds ss = some z := by
  have hlinear := linearFits_of_settled hs
  refine combine_meaning op ?_ ha hb hz
  cases op with
  | add => cases hop
  | mul => cases hop
  | floorDiv | ceilDiv =>
    show divideFits a b = true
    unfold divideFits
    split
    · rw [hlinear, Bool.or_true]
    · rfl
  | mod =>
    show moduloFits a b = true
    unfold moduloFits
    split
    · exact hlinear
    · rfl

/-- A word is determined by the wrapped meaning of an expression that evaluates to it. -/
theorem wrapped_of_eval (h : e.eval dims syms = .ok (some v)) :
    e.wrapped (dims.map Int64.toInt) (syms.map Int64.toInt) = some v := by
  rw [wrapped_of_meaning (meaning_of_eval h), Int64.ofInt_toInt]

/-- A canonical form means, modulo `2^64`, the number to which its tree evaluates. -/
theorem simplify_wrapped : ∀ {e : Expr} {v : Int64}, e.DividesEvaluated dims syms →
    e.eval dims syms = .ok (some v) →
    e.simplify.wrapped (dims.map Int64.toInt) (syms.map Int64.toInt) = some v
  | .dim _, v, _, hv | .symbol _, v, _, hv | .const _, v, _, hv => wrapped_of_eval hv
  | .bin op l r, v, ⟨hl, hr, hsides⟩, hv => by
    obtain ⟨a, b, ha, hb, hab⟩ := eval_bin.1 hv
    have hla := simplify_wrapped hl ha
    have hrb := simplify_wrapped hr hb
    have hexact := BinOp.exact_of_apply hab
    have hword : ∀ {z : Int}, some z = some v.toInt → v = Int64.ofInt z := by
      rintro z hz
      rw [Option.some.inj hz, Int64.ofInt_toInt]
    have hdivision : op.isDivision = true → (combine op l.simplify r.simplify).wrapped
        (dims.map Int64.toInt) (syms.map Int64.toInt) = some v := by
      intro hop
      obtain ⟨⟨x, hx⟩, y, hy⟩ := hsides hop
      -- sides that have values have those of the tree
      obtain rfl : x = a := Option.some.inj ((wrapped_of_eval hx).symm.trans hla)
      obtain rfl : y = b := Option.some.inj ((wrapped_of_eval hy).symm.trans hrb)
      rw [wrapped_of_meaning (division_meaning hop (simplify_settled l) (meaning_of_eval hx)
        (meaning_of_eval hy) hexact), Int64.ofInt_toInt]
    cases op with
    | add =>
      rw [hword hexact, Int64.ofInt_add, Int64.ofInt_toInt, Int64.ofInt_toInt]
      exact plus_wrapped hla hrb
    | mul =>
      rw [hword hexact, Int64.ofInt_mul, Int64.ofInt_toInt, Int64.ofInt_toInt]
      exact times_wrapped hla hrb
    | floorDiv => exact hdivision rfl
    | ceilDiv => exact hdivision rfl
    | mod => exact hdivision rfl

/-- Where a tree and its canonical form both have a value, it is the same, whatever wraps on the
way, if at every quotient and remainder the canonical forms of both sides have values too. -/
theorem canonical_form_evaluates_alike (hsides : e.DividesEvaluated dims syms)
    (hv : e.eval dims syms = .ok (some v)) (hw : e.simplify.eval dims syms = .ok (some w)) :
    v = w :=
  Option.some.inj ((simplify_wrapped hsides hv).symm.trans (wrapped_of_eval hw))

/-- `(d0 · 2^62 - d1 · 2^62) · 4 + (d0 · 6) floordiv 4`: both coefficients of the sum wrap to
zero. -/
theorem canonical_form_evaluates_alike_wrapped :
    let e : Expr := .bin .add
      (.bin .mul (.bin .add (.bin .mul (.dim 0) (.const 4611686018427387904))
        (.bin .mul (.dim 1) (.const (-4611686018427387904)))) (.const 4))
      (.bin .floorDiv (.bin .mul (.dim 0) (.const 6)) (.const 4))
    e.DividesEvaluated [1, 1] [] ∧ e.eval [1, 1] [] = .ok (some 1) ∧
      e.simplify = .bin .floorDiv (.bin .mul (.dim 0) (.const 6)) (.const 4) ∧
      e.simplify.eval [1, 1] [] = .ok (some 1) := by
  intro e
  have hsides : e.DividesEvaluated [1, 1] [] := by
    refine ⟨⟨⟨⟨trivial, trivial, nofun⟩, ⟨trivial, trivial, nofun⟩, nofun⟩, trivial, nofun⟩,
      ⟨⟨trivial, trivial, nofun⟩, trivial, fun _ => ⟨⟨6, by decide⟩, 4, by decide⟩⟩, nofun⟩
  have hv : e.eval [1, 1] [] = .ok (some 1) := by decide
  obtain ⟨w, hw⟩ : ∃ w, e.simplify.eval [1, 1] [] = .ok (some w) := ⟨1, by decide⟩
  refine ⟨hsides, hv, by decide, ?_⟩
  rw [hw, canonical_form_evaluates_alike hsides hv hw]

/-- `(d0 · 2^62 - d1 · 2^61) · 4 floordiv 4` is `0` at `(1, 2)`; the coefficient of `d0` wraps, and
the exact division of what is left makes it `-2^62`. -/
theorem wrapped_dividend_divides_otherwise :
    ¬ ∀ (e : Expr) (dims syms : List Int64) (v w : Int64), e.eval dims syms = .ok (some v) →
      e.simplify.eval dims syms = .ok (some w) → v = w := by
  intro hclaim
  have hsame := hclaim
    (.bin .floorDiv (.bin .mul (.bin .add (.bin .mul (.dim 0) (.const 4611686018427387904))
      (.bin .mul (.dim 1) (.const (-2305843009213693952)))) (.const 4)) (.const 4))
    [1, 2] [] 0 (-4611686018427387904) (by decide) (by decide)
  exact absurd hsame (by decide)

end Expr

end AffineRaising.Affine
