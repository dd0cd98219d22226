/-
# AffineRaising.Proofs.Affine.Meaning — canonical constructors keep the meaning of expressions.

The meaning of an expression is over unbounded integers: floor and ceiling quotients, Euclidean
remainders, and nothing where a divisor is zero.  The canonical constructors compute with 64-bit
words; `substituteFits` and its parts say that none of their sums and products leaves the range.
Under this condition the constructors keep meanings (`combine_meaning`), and so do substitution and
simplification, which are built from them.

That the range is kept is stated as a computation on the expressions, not on their values, since the
constructors collect coefficients and never see the values: a coefficient that wraps changes the
meaning at most points.  Values themselves are integers and do not wrap.
-/
import AffineRaising.Affine.Map
import Mathlib

namespace AffineRaising.Affine

/-! ## Words that do not wrap -/

theorem fitsWord_iff {n : Int} : fitsWord n = true ↔ -2 ^ 63 ≤ n ∧ n < 2 ^ 63 := by
  simp only [fitsWord, Bool.and_eq_true, decide_eq_true_eq, Int64.toInt_minValue,
    Int64.toInt_maxValue]
  omega

theorem toInt_ofInt_of_fits {n : Int} (h : fitsWord n = true) : (Int64.ofInt n).toInt = n := by
  obtain ⟨hlow, hhigh⟩ := fitsWord_iff.1 h
  exact Int64.toInt_ofInt_of_le hlow hhigh

theorem toInt_add_of_fits {a b : Int64} (h : fitsWord (a.toInt + b.toInt) = true) :
    (a + b).toInt = a.toInt + b.toInt := by
  obtain ⟨hlow, hhigh⟩ := fitsWord_iff.1 h
  rw [Int64.toInt_add, Int.bmod_eq_of_le] <;> omega

theorem toInt_mul_of_fits {a b : Int64} (h : fitsWord (a.toInt * b.toInt) = true) :
    (a * b).toInt = a.toInt * b.toInt := by
  obtain ⟨hlow, hhigh⟩ := fitsWord_iff.1 h
  rw [Int64.toInt_mul, Int.bmod_eq_of_le] <;> omega

/-! ## Quotients of words -/

section Quotients

variable {a b : Int64}

theorem quotientOverflows_iff :
    quotientOverflows a b = true ↔ a.toInt = -2 ^ 63 ∧ b.toInt = -1 := by
  simp only [quotientOverflows, Bool.and_eq_true, beq_iff_eq, ← Int64.toInt_inj,
    Int64.toInt_minValue]
  exact Iff.rfl

/-- A quotient by a positive number lies between any bounds that the multiples of the number keep.
-/
theorem fdiv_mem_range {c d low high : Int} (hd : 0 < d) (hlow : low * d ≤ c)
    (hhigh : c < high * d) : low ≤ Int.fdiv c d ∧ Int.fdiv c d < high := by
  rw [Int.fdiv_eq_ediv_of_nonneg c (Int.le_of_lt hd)]
  exact ⟨Int.le_ediv_of_mul_le hd hlow, Int.ediv_lt_of_lt_mul hd hhigh⟩

/-- Rounding toward zero is one above the floor exactly where a quotient between two integers is
negative. -/
theorem fdiv_eq_corrected {x y : Int} (hy : y ≠ 0) : Int.fdiv x y =
    if x.tmod y ≠ 0 ∧ decide (x < 0) ≠ decide (y < 0) then x.tdiv y - 1 else x.tdiv y := by
  rw [Int.fdiv_eq_tdiv]
  by_cases hdvd : y ∣ x
  · simp [hdvd, Int.tmod_eq_zero_of_dvd hdvd]
  · have hmod : x.tmod y ≠ 0 := fun h => hdvd (Int.dvd_of_tmod_eq_zero h)
    have hx : x ≠ 0 := by
      rintro rfl
      exact hdvd (Int.dvd_zero y)
    rcases Int.lt_or_gt_of_ne hx with hx | hx <;> rcases Int.lt_or_gt_of_ne hy with hy | hy
    all_goals simp [hmod, hdvd, hx, hy, Int.not_le.2, Int.le_of_lt, Int.not_lt.2,
      Int.sign_eq_one_of_pos, Int.sign_eq_neg_one_of_neg]

/-- The ceiling is the floor of the negated quotient, negated. -/
theorem neg_fdiv_neg_eq_corrected {x y : Int} (hy : y ≠ 0) : -Int.fdiv (-x) y =
    if x.tmod y ≠ 0 ∧ decide (x < 0) = decide (y < 0) then x.tdiv y + 1 else x.tdiv y := by
  have hsign : x.tmod y ≠ 0 → (decide (-x < 0) ≠ decide (y < 0) ↔
      decide (x < 0) = decide (y < 0)) := by
    intro hmod
    have hx : x ≠ 0 := by
      rintro rfl
      exact hmod (Int.zero_tmod y)
    rcases Int.lt_or_gt_of_ne hx with hx | hx <;> rcases Int.lt_or_gt_of_ne hy with hy | hy
    all_goals simp [hx, hy, Int.not_lt.2, Int.le_of_lt]
  have hcorrect : ((-x).tmod y ≠ 0 ∧ decide (-x < 0) ≠ decide (y < 0)) ↔
      (x.tmod y ≠ 0 ∧ decide (x < 0) = decide (y < 0)) := by
    rw [Int.neg_tmod, Int.neg_ne_zero]
    exact and_congr_right_iff.2 hsign
  rw [fdiv_eq_corrected hy, Int.neg_tdiv]
  by_cases h : x.tmod y ≠ 0 ∧ decide (x < 0) = decide (y < 0)
  · rw [if_pos (hcorrect.2 h), if_pos h]
    omega
  · rw [if_neg fun h' => h (hcorrect.1 h'), if_neg h]
    exact Int.neg_neg _

/-- Rounding toward zero is that of the integers unless the quotient overflows. -/
theorem toInt_quotient (hover : ¬ quotientOverflows a b = true) :
    (a / b).toInt = a.toInt.tdiv b.toInt := by
  by_cases hb : b = -1
  · refine Int64.toInt_div_of_ne_left a b ?_
    rintro rfl
    exact hover (by rw [hb]; rfl)
  · exact Int64.toInt_div_of_ne_right a b hb

theorem remainder_ne_zero_iff : a % b ≠ 0 ↔ a.toInt.tmod b.toInt ≠ 0 := by
  rw [← Int64.toInt_mod, Ne, ← Int64.toInt_inj]
  exact Iff.rfl

theorem decide_neg_eq (a : Int64) : decide (a < 0) = decide (a.toInt < 0) :=
  decide_eq_decide.2 Int64.lt_iff_toInt_lt

/-- The floor quotient of words is that of the integers, overflow apart. -/
theorem toInt_floorQuotient (hb : b ≠ 0) (hover : ¬ quotientOverflows a b = true) :
    (floorQuotient a b).toInt = Int.fdiv a.toInt b.toInt := by
  have hlow := a.le_toInt
  have hhigh := a.toInt_lt
  have hne : b.toInt ≠ 0 := fun h => hb (Int64.toInt_inj.1 h)
  have hquotient := toInt_quotient hover
  have hfloor := fdiv_eq_corrected (x := a.toInt) hne
  have hrange : -2 ^ 63 ≤ Int.fdiv a.toInt b.toInt ∧ Int.fdiv a.toInt b.toInt < 2 ^ 63 := by
    rw [quotientOverflows_iff] at hover
    rcases Int.lt_or_gt_of_ne hne with hneg | hpos
    · rw [← Int.neg_fdiv_neg]
      exact fdiv_mem_range (by omega) (by omega) (by omega)
    · exact fdiv_mem_range hpos (by omega) (by omega)
  simp only [floorQuotient, remainder_ne_zero_iff, decide_neg_eq, hfloor] at hrange ⊢
  split
  · rename_i hcorrect
    rw [if_pos hcorrect] at hrange
    rw [Int64.toInt_sub, hquotient, Int64.toInt_one]
    exact Int.bmod_eq_of_le (by omega) (by omega)
  · exact hquotient

/-- So is the ceiling quotient. -/
theorem toInt_ceilQuotient (hb : b ≠ 0) (hover : ¬ quotientOverflows a b = true) :
    (ceilQuotient a b).toInt = -Int.fdiv (-a.toInt) b.toInt := by
  have hlow := a.le_toInt
  have hhigh := a.toInt_lt
  have hne : b.toInt ≠ 0 := fun h => hb (Int64.toInt_inj.1 h)
  have hquotient := toInt_quotient hover
  have hceil := neg_fdiv_neg_eq_corrected (x := a.toInt) hne
  -- the quotient that is negated must be above the least word
  have hrange : -2 ^ 63 + 1 ≤ Int.fdiv (-a.toInt) b.toInt ∧
      Int.fdiv (-a.toInt) b.toInt < 2 ^ 63 + 1 := by
    rw [quotientOverflows_iff] at hover
    rcases Int.lt_or_gt_of_ne hne with hneg | hpos
    · rw [← Int.neg_fdiv_neg]
      exact fdiv_mem_range (by omega) (by omega) (by omega)
    · exact fdiv_mem_range hpos (by omega) (by omega)
  simp only [ceilQuotient, remainder_ne_zero_iff, decide_neg_eq, hceil]
  split
  · rename_i hcorrect
    rw [if_pos hcorrect] at hceil
    rw [Int64.toInt_add, hquotient, Int64.toInt_one]
    exact Int.bmod_eq_of_le (by omega) (by omega)
  · exact hquotient

end Quotients

/-! ## Meaning -/

/-- The value of an operator over unbounded integers. -/
def BinOp.exact : BinOp → Int → Int → Option Int
  | .add, a, b => some (a + b)
  | .mul, a, b => some (a * b)
  | .floorDiv, a, b => if b = 0 then none else some (Int.fdiv a b)
  | .ceilDiv, a, b => if b = 0 then none else some (-Int.fdiv (-a) b)
  | .mod, a, b => if b = 0 then none else some (a % b)

/-- The value of an expression over unbounded integers, where dimension `i` is `dims[i]` and symbol
`j` is `syms[j]`. -/
def Expr.meaning (dims syms : List Int) : Expr → Option Int
  | .dim d => dims[d]?
  | .symbol s => syms[s]?
  | .const c => some c.toInt
  | .bin op l r => do
    let a ← l.meaning dims syms
    let b ← r.meaning dims syms
    op.exact a b

variable {dims syms : List Int}

/-- A binary expression has a value if its sides have values to which the operator applies. -/
theorem Expr.meaning_bin {op : BinOp} {l r : Expr} {v : Int} :
    (Expr.bin op l r).meaning dims syms = some v ↔ ∃ a b, l.meaning dims syms = some a ∧
      r.meaning dims syms = some b ∧ op.exact a b = some v := by
  simp only [Expr.meaning, Option.bind_eq_bind, Option.bind_eq_some_iff]
  constructor
  · rintro ⟨a, ha, b, hb, hv⟩
    exact ⟨a, b, ha, hb, hv⟩
  · rintro ⟨a, b, ha, hb, hv⟩
    exact ⟨a, ha, b, hb, hv⟩

/-- More identifiers with values change no value. -/
theorem Expr.meaning_mono {dims' syms' : List Int} (hd : dims <+: dims') (hs : syms <+: syms')
    {e : Expr} : ∀ {v : Int}, e.meaning dims syms = some v → e.meaning dims' syms' = some v := by
  have hget : ∀ {l l' : List Int} {i : Nat} {v : Int}, l <+: l' → l[i]? = some v →
      l'[i]? = some v := by
    rintro l _ i v ⟨rest, rfl⟩ hv
    have hi := (List.getElem?_eq_some_iff.1 hv).1
    rw [List.getElem?_append_left hi, hv]
  induction e with
  | dim i => intro v hv; exact hget hd hv
  | symbol i => intro v hv; exact hget hs hv
  | const c => intro v hv; exact hv
  | bin op l r ihl ihr =>
    intro v hv
    obtain ⟨a, b, ha, hb, hab⟩ := Expr.meaning_bin.1 hv
    exact Expr.meaning_bin.2 ⟨a, b, ihl ha, ihr hb, hab⟩

theorem Expr.constant?_const (c : Int64) : (Expr.const c).constant? = some c := rfl

theorem Expr.constant?_eq {e : Expr} {c : Int64} (h : e.constant? = some c) : e = .const c := by
  cases e <;> simp [Expr.constant?] at h
  rw [h]

theorem Expr.positive?_eq {e : Expr} {d : Int64} (h : e.positive? = some d) :
    e = .const d ∧ 0 < d.toInt := by
  obtain ⟨hc, hpos⟩ := Option.filter_eq_some_iff.1 h
  refine ⟨constant?_eq hc, ?_⟩
  simpa [Int64.lt_iff_toInt_lt] using hpos

/-- The order of expressions identifies only equal ones. -/
theorem Expr.eq_of_compare : ∀ {a b : Expr}, a.compare b = .eq → a = b
  | .dim a, .dim b, h => by rw [Nat.compare_eq_eq.1 h]
  | .symbol a, .symbol b, h => by rw [Nat.compare_eq_eq.1 h]
  | .const a, .const b, h => by
    have hab : Ord.compare a b = .eq := h
    rw [Std.LawfulEqOrd.eq_of_compare hab]
  | .bin o l r, .bin o' l' r', h => by
    simp only [Expr.compare, Ordering.then_eq_eq] at h
    obtain ⟨ho, hl, hr⟩ := h
    have hop : o = o' := by
      cases o <;> cases o' <;> first | rfl | exact absurd ho (by decide)
    rw [hop, eq_of_compare hl, eq_of_compare hr]
  | .dim _, .symbol _, h | .dim _, .const _, h | .dim _, .bin _ _ _, h
  | .symbol _, .dim _, h | .symbol _, .const _, h | .symbol _, .bin _ _ _, h
  | .const _, .dim _, h | .const _, .symbol _, h | .const _, .bin _ _ _, h
  | .bin _ _ _, .dim _, h | .bin _ _ _, .symbol _, h | .bin _ _ _, .const _, h => by cases h

/-! ## Sums -/

/-- The value of a list of terms. -/
def termsMeaning (dims syms : List Int) : List (Expr × Int64) → Option Int
  | [] => some 0
  | (a, c) :: rest => do
    let x ← a.meaning dims syms
    let y ← termsMeaning dims syms rest
    return c.toInt * x + y

/-- The value of a list of terms is that of its first term added to that of the others. -/
theorem termsMeaning_cons {a : Expr} {c : Int64} {rest : List (Expr × Int64)} {v : Int} :
    termsMeaning dims syms ((a, c) :: rest) = some v ↔ ∃ x y, a.meaning dims syms = some x ∧
      termsMeaning dims syms rest = some y ∧ v = c.toInt * x + y := by
  simp only [termsMeaning, Option.bind_eq_bind, Option.bind_eq_some_iff, Option.pure_def,
    Option.some.injEq]
  constructor
  · rintro ⟨x, hx, y, hy, rfl⟩
    exact ⟨x, y, hx, hy, rfl⟩
  · rintro ⟨x, y, hx, hy, rfl⟩
    exact ⟨x, hx, y, hy, rfl⟩

namespace Linear

/-- The value of a sum. -/
def meaning (dims syms : List Int) (lin : Linear) : Option Int :=
  (termsMeaning dims syms lin.terms).map (· + lin.constant.toInt)

theorem meaning_iff {lin : Linear} {v : Int} : lin.meaning dims syms = some v ↔
    ∃ y, termsMeaning dims syms lin.terms = some y ∧ v = y + lin.constant.toInt := by
  rw [meaning, Option.map_eq_some_iff]
  constructor
  · rintro ⟨y, hy, rfl⟩
    exact ⟨y, hy, rfl⟩
  · rintro ⟨y, hy, rfl⟩
    exact ⟨y, hy, rfl⟩

theorem meaning_zero : zero.meaning dims syms = some 0 := rfl

/-- Whether adding a term stays in the word range. -/
def addTermFits (atom : Expr) (c : Int64) : List (Expr × Int64) → Bool
  | [] => true
  | (a, k) :: rest =>
    match atom.compare a with
    | .lt => true
    | .eq => fitsWord (k.toInt + c.toInt)
    | .gt => addTermFits atom c rest

/-- Adding a term adds its multiple of the atom. -/
theorem addTerm_meaning {atom : Expr} {c : Int64} {x : Int}
    (hx : atom.meaning dims syms = some x) : ∀ {ts : List (Expr × Int64)} {y : Int},
      addTermFits atom c ts = true → termsMeaning dims syms ts = some y →
      termsMeaning dims syms (addTerm atom c ts) = some (c.toInt * x + y) := by
  intro ts
  induction ts with
  | nil =>
    intro y _ hy
    exact termsMeaning_cons.2 ⟨x, y, hx, hy, rfl⟩
  | cons t rest ih =>
    obtain ⟨a, k⟩ := t
    intro y hfits hy
    obtain ⟨z, w, hz, hw, rfl⟩ := termsMeaning_cons.1 hy
    unfold addTermFits at hfits
    unfold addTerm
    cases hcmp : atom.compare a with
    | lt => exact termsMeaning_cons.2 ⟨x, _, hx, hy, rfl⟩
    | eq =>
      simp only [hcmp] at hfits
      -- like terms: the atoms are one and the same
      cases Expr.eq_of_compare hcmp
      cases hx.symm.trans hz
      refine termsMeaning_cons.2 ⟨x, w, hx, hw, ?_⟩
      rw [toInt_add_of_fits hfits]
      ring
    | gt =>
      simp only [hcmp] at hfits
      refine termsMeaning_cons.2 ⟨z, c.toInt * x + w, hz, ih hfits hw, ?_⟩
      ring

/-- Whether collecting an expression into a sum stays in the word range. -/
def accumulateFits (lin : Linear) (scale : Int64) : Expr → Bool
  | .const c =>
    fitsWord (c.toInt * scale.toInt) && fitsWord (lin.constant.toInt + (c * scale).toInt)
  | .bin .add l r => accumulateFits lin scale l && accumulateFits (accumulate lin scale l) scale r
  | .bin .mul l r =>
    match l.constant?, r.constant? with
    | _, some c => fitsWord (scale.toInt * c.toInt) && accumulateFits lin (scale * c) l
    | some c, none => fitsWord (scale.toInt * c.toInt) && accumulateFits lin (scale * c) r
    | none, none => addTermFits (.bin .mul l r) scale lin.terms
  | atom => addTermFits atom scale lin.terms

/-- The same for sums with their constant. -/
theorem addAtom_meaning {lin : Linear} {atom : Expr} {c : Int64} {x y : Int}
    (hfits : addTermFits atom c lin.terms = true) (hlin : lin.meaning dims syms = some y)
    (hx : atom.meaning dims syms = some x) :
    (lin.addAtom atom c).meaning dims syms = some (y + c.toInt * x) := by
  obtain ⟨z, hz, rfl⟩ := meaning_iff.1 hlin
  refine meaning_iff.2 ⟨c.toInt * x + z, addTerm_meaning hx hfits hz, ?_⟩
  simp only [addAtom]
  ring

/-- Collecting an expression into a sum adds its multiple. -/
theorem accumulate_meaning {e : Expr} : ∀ {lin : Linear} {scale : Int64} {x y : Int},
    accumulateFits lin scale e = true → lin.meaning dims syms = some y →
    e.meaning dims syms = some x →
    (accumulate lin scale e).meaning dims syms = some (y + scale.toInt * x) := by
  induction e with
  | dim d =>
    intro lin scale x y hfits hlin hx
    exact addAtom_meaning hfits hlin hx
  | symbol s =>
    intro lin scale x y hfits hlin hx
    exact addAtom_meaning hfits hlin hx
  | const c =>
    intro lin scale x y hfits hlin hx
    simp only [accumulateFits, Bool.and_eq_true] at hfits
    obtain ⟨z, hz, rfl⟩ := meaning_iff.1 hlin
    cases hx
    refine meaning_iff.2 ⟨z, hz, ?_⟩
    simp only [accumulate, toInt_add_of_fits hfits.2, toInt_mul_of_fits hfits.1]
    ring
  | bin op l r ihl ihr =>
    intro lin scale x y hfits hlin hx
    cases op with
    | add =>
      simp only [accumulateFits, Bool.and_eq_true] at hfits
      obtain ⟨a, b, ha, hb, hab⟩ := Expr.meaning_bin.1 hx
      cases hab
      rw [accumulate, ihr hfits.2 (ihl hfits.1 hlin ha) hb]
      congr 1
      ring
    | mul =>
      obtain ⟨a, b, ha, hb, hab⟩ := Expr.meaning_bin.1 hx
      cases hab
      cases hr : r.constant? with
      | some c =>
        cases Expr.constant?_eq hr
        cases hb
        simp only [accumulateFits, Expr.constant?_const, Bool.and_eq_true] at hfits
        simp only [accumulate, Expr.constant?_const]
        rw [ihl hfits.2 hlin ha, toInt_mul_of_fits hfits.1]
        congr 1
        ring
      | none =>
        cases hl : l.constant? with
        | some c =>
          cases Expr.constant?_eq hl
          cases ha
          simp only [accumulateFits, Expr.constant?_const, hr, Bool.and_eq_true] at hfits
          simp only [accumulate, Expr.constant?_const, hr]
          rw [ihr hfits.2 hlin hb, toInt_mul_of_fits hfits.1]
          congr 1
          ring
        | none =>
          simp only [accumulateFits, hl, hr] at hfits
          simp only [accumulate, hl, hr]
          exact addAtom_meaning hfits hlin hx
    | floorDiv => exact addAtom_meaning hfits hlin hx
    | ceilDiv => exact addAtom_meaning hfits hlin hx
    | mod => exact addAtom_meaning hfits hlin hx

/-- The sum of an expression has its value. -/
theorem ofExpr_meaning {e : Expr} {x : Int} (hfits : accumulateFits zero 1 e = true)
    (hx : e.meaning dims syms = some x) : (ofExpr e).meaning dims syms = some x := by
  rw [ofExpr, accumulate_meaning hfits meaning_zero hx]
  simp

/-- Whether adding terms one after the other stays in the word range. -/
def mergeTermsFits : List (Expr × Int64) → List (Expr × Int64) → Bool
  | _, [] => true
  | ts, t :: rest => addTermFits t.1 t.2 ts && mergeTermsFits (addTerm t.1 t.2 ts) rest

/-- Whether the sum of two sums stays in the word range. -/
def mergeFits (a b : Linear) : Bool :=
  mergeTermsFits a.terms b.terms && fitsWord (a.constant.toInt + b.constant.toInt)

/-- Terms are added one after the other. -/
theorem mergeTerms_meaning {bs : List (Expr × Int64)} :
    ∀ {ts : List (Expr × Int64)} {x y : Int}, mergeTermsFits ts bs = true →
      termsMeaning dims syms ts = some x → termsMeaning dims syms bs = some y →
      termsMeaning dims syms (bs.foldl (fun ts t => addTerm t.1 t.2 ts) ts) = some (x + y) := by
  induction bs with
  | nil =>
    intro ts x y _ hx hy
    cases hy
    simpa using hx
  | cons t bs ih =>
    obtain ⟨a, c⟩ := t
    intro ts x y hfits hx hy
    simp only [mergeTermsFits, Bool.and_eq_true] at hfits
    obtain ⟨z, w, hz, hw, rfl⟩ := termsMeaning_cons.1 hy
    rw [List.foldl_cons, ih hfits.2 (addTerm_meaning hz hfits.1 hx) hw]
    congr 1
    ring

/-- The sum of two sums has the sum of their values. -/
theorem merge_meaning {a b : Linear} {x y : Int} (hfits : mergeFits a b = true)
    (ha : a.meaning dims syms = some x) (hb : b.meaning dims syms = some y) :
    (a.merge b).meaning dims syms = some (x + y) := by
  simp only [mergeFits, Bool.and_eq_true] at hfits
  obtain ⟨z, hz, rfl⟩ := meaning_iff.1 ha
  obtain ⟨w, hw, rfl⟩ := meaning_iff.1 hb
  refine meaning_iff.2 ⟨z + w, mergeTerms_meaning hfits.1 hz hw, ?_⟩
  simp only [merge, toInt_add_of_fits hfits.2]
  ring

/-- Whether scaling a sum stays in the word range. -/
def scaleFits (lin : Linear) (factor : Int64) : Bool :=
  (lin.terms.all fun t => fitsWord (t.2.toInt * factor.toInt)) &&
    fitsWord (lin.constant.toInt * factor.toInt)

/-- A change of every coefficient that multiplies them all by one number multiplies the sum. -/
theorem mapTerms_meaning {f : Int64 → Int64} {k : Int} {ts : List (Expr × Int64)} :
    ∀ {y : Int}, (∀ t ∈ ts, (f t.2).toInt = t.2.toInt * k) → termsMeaning dims syms ts = some y →
      termsMeaning dims syms (ts.map fun t => (t.1, f t.2)) = some (y * k) := by
  induction ts with
  | nil =>
    intro y _ hy
    cases hy
    simp [termsMeaning]
  | cons t ts ih =>
    obtain ⟨a, c⟩ := t
    intro y hf hy
    obtain ⟨z, w, hz, hw, rfl⟩ := termsMeaning_cons.1 hy
    have htail : ∀ t ∈ ts, (f t.2).toInt = t.2.toInt * k := fun t ht =>
      hf t (List.mem_cons_of_mem _ ht)
    refine termsMeaning_cons.2 ⟨z, w * k, hz, ih htail hw, ?_⟩
    rw [hf (a, c) List.mem_cons_self]
    ring

/-- A scaled sum has the multiple of the value. -/
theorem scale_meaning {lin : Linear} {factor : Int64} {x : Int}
    (hfits : scaleFits lin factor = true) (hx : lin.meaning dims syms = some x) :
    (lin.scale factor).meaning dims syms = some (x * factor.toInt) := by
  simp only [scaleFits, Bool.and_eq_true, List.all_eq_true] at hfits
  obtain ⟨y, hy, rfl⟩ := meaning_iff.1 hx
  have hterms := mapTerms_meaning (f := (· * factor)) (k := factor.toInt)
    (fun t ht => toInt_mul_of_fits (hfits.1 t ht)) hy
  refine meaning_iff.2 ⟨y * factor.toInt, hterms, ?_⟩
  simp only [scale, toInt_mul_of_fits hfits.2]
  ring

theorem dvd_of_mod_eq_zero {a d : Int64} (h : a % d = 0) : d.toInt ∣ a.toInt := by
  have hmod : (a % d).toInt = 0 := by rw [h]; rfl
  rw [Int64.toInt_mod] at hmod
  exact Int.dvd_of_tmod_eq_zero hmod

theorem toInt_div_of_dvd {a d : Int64} (hpos : 0 < d.toInt) (h : d.toInt ∣ a.toInt) :
    (a / d).toInt * d.toInt = a.toInt := by
  have hd : d ≠ -1 := by
    rintro rfl
    exact absurd hpos (by decide)
  rw [Int64.toInt_div_of_ne_right a d hd]
  exact Int.tdiv_mul_cancel h

/-- An exactly divisible sum is divided term by term. -/
theorem scaleDown_meaning {lin : Linear} {d : Int64} {x : Int} (hpos : 0 < d.toInt)
    (hdiv : lin.divisibleBy d = true) (hx : lin.meaning dims syms = some x) :
    ∃ q, x = q * d.toInt ∧ (lin.scaleDown d).meaning dims syms = some q := by
  simp only [divisibleBy, Bool.and_eq_true, beq_iff_eq, List.all_eq_true] at hdiv
  have hquot : ∀ {ts : List (Expr × Int64)} {y : Int}, (∀ t ∈ ts, t.2 % d = 0) →
      termsMeaning dims syms ts = some y → ∃ q, y = q * d.toInt ∧
        termsMeaning dims syms (ts.map fun t => (t.1, t.2 / d)) = some q := by
    intro ts
    induction ts with
    | nil =>
      intro y _ hy
      cases hy
      exact ⟨0, by simp, rfl⟩
    | cons t ts ih =>
      obtain ⟨a, c⟩ := t
      intro y hts hy
      obtain ⟨z, w, hz, hw, rfl⟩ := termsMeaning_cons.1 hy
      obtain ⟨q, rfl, hq⟩ := ih (fun t ht => hts t (List.mem_cons_of_mem _ ht)) hw
      refine ⟨(c / d).toInt * z + q, ?_, termsMeaning_cons.2 ⟨z, q, hz, hq, rfl⟩⟩
      rw [← toInt_div_of_dvd hpos (dvd_of_mod_eq_zero (hts (a, c) List.mem_cons_self))]
      ring
  obtain ⟨y, hy, rfl⟩ := meaning_iff.1 hx
  obtain ⟨q, rfl, hq⟩ := hquot hdiv.2 hy
  refine ⟨q + (lin.constant / d).toInt, ?_, meaning_iff.2 ⟨q, hq, rfl⟩⟩
  rw [← toInt_div_of_dvd hpos (dvd_of_mod_eq_zero hdiv.1)]
  ring

theorem toInt_euclideanRemainder {a d : Int64} (hpos : 0 < d.toInt) :
    (euclideanRemainder a d).toInt = a.toInt % d.toInt := by
  apply toInt_ofInt_of_fits
  rw [fitsWord_iff]
  have hlow := Int.emod_nonneg a.toInt (Int.ne_of_gt hpos)
  have hhigh := Int.emod_lt_of_pos a.toInt hpos
  have hd := d.toInt_lt
  omega

/-- What drops out of a dividend is a multiple of the divisor. -/
theorem reduceModulo_meaning {lin : Linear} {d : Int64} {x : Int} (hpos : 0 < d.toInt)
    (hx : lin.meaning dims syms = some x) :
    ∃ y, (lin.reduceModulo d).meaning dims syms = some y ∧ y % d.toInt = x % d.toInt := by
  have hterms : ∀ {ts : List (Expr × Int64)} {y : Int}, termsMeaning dims syms ts = some y →
      ∃ z, termsMeaning dims syms (ts.filter fun t => t.2 % d != 0) = some z ∧
        d.toInt ∣ y - z := by
    intro ts
    induction ts with
    | nil =>
      intro y hy
      cases hy
      exact ⟨0, rfl, by simp⟩
    | cons t ts ih =>
      obtain ⟨a, c⟩ := t
      intro y hy
      obtain ⟨u, w, hu, hw, rfl⟩ := termsMeaning_cons.1 hy
      obtain ⟨z, hz, hdvd⟩ := ih hw
      by_cases hc : c % d = 0
      · refine ⟨z, by simpa [List.filter_cons, hc] using hz, ?_⟩
        have hcu : d.toInt ∣ c.toInt * u := Dvd.dvd.mul_right (dvd_of_mod_eq_zero hc) u
        have heq : c.toInt * u + w - z = c.toInt * u + (w - z) := by ring
        rw [heq]
        exact dvd_add hcu hdvd
      · refine ⟨c.toInt * u + z, ?_, ?_⟩
        · rw [List.filter_cons, if_pos (by simpa using hc)]
          exact termsMeaning_cons.2 ⟨u, z, hu, hz, rfl⟩
        · have heq : c.toInt * u + w - (c.toInt * u + z) = w - z := by ring
          rw [heq]
          exact hdvd
  obtain ⟨y, hy, rfl⟩ := meaning_iff.1 hx
  obtain ⟨z, hz, hdvd⟩ := hterms hy
  refine ⟨z + lin.constant.toInt % d.toInt, ?_, ?_⟩
  · refine meaning_iff.2 ⟨z, hz, ?_⟩
    rw [reduceModulo, toInt_euclideanRemainder hpos]
  · rw [Int.add_emod_emod]
    have heq : y + lin.constant.toInt - (z + lin.constant.toInt) = y - z := by ring
    exact Int.modEq_iff_dvd.2 (heq ▸ hdvd)

/-! ## Writing sums back -/

/-- A term is written as its multiple of the atom. -/
theorem termExpr_meaning {a : Expr} {c : Int64} {x : Int} (hx : a.meaning dims syms = some x) :
    (termExpr (a, c)).meaning dims syms = some (c.toInt * x) := by
  unfold termExpr
  split
  · rename_i hone
    have hc : c = 1 := hone
    rw [hx, hc]
    simp
  · exact Expr.meaning_bin.2 ⟨x, c.toInt, hx, rfl, by rw [BinOp.exact, Int.mul_comm]⟩

/-- A chain of terms under construction: without an expression nothing was added yet. -/
def ChainMeans (dims syms : List Int) : Option Expr → Int → Prop
  | none, x => x = 0
  | some e, x => e.meaning dims syms = some x

/-- Terms are written from the left, each added to those before it. -/
theorem foldl_terms_meaning {ts : List (Expr × Int64)} : ∀ {acc : Option Expr} {x y : Int},
    ChainMeans dims syms acc x → termsMeaning dims syms ts = some y →
    ChainMeans dims syms (ts.foldl
      (fun acc t =>
        match acc with
        | none => some (termExpr t)
        | some e => some (.bin .add e (termExpr t)))
      acc) (x + y) := by
  induction ts with
  | nil =>
    intro acc x y hacc hy
    cases hy
    simpa using hacc
  | cons t ts ih =>
    obtain ⟨a, c⟩ := t
    intro acc x y hacc hy
    obtain ⟨z, w, hz, hw, rfl⟩ := termsMeaning_cons.1 hy
    have hterm := termExpr_meaning (c := c) hz
    have hassoc : x + (c.toInt * z + w) = x + c.toInt * z + w := by ring
    rw [List.foldl_cons, hassoc]
    apply ih _ hw
    cases acc with
    | none =>
      have hx : x = 0 := hacc
      rw [hx, Int.zero_add]
      exact hterm
    | some e => exact Expr.meaning_bin.2 ⟨x, _, hacc, hterm, rfl⟩

/-- Terms with coefficient zero do not count. -/
theorem filter_zero_meaning {ts : List (Expr × Int64)} : ∀ {y : Int},
    termsMeaning dims syms ts = some y →
    termsMeaning dims syms (ts.filter fun t => t.2 != 0) = some y := by
  induction ts with
  | nil => intro y hy; exact hy
  | cons t ts ih =>
    obtain ⟨a, c⟩ := t
    intro y hy
    obtain ⟨z, w, hz, hw, rfl⟩ := termsMeaning_cons.1 hy
    by_cases hc : c = 0
    · subst hc
      simpa [List.filter_cons] using ih hw
    · rw [List.filter_cons, if_pos (by simpa using hc)]
      exact termsMeaning_cons.2 ⟨z, w, hz, ih hw, rfl⟩

/-- What a sum is written as has its value. -/
theorem toExpr_meaning {lin : Linear} {x : Int} (hx : lin.meaning dims syms = some x) :
    lin.toExpr.meaning dims syms = some x := by
  obtain ⟨y, hy, rfl⟩ := meaning_iff.1 hx
  have hstart : ChainMeans dims syms none 0 := rfl
  have hchain : ChainMeans dims syms (termsExpr? lin.terms) (0 + y) :=
    foldl_terms_meaning hstart (filter_zero_meaning hy)
  rw [Int.zero_add] at hchain
  unfold toExpr
  cases hterms : termsExpr? lin.terms with
  | none =>
    rw [hterms] at hchain
    have hzero : y = 0 := hchain
    rw [hzero, Int.zero_add]
    rfl
  | some e =>
    rw [hterms] at hchain
    show (if lin.constant = 0 then e else _).meaning dims syms = _
    split
    · rename_i hc
      have hmean : e.meaning dims syms = some y := hchain
      rw [hc, hmean]
      simp
    · exact Expr.meaning_bin.2 ⟨y, _, hchain, rfl, rfl⟩

end Linear

/-! ## Constructors -/

namespace Expr

/-- Whether the sum of an expression stays in the word range. -/
def linearFits (e : Expr) : Bool := Linear.accumulateFits .zero 1 e

/-- Whether a canonical sum stays in the word range. -/
def plusFits (a b : Expr) : Bool :=
  a.linearFits && b.linearFits && Linear.mergeFits (.ofExpr a) (.ofExpr b)

/-- Whether a canonical product stays in the word range. -/
def timesFits (a b : Expr) : Bool :=
  match a.constant?, b.constant? with
  | _, some c => a.linearFits && Linear.scaleFits (.ofExpr a) c
  | some c, none => b.linearFits && Linear.scaleFits (.ofExpr b) c
  | none, none => true

/-- Whether a canonical quotient stays in the word range. -/
def divideFits (a b : Expr) : Bool :=
  match b.positive? with
  | some d => decide (d = 1) || a.isConstant || a.linearFits
  | none => true

/-- Whether a canonical remainder stays in the word range. -/
def moduloFits (a b : Expr) : Bool :=
  match b.positive? with
  | some _ => a.linearFits
  | none => true

/-- Whether a canonical constructor stays in the word range. -/
def combineFits : BinOp → Expr → Expr → Bool
  | .add => plusFits
  | .mul => timesFits
  | .floorDiv => divideFits
  | .ceilDiv => divideFits
  | .mod => moduloFits

variable {a b : Expr} {x y : Int}

/-- A canonical sum has the sum of the values. -/
theorem plus_meaning (hfits : plusFits a b = true) (ha : a.meaning dims syms = some x)
    (hb : b.meaning dims syms = some y) : (a.plus b).meaning dims syms = some (x + y) := by
  simp only [plusFits, Bool.and_eq_true] at hfits
  obtain ⟨⟨hfa, hfb⟩, hmerge⟩ := hfits
  apply Linear.toExpr_meaning
  exact Linear.merge_meaning hmerge (Linear.ofExpr_meaning hfa ha) (Linear.ofExpr_meaning hfb hb)

/-- A canonical product has the product of the values; one side is a constant unless the product
stays as it is. -/
theorem times_meaning (hfits : timesFits a b = true) (ha : a.meaning dims syms = some x)
    (hb : b.meaning dims syms = some y) : (a.times b).meaning dims syms = some (x * y) := by
  cases hcb : b.constant? with
  | some c =>
    cases constant?_eq hcb
    cases hb
    simp only [timesFits, constant?_const, Bool.and_eq_true] at hfits
    simp only [times, constant?_const]
    apply Linear.toExpr_meaning
    exact Linear.scale_meaning hfits.2 (Linear.ofExpr_meaning hfits.1 ha)
  | none =>
    cases hca : a.constant? with
    | some c =>
      cases constant?_eq hca
      cases ha
      simp only [timesFits, constant?_const, hcb, Bool.and_eq_true] at hfits
      simp only [times, constant?_const, hcb]
      rw [Int.mul_comm]
      apply Linear.toExpr_meaning
      exact Linear.scale_meaning hfits.2 (Linear.ofExpr_meaning hfits.1 hb)
    | none =>
      simp only [times, hca, hcb]
      exact meaning_bin.2 ⟨x, y, ha, hb, rfl⟩

/-- The quotients by a positive number: they agree with the exact one on multiples of it, and on
words they are words. -/
structure IsQuotient (op : BinOp) (quotient : Int64 → Int64 → Int64) : Prop where
  mul : ∀ q d : Int, 0 < d → op.exact (q * d) d = some q
  word : ∀ c d : Int64, 0 < d.toInt → op.exact c.toInt d.toInt = some (quotient c d).toInt

/-- A positive divisor is neither zero nor minus one. -/
theorem divides_of_pos {c d : Int64} (hd : 0 < d.toInt) :
    d ≠ 0 ∧ ¬ quotientOverflows c d = true := by
  refine ⟨?_, fun hover => ?_⟩
  · rintro rfl
    exact Int.lt_irrefl 0 hd
  · have := (quotientOverflows_iff.1 hover).2
    omega

theorem floorDiv_isQuotient : IsQuotient .floorDiv floorQuotient := by
  refine ⟨fun q d hd => ?_, fun c d hd => ?_⟩
  · rw [BinOp.exact, if_neg (Int.ne_of_gt hd), Int.mul_fdiv_cancel q (Int.ne_of_gt hd)]
  · obtain ⟨hne, hover⟩ := divides_of_pos (c := c) hd
    rw [BinOp.exact, if_neg (Int.ne_of_gt hd), toInt_floorQuotient hne hover]

theorem ceilDiv_isQuotient : IsQuotient .ceilDiv ceilQuotient := by
  refine ⟨fun q d hd => ?_, fun c d hd => ?_⟩
  · have hneg : -(q * d) = -q * d := by ring
    rw [BinOp.exact, if_neg (Int.ne_of_gt hd), hneg, Int.mul_fdiv_cancel (-q) (Int.ne_of_gt hd),
      Int.neg_neg]
  · obtain ⟨hne, hover⟩ := divides_of_pos (c := c) hd
    rw [BinOp.exact, if_neg (Int.ne_of_gt hd), toInt_ceilQuotient hne hover]

/-- A canonical quotient is divided term by term where it is exact, and is the quotient of its
constants or stays as it is elsewhere. -/
theorem divideBy_meaning {op : BinOp} {quotient : Int64 → Int64 → Int64} {d : Int64} {v : Int}
    (hq : IsQuotient op quotient) (hpos : 0 < d.toInt)
    (hfits : (decide (d = 1) || a.isConstant || a.linearFits) = true)
    (ha : a.meaning dims syms = some x) (hv : op.exact x d.toInt = some v) :
    (divideBy op quotient a d).meaning dims syms = some v := by
  unfold divideBy
  split
  · -- a unit divisor
    rename_i hone
    have hx := hq.mul x 1 Int.one_pos
    rw [Int.mul_one] at hx
    rw [hone] at hv
    rw [ha, ← hx]
    exact hv
  · rename_i hone
    cases hc : a.constant? with
    | some c =>
      cases constant?_eq hc
      cases ha
      exact (hq.word c d hpos).symm.trans hv
    | none =>
      have hlin : a.linearFits = true := by
        simpa [hone, isConstant, hc] using hfits
      have hx := Linear.ofExpr_meaning hlin ha
      show (if _ then _ else _ : Expr).meaning dims syms = _
      split
      · -- an exactly divisible sum
        rename_i hdiv
        obtain ⟨q, rfl, hmean⟩ := Linear.scaleDown_meaning hpos hdiv hx
        rw [hq.mul q d.toInt hpos] at hv
        rw [Linear.toExpr_meaning hmean, hv]
      · exact meaning_bin.2 ⟨x, d.toInt, ha, rfl, hv⟩

/-- A canonical remainder loses only multiples of the divisor. -/
theorem modulo_meaning {v : Int} (hfits : moduloFits a b = true)
    (ha : a.meaning dims syms = some x) (hb : b.meaning dims syms = some y)
    (hv : BinOp.exact .mod x y = some v) : (a.modulo b).meaning dims syms = some v := by
  unfold modulo
  cases hpos? : b.positive? with
  | none => exact meaning_bin.2 ⟨x, y, ha, hb, hv⟩
  | some d =>
    obtain ⟨rfl, hpos⟩ := positive?_eq hpos?
    cases hb
    have hlin : a.linearFits = true := by simpa [moduloFits, hpos?] using hfits
    obtain ⟨z, hz, hmod⟩ := Linear.reduceModulo_meaning hpos (Linear.ofExpr_meaning hlin ha)
    have hvalue : BinOp.exact .mod z d.toInt = some v := by
      rw [← hv]
      simp only [BinOp.exact, hmod]
    show (if _ then _ else _ : Expr).meaning dims syms = _
    split
    · -- only the constant is left, and it is reduced already
      rename_i hempty
      obtain ⟨w, hw, rfl⟩ := Linear.meaning_iff.1 hz
      rw [List.isEmpty_iff.1 hempty] at hw
      cases hw
      rw [BinOp.exact, if_neg (Int.ne_of_gt hpos)] at hvalue
      rw [← hvalue, Int.zero_add, Linear.reduceModulo, Linear.toInt_euclideanRemainder hpos,
        Int.emod_emod_of_dvd _ (dvd_refl _), ← Linear.toInt_euclideanRemainder hpos]
      rfl
    · exact meaning_bin.2 ⟨z, d.toInt, Linear.toExpr_meaning hz, rfl, hvalue⟩

/-- Every canonical constructor means what its operator means. -/
theorem combine_meaning (op : BinOp) {v : Int} (hfits : combineFits op a b = true)
    (ha : a.meaning dims syms = some x) (hb : b.meaning dims syms = some y)
    (hv : op.exact x y = some v) : (combine op a b).meaning dims syms = some v := by
  have hdivide : ∀ {op : BinOp} {quotient : Int64 → Int64 → Int64}, IsQuotient op quotient →
      divideFits a b = true → op.exact x y = some v →
      (match b.positive? with
        | some d => divideBy op quotient a d
        | none => .bin op a b).meaning dims syms = some v := by
    intro op quotient hq hfits hv
    cases hpos? : b.positive? with
    | none => exact meaning_bin.2 ⟨x, y, ha, hb, hv⟩
    | some d =>
      obtain ⟨rfl, hpos⟩ := positive?_eq hpos?
      cases hb
      simp only [divideFits, hpos?] at hfits
      exact divideBy_meaning hq hpos hfits ha hv
  cases op with
  | add =>
    cases hv
    exact plus_meaning hfits ha hb
  | mul =>
    cases hv
    exact times_meaning hfits ha hb
  | floorDiv => exact hdivide floorDiv_isQuotient hfits hv
  | ceilDiv => exact hdivide ceilDiv_isQuotient hfits hv
  | mod => exact modulo_meaning hfits ha hb hv

/-! ## Substitution and simplification -/

/-- Whether rebuilding an expression with replaced identifiers stays in the word range. -/
def substituteFits (dims syms : List Expr) : Expr → Bool
  | .bin op l r =>
    l.substituteFits dims syms && r.substituteFits dims syms &&
      match l.substitute dims syms, r.substitute dims syms with
      | .ok l', .ok r' => combineFits op l' r'
      | _, _ => true
  | _ => true

/-- Whether rebuilding an expression stays in the word range. -/
def simplifyFits : Expr → Bool
  | .bin op l r => l.simplifyFits && r.simplifyFits && combineFits op l.simplify r.simplify
  | _ => true

/-- The replacements that are used have the values they stand for. -/
def Replaces (dims syms : List Int) (used : Nat → Bool) (es : List Expr) (vs : List Int) : Prop :=
  ∀ (i : Nat) (e : Expr) (v : Int), used i = true → es[i]? = some e → vs[i]? = some v →
    e.meaning dims syms = some v

theorem Replaces.mono {used : Nat → Bool} {es : List Expr} {vs : List Int}
    (h : Replaces dims syms used es vs) {u : Nat → Bool} (hu : ∀ i, u i = true → used i = true) :
    Replaces dims syms u es vs :=
  fun i e v hi => h i e v (hu i hi)

theorem Replaces.take {es : List Expr} {vs : List Int}
    (h : Replaces dims syms (fun _ => true) es vs) (n : Nat) (u : Nat → Bool) :
    Replaces dims syms u (es.take n) (vs.take n) := by
  intro i e v _ he hv
  rw [List.getElem?_take] at he hv
  split at he
  · rename_i hi
    rw [if_pos hi] at hv
    exact h i e v rfl he hv
  · cases he

theorem Replaces.drop {es : List Expr} {vs : List Int}
    (h : Replaces dims syms (fun _ => true) es vs) (n : Nat) (u : Nat → Bool) :
    Replaces dims syms u (es.drop n) (vs.drop n) := by
  intro i e v _ he hv
  rw [List.getElem?_drop] at he hv
  exact h (n + i) e v rfl he hv

/-- An expression has the value after substitution that it has at the values of the
replacements. -/
theorem substitute_meaning {ds ss : List Expr} {dvals svals : List Int} {e : Expr} :
    ∀ {e' : Expr} {v : Int}, Replaces dims syms (e.usesDim ·) ds dvals →
      Replaces dims syms (e.usesSymbol ·) ss svals → e.substitute ds ss = .ok e' →
      e.substituteFits ds ss = true → e.meaning dvals svals = some v →
      e'.meaning dims syms = some v := by
  induction e with
  | dim i =>
    intro e' v hd _ hsub _ hv
    simp only [substitute] at hsub
    cases hi : ds[i]? with
    | none => simp [hi] at hsub
    | some e =>
      simp only [hi, Except.ok.injEq] at hsub
      exact hsub ▸ hd i e v (by simp [usesDim]) hi hv
  | symbol i =>
    intro e' v _ hs hsub _ hv
    simp only [substitute] at hsub
    cases hi : ss[i]? with
    | none => simp [hi] at hsub
    | some e =>
      simp only [hi, Except.ok.injEq] at hsub
      exact hsub ▸ hs i e v (by simp [usesSymbol]) hi hv
  | const c =>
    intro e' v _ _ hsub _ hv
    cases hsub
    exact hv
  | bin op l r ihl ihr =>
    intro e' v hd hs hsub hfits hv
    obtain ⟨x, y, hx, hy, hxy⟩ := meaning_bin.1 hv
    simp only [substituteFits, Bool.and_eq_true] at hfits
    obtain ⟨⟨hfl, hfr⟩, hfc⟩ := hfits
    have hdl := hd.mono (u := (l.usesDim ·)) fun i hi => by simp [usesDim, hi]
    have hdr := hd.mono (u := (r.usesDim ·)) fun i hi => by simp [usesDim, hi]
    have hsl := hs.mono (u := (l.usesSymbol ·)) fun i hi => by simp [usesSymbol, hi]
    have hsr := hs.mono (u := (r.usesSymbol ·)) fun i hi => by simp [usesSymbol, hi]
    cases hl : l.substitute ds ss with
    | error err =>
      rw [substitute, hl] at hsub
      cases hsub
    | ok l' =>
      cases hr : r.substitute ds ss with
      | error err =>
        rw [substitute, hl, hr] at hsub
        cases hsub
      | ok r' =>
        rw [substitute, hl, hr] at hsub
        cases hsub
        rw [hl, hr] at hfc
        exact combine_meaning op hfc (ihl hdl hsl hl hfl hx) (ihr hdr hsr hr hfr hy) hxy

theorem simplify_meaning {e : Expr} : ∀ {v : Int}, e.simplifyFits = true →
    e.meaning dims syms = some v → e.simplify.meaning dims syms = some v := by
  induction e with
  | dim i => intro v _ hv; exact hv
  | symbol i => intro v _ hv; exact hv
  | const c => intro v _ hv; exact hv
  | bin op l r ihl ihr =>
    intro v hfits hv
    obtain ⟨x, y, hx, hy, hxy⟩ := meaning_bin.1 hv
    simp only [simplifyFits, Bool.and_eq_true] at hfits
    exact combine_meaning op hfits.2 (ihl hfits.1.1 hx) (ihr hfits.1.2 hy) hxy

end Expr

/-! ## Maps -/

namespace Map

/-- The results of a map over unbounded integers, if all have a value. -/
def meaning (m : Map) (dims syms : List Int) : Option (List Int) :=
  m.results.mapM fun e => e.meaning dims syms

/-- Lists of expressions that have the same values one by one, if the first ones have values. -/
theorem mapM_meaning {dvals svals : List Int} {es es' : List Expr} {vs : List Int}
    (hrel : List.Forall₂ (fun e e' => ∀ v, e.meaning dvals svals = some v →
      e'.meaning dims syms = some v) es es')
    (hvs : es.mapM (fun e => e.meaning dvals svals) = some vs) :
    es'.mapM (fun e => e.meaning dims syms) = some vs := by
  induction hrel generalizing vs with
  | nil => exact hvs
  | cons he _ ih =>
    simp only [List.mapM_cons, Option.bind_eq_bind, Option.bind_eq_some_iff, Option.pure_def,
      Option.some.injEq] at hvs ⊢
    obtain ⟨v, hv, rest, hrest, rfl⟩ := hvs
    exact ⟨v, he v hv, rest, ih hrest, rfl⟩

theorem substituteAll_related {ds ss : List Expr} {es : List Expr} : ∀ {es' : List Expr},
    es.mapM (fun e => e.substitute ds ss) = .ok es' →
    List.Forall₂ (fun e e' => e.substitute ds ss = .ok e') es es' := by
  induction es with
  | nil =>
    intro es' h
    cases h
    exact .nil
  | cons e es ih =>
    intro es' h
    rw [List.mapM_cons] at h
    cases he : e.substitute ds ss with
    | error err =>
      rw [he] at h
      cases h
    | ok e' =>
      cases hes : es.mapM (fun e => e.substitute ds ss) with
      | error err =>
        rw [he, hes] at h
        cases h
      | ok es' =>
        rw [he, hes] at h
        cases h
        exact .cons he (ih hes)

theorem substitute_meaning {m m' : Map} {ds ss : List Expr} {dvals svals : List Int}
    {numDims numSymbols : Nat} {vs : List Int} (hd : Expr.Replaces dims syms m.usesDim ds dvals)
    (hs : Expr.Replaces dims syms m.usesSymbol ss svals)
    (h : m.substitute ds ss numDims numSymbols = .ok m')
    (hfits : ∀ e ∈ m.results, e.substituteFits ds ss = true)
    (hvs : m.meaning dvals svals = some vs) : m'.meaning dims syms = some vs := by
  cases hes : m.results.mapM (fun e => e.substitute ds ss) with
  | error err =>
    rw [Map.substitute, hes] at h
    cases h
  | ok es =>
    rw [Map.substitute, hes] at h
    cases h
    refine mapM_meaning ?_ hvs
    have hrel := substituteAll_related hes
    refine List.Forall₂.imp ?_ ((List.forall₂_and_left _ _).2 ⟨fun e he => he, hrel⟩)
    rintro e e' ⟨he, hsub⟩ v hv
    have hde : Expr.Replaces dims syms (e.usesDim ·) ds dvals :=
      hd.mono fun i hi => List.any_eq_true.2 ⟨e, he, hi⟩
    have hse : Expr.Replaces dims syms (e.usesSymbol ·) ss svals :=
      hs.mono fun i hi => List.any_eq_true.2 ⟨e, he, hi⟩
    exact Expr.substitute_meaning hde hse hsub (hfits e he) hv

theorem substitute_numDims {m m' : Map} {ds ss : List Expr} {numDims numSymbols : Nat}
    (h : m.substitute ds ss numDims numSymbols = .ok m') : m'.numDims = numDims := by
  cases hes : m.results.mapM (fun e => e.substitute ds ss) with
  | error err =>
    rw [Map.substitute, hes] at h
    cases h
  | ok es =>
    rw [Map.substitute, hes] at h
    cases h
    rfl

theorem simplify_meaning {m : Map} {vs : List Int}
    (hfits : ∀ e ∈ m.results, e.simplifyFits = true) (hvs : m.meaning dims syms = some vs) :
    m.simplify.meaning dims syms = some vs := by
  refine mapM_meaning ?_ hvs
  rw [Map.simplify, List.forall₂_map_right_iff, List.forall₂_same]
  intro e he v hv
  exact Expr.simplify_meaning (hfits e he) hv

theorem length_of_meaning {m : Map} {vs : List Int} (h : m.meaning dims syms = some vs) :
    vs.length = m.numResults := by
  unfold meaning at h
  unfold numResults
  generalize m.results = rs at h
  induction rs generalizing vs with
  | nil =>
    cases h
    rfl
  | cons r rs ih =>
    simp only [List.mapM_cons, Option.bind_eq_bind, Option.bind_eq_some_iff, Option.pure_def,
      Option.some.injEq] at h
    obtain ⟨v, _, rest, hrest, rfl⟩ := h
    rw [List.length_cons, List.length_cons, ih hrest]

end Map

end AffineRaising.Affine
