/-
# AffineRaising.Proofs.Raise.Words — compositions at run time.

At run time a value is a word, as wide as its type says: unsigned operations read words without a
sign, extensions widen them and index casts may cut them.  A composition reads the numbers instead:
unsigned quotients and remainders as floor ones, casts as nothing at all.  Each operation has an
exact condition under which the two agree (`foldHolds_iff_lossless`).  Where the condition holds on
all chains, a composition keeps the value that a map has at run time
(`lossless_composition_keeps_value`); where it does not, a composition may change the value
(`unsigned_quotient_changed`).
-/
import AffineRaising.Proofs.Raise.ComposeValue
import AffineRaising.Proofs.Raise.Promoted

namespace AffineRaising.Raise

open AffineRaising.IR AffineRaising.IR.Store AffineRaising.Ops AffineRaising.Analysis
open AffineRaising.Affine (Expr Map)

/-! ## Words -/

/-- A number is the signed reading of a word of `n` bits. -/
def Fits (n : Nat) (x : Int) : Prop := (BitVec.ofInt n x).toInt = x

instance (n : Nat) (x : Int) : Decidable (Fits n x) := inferInstanceAs (Decidable (_ = _))

section Words

variable {m n : Nat} {x y : BitVec n}

theorem fits_toInt (x : BitVec n) : Fits n x.toInt := by
  rw [Fits, BitVec.ofInt_toInt]

theorem toInt_of_nonneg (h : 0 ≤ x.toInt) : x.toInt = x.toNat :=
  BitVec.toInt_eq_toNat_of_lt (BitVec.toInt_pos_iff.1 h)

theorem toInt_of_neg (h : x.toInt < 0) : x.toInt = (x.toNat : Int) - (2 ^ n : Nat) := by
  have hlarge := BitVec.toInt_neg_iff.1 h
  rw [BitVec.toInt_eq_toNat_cond, if_neg (Nat.not_lt.2 hlarge)]

/-- The unsigned quotient by a positive word is the floor of the quotient, unless the dividend is
negative and the divisor is not one. -/
theorem toInt_udiv_eq_fdiv_iff (hy : 0 < y.toInt) :
    (x / y).toInt = x.toInt.fdiv y.toInt ↔ 0 ≤ x.toInt ∨ y.toInt = 1 := by
  have hyNat := toInt_of_nonneg (Int.le_of_lt hy)
  have hquot : (x / y).toNat = x.toNat / y.toNat := BitVec.toNat_udiv
  by_cases hx : 0 ≤ x.toInt
  · have hsmall := BitVec.toInt_pos_iff.1 hx
    have hle : x.toNat / y.toNat ≤ x.toNat := Nat.div_le_self _ _
    simp only [hx, true_or, iff_true]
    rw [BitVec.toInt_eq_toNat_of_lt (by omega), hquot, toInt_of_nonneg hx, hyNat,
      Int.fdiv_eq_ediv_of_nonneg _ (by omega)]
    rfl
  · have hneg := Int.not_le.1 hx
    simp only [hx, false_or]
    constructor
    · intro h
      by_contra hone
      -- a quotient by two or more is in the lower half of the words, so it is not negative
      have htwo : 2 ≤ y.toNat := by omega
      have hhalf : 2 * (x.toNat / y.toNat) ≤ x.toNat :=
        (Nat.mul_le_mul_right _ htwo).trans (Nat.mul_div_le _ _)
      have hlt := x.isLt
      rw [BitVec.toInt_eq_toNat_of_lt (by omega)] at h
      have := Int.fdiv_neg_of_neg_of_pos hneg hy
      omega
    · intro hone
      have hxy : x / y = x := by
        apply BitVec.eq_of_toNat_eq
        rw [hquot, show y.toNat = 1 by omega, Nat.div_one]
      rw [hxy, hone, Int.fdiv_one]

/-- The unsigned remainder by a positive word is the remainder of the number, unless the dividend is
negative and the divisor does not divide the number of words. -/
theorem toInt_umod_eq_emod_iff (hy : 0 < y.toInt) :
    (x % y).toInt = x.toInt % y.toInt ↔ 0 ≤ x.toInt ∨ y.toInt ∣ 2 ^ n := by
  have hyNat := toInt_of_nonneg (Int.le_of_lt hy)
  have hySmall := BitVec.toInt_pos_iff.1 (Int.le_of_lt hy)
  have hlt : x.toNat % y.toNat < y.toNat := Nat.mod_lt _ (by omega)
  have hrem : (x % y).toInt = (x.toNat : Int) % y.toInt := by
    rw [BitVec.toInt_eq_toNat_of_lt (by rw [BitVec.toNat_umod]; omega), BitVec.toNat_umod, hyNat]
    rfl
  rw [hrem]
  by_cases hx : 0 ≤ x.toInt
  · simp [toInt_of_nonneg hx]
  · have hdiff : (x.toNat : Int) - x.toInt = 2 ^ n := by
      rw [toInt_of_neg (Int.not_le.1 hx)]
      push_cast
      ring
    simp only [hx, false_or]
    rw [Int.emod_eq_emod_iff_emod_sub_eq_zero, hdiff, ← Int.dvd_iff_emod_eq_zero]

/-- To fill a word up with zeros keeps the number, unless it is negative. -/
theorem toInt_setWidth_eq_iff (h : n < m) : (x.setWidth m).toInt = x.toInt ↔ 0 ≤ x.toInt := by
  have hlt := x.isLt
  have hpow : 2 ^ n * 2 ≤ 2 ^ m := by
    rw [← Nat.pow_succ]
    exact Nat.pow_le_pow_right (by omega) h
  have hnat : (x.setWidth m).toNat = x.toNat := by
    rw [BitVec.toNat_setWidth, Nat.mod_eq_of_lt (by omega)]
  have hint : (x.setWidth m).toInt = x.toNat := by
    rw [BitVec.toInt_eq_toNat_of_lt (by omega), hnat]
  rw [hint]
  by_cases hx : 0 ≤ x.toInt
  · simp [toInt_of_nonneg hx]
  · have := toInt_of_neg (Int.not_le.1 hx)
    simp only [hx, iff_false]
    omega

end Words

/-! ## Run time -/

/-- The width of a value: that of its type, and 64 bits if the type is the index type. -/
def bitsOf (s : Store) (v : ValueRef) : Nat :=
  ((s.value? v).bind (·.ty.intWidth?)).getD 64

/-- The word of `n` bits that a value holds. -/
def wordOf (rho : Assignment) (n : Nat) (v : ValueRef) : BitVec n := BitVec.ofInt n (rho v)

/-- Two operands as wide as value `v` are combined into its word. -/
def Combines (s : Store) (rho : Assignment) (d : OpData) (v : ValueRef)
    (f : ∀ n, BitVec n → BitVec n → BitVec n) : Prop :=
  ∃ a b, d.operands = [a, b] ∧ bitsOf s a = bitsOf s v ∧ bitsOf s b = bitsOf s v ∧
    rho v = (f (bitsOf s v) (wordOf rho _ a) (wordOf rho _ b)).toInt

/-- The word of one operand is converted into that of value `v`. -/
def Converts (s : Store) (rho : Assignment) (d : OpData) (v : ValueRef)
    (f : ∀ m n, BitVec m → BitVec n) : Prop :=
  ∃ a, d.operands = [a] ∧ rho v = (f (bitsOf s a) (bitsOf s v) (wordOf rho _ a)).toInt

/-- Operation `d` computes the number of its result `v` at run time.  Only integer constants, sums,
differences and products, unsigned quotients and remainders, and casts compute here; extensions
widen. -/
def WordHolds (s : Store) (rho : Assignment) (d : OpData) (v : ValueRef) : Prop :=
  match ArithKind.ofName? d.name with
  | some .const => ∃ c, (d.attrs.get? "value").bind Attr.int? = some c ∧ rho v = c.toInt
  | some .add => Combines s rho d v fun _ x y => x + y
  | some .sub => Combines s rho d v fun _ x y => x - y
  | some .mul => Combines s rho d v fun _ x y => x * y
  | some .divU => Combines s rho d v fun _ x y => x / y
  | some .remU => Combines s rho d v fun _ x y => x % y
  | some .extU => (∀ a ∈ d.operands, bitsOf s a < bitsOf s v) ∧
      Converts s rho d v fun _ n x => x.setWidth n
  | some .extS => (∀ a ∈ d.operands, bitsOf s a < bitsOf s v) ∧
      Converts s rho d v fun _ n x => x.signExtend n
  | some .indexCast => Converts s rho d v fun _ n x => x.signExtend n
  | _ => False

/-- Operation `d` is one that a composition folds whole: a product has a constant factor, and an
unsigned quotient or remainder a positive constant divisor. -/
def FoldsWhole (s : Store) (d : OpData) : Prop :=
  match ArithKind.ofName? d.name, d.operands with
  | some .mul, [a, b] => ∃ c, constantOf? s a = .ok (some c) ∨ constantOf? s b = .ok (some c)
  | some .divU, [_, b] | some .remU, [_, b] => ∃ c, constantOf? s b = .ok (some c) ∧ 0 < c.toInt
  | _, _ => True

/-- Operation `d` with result `v` loses nothing: sums, differences and products do not overflow; the
dividends of unsigned quotients and remainders are not negative, or the divisor makes no
difference; what is extended without a sign is not negative; and what is cast fits. -/
def Lossless (s : Store) (rho : Assignment) (d : OpData) (v : ValueRef) : Prop :=
  match ArithKind.ofName? d.name, d.operands with
  | some .add, [a, b] => Fits (bitsOf s v) (rho a + rho b)
  | some .sub, [a, b] => Fits (bitsOf s v) (rho a - rho b)
  | some .mul, [a, b] => Fits (bitsOf s v) (rho a * rho b)
  | some .divU, [a, b] => 0 ≤ rho a ∨ rho b = 1
  | some .remU, [a, b] => 0 ≤ rho a ∨ rho b ∣ 2 ^ bitsOf s v
  | some .extU, [a] => 0 ≤ rho a
  | some .indexCast, [a] => Fits (bitsOf s v) (rho a)
  | _, _ => True

/-- The number of a value at run time fits its width and is what its definition computes; induction
variables and other arguments may have any number that their owner allows. -/
structure AtRun (s : Store) (rho : Assignment) (v : ValueRef) : Prop where
  fits : Fits (bitsOf s v) (rho v)
  op : ∀ {o k d}, s.originOf v = some (.result o k) → s.op? o = some d →
    FoldsWhole s d ∧ WordHolds s rho d v
  argument : ∀ {b i}, s.originOf v = some (.argument b i) →
    ∀ o d, s.blockOwner? b = .ok (some o) → s.op? o = some d → ArgHolds d i (rho v)

/-- All values on the chain of `v` have their numbers of run time. -/
def Runs (s : Store) (rho : Assignment) (v : ValueRef) : Prop := ∀ w, Chain s v w → AtRun s rho w

/-- No operation on the chain of `v` loses anything. -/
def RunsLossless (s : Store) (rho : Assignment) (v : ValueRef) : Prop :=
  Runs s rho v ∧ ∀ w o k d, Chain s v w → s.originOf w = some (.result o k) → s.op? o = some d →
    Lossless s rho d w

variable {s t : Store} {J J' : Journal} {rho : Assignment} {v : ValueRef} {Q : ValueRef → Prop}

theorem exists_pair {α : Type} {a b : α} {P : α → α → Prop} :
    (∃ a' b', [a, b] = [a', b'] ∧ P a' b') ↔ P a b := by
  constructor
  · rintro ⟨_, _, h, hP⟩
    cases h
    exact hP
  · exact fun hP => ⟨a, b, rfl, hP⟩

theorem exists_single {α : Type} {a : α} {P : α → Prop} : (∃ a', [a] = [a'] ∧ P a') ↔ P a := by
  constructor
  · rintro ⟨_, h, hP⟩
    cases h
    exact hP
  · exact fun hP => ⟨a, rfl, hP⟩

/-- What an operation computes at run time is what a composition reads there, exactly if the
operation loses nothing. -/
theorem foldHolds_iff_lossless {d : OpData} (hword : WordHolds s rho d v)
    (hfits : ∀ a ∈ d.operands, Fits (bitsOf s a) (rho a))
    (hdivisor : ∀ a b, d.operands = [a, b] → ArithKind.ofName? d.name = some .divU ∨
      ArithKind.ofName? d.name = some .remU → 0 < rho b) :
    FoldHolds rho d (rho v) ↔ Lossless s rho d v := by
  cases hkind : ArithKind.ofName? d.name with
  | none => simp [WordHolds, hkind] at hword
  | some kind =>
    cases kind <;> simp only [WordHolds, hkind] at hword
    case const =>
      obtain ⟨c, hc, hv⟩ := hword
      simp [FoldHolds, OpHolds, Lossless, hkind, hc, hv]
    case add =>
      obtain ⟨a, b, hops, _, _, hv⟩ := hword
      simp only [FoldHolds, OpHolds, Lossless, hkind, hops, exists_pair]
      rw [Fits, BitVec.ofInt_add, hv]
      rfl
    case sub =>
      obtain ⟨a, b, hops, _, _, hv⟩ := hword
      simp only [FoldHolds, OpHolds, Lossless, hkind, hops, exists_pair]
      rw [Fits, Int.sub_eq_add_neg, BitVec.ofInt_add, BitVec.ofInt_neg, ← BitVec.sub_eq_add_neg, hv]
      rfl
    case mul =>
      obtain ⟨a, b, hops, _, _, hv⟩ := hword
      simp only [FoldHolds, OpHolds, Lossless, hkind, hops, exists_pair]
      rw [Fits, BitVec.ofInt_mul, hv]
      rfl
    case divU =>
      obtain ⟨a, b, hops, ha, hb, hv⟩ := hword
      have hpos := hdivisor a b hops (.inl hkind)
      have hfa : (wordOf rho (bitsOf s v) a).toInt = rho a := ha ▸ hfits a (by simp [hops])
      have hfb : (wordOf rho (bitsOf s v) b).toInt = rho b := hb ▸ hfits b (by simp [hops])
      simp only [FoldHolds, Lossless, hkind, hops, exists_pair, hpos, true_implies]
      have hiff := toInt_udiv_eq_fdiv_iff (x := wordOf rho (bitsOf s v) a) (hfb ▸ hpos)
      rw [hfa, hfb, ← hv] at hiff
      exact hiff
    case remU =>
      obtain ⟨a, b, hops, ha, hb, hv⟩ := hword
      have hpos := hdivisor a b hops (.inr hkind)
      have hfa : (wordOf rho (bitsOf s v) a).toInt = rho a := ha ▸ hfits a (by simp [hops])
      have hfb : (wordOf rho (bitsOf s v) b).toInt = rho b := hb ▸ hfits b (by simp [hops])
      simp only [FoldHolds, Lossless, hkind, hops, exists_pair, hpos, true_implies]
      have hiff := toInt_umod_eq_emod_iff (x := wordOf rho (bitsOf s v) a) (hfb ▸ hpos)
      rw [hfa, hfb, ← hv] at hiff
      exact hiff
    case extU =>
      obtain ⟨hwider, a, hops, hv⟩ := hword
      have hfa : (wordOf rho (bitsOf s a) a).toInt = rho a := hfits a (by simp [hops])
      have hiff := toInt_setWidth_eq_iff (x := wordOf rho (bitsOf s a) a)
        (hwider a (by simp [hops]))
      rw [hfa, ← hv] at hiff
      simp only [FoldHolds, Lossless, hkind, hops, exists_single]
      constructor
      · exact fun h => hiff.1 h.1
      · intro h
        have heq := hiff.2 h
        exact ⟨heq, heq ▸ h⟩
    case extS =>
      obtain ⟨hwider, a, hops, hv⟩ := hword
      have hfa : (wordOf rho (bitsOf s a) a).toInt = rho a := hfits a (by simp [hops])
      simp only [FoldHolds, OpHolds, Lossless, hkind, hops, exists_single, iff_true]
      rw [hv, BitVec.toInt_signExtend_of_le (Nat.le_of_lt (hwider a (by simp [hops]))), hfa]
    case indexCast =>
      obtain ⟨a, hops, hv⟩ := hword
      have hfa : (wordOf rho (bitsOf s a) a).toInt = rho a := hfits a (by simp [hops])
      simp only [FoldHolds, OpHolds, Lossless, hkind, hops, exists_single]
      -- a sign extension is the word of the number, also where it cuts
      have hcast : rho v = (BitVec.ofInt (bitsOf s v) (wordOf rho (bitsOf s a) a).toInt).toInt := hv
      rw [hcast, hfa]
      rfl

/-! ## Readable at run time -/

theorem Runs.feeds {w : ValueRef} (h : Runs s rho v) (hw : Feeds s v w) : Runs s rho w :=
  fun x hx => h x (.head hw hx)

theorem RunsLossless.feeds {w : ValueRef} (h : RunsLossless s rho v) (hw : Feeds s v w) :
    RunsLossless s rho w :=
  ⟨h.1.feeds hw, fun x o k d hx => h.2 x o k d (.head hw hx)⟩

theorem AtRun.constant (h : AtRun s rho v) {c : Int64} (hc : constantOf? s v = .ok (some c)) :
    rho v = c.toInt := by
  obtain ⟨o, k, d, horigin, hd, hname, hvalue⟩ := constantOf?_some hc
  obtain ⟨_, hword⟩ := h.op horigin hd
  simp only [WordHolds, hname] at hword
  obtain ⟨c', hc', hv⟩ := hword
  cases hvalue.symm.trans hc'
  exact hv

/-- Where nothing is lost, the values of run time can be read off their definitions. -/
theorem RunsLossless.readable (s : Store) (rho : Assignment) :
    Readable s rho (RunsLossless s rho) where
  feeds := RunsLossless.feeds
  op {v o k d} hv ho hd := by
    obtain ⟨hwhole, hword⟩ := (hv.1 v .refl).op ho hd
    have hoperand : ∀ a ∈ d.operands, AtRun s rho a :=
      fun a ha => hv.1 a (.single ⟨o, k, d, ho, hd, ha⟩)
    refine (foldHolds_iff_lossless hword (fun a ha => (hoperand a ha).fits) ?_).2
      (hv.2 v o k d .refl ho hd)
    intro a b hops hkind
    have hb := hoperand b (by simp [hops])
    rcases hkind with hkind | hkind <;> simp only [FoldsWhole, hkind, hops] at hwhole
    all_goals
      obtain ⟨c, hc, hpos⟩ := hwhole
      rw [hb.constant hc]
      exact hpos
  argument hv ho := (hv.1 _ .refl).argument ho

/-! ## Nothing is promoted -/

/-- What is left behind the casts is not a cast. -/
theorem stripFuel_stops {through : ArithKind → Bool} (n : Nat) : ∀ {v w : ValueRef},
    stripFuel through s n v = .ok w → ∀ {o : OpRef} {kind : ArithKind},
      s.definingOp? w = .ok (some o) → arithKind? s o = .ok (some kind) → through kind = false := by
  induction n with
  | zero =>
    intro v w h
    cases h
  | succ n ih =>
    intro v w h o kind ho hkind
    simp only [stripFuel, except_bind_ok] at h
    obtain ⟨o?, ho?, h⟩ := h
    cases o? with
    | none =>
      cases h
      cases ho.symm.trans ho?
    | some o' =>
      simp only [except_bind_ok] at h
      obtain ⟨kind?, hkind?, h⟩ := h
      cases kind? with
      | none =>
        cases h
        cases ho.symm.trans ho?
        cases hkind.symm.trans hkind?
      | some kind' =>
        by_cases hthrough : through kind' = true
        · simp only [hthrough, if_true, except_bind_ok] at h
          obtain ⟨a, _, h⟩ := h
          exact ih h ho hkind
        · simp only [if_neg hthrough] at h
          cases h
          cases ho.symm.trans ho?
          cases hkind.symm.trans hkind?
          simpa using hthrough

/-- Arithmetic that computes at run time has a shape, unless it is a cast. -/
theorem AtRun.shape_isSome (hv : AtRun s rho v) {o : OpRef} {shape : Option Shape}
    (ho : s.definingOp? v = .ok (some o))
    (hcast : ∀ kind, arithKind? s o = .ok (some kind) →
      (kind == .indexCast || kind == .extU || kind == .extS) = false)
    (h : shape? s v = .ok shape) : shape.isSome := by
  simp only [shape?, except_bind_ok] at h
  obtain ⟨c?, hc?, h⟩ := h
  cases c? with
  | some c =>
    cases h
    rfl
  | none =>
    simp only [ho, except_bind_ok, Except.ok.injEq, exists_eq_left'] at h
    obtain ⟨kind?, hkind, operands, hoperands, h⟩ := h
    obtain ⟨k, horigin⟩ := definingOp?_some ho
    obtain ⟨d, hd, hname⟩ := arithKind?_ok.1 hkind
    obtain ⟨d', hd', rfl⟩ := operandsOf_ok.1 hoperands
    cases hd.symm.trans hd'
    obtain ⟨hwhole, hword⟩ := hv.op horigin hd
    cases kind? with
    | none => simp [WordHolds, hname] at hword
    | some kind =>
      have hcast := hcast kind hkind
      cases kind <;> simp only [WordHolds, hname] at hword
      case indexCast | extU | extS => cases hcast
      case const =>
        obtain ⟨c, hc, _⟩ := hword
        have hattr : s.attr? o "value" = .ok (d.attrs.get? "value") := attr?_ok.2 ⟨d, hd, rfl⟩
        have hconst : constantOf? s v = .ok (some c) := by
          simp [constantOf?, ho, hkind, constValue?, hattr, hc]
        cases hconst.symm.trans hc?
      all_goals
        obtain ⟨a, b, hops, _⟩ := hword
        simp only [hops, binaryShape?, except_pure, except_bind_ok, Except.ok.injEq] at h
      case add | sub =>
        subst h
        rfl
      case mul =>
        obtain ⟨ca, hca, cb, hcb, h⟩ := h
        simp only [FoldsWhole, hname, hops, hca, hcb] at hwhole
        obtain ⟨c, hc⟩ := hwhole
        cases cb with
        | some c => simp [← Except.ok.inj h, scaledShape]
        | none =>
          cases ca with
          | some c => simp [← Except.ok.inj h, scaledShape]
          | none => simp at hc
      case divU | remU =>
        obtain ⟨cb, hcb, rfl⟩ := h
        simp only [FoldsWhole, hname, hops, hcb, Except.ok.injEq] at hwhole
        obtain ⟨c, rfl, hpos⟩ := hwhole
        have hpos : 0 < c := Int64.lt_iff_toInt_lt.2 hpos
        simp [scaledShape, positiveConst?, hpos]

theorem requireSymbol_still {w : ValueRef} (h : requireSymbol v J s = .ok ((.ok w, J'), t))
    (hdef : isSymbol s v = .ok false → ∀ o, s.definingOp? v ≠ .ok (some o)) : J' = J := by
  unfold requireSymbol at h
  rw [Compose.ask_bind] at h
  obtain ⟨sym, hsym, h⟩ := h
  cases sym with
  | true => exact (Compose.pure_ok.1 h).2.1.symm
  | false =>
    simp only [Bool.false_eq_true, if_false] at h
    rw [Compose.draft_bind] at h
    obtain ⟨r, J₁, s₁, hpromote, h⟩ := h
    -- what has no definition cannot be moved
    have hJ : J₁ = J := by
      simp only [promote, Draft.bind_ok, Draft.lift_ok, Edit.get_run] at hpromote
      obtain ⟨_, _, _, ⟨hget, rfl⟩, hpromote⟩ := hpromote
      cases hget
      cases hfuel : s.depthBound with
      | zero =>
        rw [hfuel] at hpromote
        cases hpromote
      | succ n =>
        rw [hfuel] at hpromote
        obtain ⟨rfl, _⟩ | ⟨o, _, _, _, _, ho, _⟩ := promoteFuel_ok hpromote
        · rfl
        · exact absurd ho (hdef hsym o)
    subst hJ
    cases r with
    | none => simp at h
    | some x =>
      simp only at h
      rw [Compose.ask_bind] at h
      obtain ⟨sym', _, h⟩ := h
      cases sym' with
      | false => simp at h
      | true => exact (Compose.pure_ok.1 h).2.1.symm

/-- An operand that computes at run time is folded without a promotion. -/
theorem RunsLossless.composeOperand_still {p p' : Positions} {isDim : Bool} {e : Expr}
    (hv : RunsLossless s rho v) (h : composeOperand p v isDim J s = .ok ((.ok (e, p'), J'), t)) :
    J' = J := by
  rw [composeOperand_eq, Compose.ask_bind] at h
  obtain ⟨decast, hdecast, h⟩ := h
  rw [Compose.ask_bind] at h
  obtain ⟨sym, hsym, h⟩ := h
  unfold foldValue at h
  rw [Compose.ask_bind] at h
  obtain ⟨shape?, hshape, h⟩ := h
  cases shape? with
  | some shape =>
    simp only at h
    rw [Compose.ask_bind] at h
    obtain ⟨_, _, h⟩ := h
    exact (Compose.pure_ok.1 h).2.1.symm
  | none =>
    simp only at h
    rw [Compose.ask_bind] at h
    obtain ⟨arg, _, h⟩ := h
    cases arg with
    | true => exact (Compose.pure_ok.1 h).2.1.symm
    | false =>
      simp only [Bool.false_eq_true, if_false] at h
      rw [Compose.ask_bind] at h
      obtain ⟨applied, _, h⟩ := h
      cases applied with
      | some applied =>
        simp only at h
        rw [Compose.ask_bind] at h
        obtain ⟨_, _, h⟩ := h
        exact (Compose.pure_ok.1 h).2.1.symm
      | none =>
        simp only at h
        rw [Compose.bind_ok] at h
        obtain ⟨w, J₁, s₁, hrequire, h⟩ := h
        obtain ⟨_, rfl, rfl⟩ := Compose.pure_ok.1 h
        refine requireSymbol_still hrequire fun hnot o ho => ?_
        cases sym with
        | true => cases hsym.symm.trans hnot
        | false =>
          -- a value behind casts that is no symbol and has a definition would have a shape
          have hrun := ((RunsLossless.readable s rho).stripCasts hv hdecast).1.1 decast .refl
          simp only [Bool.false_eq_true, if_false] at hnot ho hshape
          simp only [inlineShape?, hnot, except_bind_ok, Except.ok.injEq, exists_eq_left',
            Bool.false_eq_true, if_false] at hshape
          obtain ⟨own, hown, hshape⟩ := hshape
          have hsome := hrun.shape_isSome ho (fun kind => stripFuel_stops _ hdecast ho) hown
          cases own with
          | some shape => cases hshape
          | none => cases hsome

theorem composeOperands_still {numDims : Nat} {vs : List ValueRef} :
    ∀ {i : Nat} {p p' : Positions} {J J' : Journal} {t : Store} {es : List Expr},
      (∀ v ∈ vs, RunsLossless s rho v) →
      composeOperands numDims i p vs J s = .ok ((.ok (es, p'), J'), t) → J' = J := by
  induction vs with
  | nil =>
    intro i p p' J J' t es _ h
    exact (Compose.pure_ok.1 h).2.1.symm
  | cons v vs ih =>
    intro i p p' J J' t es hvs h
    unfold composeOperands at h
    rw [Compose.bind_ok] at h
    obtain ⟨⟨e, p₁⟩, J₁, s₁, hfirst, h⟩ := h
    rw [Compose.bind_ok] at h
    obtain ⟨⟨es', p₂⟩, J₂, s₂, hrest, h⟩ := h
    obtain ⟨_, rfl, rfl⟩ := Compose.pure_ok.1 h
    have hJ := (hvs v List.mem_cons_self).composeOperand_still hfirst
    obtain ⟨rfl, rfl⟩ := Prod.mk.inj (Hoists.eq_of_quiet
      (composeOperand_follows p v _ J s _ J₁ s₁ hfirst) (congrArg Journal.hoists hJ))
    exact ih (fun w hw => hvs w (List.mem_cons_of_mem v hw)) hrest

theorem composeStep_still {b next : Binding} (hvs : ∀ v ∈ b.operands, RunsLossless s rho v)
    (h : composeStep b J s = .ok ((.ok next, J'), t)) : J' = J := by
  unfold composeStep at h
  rw [Compose.bind_ok] at h
  obtain ⟨⟨exprs, p⟩, J₁, s₁, hoperands, h⟩ := h
  rw [Compose.ask_bind] at h
  obtain ⟨m, _, h⟩ := h
  obtain ⟨_, _, _, rfl, _⟩ := Compose.ask_ok.1 h
  exact composeOperands_still hvs hoperands

/-- Operands that compute at run time, and lose nothing, stay such through all steps, so none of the
steps promotes. -/
theorem composeSteps_still {xs : List Int} (left : Nat) :
    ∀ {b b' : Binding} {J J' : Journal} {t : Store}, (∀ v ∈ b.operands, RunsLossless s rho v) →
      composeSteps left b J s = .ok ((.ok b', J'), t) → StepsFit left b J s →
      b.meaning rho = some xs → J' = J := by
  induction left with
  | zero =>
    intro b b' J J' t _ h _ _
    unfold composeSteps at h
    rw [Compose.ask_bind] at h
    obtain ⟨foldable, _, h⟩ := h
    cases foldable with
    | true => exact (Compose.pure_ok.1 h).2.1.symm
    | false => exact (Compose.pure_ok.1 h).2.1.symm
  | succ left ih =>
    intro b b' J J' t hvs h hfits hxs
    unfold composeSteps at h
    rw [Compose.ask_bind] at h
    obtain ⟨foldable, hfoldable, h⟩ := h
    cases foldable with
    | false => exact (Compose.pure_ok.1 h).2.1.symm
    | true =>
      obtain ⟨hstep, hrest⟩ := hfits hfoldable
      simp only [Bool.not_true, Bool.false_eq_true, if_false] at h
      rw [Compose.bind_ok] at h
      obtain ⟨next, J₁, s₁, hnext, h⟩ := h
      have hquiet := congrArg Journal.hoists (composeStep_still hvs hnext)
      obtain ⟨rfl, rfl⟩ := Prod.mk.inj
        (Hoists.eq_of_quiet (composeStep_follows b J s _ J₁ s₁ hnext) hquiet)
      by_cases heq : next = b
      · rw [if_pos heq] at h
        exact (Compose.pure_ok.1 h).2.1.symm
      · rw [if_neg heq] at h
        obtain ⟨hmean, hall⟩ := composeStep_meaning (RunsLossless.readable _ rho) hvs hnext hquiet
          hstep hxs
        exact ih hall h (hrest next J₁ s₁ hnext heq) hmean

/-! ## Compositions -/

/-- A composition keeps the value that a map has at run time.  In a store whose links and uses are
consistent, let the operands of the map be computed from arguments by integer constants, sums,
differences, products with a constant, unsigned quotients and remainders by a positive constant, and
casts.  At every assignment of the numbers of run time at which none of these operations loses
anything, for the operands given and for those returned, the composed map has the same values,
unless a coefficient leaves the word range. -/
theorem lossless_composition_keeps_value {gone : OpRef → Prop} {anchor : OpRef} {limit : Nat}
    {b c : Binding} {xs : List Int} (hk : Kept s gone)
    (hcompose : composeMap anchor limit b J s = .ok ((.ok c, J'), t))
    (hgiven : ∀ v ∈ b.operands, RunsLossless s rho v)
    (hreturned : ∀ v ∈ c.operands, RunsLossless t rho v) (hfits : MapFits limit b J s)
    (hxs : b.meaning rho = some xs) : c.meaning rho = some xs := by
  obtain ⟨b₁, J₁, s₁, hsteps, hcasts, _⟩ := composeMap_ok hcompose
  have hJ := composeSteps_still limit hgiven hsteps hfits.1 hxs
  have hlater : Casts (J₁, s₁) (J', t) := indexOperands_follows anchor _ _ J₁ s₁ _ _ _ hcasts
  have hquiet : Journal.hoists J' = Journal.hoists J := by rw [hlater.hoists, hJ]
  exact composeMap_meaning (RunsLossless.readable s rho) (RunsLossless.readable t rho) hk hcompose
    hquiet hgiven hreturned hfits hxs

/-! ## An unsigned quotient of an induction variable -/

theorem StepFits.of_run {b : Binding} {J J' : Journal} {s s' : Store} {exprs : List Expr}
    {p : Positions} {m : Map}
    (hrun : composeOperands b.map.numDims 0 Positions.empty b.operands J s =
      .ok ((.ok (exprs, p), J'), s'))
    (hoperands : OperandsFit b.map.numDims 0 Positions.empty b.operands J s)
    (hfits : ∀ e ∈ b.map.results, e.substituteFits (exprs.take b.map.numDims)
        (exprs.drop b.map.numDims) = true)
    (hm : b.map.substitute (exprs.take b.map.numDims) (exprs.drop b.map.numDims) p.dims.length
        p.symbols.length = .ok m)
    (hcanon : canonicalizeFits s' ⟨m, p.operands⟩ = .ok true) : StepFits b J s := by
  refine ⟨hoperands, fun exprs' p' J₁ s₁ hrun' => ?_⟩
  cases hrun.symm.trans hrun'
  refine ⟨hfits, fun m' hm' => ?_⟩
  cases hm.symm.trans hm'
  exact hcanon

theorem StepsFit.step {left : Nat} {b : Binding} (next : Binding) {J J' : Journal} {s s' : Store}
    (hfits : StepFits b J s) (hrun : composeStep b J s = .ok ((.ok next, J'), s'))
    (hrest : StepsFit left next J' s') : StepsFit (left + 1) b J s := by
  refine fun _ => ⟨hfits, fun next' J₁ s₁ hrun' _ => ?_⟩
  cases hrun.symm.trans hrun'
  exact hrest

theorem StepsFit.done {left : Nat} {b : Binding} {J : Journal} {s : Store}
    (h : anyFoldable s b.map.numDims 0 b.operands = .ok false) : StepsFit (left + 1) b J s :=
  fun h' => by cases h.symm.trans h'

theorem MapFits.of_run {limit : Nat} {b : Binding} (b' : Binding) {J J' : Journal} {s s' : Store}
    (hrun : composeSteps limit b J s = .ok ((.ok b', J'), s')) (hsteps : StepsFit limit b J s)
    (hfits : ∀ e ∈ b'.map.results, e.simplifyFits = true) : MapFits limit b J s := by
  refine ⟨hsteps, fun b₁ J₁ s₁ hrun' => ?_⟩
  cases hrun.symm.trans hrun'
  exact hfits

/-- In a loop from -8, the induction variable divided by 4 as an unsigned number: the composition
makes a floor quotient of it. -/
theorem unsigned_quotient_composed :
    let constant := Surface.Op.mk ⟨["k"], "arith", "const", none, [], [], [], none,
      [("value", .int 4)], [.index]⟩ []
    let quotient := Surface.Op.plain ArithKind.divU.opName ["q"] ["i", "k"] [.index] []
    let use := Surface.Op.plain ⟨"test", "use"⟩ [] ["q"] [] []
    let loop := Surface.Op.mk ⟨[], "affine", "for", none, [], [], [], none,
      [("lower_bound", .map ⟨0, 0, [.const (-8)]⟩), ("upper_bound", .map ⟨0, 0, [.const 16]⟩)], []⟩
      [.mk [.mk "body" [⟨"i", .index⟩] [quotient, use]]]
    let tree := Surface.Op.program [] [constant, loop]
    ∃ root scope s, buildOp Scope.empty tree Store.empty = .ok (.ok (root, scope), s) ∧
      check s root = .ok ⟨[], [], []⟩ ∧
      composeMap ⟨2⟩ 8 ⟨⟨0, 1, [.symbol 0]⟩, [⟨2⟩]⟩ [] s =
        .ok ((.ok ⟨⟨1, 0, [.bin .floorDiv (.dim 0) (.const 4)]⟩, [⟨1⟩]⟩, []), s) ∧
      MapFits 8 ⟨⟨0, 1, [.symbol 0]⟩, [⟨2⟩]⟩ [] s ∧
      ∀ i q : Int, Fits 64 i → -8 ≤ i → q = (BitVec.ofInt 64 i / 4).toInt →
        let rho : Assignment := fun v => [4, i, q].getD v.index 0
        (∀ v, AtRun s rho v) ∧ (0 ≤ i → ∀ v o k d, s.originOf v = some (.result o k) →
          s.op? o = some d → Lossless s rho d v) := by
  refine ⟨⟨5⟩, _, _, by cbv, by cbv, by cbv, ?_, ?_⟩
  · -- the quotient is folded over a symbol, which then becomes a dimension
    let folded : Binding := ⟨⟨0, 1, [.bin .floorDiv (.symbol 0) (.const 4)]⟩, [⟨1⟩]⟩
    let bound : Binding := ⟨⟨1, 0, [.bin .floorDiv (.dim 0) (.const 4)]⟩, [⟨1⟩]⟩
    refine .of_run bound (by cbv) (.step folded ?_ (by cbv) (.step bound ?_ (by cbv)
      (.done (by cbv)))) (by decide)
    · exact .of_run (by cbv) ⟨by cbv, fun _ _ _ _ _ => trivial⟩ (by decide) (by cbv) (by cbv)
    · exact .of_run (by cbv) ⟨by cbv, fun _ _ _ _ _ => trivial⟩ (by decide) (by cbv) (by cbv)
  · intro i q hi hlower hq rho
    refine ⟨?_, ?_⟩
    · rintro ⟨_ | _ | _ | n⟩
      · refine ⟨by cbv, ?_, ?_⟩
        · intro o k d ho hd
          cases ho
          cases hd
          exact ⟨trivial, 4, rfl, rfl⟩
        · intro b i ho
          cases ho
      · refine ⟨hi, ?_, ?_⟩
        · intro o k d ho
          cases ho
        · intro b i ho o d hb hd
          cases ho
          cases hb
          cases hd
          intro m hm
          cases hm
          refine ⟨fun _ _ c hc => ?_, fun h => absurd h (by decide)⟩
          cases hc
          exact hlower
      · have hfits : Fits 64 q := hq ▸ fits_toInt _
        refine ⟨hfits, ?_, ?_⟩
        · intro o k d ho hd
          cases ho
          cases hd
          exact ⟨⟨4, by cbv, by decide⟩, ⟨1⟩, ⟨0⟩, rfl, rfl, rfl, hq⟩
        · intro b i ho
          cases ho
      · refine ⟨rfl, ?_, ?_⟩
        · intro o k d ho
          cases ho
        · intro b i ho
          cases ho
    · rintro hpos ⟨_ | _ | _ | n⟩ o k d ho hd <;> cases ho <;> cases hd
      · trivial
      · exact .inl hpos

theorem lossless_composition_keeps_value_quotient :
    ∃ s c rho, Consistent s ∧
      composeMap ⟨2⟩ 8 ⟨⟨0, 1, [.symbol 0]⟩, [⟨2⟩]⟩ [] s = .ok ((.ok c, []), s) ∧
      rho ⟨1⟩ = 13 ∧ RunsLossless s rho ⟨2⟩ ∧ c.meaning rho = some [3] := by
  obtain ⟨root, scope, s, hbuild, _, hrun, hfits, hrho⟩ := unsigned_quotient_composed
  obtain ⟨hat, hlossless⟩ := hrho 13 3 (by decide) (by decide) (by decide)
  have hs := Consistent.of_built hbuild
  have hruns : ∀ v, RunsLossless s (fun v => [4, 13, 3].getD v.index 0) v := fun v =>
    ⟨fun w _ => hat w, fun w o k d _ => hlossless (by decide) w o k d⟩
  obtain ⟨gone, hk⟩ := hs.1
  exact ⟨s, _, _, hs, hrun, rfl, hruns ⟨2⟩, lossless_composition_keeps_value hk hrun
    (fun v _ => hruns v) (fun v _ => hruns v) hfits rfl⟩

/-- In a program that passes every check, a composition can change the value that a map has at run
time: of an unsigned quotient by 4, at the induction variable -8. -/
theorem unsigned_quotient_changed :
    ¬ ∀ {tree : Surface.Op} {root : OpRef} {scope : Scope} {s t : Store} {anchor : OpRef}
        {limit : Nat} {v : ValueRef} {c : Binding} {J : Journal} {rho : Assignment},
      buildOp Scope.empty tree Store.empty = .ok (.ok (root, scope), s) →
      check s root = .ok ⟨[], [], []⟩ →
      composeMap anchor limit ⟨⟨0, 1, [.symbol 0]⟩, [v]⟩ [] s = .ok ((.ok c, J), t) →
      Runs s rho v → (∀ w ∈ c.operands, Runs t rho w) → c.meaning rho = some [rho v] := by
  intro hclaim
  obtain ⟨root, scope, s, hbuild, hcheck, hrun, _, hrho⟩ := unsigned_quotient_composed
  obtain ⟨hat, _⟩ := hrho (-8) 4611686018427387902 (by decide) (by decide) (by decide)
  have hvalue := hclaim hbuild hcheck hrun (fun w _ => hat w) fun v _ w _ => hat w
  exact absurd hvalue (by decide)

end AffineRaising.Raise
