/-
# AffineRaising.Proofs.Affine.Totality — when evaluation has a value, none, or faults.

An expression is representable at a point if every part of it has an exact value there that a word
holds.  Evaluation yields that value for representable expressions and nothing for the others, with
one exception: where it meets the least word divided by minus one it faults
(`evaluation_exact_but_for_overflow`), although the remainder would be zero and the quotients are
merely too large (`least_word_by_minus_one_faults`).
-/
import AffineRaising.Proofs.Affine.Evaluation

namespace AffineRaising.Affine

variable {dims syms : List Int64} {e l r : Expr} {op : BinOp} {a b v : Int64} {f : DomainError}

/-! ## Operators on words -/

/-- A division of the least word by minus one. -/
def BinOp.Overflows (op : BinOp) (x y : Int) : Prop :=
  op.isDivision = true ∧ x = -2 ^ 63 ∧ y = -1

theorem BinOp.overflows_iff (hop : op.isDivision = true) :
    op.Overflows a.toInt b.toInt ↔ quotientOverflows a b = true := by
  rw [quotientOverflows_iff]
  exact and_iff_right hop

theorem divideWords_eq_error_iff {divide : Int64 → Int64 → Int64} :
    divideWords divide a b = .error f ↔
      f = .quotientOverflow ∧ quotientOverflows a b = true := by
  unfold divideWords
  by_cases hb : b = 0
  · subst hb
    have hzero : ¬ quotientOverflows a 0 = true := by simp [quotientOverflows]
    simp [hzero]
  · by_cases hover : quotientOverflows a b = true
    · simp [hb, hover, eq_comm]
    · simp [hb, hover]

/-- An operator on words faults exactly where a division overflows. -/
theorem BinOp.apply_eq_error_iff :
    op.apply a b = .error f ↔ f = .quotientOverflow ∧ op.Overflows a.toInt b.toInt := by
  cases op with
  | add | mul => exact ⟨fun h => (by cases h), fun h => absurd h.2.1 Bool.false_ne_true⟩
  | floorDiv | ceilDiv | mod => rw [overflows_iff rfl]; exact divideWords_eq_error_iff

theorem BinOp.ne_zero_of_exact {x y z : Int} (hop : op.isDivision = true)
    (h : op.exact x y = some z) : y ≠ 0 := by
  rintro rfl
  cases op with
  | add | mul => cases hop
  | floorDiv | ceilDiv | mod => simp [exact] at h

theorem divideWords_eq_some {divide : Int64 → Int64 → Int64} (hb : b.toInt ≠ 0)
    (hover : ¬ quotientOverflows a b = true) :
    divideWords divide a b = .ok (some (divide a b)) := by
  have hne : b ≠ 0 := by
    rintro rfl
    exact hb rfl
  rw [divideWords, if_neg hne, if_neg hover]

/-- An operator on words has a value exactly if the exact value is a word and no division
overflows. -/
theorem BinOp.apply_eq_some_iff : op.apply a b = .ok (some v) ↔
    ¬ op.Overflows a.toInt b.toInt ∧ op.exact a.toInt b.toInt = some v.toInt := by
  constructor
  · intro h
    refine ⟨fun hover => ?_, exact_of_apply h⟩
    rw [apply_eq_error_iff.2 ⟨rfl, hover⟩] at h
    cases h
  · rintro ⟨hover, hexact⟩
    obtain ⟨w, hw⟩ : ∃ w, op.apply a b = .ok (some w) := by
      cases op with
      | add | mul =>
        exact ⟨v, congrArg _ (wordOf?_eq_some.2 (Option.some.inj hexact).symm)⟩
      | floorDiv | ceilDiv | mod =>
        rw [overflows_iff rfl] at hover
        exact ⟨_, divideWords_eq_some (ne_zero_of_exact rfl hexact) hover⟩
    have hsame : w.toInt = v.toInt :=
      Option.some.inj ((exact_of_apply hw).symm.trans hexact)
    rw [hw, Int64.toInt_inj.1 hsame]

namespace Expr

/-! ## Representable expressions -/

/-- An expression and all its parts. -/
def parts : Expr → List Expr
  | .bin op l r => .bin op l r :: (l.parts ++ r.parts)
  | e => [e]

/-- Every part has an exact value at a point of words: its identifiers have values, no divisor is
zero, and a word holds the value. -/
def Representable (dims syms : List Int64) (e : Expr) : Prop :=
  ∀ p ∈ e.parts, ∃ n, p.meaning (dims.map Int64.toInt) (syms.map Int64.toInt) = some n ∧
    fitsWord n = true

theorem self_mem_parts (e : Expr) : e ∈ e.parts := by
  cases e <;> exact List.mem_cons_self

theorem Representable.word (h : e.Representable dims syms) :
    ∃ v : Int64, e.meaning (dims.map Int64.toInt) (syms.map Int64.toInt) = some v.toInt := by
  obtain ⟨n, hn, hfits⟩ := h e (self_mem_parts e)
  exact ⟨Int64.ofInt n, by rw [hn, toInt_ofInt_of_fits hfits]⟩

theorem representable_bin : (Expr.bin op l r).Representable dims syms ↔
    l.Representable dims syms ∧ r.Representable dims syms ∧
      ∃ v : Int64, (Expr.bin op l r).meaning (dims.map Int64.toInt) (syms.map Int64.toInt) =
        some v.toInt := by
  constructor
  · intro h
    obtain ⟨-, hparts⟩ := List.forall_mem_cons.1 h
    obtain ⟨hl, hr⟩ := List.forall_mem_append.1 hparts
    exact ⟨hl, hr, h.word⟩
  · rintro ⟨hl, hr, v, hv⟩
    exact List.forall_mem_cons.2
      ⟨⟨v.toInt, hv, fitsWord_toInt v⟩, List.forall_mem_append.2 ⟨hl, hr⟩⟩

/-- Going from left to right, evaluation comes to a division of the least word by minus one before
it comes to a part without a value. -/
inductive MeetsOverflow (dims syms : List Int64) : Expr → Prop
  | here {op : BinOp} {l r : Expr} {x y : Int} : l.Representable dims syms →
      r.Representable dims syms →
      l.meaning (dims.map Int64.toInt) (syms.map Int64.toInt) = some x →
      r.meaning (dims.map Int64.toInt) (syms.map Int64.toInt) = some y → op.Overflows x y →
      MeetsOverflow dims syms (.bin op l r)
  | left {op : BinOp} {l r : Expr} : MeetsOverflow dims syms l →
      MeetsOverflow dims syms (.bin op l r)
  | right {op : BinOp} {l r : Expr} : l.Representable dims syms → MeetsOverflow dims syms r →
      MeetsOverflow dims syms (.bin op l r)

/-! ## Evaluation -/

theorem representable_of_eval : ∀ {e : Expr} {v : Int64}, e.eval dims syms = .ok (some v) →
    e.Representable dims syms
  | .dim _, v, h | .symbol _, v, h | .const _, v, h => by
    intro p hp
    cases List.mem_singleton.1 hp
    exact ⟨v.toInt, meaning_of_eval h, fitsWord_toInt v⟩
  | .bin op l r, v, h => by
    obtain ⟨a, b, ha, hb, -⟩ := eval_bin.1 h
    exact representable_bin.2
      ⟨representable_of_eval ha, representable_of_eval hb, v, meaning_of_eval h⟩

theorem not_meetsOverflow_of_eval : ∀ {e : Expr} {v : Int64}, e.eval dims syms = .ok (some v) →
    ¬ e.MeetsOverflow dims syms
  | .dim _, _, _, h | .symbol _, _, _, h | .const _, _, _, h => nomatch h
  | .bin op l r, v, h, hmeets => by
    obtain ⟨a, b, ha, hb, hab⟩ := eval_bin.1 h
    cases hmeets with
    | here _ _ hx hy hover =>
      cases (meaning_of_eval ha).symm.trans hx
      cases (meaning_of_eval hb).symm.trans hy
      exact (BinOp.apply_eq_some_iff.1 hab).1 hover
    | left hl => exact not_meetsOverflow_of_eval ha hl
    | right _ hr => exact not_meetsOverflow_of_eval hb hr

theorem eval_of_representable : ∀ {e : Expr}, e.Representable dims syms →
    ¬ e.MeetsOverflow dims syms → ∃ v, e.eval dims syms = .ok (some v)
  | .dim i, h, _ => by
    obtain ⟨v, hv⟩ := h.word
    rw [meaning, List.getElem?_map, Option.map_eq_some_iff] at hv
    obtain ⟨w, hw, -⟩ := hv
    exact ⟨w, congrArg _ hw⟩
  | .symbol i, h, _ => by
    obtain ⟨v, hv⟩ := h.word
    rw [meaning, List.getElem?_map, Option.map_eq_some_iff] at hv
    obtain ⟨w, hw, -⟩ := hv
    exact ⟨w, congrArg _ hw⟩
  | .const c, _, _ => ⟨c, rfl⟩
  | .bin op l r, h, hmeets => by
    obtain ⟨hl, hr, v, hv⟩ := representable_bin.1 h
    obtain ⟨a, ha⟩ := eval_of_representable hl fun hl => hmeets (.left hl)
    obtain ⟨b, hb⟩ := eval_of_representable hr fun hr => hmeets (.right hl hr)
    have hma := meaning_of_eval ha
    have hmb := meaning_of_eval hb
    -- the exact value of the whole is that of the operator at the values of the sides
    obtain ⟨x, y, hx, hy, hexact⟩ := meaning_bin.1 hv
    cases hma.symm.trans hx
    cases hmb.symm.trans hy
    refine ⟨v, eval_bin.2 ⟨a, b, ha, hb, BinOp.apply_eq_some_iff.2 ⟨fun hover => ?_, hexact⟩⟩⟩
    exact hmeets (.here hl hr hma hmb hover)

/-- Evaluation has a value exactly where the expression is representable and no division overflows
on the way, and the value is the exact one. -/
theorem eval_eq_some_iff : e.eval dims syms = .ok (some v) ↔
    e.Representable dims syms ∧ ¬ e.MeetsOverflow dims syms ∧
      e.meaning (dims.map Int64.toInt) (syms.map Int64.toInt) = some v.toInt := by
  constructor
  · intro h
    exact ⟨representable_of_eval h, not_meetsOverflow_of_eval h, meaning_of_eval h⟩
  · rintro ⟨h, hmeets, hv⟩
    obtain ⟨w, hw⟩ := eval_of_representable h hmeets
    have hsame : w.toInt = v.toInt := Option.some.inj ((meaning_of_eval hw).symm.trans hv)
    rw [hw, Int64.toInt_inj.1 hsame]

/-- Faults come from the left side, else from the right one, else from the operator. -/
theorem eval_bin_error : (Expr.bin op l r).eval dims syms = .error f ↔
    l.eval dims syms = .error f ∨ ∃ a, l.eval dims syms = .ok (some a) ∧
      (r.eval dims syms = .error f ∨ ∃ b, r.eval dims syms = .ok (some b) ∧
        op.apply a b = .error f) := by
  rw [eval]
  cases hl : l.eval dims syms with
  | error g => simp [bind, Except.bind]
  | ok a? =>
    cases a? with
    | none => simp [bind, Except.bind, pure, Except.pure]
    | some a =>
      cases hr : r.eval dims syms with
      | error g => simp [bind, Except.bind]
      | ok b? => cases b? <;> simp [bind, Except.bind, pure, Except.pure]

/-- Evaluation faults exactly where it meets a division that overflows. -/
theorem eval_eq_error_iff : ∀ {e : Expr} {f : DomainError}, e.eval dims syms = .error f ↔
    f = .quotientOverflow ∧ e.MeetsOverflow dims syms
  | .dim _, _ | .symbol _, _ | .const _, _ => ⟨nofun, fun h => nomatch h.2⟩
  | .bin op l r, f => by
    rw [eval_bin_error]
    constructor
    · rintro (hl | ⟨a, ha, hr | ⟨b, hb, hab⟩⟩)
      · obtain ⟨hf, hl⟩ := eval_eq_error_iff.1 hl
        exact ⟨hf, .left hl⟩
      · obtain ⟨hf, hr⟩ := eval_eq_error_iff.1 hr
        exact ⟨hf, .right (representable_of_eval ha) hr⟩
      · obtain ⟨hf, hover⟩ := BinOp.apply_eq_error_iff.1 hab
        exact ⟨hf, .here (representable_of_eval ha) (representable_of_eval hb)
          (meaning_of_eval ha) (meaning_of_eval hb) hover⟩
    · rintro ⟨rfl, hmeets⟩
      by_cases hl : l.MeetsOverflow dims syms
      · exact .inl (eval_eq_error_iff.2 ⟨rfl, hl⟩)
      · -- the left side has a value, so what is met lies behind it
        obtain ⟨a, ha⟩ : ∃ a, l.eval dims syms = .ok (some a) := by
          cases hmeets with
          | here hl' => exact eval_of_representable hl' hl
          | left hl' => exact absurd hl' hl
          | right hl' => exact eval_of_representable hl' hl
        refine .inr ⟨a, ha, ?_⟩
        by_cases hr : r.MeetsOverflow dims syms
        · exact .inl (eval_eq_error_iff.2 ⟨rfl, hr⟩)
        · cases hmeets with
          | here _ hr' hx hy hover =>
            obtain ⟨b, hb⟩ := eval_of_representable hr' hr
            cases (meaning_of_eval ha).symm.trans hx
            cases (meaning_of_eval hb).symm.trans hy
            exact .inr ⟨b, hb, BinOp.apply_eq_error_iff.2 ⟨rfl, hover⟩⟩
          | left hl' => exact absurd hl' hl
          | right _ hr' => exact absurd hr' hr

/-- Evaluation has a value, the exact one, for representable expressions, none for the others, and
faults where it meets the least word divided by minus one. -/
theorem evaluation_exact_but_for_overflow (dims syms : List Int64) (e : Expr) :
    (∀ v, e.eval dims syms = .ok (some v) ↔
      e.Representable dims syms ∧ ¬ e.MeetsOverflow dims syms ∧
        e.meaning (dims.map Int64.toInt) (syms.map Int64.toInt) = some v.toInt) ∧
    (e.eval dims syms = .ok none ↔
      ¬ e.Representable dims syms ∧ ¬ e.MeetsOverflow dims syms) ∧
    ∀ f, e.eval dims syms = .error f ↔
      f = .quotientOverflow ∧ e.MeetsOverflow dims syms := by
  refine ⟨fun v => eval_eq_some_iff, ⟨fun h => ⟨fun hrep => ?_, fun hmeets => ?_⟩, ?_⟩,
    fun f => eval_eq_error_iff⟩
  · have hmeets : ¬ e.MeetsOverflow dims syms := by
      intro hmeets
      rw [eval_eq_error_iff.2 ⟨rfl, hmeets⟩] at h
      cases h
    obtain ⟨v, hv⟩ := eval_of_representable hrep hmeets
    rw [hv] at h
    cases h
  · rw [eval_eq_error_iff.2 ⟨rfl, hmeets⟩] at h
    cases h
  · rintro ⟨hrep, hmeets⟩
    cases heval : e.eval dims syms with
    | error f => exact absurd (eval_eq_error_iff.1 heval).2 hmeets
    | ok v? =>
      cases v? with
      | none => rfl
      | some v => exact absurd (representable_of_eval heval) hrep

/-- The remainder of the least word by minus one is zero, and yet evaluation has no answer. -/
theorem least_word_by_minus_one_faults :
    ¬ ∀ (dims syms : List Int64) (e : Expr), (∀ v, e.eval dims syms = .ok (some v) ↔
        e.Representable dims syms ∧
          e.meaning (dims.map Int64.toInt) (syms.map Int64.toInt) = some v.toInt) ∧
      (e.eval dims syms = .ok none ↔ ¬ e.Representable dims syms) := by
  intro hclaim
  obtain ⟨hvalue, -⟩ := hclaim [] [] (.bin .mod (.const Int64.minValue) (.const (-1)))
  have hconst : ∀ c, (Expr.const c).Representable [] [] := by
    intro c p hp
    cases List.mem_singleton.1 hp
    exact ⟨c.toInt, rfl, fitsWord_toInt c⟩
  have hzero : Expr.meaning [] [] (.bin .mod (.const Int64.minValue) (.const (-1))) = some 0 := by
    decide
  exact absurd ((hvalue 0).2 ⟨representable_bin.2 ⟨hconst _, hconst _, 0, hzero⟩, hzero⟩)
    (by decide)

end Expr

end AffineRaising.Affine
