/-
# AffineRaising.Proofs.Surface.AffineText — written maps and sets are read back.

The text of an expression leaves out every parenthesis that the grammar supplies and writes negative
terms as differences; the reader rebuilds the tree with the canonical constructors.  For a canonical
tree each constructor finds its node again, so what is read is what was written.

The proof is by induction on the tree, with a statement for each place where an expression may
stand: as an operand, where compound expressions are parenthesised; as the start of a product; and
as the start of a sum (`ReadsBack`).  The last two are stated with what follows, as chains are read
from the left: the text of an expression is read, and then the chain goes on from it (`ChainReads`).

One constant cannot be written so that it is read back as it is: the least word, whose magnitude is
no word.  Hence `omitsLeast` in the hypotheses; that the text of the least word is not read back is
a fact of the format and not of the proof.
-/
import AffineRaising.Proofs.Affine.Canonical
import AffineRaising.Proofs.Affine.Substitution
import AffineRaising.Proofs.Surface.Lexeme
import AffineRaising.Surface.AffineGrammar

namespace AffineRaising.Surface

open AffineRaising.Affine AffineRaising.Text AffineRaising.Text.Reader

variable {b : Bindings} {depth n m i : Nat} {s t rest : List Char} {e l r v : Expr} {c : Int64}

/-! ## Positional names -/

/-- The `k` names of one kind. -/
def names (letter : Char) (k : Nat) : List String :=
  (List.range k).map fun i => String.singleton letter ++ toString i

/-- The names that maps and sets are written with. -/
def positional (numDims numSymbols : Nat) : Bindings where
  dims := names 'd' numDims
  symbols := names 's' numSymbols

theorem toList_name (letter : Char) (i : Nat) :
    (String.singleton letter ++ toString i).toList = letter :: Nat.toDigits 10 i := by
  rw [String.toList_append, String.toList_singleton, List.singleton_append]
  exact congrArg _ Nat.toList_repr

/-- The names of one kind are all different. -/
theorem idxOf?_names (letter : Char) (hi : i < n) :
    (names letter n).idxOf? (String.singleton letter ++ toString i) = some i := by
  rw [List.idxOf?_eq_some_iff]
  refine ⟨by simpa [names] using hi, by simp [names], fun j hj heq => ?_⟩
  have hrepr : j.repr = i.repr := by
    have hlists := congrArg String.toList heq
    simp only [names, List.getElem_map, List.getElem_range, String.toList_append] at hlists
    exact String.toList_inj.1 (List.append_cancel_left hlists)
  exact absurd (Nat.repr_inj.1 hrepr) (by omega)

theorem lookup?_dim (hi : i < n) :
    (positional n m).lookup? ("d" ++ toString i) = some (.dim i) := by
  unfold Bindings.lookup? positional
  rw [show "d" = String.singleton 'd' from rfl, idxOf?_names 'd' hi]

theorem lookup?_symbol (hi : i < m) :
    (positional n m).lookup? ("s" ++ toString i) = some (.symbol i) := by
  have hdims : (names 'd' n).idxOf? (String.singleton 's' ++ toString i) = none := by
    rw [List.idxOf?_eq_none_iff]
    intro hmem
    obtain ⟨d, -, hd⟩ := List.mem_map.1 hmem
    have hlists := congrArg String.toList hd
    rw [toList_name, toList_name] at hlists
    cases hlists
  unfold Bindings.lookup? positional
  rw [show "s" = String.singleton 's' from rfl, hdims]
  simp only [idxOf?_names 's' hi, Option.map_some]

/-! ## Factors -/

/-- A blank in front of a factor is skipped. -/
theorem factor_space (h : 0 < depth) : factor b depth (' ' :: s) = factor b depth s := by
  obtain ⟨d, rfl⟩ : ∃ d, depth = d + 1 := ⟨depth - 1, by omega⟩
  rfl

/-- A minus sign in front of a factor negates it. -/
theorem factor_negation (h : factor b depth s = .ok e rest) :
    factor b (depth + 1) ('-' :: s) = .ok e.negate rest := by
  show (factor b depth >>= fun e => pure e.negate) s = _
  rw [bind_ok h]
  rfl

/-- A sum in parentheses is a factor. -/
theorem factor_group (h : sumOf (factor b depth) s = .ok e (')' :: rest)) :
    factor b (depth + 1) ('(' :: s) = .ok e rest := by
  show (sumOf (factor b depth) >>= fun e => blanks >>= fun _ => char ')' >>= fun _ => pure e) s = _
  rw [bind_ok h]
  rfl

/-- A factor that starts with a word character is a number or a name. -/
theorem factor_word {c : Char} (hc : isWordChar c = true) (s : List Char) :
    factor b (depth + 1) (c :: s) = (do
      match ← optional natural with
      | some k => return .const (← ofOption (wordOf? k))
      | none => ofOption (b.lookup? (← identifier)) : Reader Expr) (c :: s) := by
  have hblank : blanks (c :: s) = .ok () (c :: s) :=
    (startsSolid_word hc s).blanks_eq
  have hminus : minusSign (c :: s) = .ok false (c :: s) :=
    minusSign_missing (ne_of_isWordChar hc rfl) s
  have hgroup : optional (char '(') (c :: s) = .ok none (c :: s) :=
    optional_fail (char_other (ne_of_isWordChar hc rfl) s)
  rw [factor, bind_ok hblank, bind_ok hminus]
  simp only [Bool.false_eq_true, if_false]
  rw [bind_ok hgroup]
  rfl

/-- A number is read as a constant. -/
theorem factor_number {k : Nat} {w : Int64} (hk : k < Nat.pow 2 64) (hword : wordOf? k = some w)
    (ht : BreaksWord t) : factor b (depth + 1) ((toString k).toList ++ t) = .ok (.const w) t := by
  have hread := optional_ok (natural_reads hk ht)
  obtain ⟨c, cs, htext, hdigits⟩ := digits_start k
  have hdigit : c.isDigit = true := hdigits c List.mem_cons_self
  rw [htext, List.cons_append] at hread ⊢
  rw [factor_word (isWordChar_of_isDigit hdigit), bind_ok hread]
  simp only [hword]
  rfl

theorem identifier_name {letter : Char} (hstart : isIdentStart letter = true) (i : Nat)
    (ht : BreaksWord t) :
    identifier (letter :: (Nat.toDigits 10 i ++ t)) =
      .ok (String.singleton letter ++ toString i) t := by
  have hname : String.ofList (letter :: Nat.toDigits 10 i) =
      String.singleton letter ++ toString i := by
    rw [← String.toList_inj, String.toList_ofList, toList_name]
  have hword : ∀ d ∈ Nat.toDigits 10 i, isWordChar d = true :=
    fun d hd => isWordChar_of_isDigit (isDigit_of_mem_digits hd)
  rw [identifier_reads hstart hword ht, hname]

/-- A name is read as the identifier bound to it. -/
theorem factor_name {letter : Char} (hstart : isIdentStart letter = true)
    (hdigit : letter.isDigit = false)
    (hlookup : b.lookup? (String.singleton letter ++ toString i) = some e) (ht : BreaksWord t) :
    factor b (depth + 1) (letter :: (Nat.toDigits 10 i ++ t)) = .ok e t := by
  rw [factor_word (isWordChar_of_isIdentStart hstart),
    bind_ok (optional_fail (natural_fail hdigit _))]
  simp only
  rw [bind_ok (identifier_name hstart i ht), hlookup]
  rfl

/-! ## Constants -/

theorem toInt_ne_least (hc : c ≠ Int64.minValue) : c.toInt ≠ -2 ^ 63 := by
  intro h
  exact hc (Int64.toInt_inj.1 (h.trans (by decide)))

theorem toInt_neg_of_ne_least (hc : c ≠ Int64.minValue) : (-c).toInt = -c.toInt := by
  have hlow := Int64.le_toInt c
  have hhigh := Int64.toInt_lt c
  have hne := toInt_ne_least hc
  rw [Int64.toInt_neg]
  apply Int.bmod_eq_of_le <;> omega

theorem neg_ne_least (hc : c ≠ Int64.minValue) : -c ≠ Int64.minValue := by
  intro h
  apply hc
  have hneg := congrArg (- ·) h
  simp only [Int64.neg_neg] at hneg
  exact hneg.trans (by decide)

theorem wordOf?_toInt (c : Int64) : wordOf? c.toInt = some c := by
  have hlow := Int64.le_toInt c
  have hhigh := Int64.toInt_lt c
  unfold wordOf?
  rw [if_pos (fitsWord_iff.2 ⟨by omega, by omega⟩), Int64.ofInt_toInt]

theorem decimal_of_nonneg (h : 0 ≤ c.toInt) : decimal c = toString c.toInt.natAbs := by
  unfold decimal
  rw [← Int.natAbs_of_nonneg h]
  rfl

theorem decimal_of_neg (h : c.toInt < 0) : decimal c = "-" ++ toString c.toInt.natAbs := by
  unfold decimal
  obtain ⟨k, hk⟩ := Int.eq_negSucc_of_lt_zero h
  rw [hk]
  rfl

/-- Negating a constant negates its word. -/
theorem negate_const (c : Int64) : (Expr.const c).negate = .const (-c) := by
  show (Expr.const c).times (.const (-1)) = _
  rw [Expr.times_const]
  show Expr.const ((0 + c * 1) * -1) = _
  congr 1
  grind

/-- A constant that is not negative is read from its digits. -/
theorem factor_nonneg (h : 0 ≤ c.toInt) (ht : BreaksWord t) :
    factor b (depth + 1) ((decimal c).toList ++ t) = .ok (.const c) t := by
  have hhigh := Int64.toInt_lt c
  have hpow : Nat.pow 2 64 = 2 * 2 ^ 63 := rfl
  rw [decimal_of_nonneg h]
  refine factor_number (by omega) ?_ ht
  rw [Int.natAbs_of_nonneg h, wordOf?_toInt]

/-- Every constant but the least word is read as a factor. -/
theorem factor_const (hc : c ≠ Int64.minValue) (hdepth : (decimal c).toList.length < depth)
    (ht : BreaksWord t) : factor b depth ((decimal c).toList ++ t) = .ok (.const c) t := by
  obtain ⟨d, rfl⟩ : ∃ d, depth = d + 1 := ⟨depth - 1, by omega⟩
  by_cases h : 0 ≤ c.toInt
  · exact factor_nonneg h ht
  · have hneg := toInt_neg_of_ne_least hc
    -- the magnitude is written after the sign, and is a word itself
    have htext : (decimal c).toList = '-' :: (decimal (-c)).toList := by
      rw [decimal_of_neg (by omega), decimal_of_nonneg (by omega), hneg, Int.natAbs_neg,
        String.toList_append]
      rfl
    rw [htext] at hdepth ⊢
    obtain ⟨d, rfl⟩ : ∃ k, d = k + 1 := ⟨d - 1, by simp at hdepth; omega⟩
    refine (factor_negation (factor_nonneg (c := -c) (by omega) ht)).trans ?_
    rw [negate_const, Int64.neg_neg]

/-! ## Reading expressions back -/

/-- The text of an expression as an operand. -/
def operandText (e : Expr) : List Char :=
  (parenthesized e.isCompound e.render).toList

/-- An operand is read as one factor. -/
def OperandReads (b : Bindings) (e : Expr) : Prop :=
  ∀ depth t, (operandText e).length < depth → BreaksWord t →
    factor b depth (operandText e ++ t) = .ok e t

/-- The text of an expression starts a product, which goes on from the expression. -/
def ProductReads (b : Bindings) (e : Expr) : Prop :=
  ∀ depth t v rest, e.render.toList.length < depth → BreaksWord t →
    ChainReads productOperator (factor b depth) e t v rest →
    chain productOperator (factor b depth) (e.render.toList ++ t) = .ok v rest

/-- The text of an expression starts a sum, which goes on from the expression. -/
def SumReads (b : Bindings) (e : Expr) : Prop :=
  ∀ depth t v rest, e.render.toList.length < depth → BreaksWord t →
    productOperator t = .ok none (dropBlanks false t) →
    ChainReads sumOperator (chain productOperator (factor b depth)) e (dropBlanks false t) v rest →
    sumOf (factor b depth) (e.render.toList ++ t) = .ok v rest

/-- What is written for an expression is read back wherever it may stand. -/
structure ReadsBack (b : Bindings) (e : Expr) : Prop where
  operand : OperandReads b e
  product : e.isSum = false → ProductReads b e
  sum : SumReads b e

/-- A product alone is a sum. -/
theorem sumReads_of_product (h : ProductReads b e) : SumReads b e := by
  intro depth t v rest hdepth ht hproduct hsum
  exact chain_reads (h depth t e (dropBlanks false t) hdepth ht (.done hproduct)) hsum

/-- Whatever is compound is parenthesised as an operand. -/
theorem operandReads_of_sum (he : e.isCompound = true) (h : SumReads b e) : OperandReads b e := by
  have htext : operandText e = '(' :: (e.render.toList ++ [')']) := by
    unfold operandText parenthesized
    rw [he, if_pos rfl, String.toList_append, String.toList_append]
    rfl
  intro depth t hdepth _
  -- the two parentheses pay for one level of nesting
  rw [htext, List.length_cons, List.length_append, List.length_singleton] at hdepth
  obtain ⟨d, rfl⟩ : ∃ d, depth = d + 1 := ⟨depth - 1, by omega⟩
  rw [htext, List.cons_append, List.append_assoc]
  apply factor_group
  exact h d (')' :: t) e (')' :: t) (by omega) (breaksWord_cons rfl t) rfl (.done rfl)

/-- What is compound and starts a product may stand anywhere. -/
theorem readsBack_of_product (he : e.isCompound = true) (h : ProductReads b e) : ReadsBack b e :=
  ⟨operandReads_of_sum he (sumReads_of_product h), fun _ => h, sumReads_of_product h⟩

/-- A factor starts a product. -/
theorem productReads_of_factor (h : ∀ depth t, e.render.toList.length < depth → BreaksWord t →
    factor b depth (e.render.toList ++ t) = .ok e t) : ProductReads b e := by
  intro depth t v rest hdepth ht hchain
  exact chain_reads (h depth t hdepth ht) hchain

/-- What is not compound is a factor wherever it stands. -/
theorem readsBack_of_factor (he : e.isCompound = false)
    (h : ∀ depth t, e.render.toList.length < depth → BreaksWord t →
      factor b depth (e.render.toList ++ t) = .ok e t) : ReadsBack b e := by
  have htext : operandText e = e.render.toList := by
    unfold operandText parenthesized
    rw [he]
    rfl
  have hproduct := productReads_of_factor h
  refine ⟨?_, fun _ => hproduct, sumReads_of_product hproduct⟩
  intro depth t
  rw [htext]
  exact h depth t

/-! ### Identifiers and constants -/

/-- Every constant but the least word is read back. -/
theorem readsBack_const (hc : c ≠ Int64.minValue) : ReadsBack b (.const c) :=
  readsBack_of_factor rfl fun _ _ hdepth ht => factor_const hc hdepth ht

/-- An identifier is read back from its name. -/
theorem readsBack_name (letter : Char) (he : e.isCompound = false)
    (hrender : e.render = String.singleton letter ++ toString i)
    (hstart : isIdentStart letter = true) (hdigit : letter.isDigit = false)
    (hlookup : b.lookup? (String.singleton letter ++ toString i) = some e) : ReadsBack b e := by
  refine readsBack_of_factor he fun depth t hdepth ht => ?_
  obtain ⟨d, rfl⟩ : ∃ d, depth = d + 1 := ⟨depth - 1, by omega⟩
  rw [hrender, toList_name]
  exact factor_name hstart hdigit hlookup ht

theorem readsBack_dim (hi : i < n) : ReadsBack (positional n m) (.dim i) :=
  readsBack_name 'd' rfl rfl rfl rfl (lookup?_dim hi)

theorem readsBack_symbol (hi : i < m) : ReadsBack (positional n m) (.symbol i) :=
  readsBack_name 's' rfl rfl rfl rfl (lookup?_symbol hi)

/-! ### Products -/

theorem render_negation :
    (Expr.bin .mul l (.const (-1))).render.toList = '-' :: operandText l := by
  simp [Expr.render, operandText]

/-- A negation is a product with the constant `-1`. -/
theorem eq_of_isNegation {op : BinOp} (h : (Expr.bin op l r).isNegation = true) :
    op = .mul ∧ r = .const (-1) := by
  cases op <;> cases r <;> simp_all [Expr.isNegation]

/-- A negation is written with a minus sign in front of its operand. -/
theorem readsBack_negation (hl : ReadsBack b l)
    (hcombine : l.times (.const (-1)) = .bin .mul l (.const (-1))) :
    ReadsBack b (.bin .mul l (.const (-1))) := by
  refine readsBack_of_product rfl (productReads_of_factor fun depth t hdepth ht => ?_)
  rw [render_negation, List.length_cons] at hdepth
  obtain ⟨d, rfl⟩ : ∃ d, depth = d + 1 := ⟨depth - 1, by omega⟩
  rw [render_negation, List.cons_append, factor_negation (hl.operand d t (by omega) ht),
    Expr.negate, hcombine]

/-- The left side of a product starts a product, with or without parentheses. -/
theorem leftReads (hl : ReadsBack b l)
    (hdepth : (parenthesized l.isLooseLeft l.render).toList.length < depth) (ht : BreaksWord t)
    (hchain : ChainReads productOperator (factor b depth) l t v rest) :
    chain productOperator (factor b depth)
      ((parenthesized l.isLooseLeft l.render).toList ++ t) = .ok v rest := by
  cases hloose : l.isLooseLeft with
  | true =>
    have hcompound : l.isCompound = true := by
      cases l with
      | bin op l r => rfl
      | _ => cases hloose
    have htext : (parenthesized true l.render).toList = operandText l := by
      rw [operandText, hcompound]
    rw [hloose, htext] at hdepth
    rw [htext]
    exact chain_reads (hl.operand depth t hdepth ht) hchain
  | false =>
    have hsum : l.isSum = false := by
      cases l with
      | bin op l r => cases op <;> first | rfl | cases hloose
      | _ => rfl
    rw [hloose] at hdepth
    exact hl.product hsum depth t v rest hdepth ht hchain

/-- Other binary expressions are written with their operator between the sides. -/
theorem render_binary {op : BinOp} (hop : op ≠ .add)
    (hneg : (Expr.bin op l r).isNegation = false) :
    (Expr.bin op l r).render.toList = (parenthesized l.isLooseLeft l.render).toList ++
      ' ' :: (op.sign.toList ++ ' ' :: operandText r) := by
  have hgeneral : (Expr.bin op l r).render = parenthesized l.isLooseLeft l.render ++ " " ++
      op.sign ++ " " ++ parenthesized r.isCompound r.render := by
    cases op with
    | add => exact absurd rfl hop
    | mul =>
      cases r with
      | const c =>
        have hc : c ≠ -1 := by simpa [Expr.isNegation] using hneg
        simp only [Expr.render, if_neg hc]
        simp [parenthesized, Expr.isCompound, BinOp.sign, String.append_assoc]
      | _ => rfl
    | _ => rfl
  rw [hgeneral]
  simp [operandText]

/-- Every operator but the plus sign belongs to products. -/
theorem productOperator_sign {op : BinOp} (hop : op ≠ .add) (s : List Char) :
    productOperator (' ' :: (op.sign.toList ++ ' ' :: s)) =
      .ok (some (Expr.combine op)) (' ' :: s) := by
  cases op with
  | add => exact absurd rfl hop
  | _ => rfl

/-- An operator and an operand go on with a product. -/
theorem chainReads_operand {op : BinOp} (hop : op ≠ .add) (hr : OperandReads b r)
    (hdepth : (operandText r).length < depth) (ht : BreaksWord t)
    (hchain : ChainReads productOperator (factor b depth) (Expr.combine op l r) t v rest) :
    ChainReads productOperator (factor b depth) l
      (' ' :: (op.sign.toList ++ ' ' :: (operandText r ++ t))) v rest := by
  have hoperand : factor b depth (' ' :: (operandText r ++ t)) = .ok r t := by
    rw [factor_space (by omega), hr depth t hdepth ht]
  exact .step (productOperator_sign hop _) hoperand (by simp; omega) hchain

/-- A binary expression is read back if its sides are, and the constructor finds the node again. -/
theorem readsBack_binary {op : BinOp} (hop : op ≠ .add)
    (hneg : (Expr.bin op l r).isNegation = false) (hl : ReadsBack b l) (hr : ReadsBack b r)
    (hcombine : Expr.combine op l r = .bin op l r) : ReadsBack b (.bin op l r) := by
  have htext := render_binary hop hneg
  refine readsBack_of_product rfl fun depth t v rest hdepth ht hchain => ?_
  rw [htext, List.length_append] at hdepth
  simp only [List.length_cons, List.length_append] at hdepth
  rw [htext, List.append_assoc]
  refine leftReads hl (by omega) (breaksWord_cons rfl _) ?_
  simp only [List.cons_append, List.append_assoc]
  exact chainReads_operand hop hr.operand (by omega) ht (hcombine ▸ hchain)

/-! ### Sums -/

/-- What is written for the right side of a sum. -/
def summandText : Expr → String
  | .const c => if c < 0 then " - " ++ decimalMagnitude c else " + " ++ decimal c
  | .bin .mul a (.const c) =>
    if c = -1 then " - " ++ parenthesized a.isCompound a.render
    else if c < 0 then " - " ++ parenthesized a.isCompound a.render ++ " * " ++ decimalMagnitude c
    else " + " ++ parenthesized a.isLooseLeft a.render ++ " * " ++ decimal c
  | other => " + " ++ other.render

/-- A sum is written as its left side and a summand with its sign. -/
theorem render_add : (Expr.bin .add l r).render = l.render ++ summandText r := by
  cases r with
  | bin op x y => cases op <;> cases y <;> rfl
  | _ => rfl

/-- A text is read as one term of a sum. -/
def TermReads (b : Bindings) (body : List Char) (e : Expr) : Prop :=
  ∀ depth t, body.length < depth → BreaksWord t →
    productOperator t = .ok none (dropBlanks false t) →
    chain productOperator (factor b depth) (body ++ t) = .ok e (dropBlanks false t)

/-- What is no sum is a term of one. -/
theorem termReads_render (he : e.isSum = false) (h : ReadsBack b e) :
    TermReads b e.render.toList e := by
  intro depth t hdepth ht hproduct
  exact h.product he depth t e _ hdepth ht (.done hproduct)

theorem termReads_operand (h : ReadsBack b e) : TermReads b (operandText e) e := by
  intro depth t hdepth ht hproduct
  exact chain_reads (h.operand depth t hdepth ht) (.done hproduct)

/-- A product of operands is a term of a sum. -/
theorem termReads_times (hl : ReadsBack b l) (hr : ReadsBack b r) :
    TermReads b (operandText l ++ ' ' :: '*' :: ' ' :: operandText r) (l.times r) := by
  intro depth t hdepth ht hproduct
  rw [List.length_append] at hdepth
  simp only [List.length_cons] at hdepth
  rw [List.append_assoc]
  refine chain_reads (hl.operand depth _ (by omega) (breaksWord_cons rfl _)) ?_
  have hmul : BinOp.mul ≠ .add := by decide
  exact chainReads_operand hmul hr.operand (by omega) ht (.done hproduct)

theorem chain_space (h : 0 < depth) :
    chain productOperator (factor b depth) (' ' :: s) =
      chain productOperator (factor b depth) s :=
  chain_congr (factor_space h)

/-- A sum goes on from its left side with a sign and a term. -/
theorem sumReads_sign {sign : Char} {combine : Expr → Expr → Expr} {body : List Char} {x : Expr}
    (hsign : ∀ s, sumOperator (sign :: s) = .ok (some combine) s)
    (hproduct : ∀ s, productOperator (' ' :: sign :: s) = .ok none (sign :: s))
    (hblank : ∀ s, dropBlanks false (' ' :: sign :: s) = sign :: s)
    (htext : e.render.toList = l.render.toList ++ ' ' :: sign :: ' ' :: body)
    (hl : SumReads b l) (hterm : TermReads b body x) (hcombine : combine l x = e) :
    SumReads b e := by
  intro depth t v rest hdepth ht hnone hchain
  rw [htext, List.length_append] at hdepth
  simp only [List.length_cons] at hdepth
  rw [htext, List.append_assoc]
  simp only [List.cons_append]
  -- the left side is read up to the sign, and the blank before the sign goes with its last product
  refine hl depth _ v rest (by omega) (breaksWord_cons rfl _) ?_ ?_
  · rw [hproduct, hblank]
  · rw [hblank]
    have hread := hterm depth t (by omega) ht hnone
    rw [← chain_space (by omega)] at hread
    have hshort := length_dropBlanks_le t false
    refine .step (hsign _) hread ?_ (hcombine ▸ hchain)
    simp only [List.length_cons, List.length_append]
    omega

/-- A right side with a plus sign is read as a term. -/
theorem sumReads_plus (hl : ReadsBack b l) (hr : ReadsBack b r) (h : (Expr.bin .add l r).Settled)
    (htext : summandText r = " + " ++ r.render) : SumReads b (.bin .add l r) := by
  have hrender : (Expr.bin .add l r).render.toList =
      l.render.toList ++ ' ' :: '+' :: ' ' :: r.render.toList := by
    rw [render_add, htext, String.toList_append, String.toList_append]
    rfl
  exact sumReads_sign (fun _ => rfl) (fun _ => rfl) (fun _ => rfl) hrender hl.sum
    (termReads_render (Expr.isSum_right h) hr) h.2.2

/-- A term written after a minus sign is the negation of the right side. -/
theorem sumReads_minus {body : List Char} {x : Expr} (hl : ReadsBack b l)
    (h : (Expr.bin .add l r).Settled) (htext : (summandText r).toList = ' ' :: '-' :: ' ' :: body)
    (hterm : TermReads b body x) (hnegate : x.negate = r) : SumReads b (.bin .add l r) := by
  have hrender : (Expr.bin .add l r).render.toList =
      l.render.toList ++ ' ' :: '-' :: ' ' :: body := by
    rw [render_add, String.toList_append, htext]
  refine sumReads_sign (fun _ => rfl) (fun _ => rfl) (fun _ => rfl) hrender hl.sum hterm ?_
  show l.plus x.negate = _
  rw [hnegate]
  exact h.2.2

/-- No constant is the least word. -/
def omitsLeast : Expr → Bool
  | .const c => c != Int64.minValue
  | .bin _ l r => omitsLeast l && omitsLeast r
  | _ => true

/-- The magnitude of a negative constant is its negation, the least word apart. -/
theorem decimalMagnitude_of_neg (hc : c ≠ Int64.minValue) (hneg : c < 0) :
    decimalMagnitude c = decimal (-c) := by
  have hint : c.toInt < 0 := Int64.lt_iff_toInt_lt.1 hneg
  have hnegated := toInt_neg_of_ne_least hc
  rw [decimal_of_nonneg (by omega), hnegated, Int.natAbs_neg]
  rfl

/-- A scaled term goes on with a sum, with the sign of its coefficient. -/
theorem sumReads_scaled {a : Expr} (hl : ReadsBack b l) (ha : ReadsBack b a)
    (hr : ReadsBack b (.bin .mul a (.const c))) (hc : c ≠ Int64.minValue)
    (h : (Expr.bin .add l (.bin .mul a (.const c))).Settled) :
    SumReads b (.bin .add l (.bin .mul a (.const c))) := by
  have htimes : a.times (.const c) = .bin .mul a (.const c) := h.2.1.2.2
  by_cases hunit : c = -1
  · subst hunit
    refine sumReads_minus hl h ?_ (termReads_operand ha) htimes
    simp [summandText, operandText]
  by_cases hneg : c < 0
  -- the magnitude is read as a factor of its own, and negated with the whole product
  · have hmagnitude : ReadsBack b (.const (-c)) := readsBack_const (neg_ne_least hc)
    refine sumReads_minus hl h ?_ (termReads_times ha hmagnitude) ?_
    · simp [summandText, operandText, hunit, hneg, decimalMagnitude_of_neg hc hneg, parenthesized,
        Expr.isCompound, Expr.render]
    · show (a.times (.const (-c))).times (.const (-1)) = _
      have hback : -c * -1 = c := by grind
      rw [Expr.times_const_times_const, hback, htimes]
  · refine sumReads_plus hl hr h ?_
    simp [summandText, hunit, hneg, Expr.render, String.append_assoc]

/-- A settled sum is read back: its right side is no sum, so it is written as one term. -/
theorem readsBack_add (hl : ReadsBack b l) (hr : ReadsBack b r)
    (hscaled : ∀ a c, r = .bin .mul a (.const c) → ReadsBack b a)
    (h : (Expr.bin .add l r).Settled) (hleast : omitsLeast r = true) :
    ReadsBack b (.bin .add l r) := by
  have hsum : SumReads b (.bin .add l r) := by
    cases r with
    | dim i => exact sumReads_plus hl hr h rfl
    | symbol i => exact sumReads_plus hl hr h rfl
    | const c =>
      have hc : c ≠ Int64.minValue := by simpa [omitsLeast] using hleast
      by_cases hneg : c < 0
      · refine sumReads_minus hl h ?_ (termReads_render rfl (readsBack_const (neg_ne_least hc))) ?_
        · simp [summandText, hneg, decimalMagnitude_of_neg hc hneg, Expr.render]
        · rw [negate_const, Int64.neg_neg]
      · exact sumReads_plus hl hr h (by simp [summandText, hneg, Expr.render])
    | bin op x y =>
      cases op with
      | mul =>
        cases y with
        | const c =>
          have hc : c ≠ Int64.minValue := by
            simp only [omitsLeast, Bool.and_eq_true, bne_iff_ne] at hleast
            exact hleast.2
          exact sumReads_scaled hl (hscaled x c rfl) hr hc h
        | _ => exact sumReads_plus hl hr h rfl
      | _ => exact sumReads_plus hl hr h rfl
  exact ⟨operandReads_of_sum rfl hsum, fun hsum => (by cases hsum), hsum⟩

/-- A canonical expression over positional names is read back from its text. -/
theorem readsBack_of_settled (hs : e.Settled) (hrange : e.InRange n m)
    (hleast : omitsLeast e = true) : ReadsBack (positional n m) e := by
  -- the sign of a term is written before its coefficient, so the induction keeps left sides at hand
  suffices hboth : ReadsBack (positional n m) e ∧
      ∀ op l r, e = .bin op l r → ReadsBack (positional n m) l from hboth.1
  induction e with
  | dim i => exact ⟨readsBack_dim (Expr.inRange_dim.1 hrange), fun op l r heq => by cases heq⟩
  | symbol i =>
    exact ⟨readsBack_symbol (Expr.inRange_symbol.1 hrange), fun op l r heq => by cases heq⟩
  | const c =>
    exact ⟨readsBack_const (by simpa [omitsLeast] using hleast), fun op l r heq => by cases heq⟩
  | bin op l r ihl ihr =>
    obtain ⟨hrl, hrr⟩ := Expr.inRange_bin.1 hrange
    obtain ⟨hll, hlr⟩ := Bool.and_eq_true_iff.1 hleast
    obtain ⟨hl, -⟩ := ihl hs.1 hrl hll
    obtain ⟨hr, hparts⟩ := ihr hs.2.1 hrr hlr
    refine ⟨?_, fun op' l' r' heq => by cases heq; exact hl⟩
    by_cases hadd : op = .add
    · subst hadd
      exact readsBack_add hl hr (fun a c heq => hparts _ _ _ heq) hs hlr
    · cases hneg : (Expr.bin op l r).isNegation with
      | false => exact readsBack_binary hadd hneg hl hr hs.2.2
      | true =>
        obtain ⟨rfl, rfl⟩ := eq_of_isNegation hneg
        exact readsBack_negation hl hs.2.2

/-! ## Binding lists -/

theorem names_startsSolid {letter : Char} {k : Nat} (hstart : isIdentStart letter = true) :
    ∀ x ∈ names letter k, StartsSolid x.toList := by
  intro x hx
  obtain ⟨i, -, rfl⟩ := List.mem_map.1 hx
  rw [toList_name]
  exact startsSolid_word (isWordChar_of_isIdentStart hstart) _

/-- A bracketed list of names. -/
theorem bracketed_names {letter opening closing : Char} {k : Nat}
    (hstart : isIdentStart letter = true) (hclose : EndsItem (closing :: s))
    (hcomma : closing ≠ ',') (hclosing : isIdentStart closing = false) :
    bracketed opening closing (commaList identifier)
      (opening :: ((commaSeparated (names letter k)).toList ++ closing :: s)) =
      .ok (names letter k) s := by
  have hnone : Fails identifier (closing :: s) := ⟨_, identifier_fail hclosing s⟩
  have hitem : ∀ x ∈ names letter k, ∀ t, EndsItem t →
      identifier ((id x : String).toList ++ t) = .ok x t := by
    intro x hx t ht
    obtain ⟨i, -, rfl⟩ := List.mem_map.1 hx
    show identifier ((String.singleton letter ++ toString i).toList ++ t) = _
    rw [toList_name]
    exact identifier_name hstart i ht.breaksWord
  have hread : bracketed opening closing (commaList identifier)
      (opening :: ((commaSeparated ((names letter k).map id)).toList ++ closing :: s)) =
      .ok (names letter k) s :=
    bracketed_commaList opening (names_startsSolid hstart) hitem hclose hcomma hnone
  rw [List.map_id] at hread
  exact hread

/-- The binding lists of a map or set are read back as the positional names. -/
theorem bindings_read (numDims numSymbols : Nat)
    (hnone : optional (do blanks; bracketed '[' ']' (commaList identifier)) s = .ok none s) :
    bindings ((renderBindings numDims numSymbols).toList ++ s) =
      .ok (positional numDims numSymbols) s := by
  have htext : (renderBindings numDims numSymbols).toList =
      '(' :: ((commaSeparated (names 'd' numDims)).toList ++
        ')' :: if numSymbols = 0 then []
          else '[' :: ((commaSeparated (names 's' numSymbols)).toList ++ [']'])) := by
    show ("(" ++ commaSeparated (names 'd' numDims) ++ ")" ++ if numSymbols = 0 then ""
      else "[" ++ commaSeparated (names 's' numSymbols) ++ "]" : String).toList = _
    split <;> simp
  unfold bindings
  rw [htext, List.cons_append, List.append_assoc, List.cons_append,
    bind_ok (bracketed_names rfl (.paren _) (by decide) rfl)]
  by_cases hzero : numSymbols = 0
  · subst hzero
    rw [if_pos rfl, List.nil_append, bind_ok hnone]
    rfl
  · have hsymbols : (do blanks; bracketed '[' ']' (commaList identifier) : Reader (List String))
        ('[' :: ((commaSeparated (names 's' numSymbols)).toList ++ ']' :: s)) =
          .ok (names 's' numSymbols) s := by
      rw [bind_ok (rfl : blanks ('[' :: _) = .ok () _)]
      exact bracketed_names rfl (.bracket s) (by decide) rfl
    rw [if_neg hzero, List.cons_append, List.append_assoc, List.singleton_append,
      bind_ok (optional_ok hsymbols)]
    rfl

/-! ## Maps and sets -/

theorem parenthesized_startsSolid {flag : Bool} {text : String} (h : StartsSolid text.toList) :
    StartsSolid (parenthesized flag text).toList := by
  cases flag with
  | false => exact h
  | true =>
    refine ⟨'(', text.toList ++ [')'], ?_, rfl, by decide⟩
    simp [parenthesized]

theorem digits_startSolid (k : Nat) : StartsSolid (toString k).toList := by
  obtain ⟨c, cs, htext, hdigits⟩ := digits_start k
  rw [htext]
  exact startsSolid_word (isWordChar_of_isDigit (hdigits c List.mem_cons_self)) cs

/-- No expression is written with a blank in front. -/
theorem render_startsSolid (e : Expr) : StartsSolid e.render.toList := by
  induction e with
  | dim i => exact ⟨'d', (toString i).toList, String.toList_append .., rfl, by decide⟩
  | symbol i => exact ⟨'s', (toString i).toList, String.toList_append .., rfl, by decide⟩
  | const c =>
    show StartsSolid (decimal c).toList
    by_cases h : 0 ≤ c.toInt
    · rw [decimal_of_nonneg h]
      exact digits_startSolid _
    · rw [decimal_of_neg (by omega)]
      exact ⟨'-', (toString c.toInt.natAbs).toList, String.toList_append .., rfl, by decide⟩
  | bin op l r ihl _ =>
    by_cases hadd : op = .add
    · subst hadd
      rw [render_add, String.toList_append]
      exact ihl.append _
    · cases hneg : (Expr.bin op l r).isNegation with
      | false =>
        rw [render_binary hadd hneg]
        exact (parenthesized_startsSolid ihl).append _
      | true =>
        obtain ⟨rfl, rfl⟩ := eq_of_isNegation hneg
        rw [render_negation]
        exact ⟨'-', operandText l, rfl, rfl, by decide⟩

/-- Neither a product nor a sum goes on past the end of an item. -/
theorem EndsItem.noOperator (h : EndsItem t) : productOperator t = .ok none (dropBlanks false t) ∧
    sumOperator (dropBlanks false t) = .ok none t := by
  cases h <;> exact ⟨rfl, rfl⟩

/-- An expression that may stand anywhere is read up to the end of an item. -/
theorem expression_reads (h : ReadsBack b e) (ht : EndsItem t) :
    expression b (e.render.toList ++ t) = .ok e t := by
  refine h.sum _ t e t ?_ ht.breaksWord ht.noOperator.1 (.done ht.noOperator.2)
  rw [List.length_append]
  omega

/-- The right side of a written constraint. -/
theorem expression_zero (ht : EndsItem t) :
    expression b (' ' :: '0' :: t) = .ok (.const 0) t := by
  have hzero : ReadsBack b (.const 0) := readsBack_const (by decide)
  have hread := hzero.sum (t.length + 3) t (.const 0) t (by show 1 < _; omega) ht.breaksWord
    ht.noOperator.1 (.done ht.noOperator.2)
  refine Eq.trans ?_ hread
  exact chain_congr (chain_space (by omega))

/-- Subtracting nothing changes no settled expression, so a constraint against zero keeps its left
side. -/
theorem minus_zero (h : e.Settled) : e.minus (.const 0) = e := by
  have hmerge : (Linear.ofExpr e).merge (Linear.ofExpr (.const (-0))) = Linear.ofExpr e := by
    simp [Linear.ofExpr, Linear.accumulate, Linear.merge, Linear.zero]
  show e.plus ((Expr.const 0).negate) = e
  rw [negate_const, Expr.plus, hmerge, Expr.toExpr_ofExpr h]

/-- A constraint is written against zero and read back with its relation. -/
theorem constraint_reads {relation : Relation} (h : ReadsBack b e) (hs : e.Settled)
    (ht : EndsItem t) :
    constraint b ((ConstraintSet.renderConstraint ⟨e, relation⟩).toList ++ t) =
      .ok ⟨e, relation⟩ t := by
  have htext : (ConstraintSet.renderConstraint ⟨e, relation⟩).toList ++ t =
      e.render.toList ++ ' ' :: (relation.sign.toList ++ ' ' :: '0' :: t) := by
    simp [ConstraintSet.renderConstraint]
  have hleft : expression b (e.render.toList ++ ' ' :: (relation.sign.toList ++ ' ' :: '0' :: t)) =
      .ok e (relation.sign.toList ++ ' ' :: '0' :: t) := by
    refine h.sum _ _ e _ (by rw [List.length_append]; omega) (breaksWord_cons rfl _) ?_ ?_
    · cases relation <;> rfl
    · cases relation <;> exact .done rfl
  have hsolid : StartsSolid (relation.sign.toList ++ ' ' :: '0' :: t) := by
    cases relation <;> exact ⟨_, _, rfl, rfl, by decide⟩
  have hsign : orElse (do literal ">="; return Relation.atLeast)
      (do literal "=="; return Relation.equal) (relation.sign.toList ++ ' ' :: '0' :: t) =
        .ok relation (' ' :: '0' :: t) := by
    cases relation <;> rfl
  rw [htext]
  unfold constraint
  rw [bind_ok hleft, bind_ok hsolid.blanks_eq, bind_ok hsign, bind_ok (expression_zero ht),
    minus_zero hs]
  rfl

/-- The results of a map, or the constraints of a set, are read back between their brackets. -/
theorem resultList_reads {α : Type} {item : Reader α} {text : α → String} {xs : List α}
    (hsolid : ∀ x ∈ xs, StartsSolid (text x).toList)
    (hitem : ∀ x ∈ xs, ∀ t, EndsItem t → item ((text x).toList ++ t) = .ok x t)
    (hnone : ∀ s, ∃ r, item (')' :: s) = .fail r) (r : List Char) :
    resultList item
      (' ' :: '(' :: ((commaSeparated (xs.map text)).toList ++ ')' :: '>' :: r)) = .ok xs r := by
  have hlist := commaSeparated_startsSolid hsolid (EndsItem.paren ('>' :: r)).startsSolid
  obtain ⟨r₁, hnone⟩ := hnone ('>' :: r)
  have hitems : separated item (do blanks; char ','; blanks)
      ((commaSeparated (xs.map text)).toList ++ ')' :: '>' :: r) = .ok xs (')' :: '>' :: r) := by
    refine separated_commaSeparated hitem (fun x hx t ht => ?_) (.paren _) hnone rfl
    have hsep : (do blanks; char ','; blanks : Reader Unit)
        (',' :: ' ' :: ((text x).toList ++ t)) = .ok () ((text x).toList ++ t) := by
      show Reply.ok () (dropBlanks false ((text x).toList ++ t)) = _
      rw [((hsolid x hx).append t).dropBlanks_eq]
    rw [bind_ok hsep, hitem x hx t ht]
  have hopen : StartsSolid ('(' :: ((commaSeparated (xs.map text)).toList ++ ')' :: '>' :: r)) :=
    ⟨_, _, rfl, rfl, by decide⟩
  unfold resultList
  rw [bind_ok hopen.blanks_space, bind_ok (char_self '(' _), bind_ok hlist.blanks_eq,
    bind_ok hitems]
  rfl

/-- Canonical expressions over the first dimensions and symbols, none of whose constants is the
least word. -/
structure Legible (numDims numSymbols : Nat) (e : Expr) : Prop where
  canonical : e.simplify = e
  inRange : e.InRange numDims numSymbols
  omitsLeast : omitsLeast e = true

theorem Legible.readsBack (h : Legible n m e) : ReadsBack (positional n m) e :=
  readsBack_of_settled (Expr.simplify_eq_self_iff.1 h.canonical) h.inRange h.omitsLeast

theorem positional_lengths (numDims numSymbols : Nat) :
    (positional numDims numSymbols).dims.length = numDims ∧
      (positional numDims numSymbols).symbols.length = numSymbols := by
  simp [positional, names]

theorem renderBindings_startsSolid (numDims numSymbols : Nat) :
    StartsSolid (renderBindings numDims numSymbols).toList := by
  unfold renderBindings
  simp only [String.toList_append, List.append_assoc]
  exact ⟨'(', _, rfl, rfl, by decide⟩

/-- A map whose results are legible is read back from its text, and nothing after it is touched. -/
theorem affineMap_reads {map : Map} (h : ∀ e ∈ map.results, Legible map.numDims map.numSymbols e)
    (r : List Char) : affineMap (map.render.toList ++ r) = .ok map r := by
  have htext : map.render.toList ++ r = "affine_map".toList ++ '<' ::
      ((renderBindings map.numDims map.numSymbols).toList ++ ' ' :: ("->".toList ++ ' ' :: '(' ::
        ((commaSeparated (map.results.map Expr.render)).toList ++ ')' :: '>' :: r))) := by
    simp [Map.render]
  have hangle : ∀ s, StartsSolid ('<' :: s) := fun s => ⟨_, _, rfl, rfl, by decide⟩
  have harrow : ∀ s, StartsSolid ("->".toList ++ s) := fun s => ⟨_, _, rfl, rfl, by decide⟩
  have hbindings := renderBindings_startsSolid map.numDims map.numSymbols
  have hresults := resultList_reads (fun e _ => render_startsSolid e)
    (fun e he t ht => expression_reads (h e he).readsBack ht) (fun s => ⟨_, rfl⟩) r
  unfold affineMap
  rw [htext, bind_ok (literal_self _ _), bind_ok (hangle _).blanks_eq, bind_ok (char_self '<' _),
    bind_ok (hbindings.append _).blanks_eq, bind_ok (bindings_read _ _ rfl),
    bind_ok (harrow _).blanks_space, bind_ok (literal_self _ _), bind_ok hresults]
  obtain ⟨hdims, hsymbols⟩ := positional_lengths map.numDims map.numSymbols
  rw [hdims, hsymbols]
  rfl

/-- A set whose constraints are legible is read back from its text, relations included, and nothing
after it is touched. -/
theorem affineSet_reads {set : ConstraintSet}
    (h : ∀ c ∈ set.constraints, Legible set.numDims set.numSymbols c.expr) (r : List Char) :
    affineSet (set.render.toList ++ r) = .ok set r := by
  have htext : set.render.toList ++ r = "affine_set".toList ++ '<' ::
      ((renderBindings set.numDims set.numSymbols).toList ++ ' ' :: ':' :: ' ' :: '(' ::
        ((commaSeparated (set.constraints.map ConstraintSet.renderConstraint)).toList ++
          ')' :: '>' :: r)) := by
    simp [ConstraintSet.render]
  have hangle : ∀ s, StartsSolid ('<' :: s) := fun s => ⟨_, _, rfl, rfl, by decide⟩
  have hcolon : ∀ s, StartsSolid (':' :: s) := fun s => ⟨_, _, rfl, rfl, by decide⟩
  have hbindings := renderBindings_startsSolid set.numDims set.numSymbols
  have hsolid : ∀ c : Constraint, StartsSolid (ConstraintSet.renderConstraint c).toList := by
    intro c
    unfold ConstraintSet.renderConstraint
    simp only [String.toList_append, List.append_assoc]
    exact (render_startsSolid c.expr).append _
  have hconstraints := resultList_reads (fun c _ => hsolid c)
    (fun c hc t ht => constraint_reads (h c hc).readsBack
      (Expr.simplify_eq_self_iff.1 (h c hc).canonical) ht) (fun s => ⟨_, rfl⟩) r
  unfold affineSet
  rw [htext, bind_ok (literal_self _ _), bind_ok (hangle _).blanks_eq, bind_ok (char_self '<' _),
    bind_ok (hbindings.append _).blanks_eq, bind_ok (bindings_read _ _ rfl),
    bind_ok (hcolon _).blanks_space, bind_ok (char_self ':' _), bind_ok hconstraints]
  obtain ⟨hdims, hsymbols⟩ := positional_lengths set.numDims set.numSymbols
  rw [hdims, hsymbols]
  rfl

/-- Every map and every set over canonical expressions in range, with no constant equal to the least
word, is read back from its text whatever follows it; a set keeps which constraints are
equations. -/
theorem written_attributes_read_back (map : Map) (set : ConstraintSet) (r : List Char)
    (hmap : ∀ e ∈ map.results, Legible map.numDims map.numSymbols e)
    (hset : ∀ e ∈ set.exprs, Legible set.numDims set.numSymbols e) :
    affineMap (map.render.toList ++ r) = .ok map r ∧
      affineSet (set.render.toList ++ r) = .ok set r :=
  ⟨affineMap_reads hmap r,
    affineSet_reads (fun _ hc => hset _ (List.mem_map_of_mem hc)) r⟩

/-- `-d0 + d0 mod s0` has a negative leading term and a symbolic divisor, and `d0 * -2 - 5 == 0` a
negative factor and a negative constant. -/
theorem written_attributes_read_back_negative :
    let map : Map := ⟨1, 1, [.bin .add (.bin .mul (.dim 0) (.const (-1)))
      (.bin .mod (.dim 0) (.symbol 0))]⟩
    let set : ConstraintSet := ⟨1, 0, [⟨.bin .add (.bin .mul (.dim 0) (.const (-2))) (.const (-5)),
      .equal⟩]⟩
    map.render = "affine_map<(d0)[s0] -> (-d0 + d0 mod s0)>" ∧
      affineMap (map.render.toList ++ ",".toList) = .ok map ",".toList ∧
      set.render = "affine_set<(d0) : (d0 * -2 - 5 == 0)>" ∧
      affineSet (set.render.toList ++ ",".toList) = .ok set ",".toList := by
  intro map set
  have hdim : ∀ m, (Expr.dim 0).InRange 1 m := fun _ => Expr.inRange_dim.2 (by decide)
  have hmap : ∀ e ∈ map.results, Legible map.numDims map.numSymbols e := by
    intro e he
    cases List.mem_singleton.1 he
    exact ⟨by decide, Expr.inRange_bin.2 ⟨Expr.inRange_bin.2 ⟨hdim 1, Expr.inRange_const _⟩,
      Expr.inRange_bin.2 ⟨hdim 1, Expr.inRange_symbol.2 (by decide)⟩⟩, by decide⟩
  have hset : ∀ e ∈ set.exprs, Legible set.numDims set.numSymbols e := by
    intro e he
    cases List.mem_singleton.1 he
    exact ⟨by decide, Expr.inRange_bin.2 ⟨Expr.inRange_bin.2 ⟨hdim 0, Expr.inRange_const _⟩,
      Expr.inRange_const _⟩, by decide⟩
  obtain ⟨hreadMap, hreadSet⟩ := written_attributes_read_back map set ",".toList hmap hset
  exact ⟨by decide, hreadMap, by decide, hreadSet⟩

end AffineRaising.Surface
