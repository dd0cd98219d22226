/-
# AffineRaising.Proofs.Raise.BoundExact — expanding a loop bound keeps the bound.

A bound with several results means the least of them if it is an upper one and the greatest if it is
a lower one.  A bound that forwards a tree of selections is expanded into the leaves of the tree.
For every assignment of integers under which the selections and their comparisons are right, the
tree has the number of one of its leaves, and none of the others lies on the wrong side of it
(`Flattened.reads`); so the expanded bound is the bound that was given.  A tree whose outermost
selection is of the other kind stays as it is, and repeated results can go at any time.
-/
import AffineRaising.Proofs.Raise.GuardExact
import AffineRaising.Proofs.Raise.Rebind

namespace AffineRaising.Affine.Map

variable {dims syms : List Int} {m : Map} {xs : List Int}

/-! ## Results without repetitions -/

theorem mem_of_meaning (h : m.meaning dims syms = some xs) (x : Int) :
    x ∈ xs ↔ ∃ e ∈ m.results, e.meaning dims syms = some x := by
  unfold meaning at h
  generalize m.results = es at h
  induction es generalizing xs with
  | nil =>
    cases h
    simp
  | cons e es ih =>
    simp only [List.mapM_cons, Option.bind_eq_bind, Option.bind_eq_some_iff, Option.pure_def,
      Option.some.injEq] at h
    obtain ⟨y, hy, ys, hys, rfl⟩ := h
    simp only [List.mem_cons, ih hys, or_and_right, exists_or, exists_eq_left, hy,
      Option.some.injEq, eq_comm (a := x)]

theorem exists_meaning (h : ∀ e ∈ m.results, ∃ x, e.meaning dims syms = some x) :
    ∃ xs, m.meaning dims syms = some xs := by
  unfold meaning
  generalize m.results = es at h
  induction es with
  | nil => exact ⟨[], rfl⟩
  | cons e es ih =>
    obtain ⟨x, hx⟩ := h e List.mem_cons_self
    obtain ⟨xs, hxs⟩ := ih fun e' he' => h e' (List.mem_cons_of_mem e he')
    exact ⟨x :: xs, by rw [List.mapM_cons, hx, hxs]; rfl⟩

theorem mem_distinctResults {e : Expr} (rest : List Expr) : ∀ kept : List Expr,
    e ∈ distinctResults kept rest ↔ e ∈ kept ∨ e ∈ rest := by
  induction rest with
  | nil => simp [distinctResults]
  | cons e' rest ih =>
    intro kept
    unfold distinctResults
    split
    · rw [ih, List.mem_cons]
      constructor
      · exact Or.imp_right .inr
      · rintro (he | rfl | he)
        · exact .inl he
        · exact .inl ‹_›
        · exact .inr he
    · rw [ih, List.mem_append, List.mem_singleton, List.mem_cons, or_assoc]

/-- Without its repeated results a map has the same numbers as results. -/
theorem dropRepeatedResults_meaning (h : m.meaning dims syms = some xs) :
    ∃ ys, m.dropRepeatedResults.meaning dims syms = some ys ∧ ∀ x, x ∈ ys ↔ x ∈ xs := by
  have hmem : ∀ e, e ∈ m.dropRepeatedResults.results ↔ e ∈ m.results := fun e => by
    simp [dropRepeatedResults, mem_distinctResults]
  have hvalue : ∀ e ∈ m.results, ∃ x, e.meaning dims syms = some x := by
    intro e he
    by_contra hnone
    have hundefined : e.meaning dims syms = none :=
      Option.eq_none_iff_forall_ne_some.2 fun x hx => hnone ⟨x, hx⟩
    unfold meaning at h
    generalize m.results = es at h he
    induction es generalizing xs with
    | nil => cases he
    | cons e' es ih =>
      simp only [List.mapM_cons, Option.bind_eq_bind, Option.bind_eq_some_iff, Option.pure_def,
        Option.some.injEq] at h
      obtain ⟨y, hy, ys, hys, rfl⟩ := h
      rcases List.mem_cons.1 he with rfl | he
      · rw [hundefined] at hy
        cases hy
      · exact ih hys he
  obtain ⟨ys, hys⟩ := exists_meaning (m := m.dropRepeatedResults) fun e he =>
    hvalue e ((hmem e).1 he)
  refine ⟨ys, hys, fun x => ?_⟩
  rw [mem_of_meaning hys, mem_of_meaning h]
  exact exists_congr fun e => and_congr_left fun _ => hmem e

/-- The identity over symbols yields the numbers of the symbols. -/
theorem symbolIdentity_meaning (dims syms : List Int) :
    (symbolIdentity syms.length).meaning dims syms = some syms := by
  have hall : ∀ n ≤ syms.length, ((List.range n).map Expr.symbol).mapM
      (fun e => e.meaning dims syms) = some (syms.take n) := by
    intro n hn
    induction n with
    | zero => simp
    | succ n ih =>
      have hlast : (Expr.symbol n).meaning dims syms = some (syms.get ⟨n, hn⟩) := by
        simp [Expr.meaning]
      rw [List.range_succ, List.map_append, List.mapM_append, ih (by omega), List.map_singleton,
        List.mapM_cons, hlast]
      simp [List.take_add_one]
  rw [meaning, symbolIdentity, hall _ (Nat.le_refl _), List.take_length]

end AffineRaising.Affine.Map

namespace AffineRaising.Ops

/-- The bound that several results stand for: the least one of an upper bound, the greatest one of a
lower bound. -/
def BoundSide.tightest : BoundSide → List Int → Option Int
  | .upper, xs => xs.min?
  | .lower, xs => xs.max?

/-- Only the numbers that occur count. -/
theorem BoundSide.tightest_congr {xs ys : List Int} (h : ∀ x, x ∈ ys ↔ x ∈ xs) (side : BoundSide) :
    side.tightest ys = side.tightest xs := by
  refine Option.ext fun x => ?_
  cases side with
  | upper => simp only [tightest, List.min?_eq_some_iff, h]
  | lower => simp only [tightest, List.max?_eq_some_iff, h]

/-- Whether a bound on this side is the least of its results. -/
def BoundSide.takesLeast : BoundSide → Bool
  | .upper => true
  | .lower => false

/-- Whether an ordering predicate holds of two integers.  The others, which select neither the
smaller nor the larger side, are left open. -/
def Predicate.orders? : Predicate → Int → Int → Option Bool
  | .slt, a, b => some (decide (a < b))
  | .sle, a, b => some (decide (a ≤ b))
  | .sgt, a, b => some (decide (b < a))
  | .sge, a, b => some (decide (b ≤ a))
  | _, _, _ => none

end AffineRaising.Ops

namespace AffineRaising.Raise

open AffineRaising.IR AffineRaising.IR.Store AffineRaising.Ops AffineRaising.Analysis
open AffineRaising.Affine (Map Expr)

variable {s : Store} {rho : Assignment} {v : ValueRef}

/-! ## Selections -/

/-- The value selects between the sides of an ordering comparison, and takes the smaller one or the
larger one. -/
def SelectsBetween (s : Store) (v l r : ValueRef) (isMin : Bool) : Prop :=
  ∃ select k sd c cmp k' cd p, s.originOf v = some (.result select k) ∧
    s.op? select = some sd ∧ ArithKind.ofName? sd.name = some .select ∧
    sd.operands[0]? = some c ∧ sd.operands[1]? = some l ∧ sd.operands[2]? = some r ∧
    s.originOf c = some (.result cmp k') ∧ s.op? cmp = some cd ∧
    ArithKind.ofName? cd.name = some .cmp ∧ cd.operands[0]? = some l ∧ cd.operands[1]? = some r ∧
    ((cd.attrs.get? "predicate").bind Attr.symbol?).bind Predicate.ofName? = some p ∧
    selectsMin? p = some isMin

/-- The choices that are found are the selections between the sides of ordering comparisons. -/
theorem orderedChoice?_iff {l r : ValueRef} {isMin : Bool} :
    orderedChoice? s v = .ok (some ⟨l, r, isMin⟩) ↔ SelectsBetween s v l r isMin := by
  refine ⟨fun h => orderedChoice?_some h, ?_⟩
  rintro ⟨select, k, sd, c, cmp, k', cd, p, hv, hsd, hselect, hc, hl, hr, hcv, hcd, hcmp, hl', hr',
    hp, hmin⟩
  have hcondition : s.operand select 0 = .ok c := operand_ok.2 ⟨sd, hsd, hc⟩
  have hwhenTrue : s.operand select 1 = .ok l := operand_ok.2 ⟨sd, hsd, hl⟩
  have hwhenFalse : s.operand select 2 = .ok r := operand_ok.2 ⟨sd, hsd, hr⟩
  have hleft : s.operand cmp 0 = .ok l := operand_ok.2 ⟨cd, hcd, hl'⟩
  have hright : s.operand cmp 1 = .ok r := operand_ok.2 ⟨cd, hcd, hr'⟩
  have hpredicate : s.attr? cmp "predicate" = .ok (cd.attrs.get? "predicate") :=
    attr?_ok.2 ⟨cd, hcd, rfl⟩
  simp [orderedChoice?, comparison, cmpPredicate?, definingOp?_of_result hv,
    isNamed_of_kind hsd hselect, hcondition, definingOp?_of_result hcv, isNamed_of_kind hcd hcmp,
    hleft, hright, hwhenTrue, hwhenFalse, hpredicate, hp, hmin]

/-- The integer that an operation gives its result: an ordering comparison yields 1 or 0, and a
selection chooses by its condition.  Operations of other kinds leave the integer open. -/
def givenInteger? (rho : Assignment) (d : OpData) : Option Int :=
  match ArithKind.ofName? d.name with
  | some .cmp => do
    let a ← d.operands[0]?
    let b ← d.operands[1]?
    let p ← ((d.attrs.get? "predicate").bind Attr.symbol?).bind Predicate.ofName?
    let holds ← p.orders? (rho a) (rho b)
    return if holds then 1 else 0
  | some .select => do
    let c ← d.operands[0]?
    let a ← d.operands[1]?
    let b ← d.operands[2]?
    return if rho c = 0 then rho b else rho a
  | _ => none

/-- The value has the integer that its definition gives it. -/
def IsGiven (s : Store) (rho : Assignment) (v : ValueRef) : Prop :=
  ∀ o k d x, s.originOf v = some (.result o k) → s.op? o = some d → givenInteger? rho d = some x →
    rho v = x

/-- The value and what it selects from: the sides and the conditions of the selections that it
consists of. -/
inductive SelectedFrom (s : Store) (v : ValueRef) : ValueRef → Prop
  | self : SelectedFrom s v v
  | operand {u w : ValueRef} {o : OpRef} {k : Nat} {d : OpData} : SelectedFrom s v u →
      s.originOf u = some (.result o k) → s.op? o = some d →
      ArithKind.ofName? d.name = some .select → w ∈ d.operands → SelectedFrom s v w

theorem SelectedFrom.trans {u w : ValueRef} (hu : SelectedFrom s v u) (hw : SelectedFrom s u w) :
    SelectedFrom s v w := by
  induction hw with
  | self => exact hu
  | operand _ horigin hd hkind hmem ih => exact .operand ih horigin hd hkind hmem

/-- The assignment is right about the selections that a value consists of and about their
conditions. -/
def Resolves (s : Store) (rho : Assignment) (v : ValueRef) : Prop :=
  ∀ u, SelectedFrom s v u → IsGiven s rho u

section Choice

variable {l r : ValueRef} {isMin : Bool}

theorem Resolves.sides (h : Resolves s rho v) (hv : SelectsBetween s v l r isMin) :
    Resolves s rho l ∧ Resolves s rho r := by
  obtain ⟨select, k, sd, c, cmp, k', cd, p, horigin, hsd, hselect, hc, hl, hr, _⟩ := hv
  have hside : ∀ {w : ValueRef} {i : Nat}, sd.operands[i]? = some w → Resolves s rho w :=
    fun {w i} hw u hu => h u (SelectedFrom.trans
      (.operand .self horigin hsd hselect (List.mem_of_getElem? hw)) hu)
  exact ⟨hside hl, hside hr⟩

/-- A selection has the number of one of its sides: the smaller one if it is a minimum, the larger
one if it is a maximum. -/
theorem Resolves.choice (h : Resolves s rho v) (hv : SelectsBetween s v l r isMin) :
    (rho v = rho l ∨ rho v = rho r) ∧
      if isMin then rho v ≤ rho l ∧ rho v ≤ rho r else rho l ≤ rho v ∧ rho r ≤ rho v := by
  obtain ⟨select, k, sd, c, cmp, k', cd, p, horigin, hsd, hselect, hc, hl, hr, hcv, hcd, hcmp, hl',
    hr', hp, hmin⟩ := hv
  have hvalue := h v .self select k sd (if rho c = 0 then rho r else rho l) horigin hsd
    (by simp [givenInteger?, hselect, hc, hl, hr])
  have hcondition : ∀ holds, p.orders? (rho l) (rho r) = some holds →
      rho c = if holds then 1 else 0 := fun holds hholds =>
    h c (.operand .self horigin hsd hselect (List.mem_of_getElem? hc)) cmp k' cd _ hcv hcd
      (by simp [givenInteger?, hcmp, hl', hr', hp, hholds])
  rw [hvalue]
  cases p <;> simp only [selectsMin?, Option.some.injEq, reduceCtorEq] at hmin <;>
    simp only [← hmin, hcondition _ rfl, decide_eq_true_eq, Bool.false_eq_true, if_true, if_false]
  all_goals
    split <;> simp_all
    omega

end Choice

/-! ## Flattened trees -/

/-- A tree of selections with its leaves in order, and the kinds of selections that occur. -/
inductive Flattened (s : Store) : ValueRef → MinMax → Prop
  | leaf (v : ValueRef) : Flattened s v (.leaf v)
  | join {v l r : ValueRef} {isMin : Bool} {tl tr : MinMax} : SelectsBetween s v l r isMin →
      Flattened s l tl → Flattened s r tr → Flattened s v (.join isMin tl tr)

theorem flattenFuel_flattened (n : Nat) : ∀ {v : ValueRef} {t : MinMax},
    flattenFuel s n v = .ok (some t) → Flattened s v t := by
  induction n with
  | zero =>
    intro v t h
    cases h
  | succ n ih =>
    intro v t h
    simp only [flattenFuel, except_bind_ok] at h
    obtain ⟨index, _, h⟩ := h
    cases index with
    | true =>
      cases h
      exact .leaf v
    | false =>
      simp only [Bool.false_eq_true, if_false, except_bind_ok] at h
      obtain ⟨choice?, hchoice, h⟩ := h
      cases choice? with
      | none => simp at h
      | some choice =>
        simp only [except_bind_ok] at h
        obtain ⟨left?, hleft, h⟩ := h
        cases left? with
        | none => simp at h
        | some left =>
          simp only [except_bind_ok] at h
          obtain ⟨right?, hright, h⟩ := h
          cases right? with
          | none => simp at h
          | some right =>
            cases h
            exact .join (orderedChoice?_iff.1 hchoice) (ih hleft) (ih hright)

theorem MinMax.unmixed?_eq {t t' : MinMax} (h : t.unmixed? = some t') :
    t = t' ∧ (t.min && t.max) = false := by
  unfold MinMax.unmixed? at h
  split at h
  · cases h
  · rename_i hmixed
    exact ⟨Option.some.inj h, Bool.eq_false_iff.2 hmixed⟩

theorem flatten?_flattened {t : MinMax} (h : flatten? s v = .ok (some t)) : Flattened s v t := by
  simp only [flatten?, except_bind_ok, except_pure, Except.ok.injEq] at h
  obtain ⟨t?, ht, hunmixed⟩ := h
  obtain ⟨t', rfl, h⟩ := Option.bind_eq_some_iff.1 hunmixed
  exact (MinMax.unmixed?_eq h).1 ▸ flattenFuel_flattened _ ht

/-- A value that is expanded is a selection, and its tree is of one kind. -/
theorem expandChoice?_flattened {t : MinMax} (h : expandChoice? s v = .ok (some t)) :
    ∃ l r isMin tl tr, SelectsBetween s v l r isMin ∧ Flattened s l tl ∧ Flattened s r tr ∧
      t = .join isMin tl tr ∧ (t.min && t.max) = false := by
  simp only [expandChoice?, except_bind_ok] at h
  obtain ⟨choice?, hchoice, h⟩ := h
  cases choice? with
  | none => simp at h
  | some choice =>
    simp only [except_bind_ok] at h
    obtain ⟨left?, hleft, h⟩ := h
    cases left? with
    | none => simp at h
    | some left =>
      simp only [except_bind_ok] at h
      obtain ⟨right?, hright, h⟩ := h
      cases right? with
      | none => simp at h
      | some right =>
        obtain ⟨rfl, hkind⟩ := MinMax.unmixed?_eq (Except.ok.inj h)
        exact ⟨choice.lhs, choice.rhs, choice.isMin, left, right, orderedChoice?_iff.1 hchoice,
          flatten?_flattened hleft, flatten?_flattened hright, rfl, hkind⟩

/-- A tree has the number of one of its leaves: the least one as far as no maximum occurs, the
greatest one as far as no minimum does. -/
structure MinMax.Reads (rho : Assignment) (v : ValueRef) (t : MinMax) : Prop where
  leaf : ∃ l ∈ t.leaves, rho l = rho v
  least : t.max = false → ∀ l ∈ t.leaves, rho v ≤ rho l
  greatest : t.min = false → ∀ l ∈ t.leaves, rho l ≤ rho v

theorem Flattened.reads {t : MinMax} (h : Flattened s v t) (hrho : Resolves s rho v) :
    t.Reads rho v := by
  induction h with
  | leaf v =>
    refine ⟨⟨v, by simp [MinMax.leaf], rfl⟩, fun _ l hl => ?_, fun _ l hl => ?_⟩ <;>
      rw [List.mem_singleton.1 hl]
  | @join v l r isMin tl tr hv _ _ ihl ihr =>
    obtain ⟨hresolvesl, hresolvesr⟩ := hrho.sides hv
    have hl := ihl hresolvesl
    have hr := ihr hresolvesr
    obtain ⟨hside, horder⟩ := hrho.choice hv
    refine ⟨?_, fun hmax x hx => ?_, fun hmin x hx => ?_⟩
    · rcases hside with heq | heq
      · obtain ⟨x, hx, hxl⟩ := hl.leaf
        exact ⟨x, List.mem_append_left _ hx, hxl.trans heq.symm⟩
      · obtain ⟨x, hx, hxr⟩ := hr.leaf
        exact ⟨x, List.mem_append_right _ hx, hxr.trans heq.symm⟩
    · simp only [MinMax.join, Bool.or_eq_false_iff, Bool.not_eq_false'] at hmax
      obtain ⟨⟨rfl, hmaxl⟩, hmaxr⟩ := hmax
      rcases List.mem_append.1 hx with hx | hx
      · exact horder.1.trans (hl.least hmaxl x hx)
      · exact horder.2.trans (hr.least hmaxr x hx)
    · simp only [MinMax.join, Bool.or_eq_false_iff] at hmin
      obtain ⟨⟨rfl, hminl⟩, hminr⟩ := hmin
      rcases List.mem_append.1 hx with hx | hx
      · exact (hl.greatest hminl x hx).trans horder.1
      · exact (hr.greatest hminr x hx).trans horder.2

/-! ## Bounds -/

/-- A map that forwards an operand has its number as only result. -/
theorem forwardedOperand?_meaning {b : Binding} {xs : List Int}
    (hv : forwardedOperand? b = some v) (hxs : b.meaning rho = some xs) : xs = [rho v] := by
  have hsingle : ∀ {e : Expr} {x : Int}, b.map.results = [e] →
      e.meaning ((b.operands.take b.map.numDims).map rho)
        ((b.operands.drop b.map.numDims).map rho) = some x → xs = [x] := by
    intro e x he hx
    rw [Binding.meaning, Map.meaning, he, List.mapM_cons, hx] at hxs
    exact (Option.some.inj hxs).symm
  have hdefined : ∀ {e : Expr}, b.map.results = [e] → ∃ x,
      e.meaning ((b.operands.take b.map.numDims).map rho)
        ((b.operands.drop b.map.numDims).map rho) = some x := by
    intro e he
    rw [Binding.meaning, Map.meaning, he, List.mapM_cons] at hxs
    obtain ⟨x, hx, _⟩ := Option.bind_eq_some_iff.1 hxs
    exact ⟨x, hx⟩
  unfold forwardedOperand? at hv
  split at hv
  · rename_i d he
    obtain ⟨x, hx⟩ := hdefined he
    have hx' := hx
    simp only [Expr.meaning, List.getElem?_map, List.getElem?_take] at hx'
    split at hx'
    · rw [hv] at hx'
      rw [hsingle he hx, ← Option.some.inj hx']
    · cases hx'
  · rename_i j he
    refine hsingle he ?_
    simp only [Expr.meaning, List.getElem?_map, List.getElem?_drop, hv, Option.map_some]
  · cases hv

/-- Whether selections of the kind that a bound on this side does not take occur in a tree. -/
def MinMax.opposes (t : MinMax) : BoundSide → Bool
  | .upper => t.max
  | .lower => t.min

/-- What is known of a bound that is expanded. -/
theorem expandBound?_some {side : BoundSide} {b b' : Binding}
    (h : expandBound? s side b = .ok (some b')) :
    ∃ v l r tl tr, forwardedOperand? b = some v ∧ SelectsBetween s v l r side.takesLeast ∧
      Flattened s l tl ∧ Flattened s r tr ∧
      (MinMax.join side.takesLeast tl tr).opposes side = false ∧
      b' = ⟨Map.symbolIdentity (tl.leaves ++ tr.leaves).length, tl.leaves ++ tr.leaves⟩ := by
  cases hv : forwardedOperand? b with
  | none => simp [expandBound?, hv] at h
  | some v =>
    simp only [expandBound?, hv, except_bind_ok] at h
    obtain ⟨t?, ht, h⟩ := h
    cases t? with
    | none => simp at h
    | some t =>
      obtain ⟨l, r, isMin, tl, tr, hselects, hl, hr, rfl, hkind⟩ := expandChoice?_flattened ht
      -- the side asks for one kind, the tree has only one, and the root is of it
      have hroot : isMin = side.takesLeast ∧ (MinMax.join isMin tl tr).opposes side = false ∧
          b' = ⟨Map.symbolIdentity (tl.leaves ++ tr.leaves).length, tl.leaves ++ tr.leaves⟩ := by
        cases side <;> cases isMin <;>
          simp_all [BoundSide.takesLeast, MinMax.opposes, MinMax.join, ite_eq_iff]
      obtain ⟨rfl, hopposes, rfl⟩ := hroot
      exact ⟨v, l, r, tl, tr, rfl, hselects, hl, hr, hopposes, rfl⟩

theorem tightest_leaves {side : BoundSide} {t : MinMax} (h : t.Reads rho v)
    (hkind : t.opposes side = false) :
    side.tightest (t.leaves.map rho) = some (rho v) := by
  obtain ⟨l, hl, hlv⟩ := h.leaf
  have hmem : rho v ∈ t.leaves.map rho := List.mem_map.2 ⟨l, hl, hlv⟩
  cases side with
  | upper =>
    refine List.min?_eq_some_iff.2 ⟨hmem, fun x hx => ?_⟩
    obtain ⟨l', hl', rfl⟩ := List.mem_map.1 hx
    exact h.least hkind l' hl'
  | lower =>
    refine List.max?_eq_some_iff.2 ⟨hmem, fun x hx => ?_⟩
    obtain ⟨l', hl', rfl⟩ := List.mem_map.1 hx
    exact h.greatest hkind l' hl'

theorem Ranks.expandChoice?_ends {rank : OpRef → Nat} (hr : Ranks s rank) (v : ValueRef) :
    Ends (expandChoice? s v) := by
  refine (orderedChoice?_ends s v).bind fun choice? _ => ?_
  cases choice? with
  | none => exact .pure _
  | some choice =>
    refine (hr.flatten?_ends choice.lhs).bind fun left? _ => ?_
    cases left? with
    | none => exact .pure _
    | some left =>
      refine (hr.flatten?_ends choice.rhs).bind fun right? _ => ?_
      cases right? <;> exact .pure _

theorem Ranks.expandBound?_ends {rank : OpRef → Nat} (hr : Ranks s rank) (side : BoundSide)
    (b : Binding) : Ends (expandBound? s side b) := by
  unfold expandBound?
  cases forwardedOperand? b with
  | none => exact .pure _
  | some v =>
    refine (hr.expandChoice?_ends v).bind fun t? _ => ?_
    cases t? with
    | none => exact .pure _
    | some t => exact .ite (fun _ => .pure _) fun _ => .pure _

/-- A value selects between one pair of sides, in one way. -/
theorem SelectsBetween.unique {l r l' r' : ValueRef} {isMin isMin' : Bool}
    (h : SelectsBetween s v l r isMin) (h' : SelectsBetween s v l' r' isMin') : isMin = isMin' := by
  have hsame := (orderedChoice?_iff.2 h).symm.trans (orderedChoice?_iff.2 h')
  simp only [Except.ok.injEq, Option.some.injEq, OrderedChoice.mk.injEq] at hsame
  exact hsame.2.2

/-- The leaves of an expanded bound have the number of the operand that was forwarded as their
least one or their greatest one. -/
theorem expandBound?_tightest {side : BoundSide} {b b' : Binding}
    (h : expandBound? s side b = .ok (some b'))
    (hrho : ∀ v, forwardedOperand? b = some v → Resolves s rho v) :
    ∃ v ys, forwardedOperand? b = some v ∧ b'.meaning rho = some ys ∧
      side.tightest ys = some (rho v) := by
  obtain ⟨v, l, r, tl, tr, hv, hselects, hl, hr, hopposes, rfl⟩ := expandBound?_some h
  have htree : Flattened s v (.join side.takesLeast tl tr) := .join hselects hl hr
  refine ⟨v, (tl.leaves ++ tr.leaves).map rho, hv, ?_, ?_⟩
  · have hidentity := Map.symbolIdentity_meaning [] ((tl.leaves ++ tr.leaves).map rho)
    rwa [List.length_map] at hidentity
  · exact tightest_leaves (htree.reads (hrho v hv)) hopposes

/-! ## Exactness -/

/-- Where no operation needs itself, expanding a bound comes to an end.  An expanded bound has a
value wherever the selections that the given one forwards are resolved, and it is the bound that was
given: the same least result of an upper bound, the same greatest result of a lower bound.  A bound
that forwards a selection of the other kind is never expanded.  And a map without its repeated
results has the same least and the same greatest result. -/
theorem bound_expansion_exact (hs : AcyclicDefinitions s) (side : BoundSide) (b : Binding) :
    Ends (expandBound? s side b) ∧
      (∀ b', expandBound? s side b = .ok (some b') → ∀ rho,
        (∀ v, forwardedOperand? b = some v → Resolves s rho v) → ∃ ys, b'.meaning rho = some ys ∧
          ∀ xs, b.meaning rho = some xs → side.tightest ys = side.tightest xs) ∧
      (∀ v l r, forwardedOperand? b = some v → SelectsBetween s v l r (!side.takesLeast) →
        ∀ b', expandBound? s side b ≠ .ok (some b')) ∧
      ∀ (m : Map) (dims syms xs : List Int), m.meaning dims syms = some xs →
        ∃ ys, m.dropRepeatedResults.meaning dims syms = some ys ∧
          ys.min? = xs.min? ∧ ys.max? = xs.max? := by
  refine ⟨hs.ranks.expandBound?_ends side b, ?_, ?_, ?_⟩
  · intro b' h rho hrho
    obtain ⟨v, ys, hv, hys, htightest⟩ := expandBound?_tightest h hrho
    refine ⟨ys, hys, fun xs hxs => ?_⟩
    rw [htightest, forwardedOperand?_meaning hv hxs]
    cases side <;> rfl
  · intro v l r hv hother b' h
    obtain ⟨v', l', r', _, _, hv', hselects, _⟩ := expandBound?_some h
    cases hv.symm.trans hv'
    have hsame := hselects.unique hother
    cases side <;> cases hsame
  · intro m dims syms xs hxs
    obtain ⟨ys, hys, hmem⟩ := Map.dropRepeatedResults_meaning hxs
    exact ⟨ys, hys, BoundSide.tightest_congr hmem .upper, BoundSide.tightest_congr hmem .lower⟩

/-- Whether every value of a store has the integer that its definition gives it. -/
def givesIntegers (s : Store) (rho : Assignment) : Bool :=
  (List.range s.values.size).all fun i =>
    match s.originOf ⟨i⟩ with
    | some (.result o _) => (s.op? o).all fun d => (givenInteger? rho d).all (rho ⟨i⟩ == ·)
    | _ => true

theorem Resolves.of_check (h : givesIntegers s rho = true) (v : ValueRef) : Resolves s rho v := by
  intro u _ o k d x hu hd hx
  obtain ⟨ud, hud, _⟩ := Option.map_eq_some_iff.1 hu
  have hlt : u.index < s.values.size := (Array.getElem?_eq_some_iff.1 hud).1
  have hcheck := List.all_eq_true.1 h u.index (List.mem_range.2 hlt)
  rw [show (⟨u.index⟩ : ValueRef) = u from rfl, hu] at hcheck
  simpa [hd, hx] using hcheck

/-- In a loop over `i`, the minimum of `min i a` and `c`. -/
theorem nested_minimum_expanded :
    let compared (result l r : String) (p : Predicate) : Surface.Op :=
      .mk ⟨[result], "arith", ArithKind.cmp.name, none, [], [l, r], [], none,
        [("predicate", .symbol p.name)], [.i1]⟩ []
    let body := [compared "p" "i" "a" .slt,
      .plain ArithKind.select.opName ["m"] ["p", "i", "a"] [.index] [], compared "q" "m" "c" .sle,
      .plain ArithKind.select.opName ["n"] ["q", "m", "c"] [.index] [],
      .plain ⟨"test", "use"⟩ [] ["n"] [] []]
    let loop := Surface.Op.mk ⟨[], "affine", "for", none, [], [], [], none, [], []⟩
      [.mk [.mk "body" [⟨"i", .index⟩] body]]
    let tree := Surface.Op.program [⟨"a", .index⟩, ⟨"c", .index⟩] [loop]
    ∃ root scope s b', tree.oneBlock = true ∧
      buildOp Scope.empty tree Store.empty = .ok (.ok (root, scope), s) ∧
      expandBound? s .upper ⟨Map.symbolIdentity 1, [⟨6⟩]⟩ = .ok (some b') ∧
      b'.operands = [⟨2⟩, ⟨0⟩, ⟨1⟩] ∧
      orderedChoice? s ⟨6⟩ = .ok (some ⟨⟨4⟩, ⟨1⟩, true⟩) ∧
      givesIntegers s (fun v => [7, 9, 4, 1, 4, 1, 4].getD v.index 0) = true :=
  ⟨⟨7⟩, _, _, _, by cbv, by cbv, by cbv, by cbv, by cbv, by cbv⟩

theorem bound_expansion_exact_nested_minimum :
    let b : Binding := ⟨Map.symbolIdentity 1, [⟨6⟩]⟩
    ∃ s b' rho, AcyclicDefinitions s ∧ expandBound? s .upper b = .ok (some b') ∧
      b'.operands.map rho = [4, 7, 9] ∧ b.meaning rho = some [4] ∧
      (∃ ys, b'.meaning rho = some ys ∧ ys.min? = some 4) ∧
      ∀ b', expandBound? s .lower b ≠ .ok (some b') := by
  obtain ⟨root, scope, s, b', hone, hbuild, hexpand, hoperands, hchoice, hgives⟩ :=
    nested_minimum_expanded
  have hs : AcyclicDefinitions s := .of_sees (kept_of_read hbuild).linked (acyclic_of_read hbuild)
    fun x d v hx hv => sees_of_read hbuild hone hx hv
  obtain ⟨_, hkeeps, _, _⟩ := bound_expansion_exact hs .upper ⟨Map.symbolIdentity 1, [⟨6⟩]⟩
  obtain ⟨_, _, hother, _⟩ := bound_expansion_exact hs .lower ⟨Map.symbolIdentity 1, [⟨6⟩]⟩
  obtain ⟨ys, hys, htightest⟩ := hkeeps b' hexpand _ fun v _ => Resolves.of_check hgives v
  refine ⟨s, b', _, hs, hexpand, by rw [hoperands]; rfl, rfl, ⟨ys, hys, htightest [4] rfl⟩, ?_⟩
  exact hother ⟨6⟩ ⟨4⟩ ⟨1⟩ rfl (orderedChoice?_iff.1 hchoice)

end AffineRaising.Raise
