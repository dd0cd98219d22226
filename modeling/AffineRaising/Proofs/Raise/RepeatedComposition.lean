/-
# AffineRaising.Proofs.Raise.RepeatedComposition — compositions with a repeated operand.

A composition that makes a step comes to the same, whether a repeated value is bound to one symbol
or to two (`composeMap_merge`).  A composition without a step hands back what it was given, with the
operand repeated (`composeMap_unmerge`).  Canonicalizing binds it once then, but at the place of its
first use, which need not be the place where the merged map has it.  So the canonical forms can list
the operands in another order, and over a linear map that is all the difference
(`canonicalize_unmerge`); with quotients and remainders it can matter to what wraps whether
coefficients are added before.

The first look at a value that has to be hoisted takes its definition away, and the second one
fails (`hoisted_operand_composes_once_only`).
-/
import AffineRaising.Proofs.Raise.LinearBinding
import AffineRaising.Proofs.Raise.RepeatedOperand

namespace AffineRaising.Raise

open AffineRaising.IR AffineRaising.IR.Store AffineRaising.Ops AffineRaising.Analysis
open AffineRaising.Affine (Expr Map mergeSymbol)

variable {α : Type} {s t : Store} {J J' : Journal} {v : ValueRef}

/-! ## Compositions -/

section Compositions

variable {b : Binding} {i j : Nat} {anchor : OpRef} {limit : Nat}

/-- Whether a composition makes a step at all. -/
def MakesStep (s : Store) (limit : Nat) (b : Binding) : Prop :=
  0 < limit ∧ anyFoldable s b.map.numDims 0 b.operands = .ok true

/-- Without a step only the positions are checked and casts made. -/
theorem composeMap_idle (h : ¬ MakesStep s limit b) : composeMap anchor limit b J s = (do
    let _ ← anyFoldable s b.map.numDims 0 b.operands
    (checkPositions b.map.numDims 0 b.operands >>= fun _ =>
      indexOperands anchor [] b.operands >>= fun operands =>
        pure ⟨b.map.simplify, operands⟩ : Compose Binding) J s) := by
  have hsteps : composeSteps limit b J s =
      (do let _ ← anyFoldable s b.map.numDims 0 b.operands; return ((.ok b, J), s)) := by
    rw [composeSteps.eq_def]
    dsimp only
    rw [Compose.ask_run]
    cases hfoldable : anyFoldable s b.map.numDims 0 b.operands with
    | error e => rfl
    | ok foldable =>
      cases foldable with
      | false => rfl
      | true =>
        cases limit with
        | zero => rfl
        | succ left => exact absurd ⟨Nat.succ_pos left, hfoldable⟩ h
  show (composeSteps limit b J s >>= _) = _
  rw [hsteps]
  cases anyFoldable s b.map.numDims 0 b.operands <;> rfl

/-- A composition that makes a step comes to the same, errors and edits included. -/
theorem composeMap_merge (h : b.Repeats i j) (hstay : ∀ v ∈ b.operands, ¬ NeedsHoist s v)
    (hstep : MakesStep s limit b) :
    SameOutcome (composeMap anchor limit b) (composeMap anchor limit (b.merge i j)) J s := by
  obtain ⟨hlimit, hfoldable⟩ := hstep
  obtain ⟨left, rfl⟩ := Nat.exists_eq_succ_of_ne_zero hlimit.ne'
  exact (composeSteps_merge h hstay hfoldable left).bind _

/-- What a composition without a step makes of a binding, from the operands that it makes for the
merged one. -/
def Binding.unmerge (b : Binding) (i j : Nat) (operands : List ValueRef) : Binding :=
  ⟨b.map.simplify, repeatAt (b.map.numDims + i) (b.map.numDims + j) operands⟩

/-- A composition that makes no step leaves the operand repeated. -/
theorem composeMap_unmerge (h : b.Repeats i j) (hstep : ¬ MakesStep s limit b) :
    composeMap anchor limit b J s = mapOutcome (fun r => b.unmerge i j r.operands)
      (composeMap anchor limit (b.merge i j) J s) := by
  have hfoldable := anyFoldable_merge (s := s) h
  have hstep' : ¬ MakesStep s limit (b.merge i j) := fun hmakes =>
    hstep ⟨hmakes.1, hfoldable.trans hmakes.2⟩
  obtain ⟨front, v, mid, back, hfront, hmid, hoperands, hmerged⟩ := h.split
  have hcheck : checkPositions b.map.numDims 0 b.operands J s =
      checkPositions b.map.numDims 0 (b.merge i j).operands J s := by
    rw [checkPositions_eq, checkPositions_eq, hoperands, hmerged,
      firstInOrder_repeated (by omega)]
  rw [composeMap_idle hstep, composeMap_idle hstep', ← hfoldable]
  cases anyFoldable s b.map.numDims 0 b.operands with
  | error e => rfl
  | ok foldable =>
    refine Compose.bind_map hcheck fun _ J₁ s₁ _ => ?_
    rw [Compose.map_eq, Compose.map_eq, hoperands, hmerged, indexOperands_repeated, hmid, hfront]
    refine mapOutcome_comm (fun operands => ?_) _
    rfl

theorem composeSet_eq (b : SetBinding) : composeSet anchor limit b J s =
    mapOutcome b.withBinding (composeMap anchor limit b.toBinding J s) :=
  Compose.map_eq (composeMap anchor limit b.toBinding) b.withBinding

/-- Binds one symbol of a set to what two were bound to. -/
def SetBinding.merge (b : SetBinding) (i j : Nat) : SetBinding :=
  b.withBinding (b.toBinding.merge i j)

theorem SetBinding.toBinding_merge (b : SetBinding) (i j : Nat) :
    (b.merge i j).toBinding = b.toBinding.merge i j := by
  have hexprs : ∀ cs : List Affine.Constraint,
      ((List.zipWith (fun c e => { c with expr := e }) cs
        ((cs.map (·.expr)).map (Expr.renameSymbols (mergeSymbol i j)))).map (·.expr)) =
        (cs.map (·.expr)).map (Expr.renameSymbols (mergeSymbol i j)) := by
    intro cs
    induction cs with
    | nil => rfl
    | cons c cs ih => exact congrArg _ ih
  show Binding.mk ⟨_, _, _⟩ _ = Binding.mk ⟨_, _, _⟩ _
  exact congrArg (fun es => Binding.mk ⟨_, _, es⟩ _) (hexprs b.set.constraints)

theorem SetBinding.withBinding_merge (b : SetBinding) (i j : Nat) (c : Binding) :
    (b.merge i j).withBinding c = b.withBinding c := by
  have hlength : b.set.constraints.length ≤
      ((b.set.constraints.map (·.expr)).map (Expr.renameSymbols (mergeSymbol i j))).length := by
    simp
  exact congrArg (fun cs => SetBinding.mk ⟨_, _, cs⟩ _)
    (SetBinding.zipWith_expr_zipWith _ (.inr hlength))

end Compositions

/-! ## Canonical forms -/

section Forms

variable {b c c' r : Binding} {i j n : Nat} {anchor : OpRef} {limit : Nat} {ops : List ValueRef}
  {rho : Bool → ValueRef → Int64}

theorem repeatAt_shift : ∀ {n : Nat} {l : List ValueRef}, n ≤ l.length →
    (repeatAt (n + i) (n + j) l).take n = l.take n ∧
      (repeatAt (n + i) (n + j) l).drop n = repeatAt i j (l.drop n)
  | 0, l, _ => by simp
  | n + 1, [], h => absurd h (Nat.not_succ_le_zero n)
  | n + 1, v :: l, h => by
    obtain ⟨htake, hdrop⟩ := repeatAt_shift (Nat.le_of_succ_le_succ h)
    rw [Nat.add_right_comm n 1 i, Nat.add_right_comm n 1 j, repeatAt_cons]
    exact ⟨congrArg (v :: ·) htake, hdrop⟩

/-- The list without the repeated element has the elements of the other one at merged positions. -/
theorem getElem?_repeatAt {l : List ValueRef} (hij : i < j) (hj : j ≤ l.length) (k : Nat) :
    l[mergeSymbol i j k]? = (repeatAt i j l)[k]? := by
  have hi : i < l.length := hij.trans_le hj
  have hrepeat : repeatAt i j l = l.insertIdx j l[i] := by
    rw [repeatAt, List.getElem?_eq_getElem hi]
  have hsame : (repeatAt i j l)[i]? = (repeatAt i j l)[j]? := by
    rw [hrepeat, List.getElem?_insertIdx_of_lt hij, List.getElem?_insertIdx_self,
      List.getElem?_eq_getElem hi, if_pos hj]
  have hback := Affine.getElem?_mergeSymbol hij hsame k
  rwa [hrepeat, List.eraseIdx_insertIdx_self, ← hrepeat] at hback

theorem Binding.Repeats.lt_length (h : b.Repeats i j) : b.map.numDims + j < b.operands.length := by
  obtain ⟨_, _, _, hj⟩ := h
  exact (List.getElem?_eq_some_iff.1 hj).1

theorem Binding.Repeats.merge_length (h : b.Repeats i j) :
    (b.merge i j).operands.length + 1 = b.operands.length := by
  have hlt := h.lt_length
  rw [merge, List.length_eraseIdx_of_lt hlt]
  omega

theorem Binding.Repeats.length_repeatAt (h : b.Repeats i j)
    (hlength : ops.length = (b.merge i j).operands.length) :
    (repeatAt (b.map.numDims + i) (b.map.numDims + j) ops).length = b.operands.length := by
  have hmerged := h.merge_length
  have hlt := h.lt_length
  have hij := h.1
  rw [repeatAt, List.getElem?_eq_getElem (by omega), List.length_insertIdx, if_pos (by omega)]
  omega

theorem Binding.Repeats.merge_wellBound (h : b.Repeats i j) (hb : b.WellBound) :
    (b.merge i j).WellBound := by
  have hlength := h.merge_length
  have hlt := h.lt_length
  have hij := h.1
  have hinputs : b.map.numDims + b.map.numSymbols = b.operands.length := hb.inputs
  refine ⟨?_, fun e he => ?_⟩
  · show b.map.numDims + (b.map.numSymbols - 1) = _
    omega
  · obtain ⟨e₀, he₀, rfl⟩ := List.mem_map.1 he
    refine (hb.inRange e₀ he₀).renameSymbols fun k hk => ?_
    show mergeSymbol i j k < b.map.numSymbols - 1
    unfold mergeSymbol
    split
    · omega
    · split <;> omega

theorem Binding.merge_linear (hlin : b.IsLinear) : (b.merge i j).IsLinear := by
  intro e he
  obtain ⟨e₀, he₀, rfl⟩ := List.mem_map.1 he
  exact (hlin e₀ he₀).renameSymbols

/-- With the operand repeated, the map computes what the merged one computes without. -/
theorem Binding.Repeats.residue_merge (h : b.Repeats i j)
    (hlength : ops.length = (b.merge i j).operands.length) :
    (⟨b.map, repeatAt (b.map.numDims + i) (b.map.numDims + j) ops⟩ : Binding).residue rho =
      (⟨(b.merge i j).map, ops⟩ : Binding).residue rho := by
  have hmerged := h.merge_length
  have hlt := h.lt_length
  obtain ⟨htake, hdrop⟩ := repeatAt_shift (i := i) (j := j)
    (show b.map.numDims ≤ ops.length by omega)
  have hdims : (b.merge i j).map.numDims = b.map.numDims := rfl
  simp only [residue, bound, if_true, Bool.false_eq_true, if_false, htake, hdrop, hdims]
  show _ = (b.map.results.map _).map _
  rw [List.map_map]
  refine List.map_congr_left fun e _ => (Affine.Expr.renameSymbols_residue (fun k => ?_) e).symm
  rw [List.getD_eq_getElem?_getD, List.getD_eq_getElem?_getD, List.getElem?_map,
    List.getElem?_map, getElem?_repeatAt h.1 (by rw [List.length_drop]; omega)]

/-- Over a linear map, the canonical forms of the two compositions differ in the order of the
operands only. -/
theorem canonicalize_unmerge (h : b.Repeats i j) (hb : b.WellBound) (hlin : b.IsLinear)
    (hlength : ops.length = (b.merge i j).operands.length)
    (hc : canonicalize t ⟨(b.merge i j).map.simplify, ops⟩ = .ok c)
    (hc' : canonicalize t (b.unmerge i j ops) = .ok c') : c'.Reorders c := by
  have hmerged := h.merge_wellBound hb
  have hlinear := Binding.merge_linear (i := i) (j := j) hlin
  obtain ⟨hclin, hcsame⟩ := canonicalize_linear (hmerged.simplify hlength) hlinear.simplify hc
  obtain ⟨hclin', hcsame'⟩ := canonicalize_linear
    (hb.simplify (h.length_repeatAt hlength)) hlin.simplify hc'
  refine (canonicalize_canonical hc').reorders (canonicalize_canonical hc) hclin' hclin
    fun rho ha => ?_
  rw [hcsame' rho ha, hcsame rho ha, hlinear.residue_simplify, ← h.residue_merge hlength]
  exact hlin.residue_simplify

theorem indexOperands_length {vs : List ValueRef} :
    ∀ {casts : List (ValueRef × ValueRef)} {cs : List ValueRef} {J J' : Journal} {s t : Store},
      indexOperands anchor casts vs J s = .ok ((.ok cs, J'), t) → cs.length = vs.length := by
  induction vs with
  | nil =>
    intro casts cs J J' s t h
    obtain ⟨h, _⟩ := Compose.pure_ok.1 h
    cases h
    rfl
  | cons v vs ih =>
    intro casts cs J J' s t h
    rw [indexOperands_cons] at h
    obtain ⟨a, J₁, s₁, _, h⟩ := Compose.bind_ok.1 h
    obtain ⟨rest, J₂, s₂, hrest, h⟩ := Compose.bind_ok.1 h
    obtain ⟨h, _⟩ := Compose.pure_ok.1 h
    cases h
    exact congrArg (· + 1) (ih hrest)

theorem composeMap_idle_ok (h : ¬ MakesStep s limit b)
    (hrun : composeMap anchor limit b J s = .ok ((.ok r, J'), t)) :
    ∃ ops, r = ⟨b.map.simplify, ops⟩ ∧ ops.length = b.operands.length := by
  rw [composeMap_idle h, except_bind_ok] at hrun
  obtain ⟨_, _, hrun⟩ := hrun
  obtain ⟨_, J₁, s₁, _, hrun⟩ := Compose.bind_ok.1 hrun
  obtain ⟨ops, J₂, s₂, hops, hrun⟩ := Compose.bind_ok.1 hrun
  obtain ⟨hrun, _⟩ := Compose.pure_ok.1 hrun
  cases hrun
  exact ⟨ops, rfl, indexOperands_length hops⟩

theorem SetBinding.withBinding_again {c : SetBinding} {x y : Binding}
    (h : x.map.numResults = c.set.constraints.length) :
    (c.withBinding x).withBinding y = c.withBinding y := by
  have hagain : ∀ (cs : List Affine.Constraint) (xs ys : List Expr), xs.length = cs.length →
      List.zipWith (fun c e => { c with expr := e })
        (List.zipWith (fun c e => { c with expr := e }) cs xs) ys =
        List.zipWith (fun c e => { c with expr := e }) cs ys := by
    intro cs
    induction cs with
    | nil => exact fun _ _ _ => rfl
    | cons c cs ih =>
      intro xs ys hxs
      cases xs with
      | nil => cases hxs
      | cons x xs =>
        cases ys with
        | nil => rfl
        | cons y ys => exact congrArg _ (ih xs ys (Nat.succ.inj hxs))
  exact congrArg (fun cs => SetBinding.mk ⟨y.map.numDims, y.map.numSymbols, cs⟩ y.operands)
    (hagain _ _ _ h)

/-- The canonical form of a set is that of its expressions, with the relations. -/
theorem canonicalizeSet_withBinding {c d : SetBinding} {x : Binding}
    (h : x.map.numResults = c.set.constraints.length)
    (hd : canonicalizeSet t (c.withBinding x) = .ok d) :
    ∃ form, canonicalize t x = .ok form ∧ d = c.withBinding form ∧ d.toBinding = form := by
  simp only [canonicalizeSet, SetBinding.toBinding_withBinding h, except_bind_ok] at hd
  obtain ⟨form, hform, hd⟩ := hd
  cases hd
  refine ⟨form, hform, SetBinding.withBinding_again h, ?_⟩
  rw [SetBinding.withBinding_again h]
  exact SetBinding.toBinding_withBinding ((canonicalize_numResults hform).trans h)

/-- So do the canonical forms of two sets. -/
theorem canonicalizeSet_unmerge {c form form' : SetBinding} (h : c.toBinding.Repeats i j)
    (hb : c.toBinding.WellBound) (hlin : c.toBinding.IsLinear)
    (hlength : ops.length = (c.toBinding.merge i j).operands.length)
    (hform : canonicalizeSet t
      (c.withBinding ⟨(c.toBinding.merge i j).map.simplify, ops⟩) = .ok form)
    (hform' : canonicalizeSet t (c.withBinding (c.toBinding.unmerge i j ops)) = .ok form') :
    form'.toBinding.Reorders form.toBinding ∧ (form' = form ↔ form'.operands = form.operands) := by
  have hresults : c.toBinding.map.results.length = c.set.constraints.length := List.length_map _
  have hmerged : (c.toBinding.merge i j).map.simplify.numResults = c.set.constraints.length :=
    (List.length_map _).trans ((List.length_map _).trans hresults)
  have hrepeated : (c.toBinding.unmerge i j ops).map.numResults = c.set.constraints.length :=
    (List.length_map _).trans hresults
  obtain ⟨x, hx, rfl, hback⟩ := canonicalizeSet_withBinding hmerged hform
  obtain ⟨x', hx', rfl, hback'⟩ := canonicalizeSet_withBinding hrepeated hform'
  have hreorders := canonicalize_unmerge h hb hlin hlength hx hx'
  rw [hback, hback']
  exact ⟨hreorders, congrArg _, fun hoperands => by rw [hreorders.eq_iff.2 hoperands]⟩

end Forms

/-! ## One value at two positions -/

section Compositions

variable {b : Binding} {i j : Nat} {anchor : OpRef} {limit : Nat}

/-- One value at two symbol positions is treated as one wherever no operand has to be hoisted.  A
composition that makes a step comes to the same as one of the merged pair, be it a map or a set: the
same results and errors, journals and stores.  One that makes no step succeeds exactly if the other
does, with the same edits, and yields what it was given: its own map, simplified, over the operands
of the other with the repeated one in its place.  If that map is linear, the canonical forms of the
two bind the same operands, and they are equal if they list them in the same order. -/
theorem repeated_operand_composes_once {b : Binding} {i j : Nat} (h : b.Repeats i j)
    (hstay : ∀ v ∈ b.operands, ¬ NeedsHoist s v) (anchor : OpRef) (limit : Nat) (J : Journal) :
    (MakesStep s limit b →
      SameOutcome (composeMap anchor limit b) (composeMap anchor limit (b.merge i j)) J s ∧
      ∀ c : SetBinding, c.toBinding = b →
        SameOutcome (composeSet anchor limit c) (composeSet anchor limit (c.merge i j)) J s) ∧
    (¬ MakesStep s limit b →
      composeMap anchor limit b J s = mapOutcome (fun r => b.unmerge i j r.operands)
        (composeMap anchor limit (b.merge i j) J s) ∧
      (∀ c : SetBinding, c.toBinding = b → composeSet anchor limit c J s =
        mapOutcome (fun r => c.withBinding (b.unmerge i j r.operands))
          (composeSet anchor limit (c.merge i j) J s)) ∧
      (b.WellBound → b.IsLinear →
        (∀ {r form form' : Binding} {J' : Journal} {t : Store},
          composeMap anchor limit (b.merge i j) J s = .ok ((.ok r, J'), t) →
          canonicalize t r = .ok form →
          canonicalize t (b.unmerge i j r.operands) = .ok form' → form'.Reorders form) ∧
        ∀ {c r form form' : SetBinding} {J' : Journal} {t : Store}, c.toBinding = b →
          composeSet anchor limit (c.merge i j) J s = .ok ((.ok r, J'), t) →
          canonicalizeSet t r = .ok form →
          canonicalizeSet t (c.withBinding (b.unmerge i j r.operands)) = .ok form' →
          form'.toBinding.Reorders form.toBinding ∧
            (form' = form ↔ form'.operands = form.operands))) := by
  have hrelations : ∀ c : SetBinding, (c.merge i j).withBinding = c.withBinding := fun c =>
    funext (c.withBinding_merge i j)
  constructor
  · intro hstep
    have hmap : SameOutcome (composeMap anchor limit b) _ J s := composeMap_merge h hstay hstep
    refine ⟨hmap, ?_⟩
    rintro c rfl
    unfold composeSet
    rw [hrelations, c.toBinding_merge]
    exact hmap.bind _
  · intro hstep
    have hmap : composeMap anchor limit b J s = _ := composeMap_unmerge h hstep
    have hidle : ¬ MakesStep s limit (b.merge i j) := fun hmakes =>
      hstep ⟨hmakes.1, (anyFoldable_merge h).trans hmakes.2⟩
    refine ⟨hmap, ?_, fun hb hlin => ⟨?_, ?_⟩⟩
    · rintro c rfl
      rw [composeSet_eq, composeSet_eq, hrelations, c.toBinding_merge, hmap]
      refine mapOutcome_comm (fun r => ?_) _
      rfl
    · intro r form form' J' t hrun hform hform'
      obtain ⟨ops, rfl, hlength⟩ := composeMap_idle_ok hidle hrun
      exact canonicalize_unmerge h hb hlin hlength hform hform'
    · rintro c r form form' J' t rfl hrun hform hform'
      unfold composeSet at hrun
      rw [hrelations, c.toBinding_merge] at hrun
      obtain ⟨r₀, J₁, s₁, hmerged, hr⟩ := Compose.bind_ok.1 hrun
      obtain ⟨hr, rfl, rfl⟩ := Compose.pure_ok.1 hr
      cases hr
      obtain ⟨ops, rfl, hlength⟩ := composeMap_idle_ok hidle hmerged
      exact canonicalizeSet_unmerge h hb hlin hlength hform hform'

end Compositions

/-- A function with a loop that uses a result of arithmetic on a value and the second parameter. -/
def computingLoop (kind : ArithKind) (lhs : String) : Surface.Op :=
  .program [⟨"a", .index⟩, ⟨"b", .index⟩]
    [.loop [.plain kind.opName ["x"] [lhs, "b"] [.index] [], .plain ⟨"test", "use"⟩ [] ["x"] [] []],
      .plain returnName [] [] [] []]

/-- The sum of two symbols that are bound to one value. -/
def doubled (v : ValueRef) : Binding :=
  ⟨⟨0, 2, [.bin .add (.symbol 0) (.symbol 1)]⟩, [v, v]⟩

theorem doubled_repeats (v : ValueRef) : (doubled v).Repeats 0 1 :=
  ⟨Nat.zero_lt_one, v, rfl, rfl⟩

/-- A sum of the induction variable and a parameter, looked at twice. -/
theorem sum_composed :
    let composed : Binding := ⟨⟨1, 1, [.bin .add (.bin .mul (.dim 0) (.const 2))
      (.bin .mul (.symbol 0) (.const 2))]⟩, [⟨2⟩, ⟨1⟩]⟩
    ∃ root scope s, buildOp Scope.empty (computingLoop .add "i") Store.empty =
        .ok (.ok (root, scope), s) ∧ (pieceOf? s ⟨3⟩).map (·.isSome) = .ok true ∧
      anyFoldable s 0 0 [⟨3⟩, ⟨3⟩] = .ok true ∧
      composeMap ⟨1⟩ 8 ((doubled ⟨3⟩).merge 0 1) [] s = .ok ((.ok composed, []), s) :=
  ⟨⟨6⟩, _, _, by cbv, by cbv, by cbv, by cbv⟩

/-- The sum of the last two of three symbols, the first and the last of which are bound to one
value, takes the values in the order of their first uses; in the merged map that value comes first.
-/
example : ∃ root scope s, buildOp Scope.empty (computingLoop .add "i") Store.empty =
      .ok (.ok (root, scope), s) ∧
    let sum : Map := ⟨0, 2, [.bin .add (.symbol 0) (.symbol 1)]⟩
    let b : Binding := ⟨⟨0, 3, [.bin .add (.symbol 1) (.symbol 2)]⟩, [⟨0⟩, ⟨1⟩, ⟨0⟩]⟩
    canonicalize s b = .ok ⟨sum, [⟨1⟩, ⟨0⟩]⟩ ∧
      canonicalize s (b.merge 0 2) = .ok ⟨sum, [⟨0⟩, ⟨1⟩]⟩ :=
  ⟨⟨6⟩, _, _, by cbv, by cbv, by cbv⟩

theorem repeated_operand_composes_once_sum :
    let composed : Binding := ⟨⟨1, 1, [.bin .add (.bin .mul (.dim 0) (.const 2))
      (.bin .mul (.symbol 0) (.const 2))]⟩, [⟨2⟩, ⟨1⟩]⟩
    ∃ root scope s, buildOp Scope.empty (computingLoop .add "i") Store.empty =
        .ok (.ok (root, scope), s) ∧ ¬ NeedsHoist s ⟨3⟩ ∧
      composeMap ⟨1⟩ 8 (doubled ⟨3⟩) [] s = .ok ((.ok composed, []), s) := by
  obtain ⟨root, scope, s, hbuild, hpiece, hfoldable, hcompose⟩ := sum_composed
  have hstays : ¬ NeedsHoist s ⟨3⟩ := by
    intro hnone
    rw [hnone] at hpiece
    cases hpiece
  have hoperands : ∀ v ∈ (doubled ⟨3⟩).operands, ¬ NeedsHoist s v := by
    intro v hv
    simp only [doubled, List.mem_cons, List.not_mem_nil, or_false, or_self] at hv
    exact hv ▸ hstays
  obtain ⟨hstep, _⟩ := repeated_operand_composes_once (doubled_repeats ⟨3⟩) hoperands ⟨1⟩ 8 []
  obtain ⟨hmap, _⟩ := hstep ⟨by decide, hfoldable⟩
  exact ⟨root, scope, s, hbuild, hstays, (hmap _ _ _).2 hcompose⟩

/-- A product of parameters in a loop is hoisted at the first look; the second one does not find its
definition. -/
theorem hoisted_operand_composes_once_only :
    ¬ ∀ {tree : Surface.Op} {root anchor : OpRef} {scope : Scope} {s : Store} {b : Binding}
      {i j limit : Nat} {J : Journal},
      buildOp Scope.empty tree Store.empty = .ok (.ok (root, scope), s) →
      check s root = .ok ⟨[], [], []⟩ → b.Repeats i j →
      ((∃ r J' t, composeMap anchor limit b J s = .ok ((.ok r, J'), t)) ↔
        ∃ r J' t, composeMap anchor limit (b.merge i j) J s = .ok ((.ok r, J'), t)) := by
  intro hclaim
  have hprogram : ∃ root scope s, buildOp Scope.empty (computingLoop .mul "a") Store.empty =
        .ok (.ok (root, scope), s) ∧ check s root = .ok ⟨[], [], []⟩ ∧
      (∃ J t, composeMap ⟨1⟩ 8 (doubled ⟨3⟩) [] s =
        .ok ((.error (.unpromotable ⟨3⟩), J), t)) ∧
      ∃ r J t, composeMap ⟨1⟩ 8 ((doubled ⟨3⟩).merge 0 1) [] s = .ok ((.ok r, J), t) :=
    ⟨⟨6⟩, _, _, by cbv, by cbv, ⟨_, _, by cbv⟩, ⟨_, _, _, by cbv⟩⟩
  obtain ⟨root, scope, s, hbuild, hcheck, ⟨J, t, hfails⟩, hmerged⟩ := hprogram
  obtain ⟨r, J', t', hsucceeds⟩ := (hclaim hbuild hcheck (doubled_repeats ⟨3⟩)).2 hmerged
  cases hfails.symm.trans hsucceeds

end AffineRaising.Raise
