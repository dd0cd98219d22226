/-
# AffineRaising.Proofs.Raise.Padding — classification and binding in padded stores.

What counts as a symbol or an index, which values cannot be negative, how minima, maxima and
conditions flatten and how operands are rebound depends on the program alone: in a padded store the
answers are the same, with references moved.

These queries recurse along definitions with a number of steps that is a size of the tables, so each
of them is shown for any larger number on the side of the padded store (`isSymbol_moved` from
`isScopeSymbolFuel_moved`, and so on).  What the answers are made of (`MinMax`, `Guard`,
`Positions`, `Binding`) is moved by moving the values in it; expressions name positions and not
values, and stay as they are.
-/
import AffineRaising.Proofs.Analysis.Moved
import AffineRaising.Raise.Pattern

namespace AffineRaising.Raise

open AffineRaising.IR AffineRaising.Ops AffineRaising.Analysis

variable {σ : Padding} {s t : Store} (h : Padded σ s t)

include h

/-! ## Symbols -/

/-- The operation that holds the block of a value is found by parent links. -/
theorem homeOwner?_moved (v : ValueRef) :
    Moved (Option.map σ.op) (homeOwner? s v) (homeOwner? t (σ.value v)) := by
  refine .bind (h.homeBlock? v) fun block => ?_
  cases block with
  | none => exact .pure rfl
  | some block => exact h.blockOwner? block

theorem isNamed_moved (o : OpRef) (name : OpName) :
    Same (isNamed s o name) (isNamed t (σ.op o) name) :=
  .bind (h.nameOf o) fun _ => .pure rfl

/-- A value lives on the top level in both stores or in none. -/
theorem isTopLevel_moved (v : ValueRef) : Same (isTopLevel s v) (isTopLevel t (σ.value v)) := by
  refine .bind (homeOwner?_moved h v) fun owner => ?_
  cases owner with
  | none => exact .pure rfl
  | some owner => exact isNamed_moved h owner _

/-- Symbols of a scope are followed along definitions, in the padded store with as many steps or
more. -/
theorem isScopeSymbolFuel_moved (n : Nat) : ∀ (m : Nat), n ≤ m → ∀ v : ValueRef,
    Same (isScopeSymbolFuel s n v) (isScopeSymbolFuel t m (σ.value v)) := by
  induction n with
  | zero => exact fun _ _ _ => .throw
  | succ n ih =>
    intro m hm v
    obtain ⟨m, rfl⟩ : ∃ k, m = k + 1 := ⟨m - 1, by omega⟩
    refine .bind (isTopLevel_moved h v) fun _ => .ite .rfl (.pure rfl) ?_
    refine .bind (h.definingOp? v) fun o => ?_
    cases o with
    | none => exact .pure rfl
    | some o =>
      refine .bind (isNamed_moved h o _) fun _ => .ite .rfl (.pure rfl) ?_
      refine .bind (isNamed_moved h o _) fun _ => .ite .rfl ?_ (.pure rfl)
      exact .bind (h.operandsOf o) fun operands => allInOrder_moved (ih m (by omega)) operands

/-- Two tests of operations that agree give the same symbols. -/
theorem isSymbolWith_moved {symbolOp symbolOp' : OpRef → Except Fault Bool}
    (hop : ∀ o, Same (symbolOp o) (symbolOp' (σ.op o))) (v : ValueRef) :
    Same (isSymbolWith symbolOp s v) (isSymbolWith symbolOp' t (σ.value v)) := by
  refine .bind (isTopLevel_moved h v) fun _ => .ite .rfl (.pure rfl) ?_
  refine .bind (h.definingOp? v) fun o => ?_
  cases o with
  | none => exact .pure rfl
  | some o =>
    refine .bind (hop o) fun _ => .ite .rfl (.pure rfl) ?_
    exact isScopeSymbolFuel_moved h _ _ h.depthBound_le v

/-- Both stores have the same symbols. -/
theorem isSymbol_moved (v : ValueRef) : Same (isSymbol s v) (isSymbol t (σ.value v)) :=
  isSymbolWith_moved h (fun o => .bind (arithKind?_moved h o) fun _ => .pure rfl) v

/-- Two tests that agree on operations agree on the branches of a conditional. -/
theorem branchesSatisfy_moved {test test' : OpRef → Except Fault Bool}
    (htest : ∀ o, Same (test o) (test' (σ.op o))) (o : OpRef) :
    Same (branchesSatisfy test s o) (branchesSatisfy test' t (σ.op o)) := by
  refine .bind (h.childOps o) fun children => allInOrder_moved (fun x => ?_) children
  have hyield : Same (isYield s x) (isYield t (σ.op x)) := .bind (h.nameOf x) fun _ => .pure rfl
  exact .bind hyield fun _ => .ite .rfl (.pure rfl) (htest x)

theorem computesSymbolFuel_moved (n : Nat) : ∀ (m : Nat), n ≤ m → ∀ o : OpRef,
    Same (computesSymbolFuel s n o) (computesSymbolFuel t m (σ.op o)) := by
  induction n with
  | zero => exact fun _ _ _ => .throw
  | succ n ih =>
    intro m hm o
    obtain ⟨m, rfl⟩ : ∃ k, m = k + 1 := ⟨m - 1, by omega⟩
    have hsymbol := isSymbolWith_moved h (ih m (by omega))
    have hbranches := branchesSatisfy_moved h (ih m (by omega)) o
    have hall := Moved.bind (h.operandsOf o) fun operands => allInOrder_moved hsymbol operands
    refine .bind (arithKind?_moved h o) fun kind => ?_
    rcases kind with _ | kind
    · refine .bind (isNamed_moved h o _) fun _ => .ite .rfl ?_ ?_
      · refine .bind (h.operand o 0) fun v => .bind (hsymbol v) fun _ => ?_
        exact .ite .rfl hbranches (.pure rfl)
      · refine .bind (isNamed_moved h o _) fun _ => .ite .rfl ?_ (.pure rfl)
        refine .bind (h.operandsOf o) fun operands => .bind (allInOrder_moved hsymbol operands) ?_
        exact fun _ => .ite .rfl hbranches (.pure rfl)
    · cases kind <;> first | exact .pure rfl | exact hall

/-- What is built out of symbols alone is so in both stores. -/
theorem isRecursiveSymbol_moved (v : ValueRef) :
    Same (isRecursiveSymbol s v) (isRecursiveSymbol t (σ.value v)) :=
  isSymbolWith_moved h (computesSymbolFuel_moved h _ _ h.depthBound_le) v

/-! ## Indices -/

theorem isIndexArg_moved (b : BlockRef) (i : Nat) :
    Same (isIndexArg s b i) (isIndexArg t (σ.block b) i) := by
  refine .bind (h.blockOwner? b) fun owner => ?_
  cases owner with
  | none => exact .pure rfl
  | some owner =>
    refine .bind (isNamed_moved h owner _) fun _ => .ite .rfl (.pure rfl) ?_
    refine .bind (isNamed_moved h owner _) fun _ => .ite .rfl (.pure rfl) ?_
    exact isNamed_moved h owner _

theorem computesIndexWith_moved {index index' : ValueRef → Except Fault Bool}
    (hindex : ∀ v, Same (index v) (index' (σ.value v))) (o : OpRef) :
    Same (computesIndexWith index s o) (computesIndexWith index' t (σ.op o)) := by
  -- an index on the left, and something of the right side
  have hleft : ∀ (a : ValueRef) {x y : Except Fault Bool}, Same x y →
      Same (do if ← index a then x else return false)
        (do if ← index' (σ.value a) then y else return false) :=
    fun a _ _ hxy => .bind (hindex a) fun _ => .ite .rfl hxy (.pure rfl)
  have hconst : ∀ b : ValueRef, Same (do return (← constantOf? s b).isSome)
      (do return (← constantOf? t (σ.value b)).isSome) := fun b =>
    .bind (constantOf?_moved h b) fun _ => .pure rfl
  refine .bind (arithKind?_moved h o) fun kind => .bind (h.operandsOf o) fun operands => ?_
  rcases kind with _ | kind
  · exact .pure rfl
  · rcases operands with _ | ⟨a, _ | ⟨b, _ | ⟨c, rest⟩⟩⟩
    · cases kind <;> exact .pure rfl
    · cases kind <;> first | exact .pure rfl | exact hindex a
    · have hsymbol := isRecursiveSymbol_moved h
      cases kind <;> first
        | exact .pure rfl
        | exact hleft a (hindex b)
        | exact hleft a (hsymbol b)
        | exact hleft a (hconst b)
        | exact .bind (hindex a) fun _ => .ite .rfl
            (.bind (hsymbol b) fun _ => .ite .rfl (.pure rfl) (hleft b (hsymbol a)))
            (.pure_bind (.ite .rfl (.pure rfl) (hleft b (hsymbol a))))
    · cases kind <;> exact .pure rfl

/-- What an index is computed from is followed along definitions, with as many steps or more. -/
theorem isIndexFuel_moved (n : Nat) : ∀ (m : Nat), n ≤ m → ∀ v : ValueRef,
    Same (isIndexFuel s n v) (isIndexFuel t m (σ.value v)) := by
  induction n with
  | zero => exact fun _ _ _ => .throw
  | succ n ih =>
    intro m hm v
    obtain ⟨m, rfl⟩ : ∃ k, m = k + 1 := ⟨m - 1, by omega⟩
    refine .bind (isRecursiveSymbol_moved h v) fun _ => .ite .rfl (.pure rfl) ?_
    refine .bind (h.value v) fun d => ?_
    rw [Padding.valueData]
    cases d.origin with
    | result o i => exact computesIndexWith_moved h (ih m (by omega)) o
    | argument b i => exact isIndexArg_moved h b i

/-- Both stores have the same indices. -/
theorem isIndex_moved (v : ValueRef) : Same (isIndex s v) (isIndex t (σ.value v)) :=
  isIndexFuel_moved h _ _ h.depthBound_le v

theorem isLoopArg_moved (v : ValueRef) : Same (isLoopArg s v) (isLoopArg t (σ.value v)) := by
  refine .bind (h.value v) fun d => ?_
  rw [Padding.valueData]
  cases d.origin with
  | result o i => exact .pure rfl
  | argument b i =>
    refine .bind (h.blockOwner? b) fun owner => ?_
    cases owner with
    | none => exact .pure rfl
    | some owner =>
      exact .bind (isNamed_moved h owner _) fun _ => .ite .rfl (.pure rfl) (isNamed_moved h owner _)

/-! ## Casts -/

/-- Stripping casts leads to the moved value. -/
theorem stripFuel_moved (through : ArithKind → Bool) (n : Nat) : ∀ (m : Nat), n ≤ m →
    ∀ v : ValueRef, Moved σ.value (stripFuel through s n v)
      (stripFuel through t m (σ.value v)) := by
  induction n with
  | zero => exact fun _ _ _ => .throw
  | succ n ih =>
    intro m hm v
    obtain ⟨m, rfl⟩ : ∃ k, m = k + 1 := ⟨m - 1, by omega⟩
    refine .bind (h.definingOp? v) fun o => ?_
    cases o with
    | none => exact .pure rfl
    | some o =>
      refine .bind (arithKind?_moved h o) fun kind => ?_
      cases kind with
      | none => exact .pure rfl
      | some kind =>
        exact .ite .rfl (.bind (h.operand o 0) fun w => ih m (by omega) w) (.pure rfl)

theorem foldsConstant_moved (o : OpRef) : Same (foldsConstant s o) (foldsConstant t (σ.op o)) := by
  refine .bind (arithKind?_moved h o) fun kind => ?_
  cases kind with
  | none => exact .pure rfl
  | some kind =>
    refine .ite .rfl (.bind (h.operandsOf o) fun operands => ?_) (.pure rfl)
    rw [List.getElem?_map]
    cases operands[1]? with
    | none => exact .pure rfl
    | some rhs => exact .bind (constantOf?_moved h rhs) fun _ => .pure rfl

/-- An operand can be folded in both stores or in none. -/
theorem isFoldable_moved (v : ValueRef) (isDim : Bool) :
    Same (isFoldable s v isDim) (isFoldable t (σ.value v) isDim) := by
  -- each of the three tests ends in a branch; what follows is the same behind every branch
  refine .bind (h.definingOp? v) fun o => ?_
  rcases o with _ | o
  case' none => refine .pure_bind ?_
  case' some => refine .bind (isNamed_moved h o _) fun _ => ?_
  all_goals
    refine .ite .rfl (.pure rfl) ?_
    refine .bind (isSymbol_moved h v) fun _ => .bind (isIndex_moved h v) fun _ => ?_
    refine .ite .rfl (.pure_bind ?_) (.ite .rfl (.ite .rfl ?_ (.pure_bind ?_)) (.pure_bind ?_))
    case' refine_2 => refine .bind (isLoopArg_moved h v) fun _ => .pure_bind ?_
    all_goals
      refine .ite .rfl (.pure rfl) ?_
      refine .bind (stripFuel_moved h _ _ _ h.depthBound_le v) fun w => ?_
      refine .bind (h.definingOp? w) fun o => ?_
      rcases o with _ | o
      case' none => refine .pure_bind ?_
      case' some => refine .bind (foldsConstant_moved h o) fun _ => ?_
      all_goals exact .ite .rfl (.pure rfl) (.ite .rfl (.pure rfl) (isLoopArg_moved h w))

/-! ## Signs -/

theorem hasNonNegativeLower_moved (b : BlockRef) (i : Nat) :
    Same (hasNonNegativeLower s b i) (hasNonNegativeLower t (σ.block b) i) := by
  refine .bind (h.blockOwner? b) fun owner => ?_
  cases owner with
  | none => exact .pure rfl
  | some owner =>
    have hlower := boundMap?_moved h owner .lower
    refine .bind (isNamed_moved h owner _) fun _ => .bind (isNamed_moved h owner _) fun _ => ?_
    refine .ite .rfl (.ite .rfl ?_ (.pure rfl)) (.ite .rfl ?_ (.pure rfl))
    · exact .bind hlower fun _ => .pure rfl
    · exact .bind hlower fun _ => .pure rfl

theorem isNonNegativeFuel_moved (n : Nat) : ∀ (m : Nat), n ≤ m → ∀ v : ValueRef,
    Same (isNonNegativeFuel s n v) (isNonNegativeFuel t m (σ.value v)) := by
  induction n with
  | zero => exact fun _ _ _ => .throw
  | succ n ih =>
    intro m hm v
    obtain ⟨m, rfl⟩ : ∃ k, m = k + 1 := ⟨m - 1, by omega⟩
    refine .bind (constantOf?_moved h v) fun c => ?_
    cases c with
    | some c => exact .pure rfl
    | none =>
      refine .bind (h.value v) fun d => ?_
      rw [Padding.valueData]
      cases d.origin with
      | argument b i => exact hasNonNegativeLower_moved h b i
      | result o i =>
        refine .bind (arithKind?_moved h o) fun kind => ?_
        rcases kind with _ | kind
        · exact .pure rfl
        · have hall := Moved.bind (h.operandsOf o) fun operands =>
            allInOrder_moved (ih m (by omega)) operands
          cases kind <;> first | exact .pure rfl | exact .ite .rfl hall (.pure rfl)

/-- The values that cannot be negative are the same. -/
theorem isNonNegative_moved (v : ValueRef) :
    Same (isNonNegative s v) (isNonNegative t (σ.value v)) :=
  isNonNegativeFuel_moved h _ _ h.depthBound_le v

/-! ## Minima and maxima -/

def OrderedChoice.move (σ : Padding) (c : OrderedChoice) : OrderedChoice :=
  ⟨σ.value c.lhs, σ.value c.rhs, c.isMin⟩

def MinMax.move (σ : Padding) (m : MinMax) : MinMax := ⟨m.leaves.map σ.value, m.min, m.max⟩

omit h in
theorem MinMax.move_unmixed? (m : MinMax) :
    (m.move σ).unmixed? = m.unmixed?.map (MinMax.move σ) := by
  unfold MinMax.unmixed?
  rw [apply_ite (Option.map (MinMax.move σ))]
  rfl

omit h in
/-- Joining minima and maxima commutes with moving. -/
theorem MinMax.move_join (isMin : Bool) (a b : MinMax) :
    MinMax.join isMin (a.move σ) (b.move σ) = (MinMax.join isMin a b).move σ := by
  simp [MinMax.join, MinMax.move]

theorem orderedChoice?_moved (v : ValueRef) :
    Moved (Option.map (OrderedChoice.move σ)) (orderedChoice? s v)
      (orderedChoice? t (σ.value v)) := by
  refine .bind (h.definingOp? v) fun select => ?_
  cases select with
  | none => exact .pure rfl
  | some select =>
    refine .bind (isNamed_moved h select _) fun _ => .ite .rfl (.pure rfl) ?_
    refine .bind (h.operand select 0) fun c => .bind (h.definingOp? c) fun cmp => ?_
    cases cmp with
    | none => exact .pure rfl
    | some cmp =>
      refine .bind (isNamed_moved h cmp _) fun _ => .ite .rfl (.pure rfl) ?_
      refine .bind (comparison_moved h cmp) fun sides => ?_
      refine .bind (h.operand select 1) fun a => .ite (by simp) (.pure rfl) ?_
      refine .bind (h.operand select 2) fun b => .ite (by simp) (.pure rfl) ?_
      refine .bind (cmpPredicate?_moved h cmp) fun predicate => .pure ?_
      rw [Option.map_map]
      rfl

/-- Minima and maxima flatten to the moved leaves, with as many steps or more. -/
theorem flattenFuel_moved (n : Nat) : ∀ (m : Nat), n ≤ m → ∀ v : ValueRef,
    Moved (Option.map (MinMax.move σ)) (flattenFuel s n v) (flattenFuel t m (σ.value v)) := by
  induction n with
  | zero => exact fun _ _ _ => .throw
  | succ n ih =>
    intro m hm v
    obtain ⟨m, rfl⟩ : ∃ k, m = k + 1 := ⟨m - 1, by omega⟩
    refine .bind (isIndex_moved h v) fun _ => .ite .rfl (.pure rfl) ?_
    refine .bind (orderedChoice?_moved h v) fun choice => ?_
    cases choice with
    | none => exact .pure rfl
    | some choice =>
      refine .bind (ih m (by omega) choice.lhs) fun left => ?_
      cases left with
      | none => exact .pure rfl
      | some left =>
        refine .bind (ih m (by omega) choice.rhs) fun right => ?_
        cases right with
        | none => exact .pure rfl
        | some right => exact .pure (congrArg some (MinMax.move_join _ left right).symm)

theorem flatten?_moved (v : ValueRef) :
    Moved (Option.map (MinMax.move σ)) (flatten? s v) (flatten? t (σ.value v)) := by
  refine .bind (flattenFuel_moved h _ _ h.depthBound_le v) fun tree => .pure ?_
  cases tree with
  | none => rfl
  | some tree => exact (MinMax.move_unmixed? tree).symm

/-- A choice between two values expands alike. -/
theorem expandChoice?_moved (v : ValueRef) :
    Moved (Option.map (MinMax.move σ)) (expandChoice? s v) (expandChoice? t (σ.value v)) := by
  refine .bind (orderedChoice?_moved h v) fun choice => ?_
  cases choice with
  | none => exact .pure rfl
  | some choice =>
    refine .bind (flatten?_moved h choice.lhs) fun left => ?_
    cases left with
    | none => exact .pure rfl
    | some left =>
      refine .bind (flatten?_moved h choice.rhs) fun right => ?_
      cases right with
      | none => exact .pure rfl
      | some right =>
        refine .pure ?_
        show _ = (MinMax.join choice.isMin (left.move σ) (right.move σ)).unmixed?
        rw [MinMax.move_join, MinMax.move_unmixed?]

/-! ## Conditions -/

def Guard.move (σ : Padding) (g : Guard) : Guard := ⟨g.constraints, g.operands.map σ.value⟩

omit h in
/-- A constraint over two values is pushed alike; its expressions name positions. -/
theorem Guard.move_push (g : Guard) (l r : ValueRef) (relation : Affine.Relation)
    (build : Affine.Expr → Affine.Expr → Affine.Expr) :
    (g.move σ).push (σ.value l) (σ.value r) relation build =
      (g.push l r relation build).move σ := by
  simp [Guard.push, Guard.move]

omit h in
theorem Guard.move_foldl (build : Affine.Expr → Affine.Expr → Affine.Expr)
    (ps : List (ValueRef × ValueRef)) : ∀ g : Guard,
    (ps.map (Prod.map σ.value σ.value)).foldl (fun g p => g.push p.1 p.2 .atLeast build)
      (g.move σ) = (ps.foldl (fun g p => g.push p.1 p.2 .atLeast build) g).move σ := by
  induction ps with
  | nil => exact fun _ => rfl
  | cons p ps ih =>
    intro g
    rw [List.map_cons, List.foldl_cons, List.foldl_cons, Prod.map_fst, Prod.map_snd, move_push]
    exact ih _

omit h in
theorem Guard.move_pushPairs (g : Guard) (lefts rights : List ValueRef)
    (build : Affine.Expr → Affine.Expr → Affine.Expr) :
    (g.move σ).pushPairs (lefts.map σ.value) (rights.map σ.value) build =
      (g.pushPairs lefts rights build).move σ := by
  have hpairs : ((lefts.map σ.value).flatMap fun l => (rights.map σ.value).map fun r => (l, r)) =
      (lefts.flatMap fun l => rights.map fun r => (l, r)).map (Prod.map σ.value σ.value) := by
    simp [List.flatMap_map, List.map_flatMap, List.map_map, Function.comp_def]
  rw [Guard.pushPairs, hpairs]
  exact move_foldl build _ g

omit h in
/-- A comparison adds the same constraints over moved operands. -/
theorem addComparison_moved (g : Guard) (predicate : Predicate) (lhs rhs : MinMax) :
    addComparison (g.move σ) predicate (lhs.move σ) (rhs.move σ) =
      (addComparison g predicate lhs rhs).map id (Guard.move σ) := by
  have hite : ∀ (c : Bool) (x : Guard),
      (if c = true then (false, g.move σ) else (true, x.move σ)) =
        (if c = true then (false, g) else (true, x)).map id (Guard.move σ) :=
    fun c x => by cases c <;> rfl
  obtain ⟨ls, lmin, lmax⟩ := lhs
  obtain ⟨rs, rmin, rmax⟩ := rhs
  cases predicate with
  | eq =>
    cases ls with
    | nil => rfl
    | cons l ls =>
      cases rs with
      | nil => rfl
      | cons r rs =>
        show (if _ then _ else (true, (g.move σ).push (σ.value l) (σ.value r) _ _)) = _
        rw [Guard.move_push]
        exact hite _ _
  | sge | sgt | sle | slt =>
    simp only [addComparison, MinMax.move, Guard.move_pushPairs]
    exact hite _ _
  | _ => rfl

theorem guardComparison_moved (g : Guard) (cmp : OpRef) :
    Moved (Prod.map id (Guard.move σ)) (guardComparison s g cmp)
      (guardComparison t (g.move σ) (σ.op cmp)) := by
  refine .bind (h.operand cmp 0) fun a => .bind (flatten?_moved h a) fun lhs => ?_
  refine .bind (h.operand cmp 1) fun b => .bind (flatten?_moved h b) fun rhs => ?_
  refine .bind (cmpPredicate?_moved h cmp) fun predicate => ?_
  rcases lhs with _ | lhs
  · exact .pure rfl
  rcases rhs with _ | rhs
  · exact .pure rfl
  rcases predicate with _ | predicate
  · exact .pure rfl
  refine .ite .rfl ?_ (.pure_bind ?_)
  · show Moved _ _ (allInOrder _ (lhs.leaves.map σ.value ++ rhs.leaves.map σ.value) >>= _)
    rw [← List.map_append]
    refine .bind (allInOrder_moved (isNonNegative_moved h) _) fun _ => .ite .rfl ?_ (.pure rfl)
    exact .pure (addComparison_moved g _ lhs rhs).symm
  · exact .ite .rfl (.pure (addComparison_moved g _ lhs rhs).symm) (.pure rfl)

/-- A level of a condition is lowered value by value. -/
theorem guardLevel_moved (level : List ValueRef) : ∀ (g : Guard) (next : List ValueRef),
    Moved (Option.map (Prod.map (Guard.move σ) (List.map σ.value))) (guardLevel s g next level)
      (guardLevel t (g.move σ) (next.map σ.value) (level.map σ.value)) := by
  induction level with
  | nil => exact fun _ _ => .pure rfl
  | cons v level ih =>
    intro g next
    refine .bind (h.definingOp? v) fun o => ?_
    cases o with
    | none => exact .pure rfl
    | some o =>
      refine .bind (arithKind?_moved h o) fun kind => ?_
      rcases kind with _ | kind
      · exact .pure rfl
      · cases kind with
        | cmp =>
          refine .bind (guardComparison_moved h g o) fun added => ?_
          obtain ⟨added, g'⟩ := added
          cases added with
          | false => exact .pure rfl
          | true => exact ih g' next
        | and =>
          refine .bind (h.operandsOf o) fun operands => ?_
          rw [← List.map_append]
          exact ih g _
        | _ => exact .pure rfl

/-- A condition is lowered level by level, with as many levels or more. -/
theorem guardLevels_moved (n : Nat) : ∀ (m : Nat), n ≤ m → ∀ (g : Guard) (level : List ValueRef),
    Moved (Option.map (Guard.move σ)) (guardLevels s n g level)
      (guardLevels t m (g.move σ) (level.map σ.value)) := by
  induction n with
  | zero =>
    intro m _ g level
    cases level with
    | nil => cases m <;> exact .pure rfl
    | cons v level => exact .throw
  | succ n ih =>
    intro m hm g level
    obtain ⟨m, rfl⟩ : ∃ k, m = k + 1 := ⟨m - 1, by omega⟩
    cases level with
    | nil => exact .pure rfl
    | cons v level =>
      refine .bind (guardLevel_moved h (v :: level) g []) fun found => ?_
      rcases found with _ | ⟨g', next⟩
      · exact .pure rfl
      · exact ih m (by omega) g' next

/-- A condition has a lowering in the padded store if it has one, over moved operands. -/
theorem lowerCondition?_moved (v : ValueRef) :
    Moved (Option.map (Guard.move σ)) (lowerCondition? s v) (lowerCondition? t (σ.value v)) :=
  guardLevels_moved h _ _ h.depthBound_le .empty [v]

/-! ## Operand lists -/

def Positions.move (σ : Padding) (p : Positions) : Positions :=
  ⟨p.dims.map σ.value, p.symbols.map σ.value⟩

def Binding.move (σ : Padding) (b : Binding) : Binding := ⟨b.map, b.operands.map σ.value⟩

def SetBinding.move (σ : Padding) (b : SetBinding) : SetBinding :=
  ⟨b.set, b.operands.map σ.value⟩

omit h in
/-- A value is found at the same place in a moved list, or added behind it. -/
theorem slot_moved (l : List ValueRef) (v : ValueRef) :
    slot (l.map σ.value) (σ.value v) = Prod.map id (List.map σ.value) (slot l v) := by
  unfold slot
  rw [idxOf?_map Padding.value_injective]
  cases l.idxOf? v <;> simp

omit h in
theorem Positions.move_dim (p : Positions) (v : ValueRef) :
    (p.move σ).dim (σ.value v) = Prod.map id (Positions.move σ) (p.dim v) := by
  simp [Positions.dim, Positions.move, slot_moved]

omit h in
theorem Positions.move_symbol (p : Positions) (v : ValueRef) :
    (p.move σ).symbol (σ.value v) = Prod.map id (Positions.move σ) (p.symbol v) := by
  simp [Positions.symbol, Positions.move, slot_moved]

omit h in
theorem Positions.move_operands (p : Positions) :
    (p.move σ).operands = p.operands.map σ.value := by
  simp [Positions.operands, Positions.move]

omit h in
/-- Moved bindings are equal if the bindings are, so a loop that runs until nothing changes stops in
the same round. -/
theorem Binding.move_inj {a b : Binding} : a.move σ = b.move σ ↔ a = b := by
  obtain ⟨m, l⟩ := a
  obtain ⟨m', l'⟩ := b
  simp [Binding.move, (List.map_injective_iff.2 Padding.value_injective).eq_iff]

theorem rebindSymbol_moved (used : Bool) (p : Positions) (v : ValueRef) :
    Moved (Prod.map id (Positions.move σ)) (rebindSymbol s used p v)
      (rebindSymbol t used (p.move σ) (σ.value v)) := by
  refine .ite .rfl (.pure rfl) (.bind (constantOf?_moved h v) fun c => ?_)
  cases c with
  | some c => exact .pure rfl
  | none => exact .pure (Positions.move_symbol p v).symm

theorem rebindDim_moved (used : Bool) (p : Positions) (v : ValueRef) :
    Moved (Prod.map id (Positions.move σ)) (rebindDim s used p v)
      (rebindDim t used (p.move σ) (σ.value v)) := by
  refine .ite .rfl (.pure rfl) (.bind (constantOf?_moved h v) fun c => ?_)
  cases c with
  | some c => exact .pure rfl
  | none =>
    exact .bind (isSymbol_moved h v) fun _ =>
      .ite .rfl (.pure (Positions.move_symbol p v).symm) (.pure (Positions.move_dim p v).symm)

omit h in
/-- A list of operands is rebound value by value. -/
theorem rebindList_moved
    {rebind rebind' : Nat → Positions → ValueRef → Except Fault (Affine.Expr × Positions)}
    (hrebind : ∀ i p v, Moved (Prod.map id (Positions.move σ)) (rebind i p v)
      (rebind' i (p.move σ) (σ.value v))) (vs : List ValueRef) : ∀ (i : Nat) (p : Positions),
    Moved (Prod.map id (Positions.move σ)) (rebindList rebind i p vs)
      (rebindList rebind' i (p.move σ) (vs.map σ.value)) := by
  induction vs with
  | nil => exact fun _ _ => .pure rfl
  | cons v vs ih =>
    intro i p
    exact .bind (hrebind i p v) fun x => .bind (ih (i + 1) x.2) fun y => .pure rfl

/-- One round of canonicalization gives the moved binding. -/
theorem rebindOnce_moved (b : Binding) :
    Moved (Binding.move σ) (rebindOnce s b) (rebindOnce t (b.move σ)) := by
  have hsymbols := rebindList_moved
    (fun j => rebindSymbol_moved h (b.map.usesSymbol j)) (b.operands.drop b.map.numDims) 0 .empty
  have hdims := rebindList_moved
    (fun i => rebindDim_moved h (b.map.usesDim i)) (b.operands.take b.map.numDims) 0
  rw [List.map_drop] at hsymbols
  simp only [List.map_take] at hdims
  refine .bind hsymbols fun x => .bind (hdims x.2) fun y => ?_
  refine .bind (f := fun m => m) (fun m hm => ?_) fun m => .pure ?_
  · simpa [Positions.move, Binding.move] using hm
  · show Binding.mk m (y.2.operands.map σ.value) = ⟨m, (y.2.move σ).operands⟩
    rw [Positions.move_operands]

/-- Both runs stop in the same round. -/
theorem rebindFuel_moved (n : Nat) : ∀ b : Binding,
    Moved (Binding.move σ) (rebindFuel s n b) (rebindFuel t n (b.move σ)) := by
  induction n with
  | zero => exact fun _ => .throw
  | succ n ih =>
    intro b
    refine .bind (rebindOnce_moved h b) fun next => ?_
    exact .ite Binding.move_inj.symm (.pure rfl) (ih next)

/-- The bound on the rounds is a number of operands and not a size of the tables, so it is the same
on both sides. -/
theorem canonicalize_moved (b : Binding) :
    Moved (Binding.move σ) (canonicalize s b) (canonicalize t (b.move σ)) := by
  unfold canonicalize
  rw [show (b.move σ).operands.length = b.operands.length by simp [Binding.move]]
  exact rebindFuel_moved h _ b

theorem canonicalizeSet_moved (b : SetBinding) :
    Moved (SetBinding.move σ) (canonicalizeSet s b) (canonicalizeSet t (b.move σ)) :=
  .bind (canonicalize_moved h b.toBinding) fun _ => .pure rfl

end AffineRaising.Raise
