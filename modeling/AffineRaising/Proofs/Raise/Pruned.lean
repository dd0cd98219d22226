/-
# AffineRaising.Proofs.Raise.Pruned — modules that have lost what nobody looks at.

Removing dead code takes trees of operations out of a module (`Erased`).  The tables keep their
entries, so most queries do not notice; those that do ask where an operation stands, what stands in
a block, or who uses a value.  `Pruned` says that nothing of this is asked about what went: nothing
was taken out of an operation that is left and has results, and no cast was taken that composing a
map could have used again.

Then an operation that is left finds the same in both modules.  A query about a value finds the same
if the value lasts (`Lasts`): its definition is left.  What such a query recurs to lasts again,
since operations that are left use no result of what went.
-/
import AffineRaising.Proofs.Raise.SoundConditional
import AffineRaising.Proofs.Raise.Validity
import AffineRaising.Proofs.Transform.DeadCode

namespace AffineRaising.Raise

open AffineRaising.IR AffineRaising.IR.Store AffineRaising.Ops AffineRaising.Analysis

variable {α β ε : Type} {sided : Prop} {gone : OpRef → Prop} {out : List OpRef} {s t : Store}
  {root o p x y z : OpRef} {v w : ValueRef} {b : BlockRef}

/-! ## Equal queries -/

/-- Two queries are the same if they begin alike and go on alike from what they find. -/
theorem bind_congr_ok {q q' : Except ε α} {f g : α → Except ε β} (hq : q = q')
    (h : ∀ a, q' = .ok a → f a = g a) : q >>= f = q' >>= g := by
  subst hq
  cases q with
  | error e => rfl
  | ok a => exact h a rfl

theorem allInOrder_congr {f g : α → Except Fault Bool} {l : List α} (h : ∀ a ∈ l, f a = g a) :
    allInOrder f l = allInOrder g l := by
  induction l with
  | nil => rfl
  | cons a l ih =>
    obtain ⟨hfirst, hrest⟩ := List.forall_mem_cons.1 h
    exact bind_congr_ok hfirst fun _ _ => if_congr .rfl (ih hrest) rfl

theorem mapM_congr_ok {f g : α → Except ε β} {l : List α} (h : ∀ a ∈ l, f a = g a) :
    l.mapM f = l.mapM g := by
  induction l with
  | nil => rfl
  | cons a l ih =>
    obtain ⟨hfirst, hrest⟩ := List.forall_mem_cons.1 h
    rw [List.mapM_cons, List.mapM_cons, ih hrest, hfirst]

/-! ## What is left -/

/-- The operation is nested in the module and was not taken out of it. -/
structure Remains (root : OpRef) (out : List OpRef) (s : Store) (x : OpRef) : Prop where
  nested : Nested s root x
  left : x ∉ out

/-- The operation remains with everything nested in it. -/
structure RemainsWhole (root : OpRef) (out : List OpRef) (s : Store) (x : OpRef) : Prop where
  nested : Nested s root x
  whole : ∀ y, Within s x y → y ∉ out

/-- The value is a result of an operation that remains, or an argument of a block that nothing holds
that was taken. -/
structure Lasts (root : OpRef) (out : List OpRef) (s : Store) (v : ValueRef) : Prop where
  result : ∀ o k, s.originOf v = some (.result o k) → Remains root out s o
  argument : ∀ b k p, s.originOf v = some (.argument b k) → Holds s p b → p ∉ out

/-- The second store is the first one without some trees of operations of a sound module, and
nothing that is left looks at what went: it does not use its results, operations with results are
left as a whole, and no cast went that gives a symbol the index type. -/
structure Pruned (sided : Prop) (root : OpRef) (gone : OpRef → Prop) (out : List OpRef)
    (s t : Store) : Prop where
  sound : Sound sided root gone (fun _ => False) s
  erased : Erased s out t
  trees : ∀ x y, x ∈ out → Within s x y → y ∈ out
  unused : ∀ x d v o k, Remains root out s x → s.op? x = some d → v ∈ d.operands →
    s.originOf v = some (.result o k) → o ∉ out
  holders : ∀ x y, Nested s root x → s.resultsOf x ≠ [] → Within s x y → y ∈ out → x ∈ out
  casts : ∀ o d v, o ∈ out → s.op? o = some d → d.name = ArithKind.indexCast.opName →
    v ∈ d.results → isSymbol s v ≠ .ok true

theorem RemainsWhole.remains (h : RemainsWhole root out s x) : Remains root out s x :=
  ⟨h.nested, h.whole x .refl⟩

theorem RemainsWhole.within (h : RemainsWhole root out s x) (hw : Within s x y) :
    RemainsWhole root out s y :=
  ⟨h.nested.trans_within hw, fun z hz => h.whole z (hw.trans hz)⟩

section Pruned

variable (h : Pruned sided root gone out s t)

include h

namespace Pruned

theorem linked : Linked s := h.sound.linked

/-- What encloses something that is left is left. -/
theorem enclosing_left (hw : Within s x y) (hy : y ∉ out) : x ∉ out := fun hx =>
  hy (h.trees x y hx hw)

/-- The definition of a value that lasts is left as a whole. -/
theorem definition {k : Nat} (hv : Lasts root out s v)
    (horigin : s.originOf v = some (.result o k)) : RemainsWhole root out s o := by
  have ho := hv.result o k horigin
  have hmem := List.mem_of_getElem? (getElem?_resultsOf h.linked horigin)
  have hresults := List.ne_nil_of_mem hmem
  exact ⟨ho.nested, fun y hw hy => ho.left (h.holders o y ho.nested hresults hw hy)⟩

/-- What an operation uses lasts if the operation is left. -/
theorem operand {d : OpData} (hx : Remains root out s x) (hd : s.op? x = some d)
    (hv : v ∈ d.operands) : Lasts root out s v := by
  have hsees := h.sound.visible x d v hx.nested hd hv
  refine ⟨fun o k ho => ⟨hx.nested.definition h.linked h.sound.top hsees ho,
    h.unused x d v o k hx hd hv ho⟩, fun b k p hb hp => ?_⟩
  obtain ⟨a, hax, ⟨b', k', bd, hb', hbd, ha⟩ | ⟨o, k', ho, _⟩⟩ := hsees
  · cases hb.symm.trans hb'
    have hpa : Child s p a := child_iff.2 ⟨b, bd, hp, hbd, ha⟩
    exact h.enclosing_left (hax.head hpa) hx.left
  · cases hb.symm.trans ho

theorem feeds (hv : Lasts root out s v) (hw : Feeds s v w) : Lasts root out s w := by
  obtain ⟨o, k, d, ho, hd, hw⟩ := hw
  exact h.operand (hv.result o k ho) hd hw

/-- What a value that lasts is computed from lasts. -/
theorem chain (hv : Lasts root out s v) (hw : Chain s v w) : Lasts root out s w := by
  induction hw with
  | refl => exact hv
  | tail _ hw ih => exact h.feeds ih hw

theorem operandsOf_lasts {vs : List ValueRef} (hx : Remains root out s x)
    (hvs : s.operandsOf x = .ok vs) : ∀ v ∈ vs, Lasts root out s v := by
  obtain ⟨d, hd, rfl⟩ := operandsOf_ok.1 hvs
  exact fun v hv => h.operand hx hd hv

theorem operand_lasts {i : Nat} (hx : Remains root out s x) (hv : s.operand x i = .ok v) :
    Lasts root out s v := by
  obtain ⟨d, hd, hv⟩ := operand_ok.1 hv
  exact h.operand hx hd (List.mem_of_getElem? hv)

theorem definingOp?_remains (hv : Lasts root out s v) (ho : s.definingOp? v = .ok (some o)) :
    RemainsWhole root out s o := by
  obtain ⟨k, hk⟩ := definingOp?_some ho
  exact h.definition hv hk

/-! ## Entries -/

/-- An operation that is left has its entry. -/
theorem op_left (ho : o ∉ out) : t.op o = s.op o := by
  have hentry := h.erased.op?_left ho
  unfold Store.op? at hentry
  rw [Store.op, Store.op, hentry]

/-- Queries that do not ask where an operation stands find the same. -/
theorem op_bind {k : OpData → Except Fault α} (o : OpRef)
    (hk : ∀ d parent, k { d with parent := parent } = k d) : t.op o >>= k = s.op o >>= k := by
  have hentry := h.erased.op? o
  unfold Store.op? at hentry
  unfold Store.op
  rw [hentry]
  cases s.ops[o.index]? with
  | none => rfl
  | some d =>
    by_cases ho : o ∈ out
    · simp only [Option.map_some, ho, if_true]
      exact hk d none
    · simp only [Option.map_some, ho, if_false]

theorem nameOf (o : OpRef) : t.nameOf o = s.nameOf o := h.op_bind o fun _ _ => rfl

theorem operandsOf (o : OpRef) : t.operandsOf o = s.operandsOf o := h.op_bind o fun _ _ => rfl

theorem operand_eq (o : OpRef) (i : Nat) : t.operand o i = s.operand o i :=
  h.op_bind o fun _ _ => rfl

theorem attr? (o : OpRef) (key : String) : t.attr? o key = s.attr? o key :=
  h.op_bind o fun _ _ => rfl

theorem result (o : OpRef) (i : Nat) : t.result o i = s.result o i := by
  rw [Store.result, Store.result, h.erased.resultsOf]

theorem value (v : ValueRef) : t.value v = s.value v := by
  rw [Store.value, Store.value, h.erased.values]

theorem typeOf (v : ValueRef) : t.typeOf v = s.typeOf v := by
  rw [Store.typeOf, Store.typeOf, h.value]

theorem definingOp? (v : ValueRef) : t.definingOp? v = s.definingOp? v := by
  rw [Store.definingOp?, Store.definingOp?, h.value]

theorem region (r : RegionRef) : t.region r = s.region r := by
  rw [Store.region, Store.region, h.erased.regions]

/-- Blocks are held by what held them. -/
theorem blockOwner? (b : BlockRef) : t.blockOwner? b = s.blockOwner? b := by
  have hentry := h.erased.block? b
  unfold Store.block? at hentry
  unfold Store.blockOwner? Store.block
  rw [hentry]
  cases s.blocks[b.index]? with
  | none => rfl
  | some d =>
    rcases d with ⟨_, _, _, parent⟩
    cases parent with
    | none => rfl
    | some r =>
      show (t.region r >>= _) = s.region r >>= _
      rw [h.region]

theorem depthBound : t.depthBound = s.depthBound := by
  rw [Store.depthBound, Store.depthBound, h.erased.ops_size]

/-- A block out of which nothing was taken has its entry. -/
theorem block_left (hb : ∀ bd, s.block? b = some bd → ∀ y ∈ bd.ops, y ∉ out) :
    t.block b = s.block b := by
  have hentry := h.erased.block? b
  unfold Store.block? at hentry hb
  unfold Store.block
  rw [hentry]
  cases hbd : s.blocks[b.index]? with
  | none => rfl
  | some bd => rw [Option.map_some, List.filter_eq_self.2 fun y hy => by simpa using hb bd hbd y hy]

/-- In operations that are left as a whole there stands what stood there. -/
theorem childOps (ho : RemainsWhole root out s o) : t.childOps o = s.childOps o := by
  unfold Store.childOps
  refine bind_congr_ok (h.op_left ho.remains.left) fun d hd => ?_
  refine bind_congr_ok (mapM_congr_ok fun r _ => h.region r) fun rds hrds => ?_
  refine bind_congr_ok (mapM_congr_ok fun b hb => h.block_left fun bd hbd y hy => ?_) fun _ _ => rfl
  obtain ⟨rd, hrd, hb⟩ := List.mem_flatMap.1 hb
  obtain ⟨r, hr, hrd⟩ := (mem_of_mapM_ok hrds rd).1 hrd
  have hchild : Child s o y := ⟨d, op_ok.1 hd, r, hr, rd, region_ok.1 hrd, b, hb, bd, hbd, hy⟩
  exact ho.whole y (.single hchild)

end Pruned

/-! ## Queries about entries alone -/

theorem isNamed_pruned (o : OpRef) (name : OpName) : isNamed t o name = isNamed s o name := by
  rw [isNamed, isNamed, h.nameOf]

theorem arithKind?_pruned (o : OpRef) : arithKind? t o = arithKind? s o := by
  rw [arithKind?, arithKind?, h.nameOf]

theorem constValue?_pruned (o : OpRef) : constValue? t o = constValue? s o := by
  rw [constValue?, constValue?, h.attr?]

theorem constantOf?_pruned (v : ValueRef) : constantOf? t v = constantOf? s v := by
  simp only [constantOf?, h.definingOp?, arithKind?_pruned h, constValue?_pruned h]

theorem opMap?_pruned (o : OpRef) : opMap? t o = opMap? s o := by
  rw [opMap?, opMap?, h.attr?]

theorem boundMap?_pruned (o : OpRef) (side : BoundSide) :
    boundMap? t o side = boundMap? s o side := by
  rw [boundMap?, boundMap?, h.attr?]

theorem boundOperands_pruned (o : OpRef) (side : BoundSide) :
    boundOperands t o side = boundOperands s o side := by
  simp only [boundOperands, boundCuts, operandSlice, boundMap?_pruned h, h.operandsOf]

theorem conditionSet?_pruned (o : OpRef) : conditionSet? t o = conditionSet? s o := by
  rw [conditionSet?, conditionSet?, h.attr?]

theorem operandsFrom_pruned (o : OpRef) (i : Nat) : operandsFrom t o i = operandsFrom s o i := by
  rw [operandsFrom, operandsFrom, h.operandsOf]

theorem foldsConstant_pruned (o : OpRef) : foldsConstant t o = foldsConstant s o := by
  simp only [foldsConstant, arithKind?_pruned h, h.operandsOf, constantOf?_pruned h]

theorem isIndexArg_pruned (b : BlockRef) (i : Nat) : isIndexArg t b i = isIndexArg s b i := by
  simp only [isIndexArg, h.blockOwner?, isNamed_pruned h]

theorem isLoopArg_pruned (v : ValueRef) : isLoopArg t v = isLoopArg s v := by
  simp only [isLoopArg, h.value, h.blockOwner?, isNamed_pruned h]

theorem appliedMap?_pruned (v : ValueRef) : appliedMap? t v = appliedMap? s v := by
  simp only [appliedMap?, h.definingOp?, isNamed_pruned h, h.operandsOf, opMap?_pruned h]

/-- Casts are stripped along the same definitions. -/
theorem stripFuel_pruned (through : ArithKind → Bool) (n : Nat) : ∀ v,
    stripFuel through t n v = stripFuel through s n v := by
  induction n with
  | zero => exact fun _ => rfl
  | succ n ih =>
    intro v
    simp only [stripFuel, h.definingOp?, arithKind?_pruned h, h.operand_eq, ih]

theorem stripIndexCasts_pruned (v : ValueRef) : stripIndexCasts t v = stripIndexCasts s v := by
  rw [stripIndexCasts, h.depthBound, stripFuel_pruned h, stripIndexCasts]

theorem stripCasts_pruned (v : ValueRef) : stripCasts t v = stripCasts s v := by
  rw [stripCasts, h.depthBound, stripFuel_pruned h, stripCasts]

theorem orderedChoice?_pruned (v : ValueRef) : orderedChoice? t v = orderedChoice? s v := by
  simp only [orderedChoice?, h.definingOp?, isNamed_pruned h, h.operand_eq, comparison,
    cmpPredicate?, h.attr?]

theorem hasNonNegativeLower_pruned (b : BlockRef) (i : Nat) :
    hasNonNegativeLower t b i = hasNonNegativeLower s b i := by
  simp only [hasNonNegativeLower, h.blockOwner?, isNamed_pruned h, boundMap?_pruned h]

/-- Signs are found along the same definitions. -/
theorem isNonNegativeFuel_pruned (n : Nat) : isNonNegativeFuel t n = isNonNegativeFuel s n := by
  induction n with
  | zero => rfl
  | succ n ih =>
    funext v
    simp only [isNonNegativeFuel, constantOf?_pruned h, h.value, hasNonNegativeLower_pruned h,
      arithKind?_pruned h, h.operandsOf, ih]

theorem isNonNegative_pruned (v : ValueRef) : isNonNegative t v = isNonNegative s v := by
  rw [isNonNegative, h.depthBound, isNonNegativeFuel_pruned h, isNonNegative]

theorem shape?_pruned (v : ValueRef) : shape? t v = shape? s v := by
  simp only [shape?, binaryShape?, constantOf?_pruned h, h.definingOp?, arithKind?_pruned h,
    h.operandsOf, isNonNegative_pruned h]

/-! ## Queries about values that last -/

theorem Pruned.homeBlock? (hv : Lasts root out s v) : t.homeBlock? v = s.homeBlock? v := by
  unfold Store.homeBlock?
  refine bind_congr_ok (h.value v) fun e he => ?_
  have horigin : s.originOf v = some e.origin := by rw [originOf, value_ok.1 he, Option.map_some]
  cases hcase : e.origin with
  | argument b k => rfl
  | result o k =>
    rw [hcase] at horigin
    show (t.op o >>= _) = s.op o >>= _
    rw [h.op_left (hv.result o k horigin).left]

theorem homeOwner?_pruned (hv : Lasts root out s v) : homeOwner? t v = homeOwner? s v := by
  simp only [homeOwner?, h.homeBlock? hv, h.blockOwner?]

theorem isTopLevel_pruned (hv : Lasts root out s v) : isTopLevel t v = isTopLevel s v := by
  simp only [isTopLevel, homeOwner?_pruned h hv, isNamed_pruned h]

/-! ### Symbols -/

theorem isScopeSymbolFuel_pruned (n : Nat) : ∀ v, Lasts root out s v →
    isScopeSymbolFuel t n v = isScopeSymbolFuel s n v := by
  induction n with
  | zero => exact fun _ _ => rfl
  | succ n ih =>
    intro v hv
    refine bind_congr_ok (isTopLevel_pruned h hv) fun _ _ => if_congr .rfl rfl ?_
    refine bind_congr_ok (h.definingOp? v) fun o? ho => ?_
    cases o? with
    | none => rfl
    | some o =>
      have hx := (h.definingOp?_remains hv ho).remains
      refine bind_congr_ok (isNamed_pruned h o _) fun _ _ => if_congr .rfl rfl ?_
      refine bind_congr_ok (isNamed_pruned h o _) fun _ _ => if_congr .rfl ?_ rfl
      refine bind_congr_ok (h.operandsOf o) fun vs hvs => allInOrder_congr fun u hu => ?_
      exact ih u (h.operandsOf_lasts hx hvs u hu)

/-- Two tests that agree on operations that are left as a whole give the same symbols. -/
theorem isSymbolWith_pruned {f g : OpRef → Except Fault Bool}
    (hfg : ∀ o, RemainsWhole root out s o → f o = g o) (hv : Lasts root out s v) :
    isSymbolWith f t v = isSymbolWith g s v := by
  refine bind_congr_ok (isTopLevel_pruned h hv) fun _ _ => if_congr .rfl rfl ?_
  refine bind_congr_ok (h.definingOp? v) fun o? ho => ?_
  cases o? with
  | none => rfl
  | some o =>
    refine bind_congr_ok (hfg o (h.definingOp?_remains hv ho)) fun _ _ => if_congr .rfl rfl ?_
    rw [isScopeSymbol, h.depthBound, isScopeSymbolFuel_pruned h _ v hv, isScopeSymbol]

/-- Values that last are symbols of both modules or of neither. -/
theorem isSymbol_pruned (hv : Lasts root out s v) : isSymbol t v = isSymbol s v := by
  refine isSymbolWith_pruned h (fun o _ => ?_) hv
  rw [yieldsSymbol, yieldsSymbol, arithKind?_pruned h]

theorem branchesSatisfy_pruned {f g : OpRef → Except Fault Bool}
    (hfg : ∀ o, RemainsWhole root out s o → f o = g o) (ho : RemainsWhole root out s o) :
    branchesSatisfy f t o = branchesSatisfy g s o := by
  refine bind_congr_ok (h.childOps ho) fun os hos => allInOrder_congr fun c hc => ?_
  have hyield : isYield t c = isYield s c := by rw [isYield, isYield, h.nameOf]
  refine bind_congr_ok hyield fun _ _ => if_congr .rfl rfl ?_
  exact hfg c (ho.within (.single (child_of_childOps hos hc)))

/-- A computation of symbols that is left as a whole is one still: its operands last, and what its
branches hold is left. -/
theorem computesSymbolFuel_pruned (n : Nat) : ∀ o, RemainsWhole root out s o →
    computesSymbolFuel t n o = computesSymbolFuel s n o := by
  induction n with
  | zero => exact fun _ _ => rfl
  | succ n ih =>
    intro o ho
    have hbranches := branchesSatisfy_pruned h ih ho
    have hoperands : ∀ vs, s.operandsOf o = .ok vs →
        allInOrder (isSymbolWith (computesSymbolFuel t n) t) vs =
          allInOrder (isSymbolWith (computesSymbolFuel s n) s) vs := fun vs hvs =>
      allInOrder_congr fun v hv => isSymbolWith_pruned h ih (h.operandsOf_lasts ho.remains hvs v hv)
    have hall := bind_congr_ok (h.operandsOf o) hoperands
    refine bind_congr_ok (arithKind?_pruned h o) fun kind _ => ?_
    rcases kind with _ | kind
    · refine bind_congr_ok (isNamed_pruned h o _) fun _ _ => if_congr .rfl ?_ ?_
      · refine bind_congr_ok (h.operand_eq o 0) fun v hv => ?_
        have hlasts := h.operand_lasts ho.remains hv
        exact bind_congr_ok (isSymbolWith_pruned h ih hlasts) fun _ _ => if_congr .rfl hbranches rfl
      · refine bind_congr_ok (isNamed_pruned h o _) fun _ _ => if_congr .rfl ?_ rfl
        refine bind_congr_ok (h.operandsOf o) fun vs hvs => ?_
        exact bind_congr_ok (hoperands vs hvs) fun _ _ => if_congr .rfl hbranches rfl
    · cases kind <;> first | rfl | exact hall

theorem isRecursiveSymbol_pruned (hv : Lasts root out s v) :
    isRecursiveSymbol t v = isRecursiveSymbol s v := by
  rw [isRecursiveSymbol, h.depthBound]
  exact isSymbolWith_pruned h (computesSymbolFuel_pruned h _) hv

/-! ### Indices -/

theorem computesIndexWith_pruned {index index' : ValueRef → Except Fault Bool}
    (hindex : ∀ v, Lasts root out s v → index v = index' v) (ho : Remains root out s o) :
    computesIndexWith index t o = computesIndexWith index' s o := by
  refine bind_congr_ok (arithKind?_pruned h o) fun kind _ => ?_
  refine bind_congr_ok (h.operandsOf o) fun operands hoperands => ?_
  have hlasts := h.operandsOf_lasts ho hoperands
  rcases kind with _ | kind
  · rfl
  rcases operands with _ | ⟨a, _ | ⟨b, _ | ⟨c, rest⟩⟩⟩
  · cases kind <;> rfl
  · have ha := hindex a (hlasts a (by simp))
    cases kind <;> first | rfl | exact ha
  · have ha := hlasts a (by simp)
    have hb := hlasts b (by simp)
    cases kind <;> first
      | rfl
      | simp only [hindex a ha, hindex b hb, isRecursiveSymbol_pruned h ha,
          isRecursiveSymbol_pruned h hb, constantOf?_pruned h]
  · cases kind <;> rfl

theorem isIndexFuel_pruned (n : Nat) : ∀ v, Lasts root out s v →
    isIndexFuel t n v = isIndexFuel s n v := by
  induction n with
  | zero => exact fun _ _ => rfl
  | succ n ih =>
    intro v hv
    refine bind_congr_ok (isRecursiveSymbol_pruned h hv) fun _ _ => if_congr .rfl rfl ?_
    refine bind_congr_ok (h.value v) fun e he => ?_
    have horigin : s.originOf v = some e.origin := by rw [originOf, value_ok.1 he, Option.map_some]
    cases hcase : e.origin with
    | argument b k => exact isIndexArg_pruned h b k
    | result o k =>
      rw [hcase] at horigin
      exact computesIndexWith_pruned h ih (hv.result o k horigin)

/-- Values that last are indices of both modules or of neither. -/
theorem isIndex_pruned (hv : Lasts root out s v) : isIndex t v = isIndex s v := by
  rw [isIndex, h.depthBound, isIndexFuel_pruned h _ v hv, isIndex]

theorem isFoldable_pruned (hv : Lasts root out s v) (isDim : Bool) :
    isFoldable t v isDim = isFoldable s v isDim := by
  simp only [isFoldable, h.definingOp?, isNamed_pruned h, isSymbol_pruned h hv, isIndex_pruned h hv,
    isLoopArg_pruned h, stripIndexCasts_pruned h, foldsConstant_pruned h]

theorem inlineShape?_pruned (hv : Lasts root out s v) (decast : ValueRef) :
    inlineShape? t v decast = inlineShape? s v decast := by
  simp only [inlineShape?, isSymbol_pruned h hv, shape?_pruned h, h.definingOp?,
    foldsConstant_pruned h]

/-! ### Bindings -/

omit h in
theorem rebindList_congr
    {rebind rebind' : Nat → Positions → ValueRef → Except Fault (Affine.Expr × Positions)}
    {vs : List ValueRef} (hrebind : ∀ i p, ∀ v ∈ vs, rebind i p v = rebind' i p v) :
    ∀ i p, rebindList rebind i p vs = rebindList rebind' i p vs := by
  induction vs with
  | nil => exact fun _ _ => rfl
  | cons v vs ih =>
    intro i p
    refine bind_congr_ok (hrebind i p v List.mem_cons_self) fun q _ => ?_
    exact congrArg (· >>= _) (ih (fun i p w hw => hrebind i p w (List.mem_cons_of_mem v hw)) _ _)

theorem rebindOnce_pruned {b : Binding} (hb : ∀ v ∈ b.operands, Lasts root out s v) :
    rebindOnce t b = rebindOnce s b := by
  have hsymbol : ∀ used p v, rebindSymbol t used p v = rebindSymbol s used p v := fun used p v => by
    simp only [rebindSymbol, constantOf?_pruned h]
  refine bind_congr_ok (rebindList_congr (fun j p v _ => hsymbol _ p v) _ _) fun q _ => ?_
  refine congrArg (· >>= _) (rebindList_congr (fun j p v hv => ?_) _ _)
  simp only [rebindDim, constantOf?_pruned h, isSymbol_pruned h (hb v (List.mem_of_mem_take hv))]

/-- A binding of values that last has one canonical form. -/
theorem canonicalize_pruned {b : Binding} (hb : ∀ v ∈ b.operands, Lasts root out s v) :
    canonicalize t b = canonicalize s b := by
  have hfuel : ∀ n (b : Binding), (∀ v ∈ b.operands, Lasts root out s v) →
      rebindFuel t n b = rebindFuel s n b := by
    intro n
    induction n with
    | zero => exact fun _ _ => rfl
    | succ n ih =>
      intro b hb
      refine bind_congr_ok (rebindOnce_pruned h hb) fun next hnext => if_congr .rfl rfl ?_
      exact ih next fun v hv => hb v (rebindOnce_operands hnext v hv)
  exact hfuel _ b hb

theorem canonicalizeSet_pruned {b : SetBinding} (hb : ∀ v ∈ b.operands, Lasts root out s v) :
    canonicalizeSet t b = canonicalizeSet s b := by
  rw [canonicalizeSet, canonicalize_pruned h hb, canonicalizeSet]

/-! ### Minima, maxima and conditions -/

omit h in
/-- The sides of a choice are operands of the selection. -/
theorem orderedChoice?_feeds {choice : OrderedChoice}
    (hchoice : orderedChoice? s v = .ok (some choice)) :
    Feeds s v choice.lhs ∧ Feeds s v choice.rhs := by
  obtain ⟨select, k, d, _, _, _, _, _, hv, hd, _, _, hl, hr, _⟩ := orderedChoice?_some hchoice
  exact ⟨⟨select, k, d, hv, hd, List.mem_of_getElem? hl⟩,
    ⟨select, k, d, hv, hd, List.mem_of_getElem? hr⟩⟩

theorem flattenFuel_pruned (n : Nat) : ∀ v, Lasts root out s v →
    flattenFuel t n v = flattenFuel s n v := by
  induction n with
  | zero => exact fun _ _ => rfl
  | succ n ih =>
    intro v hv
    refine bind_congr_ok (isIndex_pruned h hv) fun _ _ => if_congr .rfl rfl ?_
    refine bind_congr_ok (orderedChoice?_pruned h v) fun choice hchoice => ?_
    cases choice with
    | none => rfl
    | some choice =>
      obtain ⟨hl, hr⟩ := orderedChoice?_feeds hchoice
      refine bind_congr_ok (ih _ (h.feeds hv hl)) fun left _ => ?_
      cases left with
      | none => rfl
      | some left => exact congrArg (· >>= _) (ih _ (h.feeds hv hr))

theorem flatten?_pruned (hv : Lasts root out s v) : flatten? t v = flatten? s v := by
  rw [flatten?, h.depthBound, flattenFuel_pruned h _ v hv, flatten?]

theorem expandChoice?_pruned (hv : Lasts root out s v) : expandChoice? t v = expandChoice? s v := by
  refine bind_congr_ok (orderedChoice?_pruned h v) fun choice hchoice => ?_
  cases choice with
  | none => rfl
  | some choice =>
    obtain ⟨hl, hr⟩ := orderedChoice?_feeds hchoice
    refine bind_congr_ok (flatten?_pruned h (h.feeds hv hl)) fun left _ => ?_
    cases left with
    | none => rfl
    | some left => exact congrArg (· >>= _) (flatten?_pruned h (h.feeds hv hr))

theorem guardComparison_pruned (g : Guard) {cmp : OpRef} (hcmp : Remains root out s cmp) :
    guardComparison t g cmp = guardComparison s g cmp := by
  refine bind_congr_ok (h.operand_eq cmp 0) fun a ha => ?_
  refine bind_congr_ok (flatten?_pruned h (h.operand_lasts hcmp ha)) fun lhs _ => ?_
  refine bind_congr_ok (h.operand_eq cmp 1) fun b hb => ?_
  refine bind_congr_ok (flatten?_pruned h (h.operand_lasts hcmp hb)) fun rhs _ => ?_
  have hsigns : isNonNegative t = isNonNegative s := funext (isNonNegative_pruned h)
  simp only [cmpPredicate?, h.attr?, hsigns]

theorem guardLevel_pruned (level : List ValueRef) : ∀ g next,
    (∀ v ∈ level, Lasts root out s v) → guardLevel t g next level = guardLevel s g next level := by
  induction level with
  | nil => exact fun _ _ _ => rfl
  | cons v level ih =>
    intro g next hlevel
    obtain ⟨hv, hrest⟩ := List.forall_mem_cons.1 hlevel
    refine bind_congr_ok (h.definingOp? v) fun o? ho => ?_
    cases o? with
    | none => rfl
    | some o =>
      have hx := (h.definingOp?_remains hv ho).remains
      refine bind_congr_ok (arithKind?_pruned h o) fun kind _ => ?_
      rcases kind with _ | kind
      · rfl
      · cases kind with
        | cmp =>
          refine bind_congr_ok (guardComparison_pruned h g hx) fun added _ => ?_
          obtain ⟨added, g'⟩ := added
          cases added with
          | false => rfl
          | true => exact ih g' next hrest
        | and => exact bind_congr_ok (h.operandsOf o) fun vs _ => ih g _ hrest
        | _ => rfl

theorem guardLevels_pruned (n : Nat) : ∀ g level, (∀ v ∈ level, Lasts root out s v) →
    guardLevels t n g level = guardLevels s n g level := by
  induction n with
  | zero =>
    intro g level _
    cases level <;> rfl
  | succ n ih =>
    intro g level hlevel
    cases level with
    | nil => rfl
    | cons v level =>
      refine bind_congr_ok (guardLevel_pruned h (v :: level) g [] hlevel) fun found hfound => ?_
      rcases found with _ | ⟨g', next⟩
      · rfl
      · -- the next level holds operands of conjunctions of this one
        refine ih g' next fun w hw => ?_
        obtain ⟨u, hu, hchain⟩ := ((guardLevel_chain _ hfound).2 w hw).resolve_left List.not_mem_nil
        exact h.chain (hlevel u hu) hchain

/-- A condition that lasts is lowered alike. -/
theorem lowerCondition?_pruned (hv : Lasts root out s v) :
    lowerCondition? t v = lowerCondition? s v := by
  rw [lowerCondition?, h.depthBound, lowerCondition?]
  exact guardLevels_pruned h _ _ _ fun w hw => List.mem_singleton.1 hw ▸ hv

/-! ## Queries about what is nested where -/

/-- What is nested in operations that are left as a whole has the effects that it had. -/
theorem isReadOnly_pruned (ho : RemainsWhole root out s o) : isReadOnly t o = isReadOnly s o := by
  have hwithin : ∀ n o, RemainsWhole root out s o →
      effectsWithin t (· != .write) n o = effectsWithin s (· != .write) n o := by
    intro n
    induction n with
    | zero => exact fun _ _ => rfl
    | succ n ih =>
      intro o ho
      have heffect : effectOf t o = effectOf s o := by rw [effectOf, effectOf, h.nameOf]
      refine bind_congr_ok heffect fun _ _ => if_congr .rfl ?_ rfl
      refine bind_congr_ok (h.childOps ho) fun os hos => allInOrder_congr fun c hc => ih c ?_
      exact ho.within (.single (child_of_childOps hos hc))
  rw [isReadOnly, h.depthBound, isReadOnly]
  exact hwithin _ o ho

omit h in
theorem child_of_enclosingOp? (hl : Linked s) (hp : s.enclosingOp? x = .ok (some p)) :
    Child s p x := by
  have hstep : StepsOut s x p := hp
  rwa [stepsOut_eq hl] at hstep

theorem enclosingOp?_pruned (hx : x ∉ out) : t.enclosingOp? x = s.enclosingOp? x := by
  simp only [Store.enclosingOp?, h.op_left hx, h.blockOwner?]

/-- Climbing from an operation that is left, one meets operations that are left. -/
theorem enclosingOp?_left (hx : x ∉ out) (hp : s.enclosingOp? x = .ok (some p)) : p ∉ out :=
  h.enclosing_left (.single (child_of_enclosingOp? h.linked hp)) hx

theorem isWithin_pruned (hx : x ∉ out) : t.isWithin o x = s.isWithin o x := by
  have hfuel : ∀ n x, x ∉ out → t.isWithinFuel o n x = s.isWithinFuel o n x := by
    intro n
    induction n with
    | zero => exact fun _ _ => rfl
    | succ n ih =>
      intro x hx
      refine if_congr .rfl rfl (bind_congr_ok (enclosingOp?_pruned h hx) fun p? hp => ?_)
      cases p? with
      | none => rfl
      | some p => exact ih p (enclosingOp?_left h hx hp)
  rw [Store.isWithin, h.depthBound, hfuel _ x hx, Store.isWithin]

theorem isInLoop_pruned (hx : x ∉ out) : isInLoop t x = isInLoop s x := by
  have hfuel : ∀ n x, x ∉ out → isInLoopFuel t n x = isInLoopFuel s n x := by
    intro n
    induction n with
    | zero => exact fun _ _ => rfl
    | succ n ih =>
      intro x hx
      refine bind_congr_ok (enclosingOp?_pruned h hx) fun p? hp => ?_
      cases p? with
      | none => rfl
      | some p =>
        refine bind_congr_ok (h.nameOf p) fun _ _ => if_congr .rfl rfl ?_
        exact ih p (enclosingOp?_left h hx hp)
  rw [isInLoop, h.depthBound, hfuel _ x hx, isInLoop]

/-- What holds the block of a value that lasts is left. -/
theorem homeOwner?_left (hv : Lasts root out s v) (hp : homeOwner? s v = .ok (some p)) :
    p ∉ out := by
  simp only [homeOwner?, except_bind_ok] at hp
  obtain ⟨b?, hb, hp⟩ := hp
  cases b? with
  | none => cases hp
  | some b =>
    -- an argument lasts with the operation around its block, a result with its own operation
    have hvalue : ∃ e, s.value? v = some e := by
      simp only [Store.homeBlock?, except_bind_ok, value_ok] at hb
      obtain ⟨e, he, _⟩ := hb
      exact ⟨e, he⟩
    obtain ⟨e, he⟩ := hvalue
    obtain ⟨b?, hb', hlives⟩ := homeBlock?_ok h.linked he
    cases hb.symm.trans hb'
    have hlives := (hlives b).1 rfl
    obtain ⟨_, bd, hbd⟩ := hlives.home h.linked
    obtain ⟨p?, hp?, hholds⟩ := blockOwner?_ok h.linked hbd
    have hholds : Holds s p b := (hholds p).1 (Except.ok.inj (hp?.symm.trans hp))
    rcases hlives with ⟨k, hk⟩ | ⟨o, k, d, hk, hd, hparent⟩
    · exact hv.argument b k p hk hholds
    · obtain ⟨bd', hbd', ho⟩ := h.linked.mem_of_parent hd hparent
      have hchild : Child s p o := (child_iff_holds h.linked hbd' ho).2 hholds
      exact h.enclosing_left (.single hchild) (hv.result o k hk).left

theorem isDefinedInside_pruned (hv : Lasts root out s v) :
    isDefinedInside t v o = isDefinedInside s v o := by
  refine bind_congr_ok (homeOwner?_pruned h hv) fun p? hp => ?_
  cases p? with
  | none => rfl
  | some p => exact isWithin_pruned h (homeOwner?_left h hv hp)

theorem addFree_pruned {vs : List ValueRef} : ∀ free, (∀ v ∈ vs, Lasts root out s v) →
    addFree t o free vs = addFree s o free vs := by
  induction vs with
  | nil => exact fun _ _ => rfl
  | cons v vs ih =>
    intro free hvs
    obtain ⟨hv, hvs⟩ := List.forall_mem_cons.1 hvs
    exact bind_congr_ok (isDefinedInside_pruned h hv) fun _ _ =>
      if_congr .rfl (ih (free ++ [v]) hvs) (ih free hvs)

/-- A walk through an operation that is left as a whole meets what it met. -/
theorem opsUnder_pruned (ho : RemainsWhole root out s o) : opsUnder t o = opsUnder s o := by
  have hlist : ∀ {walk walk' : OpRef → Except Fault Trace} {os : List OpRef},
      (∀ x ∈ os, walk x = walk' x) → walkListWith walk os = walkListWith walk' os := by
    intro walk walk' os
    induction os with
    | nil => exact fun _ => rfl
    | cons x os ih =>
      intro hos
      obtain ⟨hx, hos⟩ := List.forall_mem_cons.1 hos
      exact bind_congr_ok hx fun _ _ => if_congr .rfl rfl (congrArg (· >>= _) (ih hos))
  have hwithin : ∀ n o, RemainsWhole root out s o →
      walkWithin t (fun _ => .descend) n o = walkWithin s (fun _ => .descend) n o := by
    intro n
    induction n with
    | zero => exact fun _ _ => rfl
    | succ n ih =>
      intro o ho
      refine bind_congr_ok (h.op_left ho.remains.left) fun _ _ => ?_
      refine bind_congr_ok (h.childOps ho) fun os hos => congrArg (· >>= _) (hlist fun c hc => ?_)
      exact ih c (ho.within (.single (child_of_childOps hos hc)))
  rw [opsUnder, walk, h.depthBound, hwithin _ o ho, opsUnder, walk]

omit h in
theorem within_of_opsUnder (hl : Linked s) (hac : Acyclic s) {os : List OpRef}
    (hos : opsUnder s o = .ok os) (hx : x ∈ os) : Within s o x := by
  simp only [opsUnder, except_bind_ok] at hos
  obtain ⟨trace, htrace, hos⟩ := hos
  cases hos
  have hd : ∃ d, s.op? o = some d := by
    simp only [walk, walkWithin, Store.depthBound, except_bind_ok, op_ok] at htrace
    obtain ⟨d, hd, _⟩ := htrace
    exact ⟨d, hd⟩
  obtain ⟨d, hd⟩ := hd
  obtain ⟨seen, hseen, hiff⟩ := walk_ok hl hac hd
  cases hseen.symm.trans htrace
  exact (hiff x).1 hx

/-- What an operation that is left as a whole takes from outside is the same. -/
theorem freeOperands_pruned (ho : RemainsWhole root out s o) :
    freeOperands t o = freeOperands s o := by
  refine bind_congr_ok (opsUnder_pruned h ho) fun users husers => ?_
  refine bind_congr_ok (mapM_congr_ok fun x _ => h.operandsOf x) fun operands hoperands => ?_
  refine addFree_pruned h [] fun v hv => ?_
  obtain ⟨vs, hvs, hv⟩ := List.mem_flatten.1 hv
  obtain ⟨x, hx, hvs⟩ := (mem_of_mapM_ok hoperands vs).1 hvs
  have hw := within_of_opsUnder h.linked h.sound.acyclic husers hx
  exact h.operandsOf_lasts (ho.within hw).remains hvs v hv

theorem staysPut_pruned (hv : Lasts root out s v) (forIndex : Bool) :
    staysPut t forIndex v = staysPut s forIndex v := by
  simp only [staysPut, isSymbol_pruned h hv, isLoopArg_pruned h]

/-! ## Casts -/

/-- An operation that is left sees what it saw of what lasts. -/
theorem sees_pruned (hv : Lasts root out s v) (hx : x ∉ out) : Sees t v x ↔ Sees s v x := by
  have hthinned := Transform.thinned_of_erased h.erased
  constructor
  · rintro ⟨a, hax, hoffered⟩
    refine ⟨a, h.erased.within_of_within hax, ?_⟩
    have hblock : ∀ {b bd}, t.block? b = some bd →
        ∃ bd', s.block? b = some bd' ∧ bd.ops.Sublist bd'.ops := by
      intro b bd hbd
      rw [h.erased.block?] at hbd
      obtain ⟨bd', hbd', rfl⟩ := Option.map_eq_some_iff.1 hbd
      exact ⟨bd', hbd', List.filter_sublist⟩
    rcases hoffered with ⟨b, k, bd, hk, hbd, ha⟩ | ⟨o, k, hk, b, bd, hbd, hpair⟩
    · obtain ⟨bd', hbd', hsub⟩ := hblock hbd
      exact .inl ⟨b, k, bd', (hthinned.originOf v).symm.trans hk, hbd', hsub.subset ha⟩
    · obtain ⟨bd', hbd', hsub⟩ := hblock hbd
      exact .inr ⟨o, k, (hthinned.originOf v).symm.trans hk, b, bd', hbd', hpair.trans hsub⟩
  · exact fun hsees => hthinned.sees hsees (fun y hy => h.enclosing_left hy hx)
      fun o k ho => (hv.result o k ho).left

/-- The results of what is left last. -/
theorem Pruned.result_lasts (hx : Remains root out s x) (hv : v ∈ s.resultsOf x) :
    Lasts root out s v := by
  obtain ⟨k, hk⟩ := originOf_of_mem_results h.linked hv
  refine ⟨fun o k' ho => ?_, fun b k' p hb => ?_⟩
  · cases hk.symm.trans ho
    exact hx
  · cases hk.symm.trans hb

omit h in
theorem mem_resultsOf_of_result {i : Nat} (hv : s.result o i = .ok v) : v ∈ s.resultsOf o := by
  unfold Store.result at hv
  cases hi : (s.resultsOf o)[i]? with
  | none =>
    rw [hi] at hv
    cases hv
  | some u =>
    rw [hi] at hv
    cases hv
    exact List.mem_of_getElem? hi

/-- What lasts is visible where it was. -/
theorem valueDominates_pruned {e : ValueData} (hv : Lasts root out s v) (he : s.value? v = some e)
    (hx : Remains root out s x) : valueDominates t v x = valueDominates s v x := by
  have hl' : Linked t := h.erased.linked h.linked
  have hac' : Acyclic t := h.sound.acyclic.mono fun _ _ hc => (h.erased.child_iff.1 hc).1
  -- both stores have the entries, so neither query faults
  obtain ⟨b, hb⟩ := hx.nested.attached h.linked
  obtain ⟨d, hd, _⟩ := opParent_eq_some.1 hb
  have hd' := (h.erased.op?_left hx.left).trans hd
  have he' := (h.erased.value? v).trans he
  obtain ⟨w, hw, hiff⟩ := valueDominates_ok h.linked h.sound.acyclic hd he
  obtain ⟨w', hw', hiff'⟩ := valueDominates_ok hl' hac' hd' he'
  have hsame : w' = w := by rw [Bool.eq_iff_iff, hiff, hiff', sees_pruned h hv hx.left]
  rw [hw, hw', hsame]

/-- A use by what is left is as good a cast as it was. -/
theorem usableCast?_pruned {u : Use} (hx : Remains root out s x)
    (hu : Remains root out s u.user) : usableCast? t x u = usableCast? s x u := by
  refine bind_congr_ok (isNamed_pruned h u.user _) fun _ _ => if_congr .rfl ?_ rfl
  refine bind_congr_ok (h.result u.user 0) fun r hr => ?_
  have hmem : r ∈ s.resultsOf u.user := mem_resultsOf_of_result hr
  obtain ⟨e, he⟩ := value?_of_mem_resultsOf h.linked hmem
  have hlasts := h.result_lasts hu hmem
  simp only [h.typeOf, h.op_left hu.left, isSymbol_pruned h hlasts,
    valueDominates_pruned h hlasts he hx]

/-- A use by what went was no cast that could have been used. -/
theorem usableCast?_taken {u : Use} {c : Option ValueRef} (hu : u.user ∈ out)
    (hc : usableCast? s x u = .ok c) : c = none := by
  cases c with
  | none => rfl
  | some c =>
    obtain ⟨hnamed, hr, _, _, hsymbol, _⟩ := usableCast?_some.1 hc
    obtain ⟨d, hd, hname⟩ := isNamed_ok.1 hnamed
    have hmem : c ∈ d.results := by
      rw [← resultsOf_eq hd]
      exact mem_resultsOf_of_result hr
    exact absurd hsymbol (h.casts u.user d c hu hd (beq_iff_eq.1 hname) hmem)

/-- The first cast that can be used is the same, if the search comes to an end. -/
theorem firstUsableCast?_pruned (hx : Remains root out s x) {c : Option ValueRef} {us : List Use}
    (hus : ∀ u ∈ us, Nested s root u.user) (hc : firstUsableCast? s x us = .ok c) :
    firstUsableCast? t x (us.filter (·.user ∉ out)) = .ok c := by
  induction us with
  | nil => exact hc
  | cons u us ih =>
    obtain ⟨hu, hus⟩ := List.forall_mem_cons.1 hus
    simp only [firstUsableCast?, except_bind_ok] at hc
    obtain ⟨found, hfound, hc⟩ := hc
    -- a use that is filtered out was passed over in the first store
    by_cases hout : u.user ∈ out
    · cases usableCast?_taken h hout hfound
      rw [List.filter_cons_of_neg (by simpa using hout)]
      exact ih hus hc
    · rw [List.filter_cons_of_pos (by simpa using hout)]
      simp only [firstUsableCast?, except_bind_ok, usableCast?_pruned h hx ⟨hu, hout⟩]
      refine ⟨found, hfound, ?_⟩
      cases found with
      | none => exact ih hus hc
      | some c => exact hc

/-- The cast that is found lasts. -/
theorem firstUsableCast?_lasts {c : ValueRef}
    (hc : firstUsableCast? s x (s.usesOf v) = .ok (some c)) : Lasts root out s c := by
  obtain ⟨u, hu, husable⟩ := firstUsableCast?_some hc
  obtain ⟨_, hr, _⟩ := usableCast?_some.1 husable
  have hout : u.user ∉ out := fun hout => by cases usableCast?_taken h hout husable
  obtain ⟨_, _, _, hnested⟩ := h.sound.user_nested hu
  exact h.result_lasts ⟨hnested, hout⟩ (mem_resultsOf_of_result hr)

end Pruned

end AffineRaising.Raise
