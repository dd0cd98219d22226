/-
# AffineRaising.Proofs.Analysis.Moved — analyses cannot tell padded stores apart.

Navigation, the parts of operations, effects, walks and dominance find in a padded store what they
find in the store itself, with references moved.  A function that recurses with a bound finds it
under any larger bound.

The lemmas follow the functions one by one, in the order of the modules that define them, and each
is put together from those of the functions it calls.  Positions in a block and numbers of operands
are numbers, and so are the same on both sides (`Same`); operations, blocks and values that are
found are moved.
-/
import AffineRaising.Analysis.Dominance
import AffineRaising.Analysis.Walk
import AffineRaising.Ops.Effect
import AffineRaising.Proofs.Store.Moved

namespace AffineRaising.IR

open Store

variable {α β : Type} {σ : Padding} {s t : Store}

/-! ## Navigation -/

namespace Padded

variable (h : Padded σ s t)

include h

theorem operandsOf (o : OpRef) :
    Moved (List.map σ.value) (s.operandsOf o) (t.operandsOf (σ.op o)) :=
  h.op_bind fun _ _ hlike => .pure hlike.operands.symm

theorem nameOf (o : OpRef) : Same (s.nameOf o) (t.nameOf (σ.op o)) :=
  h.op_bind fun _ _ hlike => .pure hlike.name.symm

theorem attr? (o : OpRef) (key : String) : Same (s.attr? o key) (t.attr? (σ.op o) key) :=
  h.op_bind fun _ _ hlike => .pure (by rw [hlike.attrs])

theorem typeOf (v : ValueRef) : Same (s.typeOf v) (t.typeOf (σ.value v)) :=
  .bind (h.value v) fun _ => .pure rfl

theorem definingOp? (v : ValueRef) :
    Moved (Option.map σ.op) (s.definingOp? v) (t.definingOp? (σ.value v)) :=
  .bind (h.value v) fun d => .pure (Padding.origin_op? d.origin).symm

theorem result (o : OpRef) (i : Nat) : Moved σ.value (s.result o i) (t.result (σ.op o) i) := by
  unfold Store.result
  rw [h.resultsOf, List.getElem?_map]
  cases (s.resultsOf o)[i]? with
  | none => exact .throw
  | some v => exact .pure rfl

/-- The operation that holds a block is found by two links. -/
theorem blockOwner? (b : BlockRef) :
    Moved (Option.map σ.op) (s.blockOwner? b) (t.blockOwner? (σ.block b)) := by
  refine .bind (h.block b) fun d => ?_
  rw [Padding.blockData]
  cases d.parent with
  | none => exact .pure rfl
  | some r => exact .bind (h.region r) fun _ => .pure rfl

theorem enclosingOp? (o : OpRef) :
    Moved (Option.map σ.op) (s.enclosingOp? o) (t.enclosingOp? (σ.op o)) := by
  refine h.op_bind fun d e hlike => ?_
  rw [hlike.parent]
  cases d.parent with
  | none => exact .pure rfl
  | some b => exact h.blockOwner? b

/-- A value lives in the moved block. -/
theorem homeBlock? (v : ValueRef) :
    Moved (Option.map σ.block) (s.homeBlock? v) (t.homeBlock? (σ.value v)) := by
  refine .bind (h.value v) fun d => ?_
  rw [Padding.valueData]
  cases d.origin with
  | result o i => exact h.op_bind fun _ _ hlike => .pure hlike.parent.symm
  | argument b i => exact .pure rfl

theorem isWithinFuel (ancestor : OpRef) (n : Nat) : ∀ (m : Nat), n ≤ m → ∀ o : OpRef,
    Same (s.isWithinFuel ancestor n o) (t.isWithinFuel (σ.op ancestor) m (σ.op o)) := by
  induction n with
  | zero => exact fun _ _ _ => .throw
  | succ n ih =>
    intro m hm o
    obtain ⟨m, rfl⟩ : ∃ k, m = k + 1 := ⟨m - 1, by omega⟩
    refine .ite (by simp) (.pure rfl) (.bind (h.enclosingOp? o) fun parent => ?_)
    cases parent with
    | none => exact .pure rfl
    | some p => exact ih m (by omega) p

/-- Nesting is the same, since the climb leads along moved links. -/
theorem isWithin (ancestor o : OpRef) :
    Same (s.isWithin ancestor o) (t.isWithin (σ.op ancestor) (σ.op o)) :=
  h.isWithinFuel ancestor _ _ h.depthBound_le o

/-- An operation stands at the same number of its block. -/
theorem position? (o : OpRef) : Same (s.position? o) (t.position? (σ.op o)) := by
  refine h.op_bind fun d e hlike => ?_
  rw [hlike.parent]
  cases d.parent with
  | none => exact .pure rfl
  | some b =>
    exact .bind (h.block b) fun bd => .pure (idxOf?_map Padding.op_injective bd.ops o).symm

theorem next? (o : OpRef) : Moved (Option.map σ.op) (s.next? o) (t.next? (σ.op o)) := by
  refine h.op_bind fun d e hlike => ?_
  rw [hlike.parent]
  cases d.parent with
  | none => exact .pure rfl
  | some b =>
    refine .bind (h.block b) fun bd => ?_
    have hplace : (σ.blockData bd).ops.idxOf? (σ.op o) = bd.ops.idxOf? o :=
      idxOf?_map Padding.op_injective bd.ops o
    simp only [hplace]
    cases bd.ops.idxOf? o with
    | none => exact .pure rfl
    | some i => exact .pure (by simp [Padding.blockData])

/-- The operations in the regions of an operation are listed in the same order. -/
theorem childOps (o : OpRef) :
    Moved (List.map σ.op) (s.childOps o) (t.childOps (σ.op o)) := by
  refine h.op_bind fun d e hlike => ?_
  rw [hlike.regions]
  refine .bind (.mapM h.region) fun rs => ?_
  have hblocks : (rs.map σ.regionData).flatMap (·.blocks) =
      (rs.flatMap (·.blocks)).map σ.block := by
    simp [List.flatMap_map, List.map_flatMap, Padding.regionData]
  rw [hblocks]
  refine .bind (.mapM h.block) fun bs => .pure ?_
  simp [List.flatMap_map, List.map_flatMap, Padding.blockData]

end Padded

end AffineRaising.IR

namespace AffineRaising.Ops

open AffineRaising.IR

variable {σ : Padding} {s t : Store} (h : Padded σ s t)

include h

/-! ## Parts of operations -/

theorem arithKind?_moved (o : OpRef) : Same (arithKind? s o) (arithKind? t (σ.op o)) :=
  .bind (h.nameOf o) fun _ => .pure rfl

theorem constValue?_moved (o : OpRef) : Same (constValue? s o) (constValue? t (σ.op o)) :=
  .bind (h.attr? o _) fun _ => .pure rfl

/-- The constant that a value is, if it is one, is the same. -/
theorem constantOf?_moved (v : ValueRef) : Same (constantOf? s v) (constantOf? t (σ.value v)) := by
  refine .bind (h.definingOp? v) fun o => ?_
  cases o with
  | none => exact .pure rfl
  | some o =>
    refine .bind (arithKind?_moved h o) fun kind => ?_
    rcases kind with _ | kind
    · exact .pure rfl
    · cases kind <;> first | exact constValue?_moved h o | exact .pure rfl

theorem cmpPredicate?_moved (o : OpRef) : Same (cmpPredicate? s o) (cmpPredicate? t (σ.op o)) :=
  .bind (h.attr? o _) fun _ => .pure rfl

theorem comparison_moved (o : OpRef) :
    Moved (fun c => ⟨σ.value c.lhs, σ.value c.rhs⟩) (comparison s o) (comparison t (σ.op o)) :=
  .bind (h.operand o 0) fun _ => .bind (h.operand o 1) fun _ => .pure rfl

theorem opMap?_moved (o : OpRef) : Same (opMap? s o) (opMap? t (σ.op o)) :=
  .bind (h.attr? o _) fun _ => .pure rfl

theorem conditionSet?_moved (o : OpRef) : Same (conditionSet? s o) (conditionSet? t (σ.op o)) :=
  .bind (h.attr? o _) fun _ => .pure rfl

theorem boundMap?_moved (o : OpRef) (side : BoundSide) :
    Same (boundMap? s o side) (boundMap? t (σ.op o) side) :=
  .bind (h.attr? o _) fun _ => .pure rfl

theorem operandsFrom_moved (o : OpRef) (start : Nat) :
    Moved (List.map σ.value) (operandsFrom s o start) (operandsFrom t (σ.op o) start) := by
  refine .bind (h.operandsOf o) fun operands => ?_
  exact .ite (by simp) (.pure (List.map_drop ..)) .throw

theorem operandSlice_moved (o : OpRef) (start stop : Nat) :
    Moved (List.map σ.value) (operandSlice s o start stop)
      (operandSlice t (σ.op o) start stop) := by
  refine .bind (h.operandsOf o) fun operands => ?_
  exact .ite (by simp) (.pure (by simp [List.map_take, List.map_drop])) .throw

/-- The operands of a loop are cut at the same positions. -/
theorem boundCuts_moved (o : OpRef) : Same (boundCuts s o) (boundCuts t (σ.op o)) := by
  refine .bind (boundMap?_moved h o .lower) fun lower => ?_
  refine .bind (boundMap?_moved h o .upper) fun upper => ?_
  cases lower <;> cases upper <;> exact .pure rfl

/-- The operands of a bound are the moved ones. -/
theorem boundOperands_moved (o : OpRef) (side : BoundSide) :
    Moved (List.map σ.value) (boundOperands s o side) (boundOperands t (σ.op o) side) := by
  refine .bind (boundCuts_moved h o) fun cuts => ?_
  cases side with
  | lower => exact operandSlice_moved h o _ _
  | upper => exact operandSlice_moved h o _ _

/-! ## Effects -/

omit h in
/-- Two tests that agree on members agree on lists. -/
theorem allInOrder_moved {α β : Type} {f : α → β} {test : α → Except Fault Bool}
    {test' : β → Except Fault Bool} (htest : ∀ a, Same (test a) (test' (f a))) (l : List α) :
    Same (allInOrder test l) (allInOrder test' (l.map f)) := by
  induction l with
  | nil => exact .pure rfl
  | cons a l ih => exact .bind (htest a) fun _ => .ite .rfl ih (.pure rfl)

/-- Effects are looked up level by level, in the padded store with as many levels or more. -/
theorem effectsWithin_moved (accepts : Effect → Bool) (n : Nat) : ∀ (m : Nat), n ≤ m →
    ∀ o : OpRef, Same (effectsWithin s accepts n o) (effectsWithin t accepts m (σ.op o)) := by
  induction n with
  | zero => exact fun _ _ _ => .throw
  | succ n ih =>
    intro m hm o
    obtain ⟨m, rfl⟩ : ∃ k, m = k + 1 := ⟨m - 1, by omega⟩
    have heffect : Same (effectOf s o) (effectOf t (σ.op o)) :=
      .bind (h.nameOf o) fun _ => .pure rfl
    refine .bind heffect fun effect => .ite .rfl
      (.bind (h.childOps o) fun children => ?_) (.pure rfl)
    exact allInOrder_moved (ih m (by omega)) children

theorem isReadOnly_moved (o : OpRef) : Same (isReadOnly s o) (isReadOnly t (σ.op o)) :=
  effectsWithin_moved h _ _ _ h.depthBound_le o

/-- An operation can be removed in both stores or in none. -/
theorem isRemovable_moved (o : OpRef) : Same (isRemovable s o) (isRemovable t (σ.op o)) := by
  unfold isRemovable
  rw [h.resultsOf]
  exact .ite (by simp) (.pure rfl) (effectsWithin_moved h _ _ _ h.depthBound_le o)

end AffineRaising.Ops

namespace AffineRaising.Analysis

open AffineRaising.IR

variable {σ : Padding} {s t : Store} (h : Padded σ s t)

include h

/-! ## Walks -/

/-- A trace with its operations moved. -/
def Trace.move (σ : Padding) (x : Trace) : Trace := ⟨x.seen.map σ.op, x.stopped.map σ.op⟩

omit h in
/-- Operations of a list are walked through one by one. -/
theorem walkListWith_moved {walk walk' : OpRef → Except Fault Trace}
    (hwalk : ∀ o, Moved (Trace.move σ) (walk o) (walk' (σ.op o))) (os : List OpRef) :
    Moved (Trace.move σ) (walkListWith walk os) (walkListWith walk' (os.map σ.op)) := by
  induction os with
  | nil => exact .pure rfl
  | cons o os ih =>
    refine .bind (hwalk o) fun first => .ite (by simp [Trace.move]) (.pure rfl) ?_
    exact .bind ih fun more => .pure (by simp [Trace.move])

/-- A walk that goes everywhere. -/
theorem walkWithin_moved (n : Nat) : ∀ (m : Nat), n ≤ m → ∀ o : OpRef,
    Moved (Trace.move σ) (walkWithin s (fun _ => .descend) n o)
      (walkWithin t (fun _ => .descend) m (σ.op o)) := by
  induction n with
  | zero => exact fun _ _ _ => .throw
  | succ n ih =>
    intro m hm o
    obtain ⟨m, rfl⟩ : ∃ k, m = k + 1 := ⟨m - 1, by omega⟩
    refine h.op_bind fun d e _ => .bind (h.childOps o) fun children => ?_
    exact .bind (walkListWith_moved (ih m (by omega)) children) fun nested => .pure rfl

/-- What is nested in an operation is met in the same order. -/
theorem opsUnder_moved (o : OpRef) :
    Moved (List.map σ.op) (opsUnder s o) (opsUnder t (σ.op o)) :=
  .bind (walkWithin_moved h _ _ h.depthBound_le o) fun _ => .pure rfl

/-! ## Dominance -/

/-- A place in the padded store. -/
def Point.move (σ : Padding) (p : Point) : Point := ⟨σ.block p.block, p.before.map σ.op⟩

/-- The place behind a definition is moved. -/
theorem afterDefinition?_moved (v : ValueRef) :
    Moved (Option.map (Point.move σ)) (Point.afterDefinition? s v)
      (Point.afterDefinition? t (σ.value v)) := by
  refine .bind (h.value v) fun d => ?_
  rw [Padding.valueData]
  cases d.origin with
  | result o i =>
    refine h.op_bind fun d e hlike => ?_
    rw [hlike.parent]
    cases d.parent with
    | none => exact .pure rfl
    | some b => exact .bind (h.next? o) fun _ => .pure rfl
  | argument b i =>
    have hstart : Moved (Point.move σ) (Point.start s b) (Point.start t (σ.block b)) :=
      .bind (h.block b) fun bd => .pure (by simp [Point.move, Padding.blockData])
    exact .bind hstart fun _ => .pure rfl

/-- A place has the same number in its block. -/
theorem index_moved (p : Point) : Same (p.index s) ((p.move σ).index t) := by
  refine .bind (h.block p.block) fun bd => ?_
  obtain ⟨b, before⟩ := p
  cases before with
  | none => exact .pure (by simp [Padding.blockData])
  | some o =>
    refine .pure ?_
    show _ = ((bd.ops.map σ.op).idxOf? (σ.op o)).getD (bd.ops.map σ.op).length
    rw [idxOf?_map Padding.op_injective, List.length_map]

theorem ancestorInFuel?_moved (b : BlockRef) (n : Nat) : ∀ (m : Nat), n ≤ m → ∀ o : OpRef,
    Moved (Option.map σ.op) (ancestorInFuel? s b n o)
      (ancestorInFuel? t (σ.block b) m (σ.op o)) := by
  induction n with
  | zero => exact fun _ _ _ => .throw
  | succ n ih =>
    intro m hm o
    obtain ⟨m, rfl⟩ : ∃ k, m = k + 1 := ⟨m - 1, by omega⟩
    refine h.op_bind fun d e hlike => ?_
    rw [hlike.parent]
    cases d.parent with
    | none => exact .pure rfl
    | some parent =>
      refine .ite (by simp) (.pure rfl) (.bind (h.blockOwner? parent) fun owner => ?_)
      cases owner with
      | none => exact .pure rfl
      | some owner => exact ih m (by omega) owner

/-- The operation of a block that encloses a given one is the moved one. -/
theorem ancestorIn?_moved (b : BlockRef) (o : OpRef) :
    Moved (Option.map σ.op) (ancestorIn? s b o) (ancestorIn? t (σ.block b) (σ.op o)) :=
  ancestorInFuel?_moved h b _ _ h.depthBound_le o

/-- One place dominates another one in both stores or in none. -/
theorem dominates_moved (p q : Point) :
    Same (dominates s p q) (dominates t (p.move σ) (q.move σ)) := by
  refine .ite (by simp [Point.move]) ?_ ?_
  · exact .bind (index_moved h p) fun _ => .bind (index_moved h q) fun _ => .pure rfl
  · refine .bind (h.blockOwner? q.block) fun holder => ?_
    cases holder with
    | none => exact .pure rfl
    | some holder =>
      refine .bind (ancestorIn?_moved h p.block holder) fun anchor => ?_
      cases anchor with
      | none => exact .pure rfl
      | some anchor =>
        refine .bind (h.position? anchor) fun i => ?_
        cases i with
        | none => exact .pure rfl
        | some i => exact .bind (index_moved h p) fun _ => .pure rfl

theorem comparePoints?_moved (p q : Point) :
    Same (comparePoints? s p q) (comparePoints? t (p.move σ) (q.move σ)) := by
  refine .bind (dominates_moved h p q) fun pq => .bind (dominates_moved h q p) fun qp => ?_
  cases pq <;> cases qp <;> exact .pure rfl

theorem latestFrom?_moved (ps : List Point) : ∀ p : Point,
    Moved (Option.map (Point.move σ)) (latestFrom? s p ps)
      (latestFrom? t (p.move σ) (ps.map (Point.move σ))) := by
  induction ps with
  | nil => exact fun _ => .pure rfl
  | cons q ps ih =>
    intro p
    refine .bind (comparePoints?_moved h p q) fun order => ?_
    rcases order with _ | order
    · exact .pure rfl
    · cases order with
      | lt => exact ih q
      | eq => exact ih p
      | gt => exact ih p

/-- Of several places the same one is the latest. -/
theorem latest?_moved (ps : List Point) :
    Moved (Option.map (Point.move σ)) (latest? s ps) (latest? t (ps.map (Point.move σ))) := by
  cases ps with
  | nil => exact .pure rfl
  | cons p ps => exact latestFrom?_moved h ps p

/-- A value is visible at an operation in both stores or in none. -/
theorem valueDominates_moved (v : ValueRef) (user : OpRef) :
    Same (valueDominates s v user) (valueDominates t (σ.value v) (σ.op user)) := by
  refine .bind (h.homeBlock? v) fun block => ?_
  cases block with
  | none => exact .pure rfl
  | some block =>
    refine .bind (ancestorIn?_moved h block user) fun anchor => ?_
    cases anchor with
    | none => exact .pure rfl
    | some anchor =>
      refine .bind (h.value v) fun d => ?_
      rw [Padding.valueData]
      cases d.origin with
      | argument b i => exact .pure rfl
      | result definition i =>
        refine .ite (by simp) (.pure rfl) (.bind (h.position? definition) fun k => ?_)
        refine .bind (h.position? anchor) fun a => ?_
        cases k <;> cases a <;> exact .pure rfl

end AffineRaising.Analysis
