/-
# AffineRaising.Proofs.Store.Moved — edits cannot tell padded stores apart.

A query that finds something in a store finds the moved thing in a padded one (`Moved`), and an edit
that succeeds in a store succeeds in a padded one and leaves padded stores behind (`Edit.Moved`).
Both are closed under the ways in which queries and edits are put together, so each function
inherits them from its parts.  Bounds on recursion are sizes of tables; a longer table allows more.

Only one direction holds: what faults in the shorter store may succeed in the longer one, since a
reference that names nothing there may name something here. `Moved` and `Edit.Moved` say so by
starting from a success.  A function on references therefore gets one lemma that takes it to the
same function on moved references; a condition that compares two references is the same on both
sides, because a padding is injective.
-/
import AffineRaising.Proofs.Store.Padding

namespace AffineRaising.IR

open Store

variable {α β γ δ : Type} {σ : Padding} {s t : Store}

/-! ## Queries -/

/-- What the first query finds, the second one finds moved by `f`. -/
def Moved (f : α → β) (x : Except Fault α) (y : Except Fault β) : Prop :=
  ∀ a, x = .ok a → y = .ok (f a)

/-- What the first query finds, the second one finds too. -/
abbrev Same (x y : Except Fault α) : Prop := Moved (fun a => a) x y

namespace Moved

variable {f : α → β} {g : γ → δ}

theorem pure {a : α} {b : β} (h : f a = b) : Moved f (pure a) (pure b) := by
  rintro _ ⟨⟩
  exact congrArg Except.ok h.symm

theorem throw {e : Fault} {y : Except Fault β} : Moved f (throw e) y := by
  rintro _ ⟨⟩

/-- A query whose parts find what the moved ones find does so as a whole. -/
theorem bind {x : Except Fault α} {y : Except Fault β} {k : α → Except Fault γ}
    {k' : β → Except Fault δ} (hx : Moved f x y) (hk : ∀ a, Moved g (k a) (k' (f a))) :
    Moved g (x >>= k) (y >>= k') := by
  intro c h
  obtain ⟨a, ha, hc⟩ := except_bind_ok.1 h
  exact except_bind_ok.2 ⟨f a, hx a ha, hk a c hc⟩

theorem pure_bind {a : α} {b : β} {k : α → Except Fault γ} {k' : β → Except Fault δ}
    (h : Moved g (k a) (k' b)) : Moved g (Pure.pure a >>= k) (Pure.pure b >>= k') := h

/-- Both sides take the same branch if their conditions agree. -/
theorem ite {p q : Prop} [Decidable p] [Decidable q] {x x' : Except Fault α} {y y' : Except Fault β}
    (hpq : p ↔ q) (h : Moved f x y) (h' : Moved f x' y') :
    Moved f (if p then x else x') (if q then y else y') := by
  by_cases hp : p
  · rw [if_pos hp, if_pos (hpq.1 hp)]
    exact h
  · rw [if_neg hp, if_neg fun hq => hp (hpq.2 hq)]
    exact h'

theorem mapM {l : List α} {k : α → Except Fault γ} {k' : β → Except Fault δ}
    (hk : ∀ a, Moved g (k a) (k' (f a))) :
    Moved (List.map g) (l.mapM k) ((l.map f).mapM k') := by
  induction l with
  | nil => exact .pure rfl
  | cons a l ih =>
    rw [List.map_cons, List.mapM_cons, List.mapM_cons]
    exact .bind (hk a) fun c => .bind ih fun cs => .pure rfl

end Moved

/-! ## Tables -/

namespace Padded

variable (h : Padded σ s t)

include h

/-- The bound on recursion, a size of the tables, is no less in the longer store. -/
theorem depthBound_le : s.depthBound ≤ t.depthBound := by
  have hsize := h.opsFit.size
  unfold Store.depthBound
  omega

theorem op_some {o : OpRef} {d : OpData} (hd : s.op? o = some d) :
    ∃ e, t.op? (σ.op o) = some e ∧ Like σ d e := by
  have hrel := h.op? o
  rw [hd] at hrel
  generalize t.op? (σ.op o) = found at hrel
  cases hrel with
  | some hlike => exact ⟨_, rfl, hlike⟩

theorem op_none {o : OpRef} (hd : s.op? o = none) : t.op? (σ.op o) = none := by
  have hrel := h.op? o
  rw [hd] at hrel
  generalize t.op? (σ.op o) = found at hrel
  cases hrel
  rfl

/-- Queries that go on from like entries go on alike. -/
theorem op_bind {o : OpRef} {f : α → β} {k : OpData → Except Fault α} {k' : OpData → Except Fault β}
    (hk : ∀ d e, Like σ d e → Moved f (k d) (k' e)) :
    Moved f (s.op o >>= k) (t.op (σ.op o) >>= k') := by
  intro a hrun
  obtain ⟨d, hd, ha⟩ := except_bind_ok.1 hrun
  obtain ⟨e, he, hlike⟩ := h.op_some (op_ok.1 hd)
  exact except_bind_ok.2 ⟨e, op_ok.2 he, hk d e hlike a ha⟩

theorem block (b : BlockRef) : Moved σ.blockData (s.block b) (t.block (σ.block b)) := by
  intro d hd
  rw [block_ok] at hd ⊢
  rw [h.block?, hd, Option.map_some]

theorem region (r : RegionRef) : Moved σ.regionData (s.region r) (t.region (σ.region r)) := by
  intro d hd
  rw [region_ok] at hd ⊢
  rw [h.region?, hd, Option.map_some]

theorem value (v : ValueRef) : Moved σ.valueData (s.value v) (t.value (σ.value v)) := by
  intro d hd
  rw [value_ok] at hd ⊢
  rw [h.value?, hd, Option.map_some]

theorem resultsOf (o : OpRef) : t.resultsOf (σ.op o) = (s.resultsOf o).map σ.value := by
  cases hd : s.op? o with
  | none =>
    have he := h.op_none hd
    unfold Store.op? at hd he
    simp [Store.resultsOf, hd, he]
  | some d =>
    obtain ⟨e, he, hlike⟩ := h.op_some hd
    rw [resultsOf_eq hd, resultsOf_eq he, hlike.results]

theorem argsOf (b : BlockRef) : t.argsOf (σ.block b) = (s.argsOf b).map σ.value := by
  have hb := h.block? b
  cases hd : s.block? b with
  | none =>
    rw [hd] at hb
    unfold Store.block? at hd hb
    simp only [Option.map_none] at hb
    simp [Store.argsOf, hd, hb]
  | some d =>
    rw [hd] at hb
    rw [argsOf_eq hd, argsOf_eq hb]
    rfl

/-- A value has uses in both stores or in none. -/
theorem hasUses (v : ValueRef) : t.hasUses (σ.value v) = s.hasUses v := by
  simp [Store.hasUses, h.usesOf]

end Padded

/-! ## Edits -/

/-- Where the first edit succeeds, the second one succeeds in a padded store with the moved result,
and the stores they leave are padded again. -/
def Edit.Moved (σ : Padding) (f : α → β) (e : Edit α) (e' : Edit β) : Prop :=
  ∀ s t, Padded σ s t → ∀ a s', e s = .ok (a, s') → ∃ t', e' t = .ok (f a, t') ∧ Padded σ s' t'

namespace Edit.Moved

variable {f : α → β} {g : γ → δ}

theorem pure {a : α} {b : β} (h : f a = b) : Edit.Moved σ f (pure a) (pure b) := by
  rintro s t hst _ _ ⟨⟩
  exact ⟨t, by rw [h, pure_run], hst⟩

/-- Nothing has to be shown of an edit that faults at once. -/
theorem throw_bind {e : Fault} {k : γ → Edit α} {e' : Edit β} :
    Edit.Moved σ f (throw e >>= k) e' := by
  rintro s t hst _ _ ⟨⟩

theorem throw {e : Fault} {e' : Edit β} : Edit.Moved σ f (throw e) e' := by
  rintro s t hst _ _ ⟨⟩

theorem bind {e : Edit α} {e' : Edit β} {k : α → Edit γ} {k' : β → Edit δ}
    (he : Edit.Moved σ f e e') (hk : ∀ a, Edit.Moved σ g (k a) (k' (f a))) :
    Edit.Moved σ g (e >>= k) (e' >>= k') := by
  intro s t hst c s' h
  obtain ⟨a, s₁, ha, hc⟩ := bind_ok.1 h
  obtain ⟨t₁, ha', hst₁⟩ := he s t hst a s₁ ha
  obtain ⟨t', hc', hst'⟩ := hk a s₁ t₁ hst₁ c s' hc
  exact ⟨t', bind_ok.2 ⟨f a, t₁, ha', hc'⟩, hst'⟩

theorem ite {p q : Prop} [Decidable p] [Decidable q] {e₁ e₂ : Edit α} {e₁' e₂' : Edit β}
    (hpq : p ↔ q) (h : Edit.Moved σ f e₁ e₁') (h' : Edit.Moved σ f e₂ e₂') :
    Edit.Moved σ f (if p then e₁ else e₂) (if q then e₁' else e₂') := by
  by_cases hp : p
  · rw [if_pos hp, if_pos (hpq.1 hp)]
    exact h
  · rw [if_neg hp, if_neg fun hq => hp (hpq.2 hq)]
    exact h'

/-- A query lifted to an edit is moved if the query is. -/
theorem query {q : Store → Except Fault α} {q' : Store → Except Fault β}
    (h : ∀ s t, Padded σ s t → IR.Moved f (q s) (q' t)) :
    Edit.Moved σ f (query q) (query q') := by
  intro s t hst a s' hrun
  obtain ⟨ha, rfl⟩ := query_ok.1 hrun
  exact ⟨t, query_ok.2 ⟨h s t hst a ha, rfl⟩, hst⟩

theorem op_bind {o : OpRef} {k : OpData → Edit α} {k' : OpData → Edit β}
    (h : ∀ d e, Like σ d e → Edit.Moved σ f (k d) (k' e)) :
    Edit.Moved σ f (IR.query (·.op o) >>= k) (IR.query (·.op (σ.op o)) >>= k') := by
  intro s t hst a s' hrun
  obtain ⟨d, hd, hrest⟩ := query_bind.1 hrun
  obtain ⟨e, he, hlike⟩ := hst.op_some (op_ok.1 hd)
  obtain ⟨t', hrest', hst'⟩ := h d e hlike s t hst a s' hrest
  exact ⟨t', query_bind.2 ⟨e, op_ok.2 he, hrest'⟩, hst'⟩

/-- Two edits that look at the whole store first. -/
theorem get_bind {k : Store → Edit α} {k' : Store → Edit β}
    (h : ∀ s t, Padded σ s t → Edit.Moved σ f (k s) (k' t)) :
    Edit.Moved σ f (get >>= k) (get >>= k') := by
  intro s t hst a s' hrun
  exact h s t hst s t hst a s' hrun

/-- A step on the store is moved if it keeps stores padded. -/
theorem modify {g g' : Store → Store} (h : ∀ s t, Padded σ s t → Padded σ (g s) (g' t)) :
    Edit.Moved σ (fun u => u) (modify g : Edit PUnit) (modify g') := by
  rintro s t hst _ _ ⟨⟩
  exact ⟨g' t, rfl, h s t hst⟩

theorem set {s₀ t₀ : Store} (h : Padded σ s₀ t₀) :
    Edit.Moved σ (fun u => u) (set s₀ : Edit PUnit) (set t₀) := by
  rintro s t hst _ _ ⟨⟩
  exact ⟨t₀, rfl, h⟩

/-- A loop over moved references is moved if its body is. -/
theorem forM {l : List α} {k : α → Edit PUnit} {k' : β → Edit PUnit}
    (hk : ∀ a, Edit.Moved σ (fun u => u) (k a) (k' (f a))) :
    Edit.Moved σ (fun u => u) (l.forM k) ((l.map f).forM k') := by
  induction l with
  | nil => exact .pure rfl
  | cons a l ih => exact .bind (hk a) fun _ => ih

end Edit.Moved

/-! ## Replacing entries -/

namespace Padded

theorem op?_setOp_eq (s : Store) (o x : OpRef) (d : OpData) :
    (s.setOp o d).op? x = if x = o then (s.op? x).map fun _ => d else s.op? x := by
  obtain ⟨i⟩ := o
  obtain ⟨j⟩ := x
  simp only [Store.setOp, Store.op?, Array.getElem?_setIfInBounds, OpRef.mk.injEq]
  by_cases hij : j = i
  · subst hij
    by_cases hlt : j < s.ops.size <;> simp [hlt]
  · simp [hij, Ne.symm hij]

theorem block?_setBlock_eq (s : Store) (b x : BlockRef) (d : BlockData) :
    (s.setBlock b d).block? x = if x = b then (s.block? x).map fun _ => d else s.block? x := by
  obtain ⟨i⟩ := b
  obtain ⟨j⟩ := x
  simp only [Store.setBlock, Store.block?, Array.getElem?_setIfInBounds, BlockRef.mk.injEq]
  by_cases hij : j = i
  · subst hij
    by_cases hlt : j < s.blocks.size <;> simp [hlt]
  · simp [hij, Ne.symm hij]

theorem region?_setRegion_eq (s : Store) (r x : RegionRef) (d : RegionData) :
    (s.setRegion r d).region? x = if x = r then (s.region? x).map fun _ => d else s.region? x := by
  obtain ⟨i⟩ := r
  obtain ⟨j⟩ := x
  simp only [Store.setRegion, Store.region?, Array.getElem?_setIfInBounds, RegionRef.mk.injEq]
  by_cases hij : j = i
  · subst hij
    by_cases hlt : j < s.regions.size <;> simp [hlt]
  · simp [hij, Ne.symm hij]

variable (h : Padded σ s t)

include h

/-- Like entries may be written at an operation and at its image. -/
theorem setOp (o : OpRef) {d e : OpData} (hlike : Like σ d e) :
    Padded σ (s.setOp o d) (t.setOp (σ.op o) e) := by
  refine { h with op? := fun x => ?_, opsFit := ?_ }
  · rw [op?_setOp_eq, op?_setOp_eq]
    simp only [Padding.op_inj]
    split
    · cases hx : s.op? x with
      | none =>
        rw [h.op_none hx]
        exact .none
      | some d' =>
        obtain ⟨e', he', _⟩ := h.op_some hx
        rw [he']
        exact .some hlike
    · exact h.op? x
  · simpa [Store.setOp] using h.opsFit

theorem setBlock (b : BlockRef) (d : BlockData) :
    Padded σ (s.setBlock b d) (t.setBlock (σ.block b) (σ.blockData d)) := by
  refine { h with block? := fun x => ?_, blocksFit := ?_ }
  · rw [block?_setBlock_eq, block?_setBlock_eq, h.block?]
    simp only [Padding.block_inj]
    split <;> simp [Function.comp_def]
  · simpa [Store.setBlock] using h.blocksFit

theorem setRegion (r : RegionRef) (d : RegionData) :
    Padded σ (s.setRegion r d) (t.setRegion (σ.region r) (σ.regionData d)) := by
  refine { h with region? := fun x => ?_, regionsFit := ?_ }
  · rw [region?_setRegion_eq, region?_setRegion_eq, h.region?]
    simp only [Padding.region_inj]
    split <;> simp [Function.comp_def]
  · simpa [Store.setRegion] using h.regionsFit

theorem setUses (v : ValueRef) (us : List Use) :
    Padded σ (s.setUses v us) (t.setUses (σ.value v) (us.map σ.use)) := by
  refine { h with usesOf := fun w => ?_ }
  rw [usesOf_setUses, usesOf_setUses]
  simp only [Padding.value_inj]
  split
  · rfl
  · exact h.usesOf w

theorem addUse (v : ValueRef) (u : Use) :
    Padded σ (s.addUse v u) (t.addUse (σ.value v) (σ.use u)) := by
  have hset := h.setUses v (s.usesOf v ++ [u])
  rw [List.map_append, ← h.usesOf] at hset
  exact hset

/-- The same uses may be forgotten on both sides. -/
theorem dropUses (v : ValueRef) {drop drop' : Use → Bool}
    (hdrop : ∀ u, drop' (σ.use u) = drop u) :
    Padded σ (s.dropUses v drop) (t.dropUses (σ.value v) drop') := by
  have hset := h.setUses v ((s.usesOf v).filter fun u => !drop u)
  have hsame : ((s.usesOf v).filter fun u => !drop u).map σ.use =
      (t.usesOf (σ.value v)).filter fun u => !drop' u := by
    rw [h.usesOf, List.filter_map]
    congr 1
    exact List.filter_congr fun u _ => by simp [hdrop]
  rw [hsame] at hset
  exact hset

/-- One more operation. -/
theorem pushEntry {d e : OpData} (hlike : Like σ d e) :
    Padded σ { s with ops := s.ops.push d } { t with ops := t.ops.push e } := by
  refine { h with op? := fun x => ?_, opsFit := ?_ }
  · show Option.Rel (Like σ) (s.ops.push d)[x.index]? (t.ops.push e)[(σ.op x).index]?
    rw [Array.getElem?_push, Array.getElem?_push]
    have hlast : (σ.op x).index = t.ops.size ↔ x.index = s.ops.size := by
      have hnext := h.opsFit.move_add 0
      simp only [Nat.add_zero] at hnext
      rw [← hnext]
      exact Gap.move_inj
    by_cases hx : x.index = s.ops.size
    · rw [if_pos hx, if_pos (hlast.2 hx)]
      exact .some hlike
    · rw [if_neg hx, if_neg fun h => hx (hlast.1 h)]
      exact h.op? x
  · simpa using h.opsFit.grow 1

/-- The next values are moved onto the next values. -/
theorem appendValues (vs : List ValueData) :
    Padded σ { s with values := s.values ++ vs.toArray }
      { t with values := t.values ++ (vs.map σ.valueData).toArray } := by
  refine { h with value? := fun v => ?_, valuesFit := ?_ }
  · exact h.valuesFit.getElem?_append vs (fun i => h.value? ⟨i⟩) v.index
  · simpa using h.valuesFit.grow vs.length

theorem pushBlock (d : BlockData) :
    Padded σ { s with blocks := s.blocks.push d }
      { t with blocks := t.blocks.push (σ.blockData d) } := by
  refine { h with block? := fun b => ?_, blocksFit := ?_ }
  · exact h.blocksFit.getElem?_append [d] (fun i => h.block? ⟨i⟩) b.index
  · simpa using h.blocksFit.grow 1

theorem pushRegion (d : RegionData) :
    Padded σ { s with regions := s.regions.push d }
      { t with regions := t.regions.push (σ.regionData d) } := by
  refine { h with region? := fun r => ?_, regionsFit := ?_ }
  · exact h.regionsFit.getElem?_append [d] (fun i => h.region? ⟨i⟩) r.index
  · simpa using h.regionsFit.grow 1

end Padded

/-! ## Creating -/

/-- What an operation is created from in the two stores, successors apart. -/
structure SpecLike (σ : Padding) (a b : OpSpec) : Prop where
  name : b.name = a.name
  operands : b.operands = a.operands.map σ.value
  resultTypes : b.resultTypes = a.resultTypes
  attrs : b.attrs = a.attrs
  regions : b.regions = a.regions.map σ.region

/-- The next operation of a store goes to the next one of the padded store. -/
theorem Padded.next_op (h : Padded σ s t) : σ.op ⟨s.ops.size⟩ = ⟨t.ops.size⟩ :=
  congrArg OpRef.mk (h.opsFit.move_add 0)

theorem Padded.next_block (h : Padded σ s t) : σ.block ⟨s.blocks.size⟩ = ⟨t.blocks.size⟩ :=
  congrArg BlockRef.mk (h.blocksFit.move_add 0)

theorem Padded.next_region (h : Padded σ s t) : σ.region ⟨s.regions.size⟩ = ⟨t.regions.size⟩ :=
  congrArg RegionRef.mk (h.regionsFit.move_add 0)

theorem Padded.nextValues (h : Padded σ s t) (n : Nat) :
    t.nextValues n = (s.nextValues n).map σ.value := by
  simp only [Store.nextValues, List.map_map]
  refine List.map_congr_left fun k _ => ?_
  exact congrArg ValueRef.mk (h.valuesFit.move_add k).symm

/-- Uses are recorded alike, in the order of the operands. -/
theorem foldl_addUse_padded {uses : List (ValueRef × Nat)} {o : OpRef} : ∀ {s t : Store},
    Padded σ s t → Padded σ (uses.foldl (fun s v => s.addUse v.1 ⟨o, v.2⟩) s)
      ((uses.map (Prod.map σ.value id)).foldl (fun s v => s.addUse v.1 ⟨σ.op o, v.2⟩) t) := by
  induction uses with
  | nil => exact fun h => h
  | cons u uses ih => exact fun h => ih (h.addUse u.1 ⟨o, u.2⟩)

theorem Padded.addOperandUses (h : Padded σ s t) (o : OpRef) (operands : List ValueRef) :
    Padded σ (s.addOperandUses o operands) (t.addOperandUses (σ.op o) (operands.map σ.value)) := by
  unfold Store.addOperandUses
  rw [List.zipIdx_map]
  exact foldl_addUse_padded h

theorem ownRegion_moved (o : OpRef) (r : RegionRef) :
    Edit.Moved σ (fun u => u) (ownRegion o r) (ownRegion (σ.op o) (σ.region r)) := by
  refine .bind (.query fun s t h => h.region r) fun d => ?_
  refine .ite (by simp [Padding.regionData]) .throw_bind ?_
  exact .modify fun s t h => h.setRegion r { d with parent := some o }

theorem ownBlock_moved (r : RegionRef) (b : BlockRef) :
    Edit.Moved σ (fun u => u) (ownBlock r b) (ownBlock (σ.region r) (σ.block b)) := by
  refine .bind (.query fun s t h => h.block b) fun d => ?_
  refine .ite (by simp [Padding.blockData]) .throw_bind ?_
  exact .modify fun s t h => h.setBlock b { d with parent := some r }

/-- Creating from like descriptions yields moved operations. -/
theorem createOp_moved {a b : OpSpec} (hspec : SpecLike σ a b) :
    Edit.Moved σ σ.op (createOp a) (createOp b) := by
  refine .get_bind fun s t h => ?_
  have hvalues : (b.resultTypes.zipIdx.map fun ty =>
      (⟨.result ⟨t.ops.size⟩ ty.2, ty.1⟩ : ValueData)) =
      (a.resultTypes.zipIdx.map fun ty =>
        (⟨.result ⟨s.ops.size⟩ ty.2, ty.1⟩ : ValueData)).map σ.valueData := by
    rw [hspec.resultTypes, List.map_map]
    refine List.map_congr_left fun ty _ => ?_
    simp only [Function.comp_apply, Padding.valueData, Padding.origin, h.next_op]
  refine .bind (.set ?_) fun _ => ?_
  · rw [hvalues]
    refine (h.pushEntry ?_).appendValues _
    exact ⟨hspec.name, hspec.operands, by rw [hspec.resultTypes]; exact h.nextValues _,
      hspec.resultTypes, hspec.attrs, hspec.regions, rfl⟩
  · rw [hspec.regions, hspec.operands, ← h.next_op]
    refine .bind (.forM fun r => ownRegion_moved _ r) fun _ => ?_
    exact .bind (.modify fun s t h => h.addOperandUses _ _) fun _ => .pure rfl

theorem createBlock_moved (types : List Ty) :
    Edit.Moved σ σ.block (createBlock types) (createBlock types) := by
  refine .get_bind fun s t h => ?_
  have hvalues : (types.zipIdx.map fun ty =>
      (⟨.argument ⟨t.blocks.size⟩ ty.2, ty.1⟩ : ValueData)) =
      (types.zipIdx.map fun ty =>
        (⟨.argument ⟨s.blocks.size⟩ ty.2, ty.1⟩ : ValueData)).map σ.valueData := by
    rw [List.map_map]
    refine List.map_congr_left fun ty _ => ?_
    simp only [Function.comp_apply, Padding.valueData, Padding.origin, h.next_block]
  refine .bind (.set ?_) fun _ => .pure h.next_block
  rw [hvalues, h.nextValues]
  exact (h.pushBlock ⟨s.nextValues types.length, types, [], none⟩).appendValues _

theorem createRegion_moved (bs : List BlockRef) :
    Edit.Moved σ σ.region (createRegion bs) (createRegion (bs.map σ.block)) := by
  refine .get_bind fun s t h => ?_
  refine .bind (.set (h.pushRegion ⟨bs, none⟩)) fun _ => ?_
  rw [← h.next_region]
  exact .bind (.forM fun b => ownBlock_moved _ b) fun _ => .pure rfl

/-! ## Attaching and detaching -/

theorem Like.setParent {d e : OpData} (h : Like σ d e) (parent : Option BlockRef) :
    Like σ { d with parent := parent } { e with parent := parent.map σ.block } :=
  { h with parent := rfl }

theorem Like.parent_isSome {d e : OpData} (h : Like σ d e) :
    d.parent.isSome = true ↔ e.parent.isSome = true := by
  rw [h.parent, Option.isSome_map]

theorem Like.parent_eq_some {d e : OpData} (h : Like σ d e) (b : BlockRef) :
    e.parent = some (σ.block b) ↔ d.parent = some b := by
  rw [h.parent]
  cases d.parent <;> simp

theorem pushOp_moved (b : BlockRef) (o : OpRef) :
    Edit.Moved σ (fun u => u) (pushOp b o) (pushOp (σ.block b) (σ.op o)) := by
  refine .op_bind fun d e hlike => .ite hlike.parent_isSome .throw_bind ?_
  refine .bind (.query fun s t h => h.block b) fun bd => .modify fun s t h => ?_
  have hpad := (h.setOp o (hlike.setParent (some b))).setBlock b { bd with ops := bd.ops ++ [o] }
  simpa [Padding.blockData] using hpad

theorem insertBefore_moved (b : BlockRef) (before o : OpRef) :
    Edit.Moved σ (fun u => u) (insertBefore b before o)
      (insertBefore (σ.block b) (σ.op before) (σ.op o)) := by
  refine .op_bind fun d e hlike => .ite hlike.parent_isSome .throw_bind ?_
  refine .bind (.query fun s t h => h.block b) fun bd => ?_
  have hplace : (σ.blockData bd).ops.idxOf? (σ.op before) = bd.ops.idxOf? before :=
    idxOf?_map Padding.op_injective bd.ops before
  rw [hplace]
  cases bd.ops.idxOf? before with
  | none => exact .throw
  | some i =>
    refine .modify fun s t h => ?_
    have hpad := (h.setBlock b { bd with ops := bd.ops.take i ++ o :: bd.ops.drop i }).setOp o
      (hlike.setParent (some b))
    simpa [Padding.blockData, List.map_take, List.map_drop] using hpad

/-- The place where an operation is put is found by the same search on both sides. -/
theorem insertOp_moved (b : BlockRef) (before : Option OpRef) (o : OpRef) :
    Edit.Moved σ (fun u => u) (insertOp b before o)
      (insertOp (σ.block b) (before.map σ.op) (σ.op o)) := by
  cases before with
  | none => exact pushOp_moved b o
  | some x => exact insertBefore_moved b x o

theorem detach_moved (o : OpRef) :
    Edit.Moved σ (fun u => u) (detach o) (detach (σ.op o)) := by
  refine .op_bind fun d e hlike => ?_
  rw [hlike.parent]
  cases d.parent with
  | none => exact .pure rfl
  | some b =>
    refine .bind (.query fun s t h => h.block b) fun bd => .modify fun s t h => ?_
    have hpad := (h.setBlock b { bd with ops := bd.ops.filter (· != o) }).setOp o
      (hlike.setParent none)
    simpa [Padding.blockData, ← filter_ne_map Padding.op_injective] using hpad

/-! ## Uses -/

theorem Padded.operand (h : Padded σ s t) (o : OpRef) (i : Nat) :
    Moved σ.value (s.operand o i) (t.operand (σ.op o) i) := by
  refine h.op_bind fun d e hlike => ?_
  rw [hlike.operands, List.getElem?_map]
  cases d.operands[i]? with
  | none => exact .throw
  | some v => exact .pure rfl

theorem Like.setOperands {d e : OpData} (h : Like σ d e) (operands : List ValueRef) :
    Like σ { d with operands := operands } { e with operands := operands.map σ.value } :=
  { h with operands := rfl }

theorem redirectUse_moved (new : ValueRef) (u : Use) :
    Edit.Moved σ (fun u => u) (redirectUse new u) (redirectUse (σ.value new) (σ.use u)) := by
  refine .op_bind fun d e hlike => .ite (by simp [hlike.operands, Padding.use]) ?_ .throw
  refine .bind (.modify fun s t h => ?_) fun _ => .modify fun s t h => h.addUse new u
  have hpad := h.setOp u.user (hlike.setOperands (d.operands.set u.slot new))
  rw [List.map_set, ← hlike.operands] at hpad
  exact hpad

theorem redirectCheckedUse_moved (old new : ValueRef) (u : Use) :
    Edit.Moved σ (fun u => u) (redirectCheckedUse old new u)
      (redirectCheckedUse (σ.value old) (σ.value new) (σ.use u)) := by
  refine .bind (.query fun s t h => h.operand u.user u.slot) fun v => ?_
  exact .ite (by simp) .throw_bind (redirectUse_moved new u)

/-- The checks on the uses of a value come out alike, so a replacement that goes through does so in
the padded store. -/
theorem replaceAllUses_moved (old new : ValueRef) :
    Edit.Moved σ (fun u => u) (replaceAllUses old new)
      (replaceAllUses (σ.value old) (σ.value new)) := by
  refine .ite (by simp) (.pure rfl) (.get_bind fun s t h => ?_)
  rw [h.usesOf]
  refine .bind (.modify fun s t h => h.setUses old []) fun _ => ?_
  exact .forM fun u => redirectCheckedUse_moved old new u

/-! ## Removing -/

/-- Uses are forgotten alike, in the order of the operands. -/
theorem foldl_dropUses_padded {uses : List (ValueRef × Nat)} {o : OpRef} : ∀ {s t : Store},
    Padded σ s t → Padded σ (uses.foldl (fun s v => s.dropUses v.1 (· == ⟨o, v.2⟩)) s)
      ((uses.map (Prod.map σ.value id)).foldl
        (fun s v => s.dropUses v.1 (· == ⟨σ.op o, v.2⟩)) t) := by
  induction uses with
  | nil => exact fun h => h
  | cons v uses ih =>
    refine fun h => ih (h.dropUses v.1 fun u => ?_)
    have hsame : σ.use u = ⟨σ.op o, v.2⟩ ↔ u = ⟨o, v.2⟩ := Padding.use_inj (b := ⟨o, v.2⟩)
    exact Bool.eq_iff_iff.2 (by simp [hsame])

theorem removeOp_moved (o : OpRef) :
    Edit.Moved σ (fun u => u) (removeOp o) (removeOp (σ.op o)) := by
  refine .op_bind fun d e hlike => .ite hlike.parent_isSome .throw_bind (.get_bind fun s t h => ?_)
  have hfind : e.results.find? t.hasUses = (d.results.find? s.hasUses).map σ.value := by
    rw [hlike.results, List.find?_map]
    congr 2
    exact funext fun v => h.hasUses v
  rw [hfind]
  cases d.results.find? s.hasUses with
  | some v => exact .throw
  | none =>
    refine .modify fun s t h => ?_
    rw [hlike.operands, List.zipIdx_map]
    exact foldl_dropUses_padded h

/-- The bound on the depth may be larger in the padded store. -/
theorem eraseWithin_moved (n : Nat) : ∀ (m : Nat), n ≤ m → ∀ o : OpRef,
    Edit.Moved σ (fun u => u) (eraseWithin n o) (eraseWithin m (σ.op o)) := by
  induction n with
  | zero => exact fun _ _ _ => .throw
  | succ n ih =>
    intro m hm o
    obtain ⟨m, rfl⟩ : ∃ k, m = k + 1 := ⟨m - 1, by omega⟩
    refine .op_bind fun d e hlike => ?_
    rw [hlike.regions]
    refine .bind (.forM fun r => ?_) fun _ => .bind (detach_moved o) fun _ => removeOp_moved o
    refine .bind (.query fun s t h => h.region r) fun rd => ?_
    rw [Padding.regionData, ← List.map_reverse]
    refine .forM fun b => .bind (.query fun s t h => h.block b) fun bd => ?_
    rw [Padding.blockData, ← List.map_reverse]
    exact .forM fun x => ih m (by omega) x

theorem eraseOp_moved (o : OpRef) : Edit.Moved σ (fun u => u) (eraseOp o) (eraseOp (σ.op o)) :=
  .get_bind fun _ _ h => eraseWithin_moved _ _ h.depthBound_le o

/-! ## Copying -/

/-- A moved renaming takes moved values to moved values. -/
theorem pairs_apply (m : Renaming) (v : ValueRef) :
    (σ.pairs m).apply (σ.value v) = σ.value (m.apply v) := by
  have hfind : (σ.pairs m).find? (fun p => p.1 == σ.value v) =
      (m.find? fun p => p.1 == v).map (Prod.map σ.value σ.value) := by
    rw [Padding.pairs, List.find?_map]
    congr 2
    exact funext fun p => Padding.value_beq p.1 _
  simp only [Renaming.apply, Renaming.get?, hfind]
  cases m.find? fun p => p.1 == v <;> rfl

theorem pairs_lookup (m : Renaming) (v : ValueRef) :
    (σ.pairs m).lookup (σ.value v) = (m.lookup v).map σ.value := by
  induction m with
  | nil => rfl
  | cons p m ih =>
    show List.lookup (σ.value v) ((σ.value p.1, σ.value p.2) :: σ.pairs m) = _
    rw [List.lookup_cons, List.lookup_cons, Padding.value_beq, ih]
    cases v == p.1 <;> rfl

theorem pairs_insert (m : Renaming) (old new : ValueRef) :
    (σ.pairs m).insert (σ.value old) (σ.value new) = σ.pairs (m.insert old new) := by
  have hany : ((σ.pairs m).any fun p => p.1 == σ.value old) = m.any fun p => p.1 == old := by
    rw [Padding.pairs, List.any_map]
    congr 1
    exact funext fun p => Padding.value_beq p.1 _
  simp only [Renaming.insert, hany]
  split
  · simp only [Padding.pairs, List.map_map]
    refine List.map_congr_left fun p _ => ?_
    by_cases hp : p.1 = old <;> simp [hp]
  · simp [Padding.pairs]

theorem foldl_pairs_insert (ps : List (ValueRef × ValueRef)) : ∀ m : Renaming,
    (σ.pairs ps).foldl (fun m p => m.insert p.1 p.2) (σ.pairs m) =
      σ.pairs (ps.foldl (fun m p => m.insert p.1 p.2) m) := by
  induction ps with
  | nil => exact fun _ => rfl
  | cons p ps ih =>
    intro m
    show ((σ.pairs ps).foldl _ ((σ.pairs m).insert (σ.value p.1) (σ.value p.2))) = _
    rw [pairs_insert]
    exact ih _

theorem pairs_insertAll (m : Renaming) (olds news : List ValueRef) :
    (σ.pairs m).insertAll (olds.map σ.value) (news.map σ.value) =
      σ.pairs (m.insertAll olds news) := by
  have hzip : (olds.map σ.value).zip (news.map σ.value) = σ.pairs (olds.zip news) :=
    List.zip_map
  rw [Renaming.insertAll, hzip]
  exact foldl_pairs_insert _ m

/-- Successors are not compared, so any two lists of pairs will do. -/
theorem retargetSuccessors_moved (pairs pairs' : List (BlockRef × BlockRef)) (o : OpRef) :
    Edit.Moved σ (fun u => u) (retargetSuccessors pairs o)
      (retargetSuccessors pairs' (σ.op o)) := by
  refine .op_bind fun d e hlike => .modify fun s t h => h.setOp o ?_
  exact { hlike with }

theorem cloneBlockHeader_moved (m : Renaming) (b : BlockRef) :
    Edit.Moved σ (Prod.map σ.block σ.pairs) (cloneBlockHeader m b)
      (cloneBlockHeader (σ.pairs m) (σ.block b)) := by
  refine .bind (.query fun s t h => h.block b) fun d => ?_
  refine .bind (createBlock_moved d.argTypes) fun b' => .get_bind fun s t h => .pure ?_
  rw [h.argsOf, h.argsOf, pairs_insertAll]
  rfl

theorem cloneBlockHeaders_moved (bs : List BlockRef) : ∀ m : Renaming,
    Edit.Moved σ (Prod.map (List.map σ.block) σ.pairs) (cloneBlockHeaders m bs)
      (cloneBlockHeaders (σ.pairs m) (bs.map σ.block)) := by
  induction bs with
  | nil => exact fun m => .pure rfl
  | cons b bs ih =>
    intro m
    refine .bind (cloneBlockHeader_moved m b) fun p => ?_
    exact .bind (ih p.2) fun q => .pure rfl

section CloneWith

variable {clone clone' : Renaming → OpRef → Edit (OpRef × Renaming)}
  (hclone : ∀ m o, Edit.Moved σ (Prod.map σ.op σ.pairs) (clone m o) (clone' (σ.pairs m) (σ.op o)))

include hclone

theorem cloneOpsWith_moved (pairs pairs' : List (BlockRef × BlockRef)) (target : BlockRef)
    (os : List OpRef) : ∀ m : Renaming,
    Edit.Moved σ σ.pairs (cloneOpsWith clone pairs target m os)
      (cloneOpsWith clone' pairs' (σ.block target) (σ.pairs m) (os.map σ.op)) := by
  induction os with
  | nil => exact fun m => .pure rfl
  | cons o os ih =>
    intro m
    refine .bind (hclone m o) fun p => .bind (retargetSuccessors_moved pairs pairs' p.1) fun _ => ?_
    exact .bind (pushOp_moved target p.1) fun _ => ih p.2

theorem cloneBodiesWith_moved (pairs pairs' : List (BlockRef × BlockRef))
    (rest : List (BlockRef × BlockRef)) : ∀ m : Renaming,
    Edit.Moved σ σ.pairs (cloneBodiesWith clone pairs m rest)
      (cloneBodiesWith clone' pairs' (σ.pairs m) (rest.map (Prod.map σ.block σ.block))) := by
  induction rest with
  | nil => exact fun m => .pure rfl
  | cons p rest ih =>
    intro m
    refine .bind (.query fun s t h => h.block p.1) fun d => ?_
    exact .bind (cloneOpsWith_moved hclone pairs pairs' p.2 d.ops m) fun m' => ih m'

/-- Copies of a region and of its image are made of moved parts, if copies of the operations inside
are. -/
theorem cloneRegionWith_moved (m : Renaming) (r : RegionRef) :
    Edit.Moved σ (Prod.map σ.region σ.pairs) (cloneRegionWith clone m r)
      (cloneRegionWith clone' (σ.pairs m) (σ.region r)) := by
  refine .bind (.query fun s t h => h.region r) fun d => ?_
  refine .bind (cloneBlockHeaders_moved d.blocks m) fun p => ?_
  have hzip : (d.blocks.map σ.block).zip (p.1.map σ.block) =
      (d.blocks.zip p.1).map (Prod.map σ.block σ.block) := List.zip_map
  refine .bind ?_ fun m' => .bind (createRegion_moved p.1) fun r' => .pure rfl
  show Edit.Moved σ σ.pairs _
    (cloneBodiesWith clone' _ (σ.pairs p.2) ((d.blocks.map σ.block).zip (p.1.map σ.block)))
  rw [hzip]
  exact cloneBodiesWith_moved hclone _ _ _ p.2

theorem cloneRegionsWith_moved (rs : List RegionRef) : ∀ m : Renaming,
    Edit.Moved σ (Prod.map (List.map σ.region) σ.pairs) (cloneRegionsWith clone m rs)
      (cloneRegionsWith clone' (σ.pairs m) (rs.map σ.region)) := by
  induction rs with
  | nil => exact fun m => .pure rfl
  | cons r rs ih =>
    intro m
    refine .bind (cloneRegionWith_moved hclone m r) fun p => ?_
    exact .bind (ih p.2) fun q => .pure rfl

end CloneWith

/-- Copies are moved level by level; the bound may be larger in the padded store. -/
theorem cloneWithin_moved (n : Nat) : ∀ (k : Nat), n ≤ k → ∀ (m : Renaming) (o : OpRef),
    Edit.Moved σ (Prod.map σ.op σ.pairs) (cloneWithin n m o)
      (cloneWithin k (σ.pairs m) (σ.op o)) := by
  induction n with
  | zero => exact fun _ _ _ _ => .throw
  | succ n ih =>
    intro k hk m o
    obtain ⟨k, rfl⟩ : ∃ j, k = j + 1 := ⟨k - 1, by omega⟩
    refine .op_bind fun d e hlike => ?_
    rw [hlike.regions]
    refine .bind (cloneRegionsWith_moved (ih k (by omega)) d.regions m) fun p => ?_
    have hspec : SpecLike σ
        { name := d.name, operands := d.operands.map m.apply, resultTypes := d.resultTypes,
          attrs := d.attrs, regions := p.1, successors := d.successors }
        { name := e.name, operands := e.operands.map (σ.pairs m).apply,
          resultTypes := e.resultTypes, attrs := e.attrs, regions := p.1.map σ.region,
          successors := e.successors } := by
      refine ⟨hlike.name, ?_, hlike.resultTypes, hlike.attrs, rfl⟩
      rw [hlike.operands, List.map_map, List.map_map]
      exact List.map_congr_left fun v _ => pairs_apply m v
    refine .bind (createOp_moved hspec) fun c => .get_bind fun s t h => .pure ?_
    rw [h.resultsOf, h.resultsOf]
    exact congrArg (Prod.mk _) (pairs_insertAll _ _ _).symm

theorem cloneOp_moved (m : Renaming) (o : OpRef) :
    Edit.Moved σ (Prod.map σ.op σ.pairs) (cloneOp m o) (cloneOp (σ.pairs m) (σ.op o)) :=
  .get_bind fun _ _ h => cloneWithin_moved _ _ h.depthBound_le m o

end AffineRaising.IR
