/-
# AffineRaising.Proofs.Store.Spec — what each edit does.

One lemma for each edit says everything that a run of it can do: what it checked, and the tables it
leaves behind.  Later modules cite these lemmas and open no edit again.

The lemmas go in one direction, from a run to what it did.  Where an edit writes several tables, the
outcome is a structure with one field for each table (`Created`, `OperandsSet`, `Redirected`,
`UsesDropped`), stated through the views, so that a proof which needs one table does not see the
others.  The loops over operands and uses are turned into lists first (`operandUses`,
`usesOf_foldl_addUse`, `usesOf_foldl_dropUses`).  Totality is a matter of its own and only stated
where an assertion of the edit can be met from the invariants: `forM_redirectCheckedUse_total`.
-/
import AffineRaising.Proofs.Store.View

namespace AffineRaising.IR

variable {s t : Store}

/-! ## Attaching and detaching -/

/-- The store after operation `o` became a member of block `b`, whose operations are now `ops`. -/
def Store.attach (s : Store) (o : OpRef) (d : OpData) (b : BlockRef) (bd : BlockData)
    (ops : List OpRef) : Store :=
  (s.setOp o { d with parent := some b }).setBlock b { bd with ops := ops }

/-- The store after operation `o` left block `b`. -/
def Store.unlink (s : Store) (o : OpRef) (d : OpData) (b : BlockRef) (bd : BlockData) : Store :=
  (s.setBlock b { bd with ops := bd.ops.filter (· != o) }).setOp o { d with parent := none }

section AttachUnlink

variable {o : OpRef} {d : OpData} {b : BlockRef} {bd : BlockData}

/-- An operation that joins a block learns its name, and no other entry of an operation changes. -/
theorem Store.op?_attach (hd : s.op? o = some d) (ops : List OpRef) (x : OpRef) :
    (s.attach o d b bd ops).op? x =
      if x = o then some { d with parent := some b } else s.op? x := by
  rw [Store.attach, Store.op?_setBlock, Store.op?_setOp hd]

theorem Store.block?_attach (hb : s.block? b = some bd) (ops : List OpRef) (x : BlockRef) :
    (s.attach o d b bd ops).block? x =
      if x = b then some { bd with ops := ops } else s.block? x := by
  rw [Store.attach, Store.block?_setBlock (d := bd) (by simpa using hb), Store.block?_setOp]

/-- An operation that leaves a block forgets it, and no other entry of an operation changes. -/
theorem Store.op?_unlink (hd : s.op? o = some d) (x : OpRef) :
    (s.unlink o d b bd).op? x = if x = o then some { d with parent := none } else s.op? x := by
  rw [Store.unlink, Store.op?_setOp (d := d) (by simpa using hd), Store.op?_setBlock]

theorem Store.block?_unlink (hb : s.block? b = some bd) (x : BlockRef) :
    (s.unlink o d b bd).block? x =
      if x = b then some { bd with ops := bd.ops.filter (· != o) } else s.block? x := by
  rw [Store.unlink, Store.block?_setOp, Store.block?_setBlock hb]

end AttachUnlink

/-- A list splits where an element stands for the first time. -/
theorem split_of_idxOf? {γ : Type} [DecidableEq γ] {l : List γ} {a : γ} {i : Nat}
    (h : l.idxOf? a = some i) : (l.drop i).head? = some a ∧ a ∉ l.take i := by
  obtain ⟨hlt, hget, hfirst⟩ := List.idxOf?_eq_some_iff.1 h
  refine ⟨?_, ?_⟩
  · rw [List.head?_drop, List.getElem?_eq_getElem hlt, hget]
  · intro hmem
    obtain ⟨j, hj, hja⟩ := List.getElem_of_mem hmem
    simp only [List.length_take] at hj
    rw [List.getElem_take] at hja
    exact hfirst j (by omega) hja

/-- The list of a block around an operation, and the operation that follows it. -/
theorem next?_ok {o : OpRef} {d : OpData} {b : BlockRef} {bd : BlockData} {before : Option OpRef}
    (hd : s.op? o = some d) (hp : d.parent = some b) (hb : s.block? b = some bd)
    (ho : o ∈ bd.ops) (h : s.next? o = .ok before) :
    ∃ front back, bd.ops = front ++ o :: back ∧ back.head? = before := by
  simp only [Store.next?, except_bind_ok, Store.op_ok] at h
  obtain ⟨d', hd', h⟩ := h
  cases hd.symm.trans hd'
  simp only [hp, except_bind_ok, Store.block_ok] at h
  obtain ⟨bd', hbd', h⟩ := h
  cases hb.symm.trans hbd'
  cases hi : bd.ops.idxOf? o with
  | none => exact absurd ho (List.idxOf?_eq_none_iff.1 hi)
  | some i =>
    simp only [hi, except_pure, Except.ok.injEq] at h
    obtain ⟨hlt, hget, _⟩ := List.idxOf?_eq_some_iff.1 hi
    refine ⟨bd.ops.take i, bd.ops.drop (i + 1), ?_, ?_⟩
    · rw [← hget, ← List.drop_eq_getElem_cons hlt, List.take_append_drop]
    · rw [List.head?_drop, h]

/-- An insertion splits the operations of the block where the new one goes: in front of the first
occurrence of the operation that was named, or at the end. -/
theorem insertOp_ok {b : BlockRef} {before : Option OpRef} {o : OpRef} {u : Unit}
    (h : insertOp b before o s = .ok (u, t)) :
    ∃ d bd front back, s.op? o = some d ∧ d.parent = none ∧ s.block? b = some bd ∧
      bd.ops = front ++ back ∧ back.head? = before ∧ (∀ x, before = some x → x ∉ front) ∧
      t = s.attach o d b bd (front ++ o :: back) := by
  cases before with
  | none =>
    simp only [insertOp, pushOp, Edit.query_bind, Store.op_ok, Edit.ite_run,
      Edit.throw_bind] at h
    obtain ⟨d, hd, h⟩ := h
    split at h
    · cases h
    · rename_i hp
      simp only [Edit.query_bind, Store.block_ok, Edit.modify_run] at h
      obtain ⟨bd, hbd, h⟩ := h
      cases h
      exact ⟨d, bd, bd.ops, [], hd, by simpa using hp, hbd, by simp, rfl, by simp, rfl⟩
  | some x =>
    simp only [insertOp, insertBefore, Edit.query_bind, Store.op_ok, Edit.ite_run,
      Edit.throw_bind] at h
    obtain ⟨d, hd, h⟩ := h
    split at h
    · cases h
    · rename_i hp
      simp only [Edit.query_bind, Store.block_ok] at h
      obtain ⟨bd, hbd, h⟩ := h
      cases hi : bd.ops.idxOf? x with
      | none => simp [hi] at h
      | some i =>
        simp only [hi, Edit.modify_run] at h
        cases h
        obtain ⟨hhead, hfront⟩ := split_of_idxOf? hi
        refine ⟨d, bd, bd.ops.take i, bd.ops.drop i, hd, by simpa using hp, hbd,
          (List.take_append_drop i bd.ops).symm, hhead, ?_, rfl⟩
        intro y hy
        cases hy
        exact hfront

theorem pushOp_eq_insertOp (b : BlockRef) (o : OpRef) : pushOp b o = insertOp b none o := rfl

theorem insertBefore_eq_insertOp (b : BlockRef) (x o : OpRef) :
    insertBefore b x o = insertOp b (some x) o := rfl

/-- Detaching does nothing to an operation in no block, and takes any other one out of its block. -/
theorem detach_ok {o : OpRef} {u : Unit} (h : detach o s = .ok (u, t)) :
    ∃ d, s.op? o = some d ∧ ((d.parent = none ∧ t = s) ∨
      ∃ b bd, d.parent = some b ∧ s.block? b = some bd ∧ t = s.unlink o d b bd) := by
  simp only [detach, Edit.query_bind, Store.op_ok] at h
  obtain ⟨d, hd, h⟩ := h
  refine ⟨d, hd, ?_⟩
  cases hp : d.parent with
  | none =>
    simp only [hp, Edit.pure_run] at h
    cases h
    exact .inl ⟨rfl, rfl⟩
  | some b =>
    simp only [hp, Edit.query_bind, Store.block_ok, Edit.modify_run] at h
    obtain ⟨bd, hbd, h⟩ := h
    cases h
    exact .inr ⟨b, bd, rfl, hbd, rfl⟩

/-! ## Creating -/

/-- The uses that an operation makes of a value. -/
def operandUses (o : OpRef) (operands : List ValueRef) (v : ValueRef) : List Use :=
  (operands.zipIdx.filter fun p => p.1 = v).map fun p => ⟨o, p.2⟩

/-- The uses of an operation are its operand slots. -/
theorem mem_operandUses {o : OpRef} {operands : List ValueRef} {v : ValueRef} {u : Use} :
    u ∈ operandUses o operands v ↔ u.user = o ∧ operands[u.slot]? = some v := by
  obtain ⟨x, i⟩ := u
  simp only [operandUses, List.mem_map, List.mem_filter, decide_eq_true_eq, Prod.exists,
    List.mem_zipIdx_iff_getElem?, Use.mk.injEq]
  constructor
  · rintro ⟨w, j, ⟨hw, rfl⟩, rfl, rfl⟩
    exact ⟨rfl, hw⟩
  · rintro ⟨rfl, hv⟩
    exact ⟨v, i, ⟨hv, rfl⟩, rfl, rfl⟩

theorem nodup_operandUses (o : OpRef) (operands : List ValueRef) (v : ValueRef) :
    (operandUses o operands v).Nodup := by
  have hidx : ((operands.zipIdx.filter fun p => p.1 = v).map Prod.snd).Nodup := by
    refine List.Nodup.sublist (List.Sublist.map _ List.filter_sublist) ?_
    rw [List.zipIdx_map_snd]
    exact List.nodup_range'
  unfold operandUses
  refine List.pairwise_map.2 (List.Pairwise.imp ?_ (List.pairwise_map.1 hidx))
  intro p q hpq heq
  exact hpq (Use.mk.inj heq).2

/-- Recording uses writes no table but that of the uses. -/
theorem addOperandUses_eq (o : OpRef) (operands : List ValueRef) :
    ∀ (s : Store) (k : Nat), (operands.zipIdx k).foldl (fun s v => s.addUse v.1 ⟨o, v.2⟩) s =
      { s with uses := ((operands.zipIdx k).foldl (fun s v => s.addUse v.1 ⟨o, v.2⟩) s).uses } := by
  induction operands with
  | nil => intro s k; rfl
  | cons a as ih =>
    intro s k
    rw [List.zipIdx_cons, List.foldl_cons, ih]
    rfl

/-- New uses go behind the old ones, in the order of the operands. -/
theorem usesOf_foldl_addUse (o : OpRef) (v : ValueRef) (operands : List ValueRef) :
    ∀ (s : Store) (k : Nat),
      ((operands.zipIdx k).foldl (fun s v => s.addUse v.1 ⟨o, v.2⟩) s).usesOf v =
        s.usesOf v ++ ((operands.zipIdx k).filter fun p => p.1 = v).map fun p => ⟨o, p.2⟩ := by
  induction operands with
  | nil => intro s k; simp
  | cons a as ih =>
    intro s k
    rw [List.zipIdx_cons, List.foldl_cons, ih, Store.usesOf_addUse]
    by_cases h : a = v
    · subst h
      simp
    · simp [h, Ne.symm h]

@[simp] theorem usesOf_addOperandUses (s : Store) (o : OpRef) (operands : List ValueRef)
    (v : ValueRef) :
    (s.addOperandUses o operands).usesOf v = s.usesOf v ++ operandUses o operands v :=
  usesOf_foldl_addUse o v operands s 0

section AddOperandUses

variable (s : Store) (o : OpRef) (operands : List ValueRef)

@[simp] theorem ops_addOperandUses : (s.addOperandUses o operands).ops = s.ops := by
  rw [Store.addOperandUses, addOperandUses_eq]

@[simp] theorem values_addOperandUses : (s.addOperandUses o operands).values = s.values := by
  rw [Store.addOperandUses, addOperandUses_eq]

@[simp] theorem blocks_addOperandUses : (s.addOperandUses o operands).blocks = s.blocks := by
  rw [Store.addOperandUses, addOperandUses_eq]

@[simp] theorem regions_addOperandUses : (s.addOperandUses o operands).regions = s.regions := by
  rw [Store.addOperandUses, addOperandUses_eq]

end AddOperandUses

/-- The regions of a list found their owner: nobody owned them before, and nothing else changed. -/
structure RegionsOwned (s : Store) (o : OpRef) (rs : List RegionRef) (t : Store) : Prop where
  unowned : ∀ r ∈ rs, ∃ d, s.region? r = some d ∧ d.parent = none
  nodup : rs.Nodup
  ops : t.ops = s.ops
  values : t.values = s.values
  blocks : t.blocks = s.blocks
  uses : t.uses = s.uses
  size : t.regions.size = s.regions.size
  region? : ∀ r, t.region? r =
    if r ∈ rs then (s.region? r).map fun d => { d with parent := some o } else s.region? r

/-- An operation can only take regions that nobody owns, each of them once. -/
theorem forM_ownRegion {o : OpRef} {rs : List RegionRef} {u : PUnit} :
    ∀ {s t : Store}, rs.forM (ownRegion o) s = .ok (u, t) → RegionsOwned s o rs t := by
  induction rs with
  | nil =>
    intro s t h
    cases h
    exact ⟨by simp, List.nodup_nil, rfl, rfl, rfl, rfl, rfl, by simp⟩
  | cons r rs ih =>
    intro s t h
    simp only [List.forM_eq_forM, List.forM_cons, Edit.bind_ok] at h
    obtain ⟨_, s', hr, hrest⟩ := h
    rw [← List.forM_eq_forM] at hrest
    simp only [ownRegion, Edit.query_bind, Store.region_ok, Edit.ite_run, Edit.throw_bind,
      Edit.modify_run] at hr
    obtain ⟨d, hd, hr⟩ := hr
    split at hr
    · cases hr
    · rename_i hp
      have hp : d.parent = none := by simpa using hp
      cases hr
      have hset := fun x => Store.region?_setRegion (x := x) (e := { d with parent := some o }) hd
      obtain ⟨hun, hnd, hops, hvals, hblocks, huses, hsize, hreg⟩ := ih hrest
      -- a region owned in this step is refused by every later one
      have hnot : r ∉ rs := by
        intro hmem
        obtain ⟨d', hd', hp'⟩ := hun r hmem
        rw [hset, if_pos rfl] at hd'
        cases hd'
        cases hp'
      refine ⟨?_, List.nodup_cons.2 ⟨hnot, hnd⟩, hops, hvals, hblocks, huses, ?_, ?_⟩
      · intro x hx
        rcases List.mem_cons.1 hx with rfl | hx
        · exact ⟨d, hd, hp⟩
        · obtain ⟨d', hd', hp'⟩ := hun x hx
          have hne : x ≠ r := fun h => hnot (h ▸ hx)
          rw [hset, if_neg hne] at hd'
          exact ⟨d', hd', hp'⟩
      · rw [hsize]
        simp [Store.setRegion]
      · intro x
        rw [hreg, hset]
        by_cases hx : x = r
        · subst hx
          simp [hnot, hd]
        · simp [hx]

/-- The blocks of a list found their owner: nobody owned them before, and nothing else changed. -/
structure BlocksOwned (s : Store) (r : RegionRef) (bs : List BlockRef) (t : Store) : Prop where
  unowned : ∀ b ∈ bs, ∃ d, s.block? b = some d ∧ d.parent = none
  nodup : bs.Nodup
  ops : t.ops = s.ops
  values : t.values = s.values
  regions : t.regions = s.regions
  uses : t.uses = s.uses
  size : t.blocks.size = s.blocks.size
  block? : ∀ b, t.block? b =
    if b ∈ bs then (s.block? b).map fun d => { d with parent := some r } else s.block? b

/-- A region can only take blocks that nobody owns, each of them once. -/
theorem forM_ownBlock {r : RegionRef} {bs : List BlockRef} {u : PUnit} :
    ∀ {s t : Store}, bs.forM (ownBlock r) s = .ok (u, t) → BlocksOwned s r bs t := by
  induction bs with
  | nil =>
    intro s t h
    cases h
    exact ⟨by simp, List.nodup_nil, rfl, rfl, rfl, rfl, rfl, by simp⟩
  | cons b bs ih =>
    intro s t h
    simp only [List.forM_eq_forM, List.forM_cons, Edit.bind_ok] at h
    obtain ⟨_, s', hb, hrest⟩ := h
    rw [← List.forM_eq_forM] at hrest
    simp only [ownBlock, Edit.query_bind, Store.block_ok, Edit.ite_run, Edit.throw_bind,
      Edit.modify_run] at hb
    obtain ⟨d, hd, hb⟩ := hb
    split at hb
    · cases hb
    · rename_i hp
      have hp : d.parent = none := by simpa using hp
      cases hb
      have hset := fun x => Store.block?_setBlock (x := x) (e := { d with parent := some r }) hd
      obtain ⟨hun, hnd, hops, hvals, hregs, huses, hsize, hblk⟩ := ih hrest
      have hnot : b ∉ bs := by
        intro hmem
        obtain ⟨d', hd', hp'⟩ := hun b hmem
        rw [hset, if_pos rfl] at hd'
        cases hd'
        cases hp'
      refine ⟨?_, List.nodup_cons.2 ⟨hnot, hnd⟩, hops, hvals, hregs, huses, ?_, ?_⟩
      · intro x hx
        rcases List.mem_cons.1 hx with rfl | hx
        · exact ⟨d, hd, hp⟩
        · obtain ⟨d', hd', hp'⟩ := hun x hx
          have hne : x ≠ b := fun h => hnot (h ▸ hx)
          rw [hset, if_neg hne] at hd'
          exact ⟨d', hd', hp'⟩
      · rw [hsize]
        simp [Store.setBlock]
      · intro x
        rw [hblk, hset]
        by_cases hx : x = b
        · subst hx
          simp [hnot, hd]
        · simp [hx]

/-- The entry of a new operation. -/
def OpSpec.entry (spec : OpSpec) (s : Store) : OpData :=
  { name := spec.name
    operands := spec.operands
    results := s.nextValues spec.resultTypes.length
    resultTypes := spec.resultTypes
    attrs := spec.attrs
    regions := spec.regions
    successors := spec.successors
    parent := none }

/-- The new values that are results of an operation. -/
def resultEntries (o : OpRef) (types : List Ty) : List ValueData :=
  types.zipIdx.map fun t => ⟨.result o t.2, t.1⟩

/-- The new values that are arguments of a block. -/
def argEntries (b : BlockRef) (types : List Ty) : List ValueData :=
  types.zipIdx.map fun t => ⟨.argument b t.2, t.1⟩

/-- Operation `o` came into being: it is the next one, its results are the next values, it owns its
regions, and its uses stand behind the older ones. -/
structure Created (s : Store) (spec : OpSpec) (o : OpRef) (t : Store) : Prop where
  eq_next : o = ⟨s.ops.size⟩
  ops : t.ops = s.ops.push (spec.entry s)
  values : t.values = s.values ++ (resultEntries o spec.resultTypes).toArray
  blocks : t.blocks = s.blocks
  unowned : ∀ r ∈ spec.regions, ∃ d, s.region? r = some d ∧ d.parent = none
  nodup : spec.regions.Nodup
  regions_size : t.regions.size = s.regions.size
  region? : ∀ r, t.region? r =
    if r ∈ spec.regions then (s.region? r).map fun d => { d with parent := some o }
    else s.region? r
  usesOf : ∀ v, t.usesOf v = s.usesOf v ++ operandUses o spec.operands v

/-- What creating an operation does to each table. -/
theorem createOp_ok {spec : OpSpec} {o : OpRef} (h : createOp spec s = .ok (o, t)) :
    Created s spec o t := by
  simp only [createOp, Edit.get_bind, Edit.set_bind, Edit.bind_ok, Edit.modify_bind,
    Edit.pure_run] at h
  obtain ⟨_, s', hown, h⟩ := h
  obtain ⟨hun, hnd, hops, hvals, hblocks, huses, hsize, hreg⟩ := forM_ownRegion hown
  cases h
  refine ⟨rfl, ?_, ?_, ?_, hun, hnd, ?_, ?_, ?_⟩
  · rw [ops_addOperandUses, hops]
    rfl
  · rw [values_addOperandUses, hvals]
    rfl
  · rw [blocks_addOperandUses, hblocks]
  · rw [regions_addOperandUses, hsize]
  · intro r
    show (s'.addOperandUses _ _).regions[r.index]? = _
    rw [regions_addOperandUses]
    exact hreg r
  · intro v
    rw [usesOf_addOperandUses]
    show s'.uses.getD v.index [] ++ _ = _
    rw [huses]
    rfl

theorem Created.op? {spec : OpSpec} {o : OpRef} (h : Created s spec o t) (x : OpRef) :
    t.op? x = if x = o then some (spec.entry s) else s.op? x := by
  obtain ⟨i⟩ := x
  rw [h.eq_next]
  simp only [Store.op?, h.ops, Array.getElem?_push, OpRef.mk.injEq]

/-- Block `b` came into being: it is the next one, and its arguments are the next values. -/
structure BlockCreated (s : Store) (types : List Ty) (b : BlockRef) (t : Store) : Prop where
  eq_next : b = ⟨s.blocks.size⟩
  blocks : t.blocks = s.blocks.push
    { args := s.nextValues types.length, argTypes := types, ops := [], parent := none }
  values : t.values = s.values ++ (argEntries b types).toArray
  ops : t.ops = s.ops
  regions : t.regions = s.regions
  uses : t.uses = s.uses

/-- What creating a block does to each table. -/
theorem createBlock_ok {types : List Ty} {b : BlockRef} (h : createBlock types s = .ok (b, t)) :
    BlockCreated s types b t := by
  simp only [createBlock, Edit.get_bind, Edit.set_bind, Edit.pure_run] at h
  cases h
  exact ⟨rfl, rfl, rfl, rfl, rfl, rfl⟩

theorem BlockCreated.block? {types : List Ty} {b : BlockRef} (h : BlockCreated s types b t)
    (x : BlockRef) : t.block? x = if x = b then
      some { args := s.nextValues types.length, argTypes := types, ops := [], parent := none }
      else s.block? x := by
  obtain ⟨i⟩ := x
  rw [h.eq_next]
  simp only [Store.block?, h.blocks, Array.getElem?_push, BlockRef.mk.injEq]

/-- Region `r` came into being: it is the next one, and owns its blocks. -/
structure RegionCreated (s : Store) (bs : List BlockRef) (r : RegionRef) (t : Store) : Prop where
  eq_next : r = ⟨s.regions.size⟩
  regions : t.regions = s.regions.push ⟨bs, none⟩
  ops : t.ops = s.ops
  values : t.values = s.values
  uses : t.uses = s.uses
  unowned : ∀ b ∈ bs, ∃ d, s.block? b = some d ∧ d.parent = none
  nodup : bs.Nodup
  blocks_size : t.blocks.size = s.blocks.size
  block? : ∀ b, t.block? b =
    if b ∈ bs then (s.block? b).map fun d => { d with parent := some r } else s.block? b

/-- What creating a region does to each table. -/
theorem createRegion_ok {bs : List BlockRef} {r : RegionRef}
    (h : createRegion bs s = .ok (r, t)) : RegionCreated s bs r t := by
  simp only [createRegion, Edit.get_bind, Edit.set_bind, Edit.bind_ok, Edit.pure_run] at h
  obtain ⟨_, s', hown, h⟩ := h
  cases h
  obtain ⟨hun, hnd, hops, hvals, hregs, huses, hsize, hblk⟩ := forM_ownBlock hown
  exact ⟨rfl, hregs, hops, hvals, huses, hun, hnd, hsize, hblk⟩

theorem RegionCreated.region? {bs : List BlockRef} {r : RegionRef} (h : RegionCreated s bs r t)
    (x : RegionRef) : t.region? x = if x = r then some ⟨bs, none⟩ else s.region? x := by
  obtain ⟨i⟩ := x
  rw [h.eq_next]
  simp only [Store.region?, h.regions, Array.getElem?_push, RegionRef.mk.injEq]

/-! ## Operands and uses -/

section DropUses

variable {γ : Type} (key : γ → ValueRef) (drop : γ → Use → Bool)

/-- Forgetting uses writes no table but that of the uses. -/
theorem foldl_dropUses_eq (l : List γ) :
    ∀ s : Store, l.foldl (fun s a => s.dropUses (key a) (drop a)) s =
      { s with uses := (l.foldl (fun s a => s.dropUses (key a) (drop a)) s).uses } := by
  induction l with
  | nil => intro s; rfl
  | cons a l ih =>
    intro s
    rw [List.foldl_cons, ih]
    rfl

/-- Of the uses of a value those are left that no step forgets. -/
theorem usesOf_foldl_dropUses (v : ValueRef) (l : List γ) :
    ∀ s : Store, (l.foldl (fun s a => s.dropUses (key a) (drop a)) s).usesOf v =
      (s.usesOf v).filter fun u => !l.any fun a => decide (key a = v) && drop a u := by
  induction l with
  | nil =>
    intro s
    exact (List.filter_eq_self.2 (by simp)).symm
  | cons a l ih =>
    intro s
    rw [List.foldl_cons, ih, Store.usesOf_dropUses]
    by_cases h : v = key a
    · subst h
      simp [List.filter_filter, Bool.and_comm]
    · simp [h, Ne.symm h]

end DropUses

/-- The operands of `o` were replaced: it gave up all its old uses and has one for each operand. -/
structure OperandsSet (s : Store) (o : OpRef) (d : OpData) (operands : List ValueRef) (t : Store) :
    Prop where
  ops : t.ops = (s.setOp o { d with operands := operands }).ops
  values : t.values = s.values
  blocks : t.blocks = s.blocks
  regions : t.regions = s.regions
  usesOf : ∀ v, t.usesOf v =
    ((s.usesOf v).filter fun u => !(decide (v ∈ d.operands) && decide (u.user = o))) ++
      operandUses o operands v

/-- Replacing the operands drops all uses that the operation made of its old ones, and records the
new ones behind what is left. -/
theorem setOperands_ok {o : OpRef} {operands : List ValueRef} {u : Unit}
    (h : setOperands o operands s = .ok (u, t)) :
    ∃ d, s.op? o = some d ∧ OperandsSet s o d operands t := by
  simp only [setOperands, Edit.query_bind, Store.op_ok, Edit.modify_bind, Edit.modify_run] at h
  obtain ⟨d, hd, h⟩ := h
  cases h
  have hdrop := foldl_dropUses_eq id (fun _ u => u.user == o) d.operands s
  have huses := fun v => usesOf_foldl_dropUses id (fun _ u => u.user == o) v d.operands s
  simp only [id_eq] at hdrop huses
  refine ⟨d, hd, ?_, ?_, ?_, ?_, ?_⟩
  · show ((Store.addOperandUses _ _ _).ops).setIfInBounds _ _ = _
    rw [ops_addOperandUses, hdrop]
    rfl
  · show (Store.addOperandUses _ _ _).values = _
    rw [values_addOperandUses, hdrop]
  · show (Store.addOperandUses _ _ _).blocks = _
    rw [blocks_addOperandUses, hdrop]
  · show (Store.addOperandUses _ _ _).regions = _
    rw [regions_addOperandUses, hdrop]
  · intro v
    rw [Store.usesOf_setOp, usesOf_addOperandUses, huses]
    congr 1
    apply List.filter_congr
    intro x _
    by_cases hx : x.user = o
    · have hany : d.operands.any (fun a => decide (a = v)) = decide (v ∈ d.operands) := by
        rw [Bool.eq_iff_iff]
        simp
      simp [hx, hany]
    · simp [hx]

theorem OperandsSet.op? {o : OpRef} {d : OpData} {operands : List ValueRef}
    (hd : s.op? o = some d) (h : OperandsSet s o d operands t) (x : OpRef) :
    t.op? x = if x = o then some { d with operands := operands } else s.op? x := by
  rw [← Store.op?_setOp (e := { d with operands := operands }) hd]
  simp only [Store.op?, h.ops]

/-- Replacing one operand records all uses of the operation anew. -/
theorem setOperand_ok {o : OpRef} {i : Nat} {v : ValueRef} {u : Unit}
    (h : setOperand o i v s = .ok (u, t)) :
    ∃ d, s.op? o = some d ∧ i < d.operands.length ∧ OperandsSet s o d (d.operands.set i v) t := by
  simp only [setOperand, Store.operandsOf, Edit.query_bind, bind_pure_comp, except_map_ok,
    Store.op_ok, Edit.ite_run, Edit.throw_run] at h
  obtain ⟨_, ⟨d, hd, rfl⟩, h⟩ := h
  split at h
  · rename_i hi
    obtain ⟨d', hd', hset⟩ := setOperands_ok h
    cases hd.symm.trans hd'
    exact ⟨d, hd, hi, hset⟩
  · cases h

/-- The slots of a list now hold `new`, which has gained them as uses. -/
structure Redirected (s : Store) (us : List Use) (new : ValueRef) (t : Store) : Prop where
  values : t.values = s.values
  blocks : t.blocks = s.blocks
  regions : t.regions = s.regions
  size : t.ops.size = s.ops.size
  op? : ∀ x, t.op? x = (s.op? x).map fun d =>
    { d with operands := d.operands.mapIdx fun i w => if ⟨x, i⟩ ∈ us then new else w }
  usesOf : ∀ v, t.usesOf v = if v = new then s.usesOf new ++ us else s.usesOf v

theorem Redirected.nil (s : Store) (new : ValueRef) : Redirected s [] new s := by
  refine ⟨rfl, rfl, rfl, rfl, ?_, ?_⟩
  · intro x
    cases s.op? x with
    | none => rfl
    | some d =>
      have hid : d.operands.mapIdx (fun _ w => w) = d.operands := by
        apply List.ext_getElem?
        simp
      simp [hid]
  · intro v
    split <;> simp_all

/-- One use goes over to another value: its slot is written, and the use is recorded there. -/
theorem redirectUse_ok {new : ValueRef} {u : Use} {x : Unit}
    (h : redirectUse new u s = .ok (x, t)) :
    ∃ d, s.op? u.user = some d ∧ u.slot < d.operands.length ∧
      t = (s.setOp u.user { d with operands := d.operands.set u.slot new }).addUse new u := by
  simp only [redirectUse, Edit.query_bind, Store.op_ok, Edit.ite_run, Edit.modify_bind,
    Edit.modify_run, Edit.throw_run] at h
  obtain ⟨d, hd, h⟩ := h
  split at h
  · rename_i hlt
    cases h
    exact ⟨d, hd, hlt, rfl⟩
  · cases h

/-- The first use of a list goes over, and then the others do. -/
theorem Redirected.cons {new : ValueRef} {u : Use} {us : List Use} {d : OpData}
    (hd : s.op? u.user = some d)
    (h : Redirected ((s.setOp u.user
      { d with operands := d.operands.set u.slot new }).addUse new u) us new t) :
    Redirected s (u :: us) new t := by
  obtain ⟨hvals, hblocks, hregs, hsize, hops, huses⟩ := h
  refine ⟨hvals, hblocks, hregs, ?_, ?_, ?_⟩
  · rw [hsize]
    simp [Store.addUse, Store.setUses, Store.setOp]
  · intro x
    rw [hops, Store.addUse, Store.op?_setUses, Store.op?_setOp hd]
    by_cases hx : x = u.user
    · subst hx
      simp only [if_true, hd, Option.map_some, Option.some.injEq, OpData.mk.injEq, true_and,
        and_true]
      apply List.ext_getElem?
      intro i
      simp only [List.getElem?_mapIdx, List.getElem?_set, List.mem_cons]
      by_cases hi : u.slot = i
      · subst hi
        by_cases hlt : u.slot < d.operands.length
        · simp [hlt]
        · simp [hlt]
      · have hne : (⟨u.user, i⟩ : Use) ≠ u := by
          intro h
          exact hi (by rw [← h])
        simp [hi, hne]
    · have hne : ∀ i, (⟨x, i⟩ : Use) ≠ u := by
        intro i h
        exact hx (by rw [← h])
      simp [hx, hne]
  · intro v
    rw [huses]
    by_cases hv : v = new <;> simp [hv]

/-- A list of uses goes over to a value, one after the other. -/
theorem forM_redirectUse {new : ValueRef} {us : List Use} {x : PUnit} :
    ∀ {s t : Store}, us.forM (redirectUse new) s = .ok (x, t) → Redirected s us new t := by
  induction us with
  | nil =>
    intro s t h
    cases h
    exact .nil s new
  | cons u us ih =>
    intro s t h
    simp only [List.forM_eq_forM, List.forM_cons, Edit.bind_ok] at h
    obtain ⟨_, s', hu, hrest⟩ := h
    rw [← List.forM_eq_forM] at hrest
    obtain ⟨d, hd, _, rfl⟩ := redirectUse_ok hu
    exact .cons hd (ih hrest)

/-- The checked edit succeeds only on a slot that holds the old value, and then does what the other
one does. -/
theorem redirectCheckedUse_ok {old new : ValueRef} {u : Use} {x : Unit}
    (h : redirectCheckedUse old new u s = .ok (x, t)) :
    s.slot? u = some old ∧ redirectUse new u s = .ok (x, t) := by
  simp only [redirectCheckedUse, Edit.query_bind, Store.operand, except_bind_ok, Store.op_ok,
    Edit.ite_run, Edit.throw_bind] at h
  obtain ⟨v, ⟨d, hd, hv⟩, h⟩ := h
  split at hv
  · rename_i w hw
    cases hv
    split at h
    · cases h
    · rename_i hne
      have hvo : v = old := by simpa using hne
      subst hvo
      exact ⟨by simp [Store.slot?, hd, hw], h⟩
  · cases hv

theorem forM_redirectCheckedUse {old new : ValueRef} {us : List Use} {x : PUnit} :
    ∀ {s t : Store}, us.forM (redirectCheckedUse old new) s = .ok (x, t) →
      us.forM (redirectUse new) s = .ok (x, t) := by
  induction us with
  | nil => intro s t h; exact h
  | cons u us ih =>
    intro s t h
    simp only [List.forM_eq_forM, List.forM_cons, Edit.bind_ok] at h ⊢
    obtain ⟨a, s', hu, hrest⟩ := h
    rw [← List.forM_eq_forM] at hrest
    exact ⟨a, s', (redirectCheckedUse_ok hu).2, ih hrest⟩

/-- Redirecting succeeds where every use of a list without repetitions names the old value. -/
theorem forM_redirectCheckedUse_total {old : ValueRef} (new : ValueRef) {us : List Use}
    (hnd : us.Nodup) :
    ∀ {s : Store}, (∀ u ∈ us, s.slot? u = some old) →
      ∃ t, us.forM (redirectCheckedUse old new) s = .ok ((), t) := by
  induction us with
  | nil => intro s _; exact ⟨s, rfl⟩
  | cons u us ih =>
    intro s hall
    obtain ⟨hnot, hnd⟩ := List.nodup_cons.1 hnd
    have hu := hall u List.mem_cons_self
    obtain ⟨d, hd, hslot⟩ := Option.bind_eq_some_iff.1 hu
    obtain ⟨hlt, _⟩ := List.getElem?_eq_some_iff.1 hslot
    let s' := (s.setOp u.user { d with operands := d.operands.set u.slot new }).addUse new u
    have hstep : redirectCheckedUse old new u s = .ok ((), s') := by
      simp only [redirectCheckedUse, Edit.query_bind, Store.operand, except_bind_ok, Store.op_ok,
        Edit.ite_run, Edit.throw_bind, redirectUse]
      exact ⟨old, ⟨d, hd, by rw [hslot]; rfl⟩, by simp [hd, hlt, s']⟩
    have hrest : ∀ u' ∈ us, s'.slot? u' = some old := by
      intro u' hu'
      have hold := hall u' (List.mem_cons_of_mem u hu')
      have hne : u' ≠ u := fun h => hnot (h ▸ hu')
      simp only [Store.slot?, s', Store.addUse, Store.op?_setUses, Store.op?_setOp hd] at hold ⊢
      by_cases huser : u'.user = u.user
      · have hslots : u.slot ≠ u'.slot := by
          intro h
          apply hne
          cases u
          cases u'
          simp_all
        rw [huser, hd] at hold
        simpa [huser, List.getElem?_set, hslots] using hold
      · simpa [huser] using hold
    obtain ⟨t, ht⟩ := ih hnd hrest
    refine ⟨t, ?_⟩
    rw [List.forM_eq_forM] at ht ⊢
    rw [List.forM_cons, Edit.bind_ok]
    exact ⟨(), s', hstep, ht⟩

/-- A value is replaced by itself without an effect, and by another one by moving over all its
recorded uses. -/
theorem replaceAllUses_ok {old new : ValueRef} {x : Unit}
    (h : replaceAllUses old new s = .ok (x, t)) :
    (old = new ∧ t = s) ∨ (old ≠ new ∧ Redirected (s.setUses old []) (s.usesOf old) new t) := by
  simp only [replaceAllUses, Edit.ite_run, Edit.pure_run, Edit.get_bind, Edit.modify_bind] at h
  split at h
  · rename_i heq
    cases h
    exact .inl ⟨heq, rfl⟩
  · rename_i hne
    exact .inr ⟨hne, forM_redirectUse (forM_redirectCheckedUse h)⟩

/-- Only uses by accepted operations are moved; the others keep their order. -/
theorem replaceUsesWhere_ok {old new : ValueRef} {accepts : OpRef → Bool} {x : Unit}
    (h : replaceUsesWhere old new accepts s = .ok (x, t)) :
    (old = new ∧ t = s) ∨ (old ≠ new ∧
      Redirected (s.setUses old ((s.usesOf old).filter fun u => !accepts u.user))
        ((s.usesOf old).filter fun u => accepts u.user) new t) := by
  simp only [replaceUsesWhere, Edit.ite_run, Edit.pure_run, Edit.get_bind, Edit.modify_bind] at h
  split at h
  · rename_i heq
    cases h
    exact .inl ⟨heq, rfl⟩
  · rename_i hne
    exact .inr ⟨hne, forM_redirectUse h⟩

/-! ## Removing -/

/-- The uses that `o` made of its operands are gone. -/
structure UsesDropped (s : Store) (o : OpRef) (d : OpData) (t : Store) : Prop where
  ops : t.ops = s.ops
  values : t.values = s.values
  blocks : t.blocks = s.blocks
  regions : t.regions = s.regions
  usesOf : ∀ v, t.usesOf v =
    (s.usesOf v).filter fun u => !(decide (u.user = o) && decide (d.operands[u.slot]? = some v))

/-- Only an operation in no block whose results nobody uses can be removed.  Its entry stays in the
table, and its uses are forgotten. -/
theorem removeOp_ok {o : OpRef} {u : Unit} (h : removeOp o s = .ok (u, t)) :
    ∃ d, s.op? o = some d ∧ d.parent = none ∧ (∀ v ∈ d.results, s.usesOf v = []) ∧
      UsesDropped s o d t := by
  simp only [removeOp, Edit.query_bind, Store.op_ok, Edit.ite_run, Edit.throw_bind,
    Edit.get_bind] at h
  obtain ⟨d, hd, h⟩ := h
  split at h
  · cases h
  · rename_i hp
    cases hfind : d.results.find? s.hasUses with
    | some v => simp [hfind] at h
    | none =>
      simp only [hfind, Edit.modify_run] at h
      cases h
      have hdrop := foldl_dropUses_eq Prod.fst (fun p u => u == ⟨o, p.2⟩) d.operands.zipIdx s
      have huses := fun v =>
        usesOf_foldl_dropUses Prod.fst (fun p u => u == ⟨o, p.2⟩) v d.operands.zipIdx s
      refine ⟨d, hd, by simpa using hp, ?_, ?_, ?_, ?_, ?_, ?_⟩
      · intro v hv
        have := List.find?_eq_none.1 hfind v hv
        simpa [Store.hasUses] using this
      · rw [hdrop]
      · rw [hdrop]
      · rw [hdrop]
      · rw [hdrop]
      · intro v
        rw [huses]
        apply List.filter_congr
        intro x _
        obtain ⟨user, i⟩ := x
        congr 1
        rw [Bool.eq_iff_iff]
        simp only [List.any_eq_true, Prod.exists, List.mem_zipIdx_iff_getElem?, Bool.and_eq_true,
          decide_eq_true_eq, beq_iff_eq, Use.mk.injEq]
        constructor
        · rintro ⟨w, j, hw, rfl, rfl, rfl⟩
          exact ⟨rfl, hw⟩
        · rintro ⟨rfl, hv⟩
          exact ⟨v, i, hv, rfl, rfl, rfl⟩

/-! ## Regions, attributes and successors -/

/-- The regions of a list lost their owner, and nothing else changed. -/
structure RegionsFreed (s : Store) (rs : List RegionRef) (t : Store) : Prop where
  ops : t.ops = s.ops
  values : t.values = s.values
  blocks : t.blocks = s.blocks
  uses : t.uses = s.uses
  size : t.regions.size = s.regions.size
  region? : ∀ r, t.region? r =
    if r ∈ rs then (s.region? r).map fun d => { d with parent := none } else s.region? r

/-- Regions lose their owner one by one. -/
theorem forM_freeRegion {rs : List RegionRef} {u : PUnit} :
    ∀ {s t : Store}, (rs.forM fun r => (do
        let rd ← query (·.region r)
        modify (·.setRegion r { rd with parent := none }) : Edit PUnit)) s = .ok (u, t) →
      RegionsFreed s rs t := by
  induction rs with
  | nil =>
    intro s t h
    cases h
    exact ⟨rfl, rfl, rfl, rfl, rfl, by simp⟩
  | cons r rs ih =>
    intro s t h
    rw [List.forM_eq_forM, List.forM_cons, Edit.bind_ok] at h
    obtain ⟨_, s', hr, hrest⟩ := h
    rw [← List.forM_eq_forM] at hrest
    simp only [Edit.query_bind, Store.region_ok, Edit.modify_run] at hr
    obtain ⟨d, hd, hr⟩ := hr
    cases hr
    have hset := fun x => Store.region?_setRegion (x := x) (e := { d with parent := none }) hd
    obtain ⟨hops, hvals, hblocks, huses, hsize, hreg⟩ := ih hrest
    refine ⟨hops, hvals, hblocks, huses, ?_, ?_⟩
    · rw [hsize]
      simp [Store.setRegion]
    · intro x
      rw [hreg, hset]
      by_cases hx : x = r
      · subst hx
        by_cases hmem : x ∈ rs <;> simp [hmem, hd]
      · simp [hx]

/-- An operation gives up all its regions at once. -/
theorem takeRegions_ok {o : OpRef} {rs : List RegionRef} (h : takeRegions o s = .ok (rs, t)) :
    ∃ d, s.op? o = some d ∧ rs = d.regions ∧
      RegionsFreed (s.setOp o { d with regions := [] }) d.regions t := by
  simp only [takeRegions, Edit.query_bind, Store.op_ok, Edit.modify_bind] at h
  obtain ⟨d, hd, h⟩ := h
  rw [Edit.bind_ok] at h
  obtain ⟨_, s', hfree, h⟩ := h
  cases h
  exact ⟨d, hd, rfl, forM_freeRegion hfree⟩

theorem setAttr_ok {o : OpRef} {key : String} {a : Attr} {u : Unit}
    (h : setAttr o key a s = .ok (u, t)) :
    ∃ d, s.op? o = some d ∧ t = s.setOp o { d with attrs := d.attrs.insert key a } := by
  simp only [setAttr, Edit.query_bind, Store.op_ok, Edit.modify_run] at h
  obtain ⟨d, hd, h⟩ := h
  cases h
  exact ⟨d, hd, rfl⟩

/-- Redirecting branches changes the successors of one operation and nothing else. -/
theorem retargetSuccessors_ok {pairs : List (BlockRef × BlockRef)} {o : OpRef} {u : Unit}
    (h : retargetSuccessors pairs o s = .ok (u, t)) :
    ∃ d successors, s.op? o = some d ∧ t = s.setOp o { d with successors := successors } := by
  simp only [retargetSuccessors, Edit.query_bind, Store.op_ok, Edit.modify_run] at h
  obtain ⟨d, hd, h⟩ := h
  cases h
  exact ⟨d, _, hd, rfl⟩

end AffineRaising.IR
