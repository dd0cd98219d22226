/-
# AffineRaising.Proofs.Store.Erase — erasing removes one tree.

`Within s p o` says that `o` is `p` or nested in it.  A run of `eraseOp` takes exactly the
operations within its argument out of their blocks and out of the recorded uses, and leaves
everything else alone: `eraseOp_ok`.
-/
import AffineRaising.Proofs.Store.Links
import Mathlib.Logic.Relation

namespace AffineRaising.IR

open Store

variable {s t : Store}

/-! ## Nesting -/

/-- An operation of one of the blocks of a list. -/
def InBlocks (s : Store) (bs : List BlockRef) (o : OpRef) : Prop :=
  ∃ b ∈ bs, ∃ bd, s.block? b = some bd ∧ o ∈ bd.ops

/-- An operation of a block of one of the regions of a list. -/
def InRegions (s : Store) (rs : List RegionRef) (o : OpRef) : Prop :=
  ∃ r ∈ rs, ∃ rd, s.region? r = some rd ∧ InBlocks s rd.blocks o

/-- Operation `o` stands in a block of a region of `p`. -/
def Child (s : Store) (p o : OpRef) : Prop :=
  ∃ d, s.op? p = some d ∧ InRegions s d.regions o

/-- Operation `o` is `p` or nested in it. -/
def Within (s : Store) (p o : OpRef) : Prop :=
  Relation.ReflTransGen (Child s) p o

section Lists

variable {b : BlockRef} {bs : List BlockRef} {r : RegionRef} {rs : List RegionRef} {o : OpRef}

theorem InBlocks.head (h : InBlocks s [b] o) : InBlocks s (b :: bs) o := by
  obtain ⟨x, hx, hin⟩ := h
  exact ⟨x, List.mem_singleton.1 hx ▸ List.mem_cons_self, hin⟩

theorem InBlocks.tail (h : InBlocks s bs o) : InBlocks s (b :: bs) o := by
  obtain ⟨x, hx, hin⟩ := h
  exact ⟨x, List.mem_cons_of_mem b hx, hin⟩

theorem InRegions.head (h : InRegions s [r] o) : InRegions s (r :: rs) o := by
  obtain ⟨x, hx, hin⟩ := h
  exact ⟨x, List.mem_singleton.1 hx ▸ List.mem_cons_self, hin⟩

theorem InRegions.tail (h : InRegions s rs o) : InRegions s (r :: rs) o := by
  obtain ⟨x, hx, hin⟩ := h
  exact ⟨x, List.mem_cons_of_mem r hx, hin⟩

/-- What stands in a region of an operation stands in the operation. -/
theorem InRegions.child {p : OpRef} {d : OpData} (h : InRegions s [r] o) (hd : s.op? p = some d)
    (hr : r ∈ d.regions) : Child s p o := by
  obtain ⟨r', hmem, hin⟩ := h
  exact ⟨d, hd, r', List.mem_singleton.1 hmem ▸ hr, hin⟩

end Lists

/-- What is nested in an operation that is there is there. -/
theorem Store.Linked.op?_of_within (hl : Linked s) {p o : OpRef} (hp : ∃ d, s.op? p = some d)
    (hw : Within s p o) : ∃ d, s.op? o = some d := by
  cases hw with
  | refl => exact hp
  | tail _ hc =>
    obtain ⟨_, _, r, _, rd, _, b, _, bd, hbd, ho⟩ := hc
    have hparent := (hl.ops.mem_iff (a := b) (by simp [opsIn, hbd]) o).1 ho
    obtain ⟨d, hd, _⟩ := Option.map_eq_some_iff.1 hparent
    exact ⟨d, hd⟩

/-- Every recorded use names a slot that holds the value. -/
def PointsBack (s : Store) : Prop :=
  ∀ v u, u ∈ s.usesOf v → s.slot? u = some v

/-! ## Stores without some operations -/

/-- The operations `gone` have left their blocks, and their uses are forgotten. -/
structure Erased (s : Store) (gone : List OpRef) (t : Store) : Prop where
  values : t.values = s.values
  regions : t.regions = s.regions
  ops_size : t.ops.size = s.ops.size
  blocks_size : t.blocks.size = s.blocks.size
  op? : ∀ x, t.op? x =
    (s.op? x).map fun d => if x ∈ gone then { d with parent := none } else d
  block? : ∀ b, t.block? b =
    (s.block? b).map fun d => { d with ops := d.ops.filter (· ∉ gone) }
  usesOf : ∀ v, t.usesOf v = (s.usesOf v).filter (·.user ∉ gone)

namespace Erased

variable {gone : List OpRef}

theorem refl (s : Store) : Erased s [] s := by
  refine ⟨rfl, rfl, rfl, rfl, ?_, ?_, ?_⟩
  · intro x
    cases s.op? x <;> simp
  · intro b
    cases s.block? b with
    | none => rfl
    | some d =>
      have hops : d.ops.filter (· ∉ []) = d.ops := List.filter_eq_self.2 (by simp)
      rw [Option.map_some, hops]
  · intro v
    exact (List.filter_eq_self.2 (by simp)).symm

/-- Operations may be erased in two steps. -/
theorem trans {gone' : List OpRef} {s' : Store} (h : Erased s gone s') (h' : Erased s' gone' t) :
    Erased s (gone ++ gone') t := by
  refine ⟨h'.values.trans h.values, h'.regions.trans h.regions, h'.ops_size.trans h.ops_size,
    h'.blocks_size.trans h.blocks_size, ?_, ?_, ?_⟩
  · intro x
    rw [h'.op?, h.op?, Option.map_map]
    congr 1
    funext d
    by_cases hx : x ∈ gone <;> by_cases hx' : x ∈ gone' <;> simp [hx, hx']
  · intro b
    rw [h'.block?, h.block?, Option.map_map]
    congr 1
    funext d
    simp only [Function.comp_apply, List.filter_filter, BlockData.mk.injEq, true_and, and_true]
    apply List.filter_congr
    intro x _
    simp [Bool.and_comm]
  · intro v
    rw [h'.usesOf, h.usesOf, List.filter_filter]
    apply List.filter_congr
    intro x _
    simp [Bool.and_comm]

theorem region? (h : Erased s gone t) (r : RegionRef) : t.region? r = s.region? r := by
  simp only [Store.region?, h.regions]

theorem slot? (h : Erased s gone t) (u : Use) : t.slot? u = s.slot? u := by
  simp only [Store.slot?, h.op?]
  cases s.op? u.user with
  | none => rfl
  | some d =>
    simp only [Option.map_some, Option.bind_some]
    split <;> rfl

theorem value? (h : Erased s gone t) (v : ValueRef) : t.value? v = s.value? v := by
  simp only [Store.value?, h.values]

theorem originOf (h : Erased s gone t) (v : ValueRef) : t.originOf v = s.originOf v := by
  rw [Store.originOf, Store.originOf, h.value?]

/-- What is not gone keeps its entry. -/
theorem op?_left (h : Erased s gone t) {x : OpRef} (hx : x ∉ gone) : t.op? x = s.op? x := by
  rw [h.op?]
  cases s.op? x <;> simp [hx]

/-- All operations keep their results, what is gone included. -/
theorem resultsOf (h : Erased s gone t) (o : OpRef) : t.resultsOf o = s.resultsOf o := by
  have hentry := h.op? o
  unfold Store.op? at hentry
  unfold Store.resultsOf
  rw [hentry]
  cases s.ops[o.index]? with
  | none => rfl
  | some d => by_cases ho : o ∈ gone <;> simp [ho]

/-- Erasing keeps members and holders in agreement. -/
theorem linked (h : Erased s gone t) (hl : Linked s) : Linked t := by
  refine ⟨hl.ops.remove gone (fun b => ?_) (fun x => ?_),
    hl.blocks.congr (fun r => ?_) (fun b => ?_), hl.regions.congr (fun x => ?_) (fun r => ?_),
    hl.results.congr (fun x => ?_) (fun v => ?_), hl.args.congr (fun b => ?_) (fun v => ?_)⟩
  · rw [opsIn, h.block?, opsIn]
    cases s.block? b <;> rfl
  · rw [opParent, h.op?, opParent]
    cases s.op? x with
    | none => simp
    | some d => by_cases hx : x ∈ gone <;> simp [hx]
  · simp only [blocksIn, h.region?]
  · rw [blockParent, h.block?, blockParent]
    cases s.block? b <;> rfl
  · rw [regionsIn, h.op?, regionsIn]
    cases s.op? x with
    | none => rfl
    | some d => by_cases hx : x ∈ gone <;> simp [hx]
  · simp only [regionParent, h.region?]
  · rw [resultsIn, h.op?, resultsIn]
    cases s.op? x with
    | none => rfl
    | some d => by_cases hx : x ∈ gone <;> simp [hx]
  · exact h.originOf v
  · rw [argsIn, h.block?, argsIn]
    cases s.block? b <;> rfl
  · exact h.originOf v

theorem pointsBack (h : Erased s gone t) (hp : PointsBack s) : PointsBack t := by
  intro v u hu
  rw [h.usesOf] at hu
  rw [h.slot?]
  exact hp v u (List.mem_filter.1 hu).1

/-- The blocks hold what they held, without what is gone. -/
theorem inBlocks_iff (h : Erased s gone t) {bs : List BlockRef} {o : OpRef} :
    InBlocks t bs o ↔ InBlocks s bs o ∧ o ∉ gone := by
  constructor
  · rintro ⟨b, hb, bd, hbd, ho⟩
    rw [h.block?] at hbd
    obtain ⟨sd, hsd, rfl⟩ := Option.map_eq_some_iff.1 hbd
    have ho := List.mem_filter.1 ho
    exact ⟨⟨b, hb, sd, hsd, ho.1⟩, by simpa using ho.2⟩
  · rintro ⟨⟨b, hb, bd, hbd, ho⟩, hgone⟩
    refine ⟨b, hb, { bd with ops := bd.ops.filter (· ∉ gone) }, ?_, ?_⟩
    · rw [h.block?, hbd]
      rfl
    · exact List.mem_filter.2 ⟨ho, by simpa using hgone⟩

/-- The regions hold what they held, without what is gone. -/
theorem inRegions_iff (h : Erased s gone t) {rs : List RegionRef} {o : OpRef} :
    InRegions t rs o ↔ InRegions s rs o ∧ o ∉ gone := by
  simp only [InRegions, h.region?, h.inBlocks_iff]
  constructor
  · rintro ⟨r, hr, rd, hrd, hin, hgone⟩
    exact ⟨⟨r, hr, rd, hrd, hin⟩, hgone⟩
  · rintro ⟨⟨r, hr, rd, hrd, hin⟩, hgone⟩
    exact ⟨r, hr, rd, hrd, hin, hgone⟩

/-- What stood in an operation stands there unless it is gone. -/
theorem child_iff (h : Erased s gone t) {p o : OpRef} :
    Child t p o ↔ Child s p o ∧ o ∉ gone := by
  simp only [Child, h.op?]
  cases s.op? p with
  | none => simp
  | some d =>
    have hregions : (if p ∈ gone then { d with parent := none } else d).regions = d.regions := by
      split <;> rfl
    simp [h.inRegions_iff, hregions]

/-- What is nested after an erasure was nested before. -/
theorem within_of_within (h : Erased s gone t) {p o : OpRef} (hw : Within t p o) :
    Within s p o :=
  Relation.ReflTransGen.mono (fun _ _ hc => (h.child_iff.1 hc).1) _ _ hw

end Erased

/-! ## Erasing several trees in turn -/

/-- Exactly the operations within roots that satisfy `P` are gone. -/
def Clears (s : Store) (P : OpRef → Prop) (t : Store) : Prop :=
  ∃ gone, Erased s gone t ∧ ∀ x, x ∈ gone ↔ ∃ o, P o ∧ Within s o x

namespace Clears

variable {P Q : OpRef → Prop}

theorem refl (s : Store) : Clears s (fun _ => False) s :=
  ⟨[], Erased.refl s, by simp⟩

/-- What is gone is closed under nesting, so a path into the second trees either lies in what the
first step left, or enters what it took. -/
theorem trans {s' : Store} (h : Clears s P s') (h' : Clears s' Q t) :
    Clears s (fun o => P o ∨ Q o) t := by
  obtain ⟨gone, he, hgone⟩ := h
  obtain ⟨gone', he', hgone'⟩ := h'
  refine ⟨gone ++ gone', he.trans he', fun x => ?_⟩
  have hpath : ∀ o, Within s o x → x ∈ gone ∨ Within s' o x := by
    intro o hw
    induction hw with
    | refl => exact .inr .refl
    | @tail y z _ hc ih =>
      rcases ih with hy | hy
      · obtain ⟨root, hroot, hwy⟩ := (hgone y).1 hy
        exact .inl ((hgone z).2 ⟨root, hroot, hwy.tail hc⟩)
      · by_cases hz : z ∈ gone
        · exact .inl hz
        · exact .inr (hy.tail (he.child_iff.2 ⟨hc, hz⟩))
  rw [List.mem_append]
  constructor
  · rintro (hx | hx)
    · obtain ⟨o, ho, hw⟩ := (hgone x).1 hx
      exact ⟨o, .inl ho, hw⟩
    · obtain ⟨o, ho, hw⟩ := (hgone' x).1 hx
      exact ⟨o, .inr ho, he.within_of_within hw⟩
  · rintro ⟨o, ho | ho, hw⟩
    · exact .inl ((hgone x).2 ⟨o, ho, hw⟩)
    · rcases hpath o hw with hx | hx
      · exact .inl hx
      · exact .inr ((hgone' x).2 ⟨o, ho, hx⟩)

/-- Roots may be added that lie within others. -/
theorem congr (h : Clears s P t) (hPQ : ∀ o, P o → Q o)
    (hQP : ∀ o, Q o → ∃ p, P p ∧ Within s p o) : Clears s Q t := by
  obtain ⟨gone, he, hgone⟩ := h
  refine ⟨gone, he, fun x => ?_⟩
  rw [hgone]
  constructor
  · rintro ⟨o, ho, hw⟩
    exact ⟨o, hPQ o ho, hw⟩
  · rintro ⟨o, ho, hw⟩
    obtain ⟨p, hp, hpo⟩ := hQP o ho
    exact ⟨p, hp, hpo.trans hw⟩

theorem linked (h : Clears s P t) (hl : Linked s) : Linked t := by
  obtain ⟨_, he, _⟩ := h
  exact he.linked hl

theorem pointsBack (h : Clears s P t) (hp : PointsBack s) : PointsBack t := by
  obtain ⟨_, he, _⟩ := h
  exact he.pointsBack hp

end Clears

/-! ## Runs -/

section Detach

variable {o : OpRef} {u : Unit}

/-- Nothing is lost from a block in which the operation does not stand. -/
theorem filter_of_opParent_ne (hl : Linked s) {b : BlockRef} {bd : BlockData}
    (hb : s.block? b = some bd) (ho : s.opParent o ≠ some (some b)) :
    bd.ops.filter (· ∉ [o]) = bd.ops := by
  refine List.filter_eq_self.2 fun y hy => ?_
  have hy' := (hl.ops.mem_iff (a := b) (by simp [opsIn, hb]) y).1 hy
  have hyo : y ≠ o := fun hyo => ho (hyo ▸ hy')
  simpa using hyo

/-- The operation forgets its block, and no other entry of an operation changes. -/
theorem detach_op? (h : detach o s = .ok (u, t)) (x : OpRef) :
    t.op? x = (s.op? x).map fun d => if x ∈ [o] then { d with parent := none } else d := by
  obtain ⟨d, hd, hcases⟩ := detach_ok h
  by_cases hxo : x = o
  · subst hxo
    rcases hcases with ⟨hnone, rfl⟩ | ⟨b, bd, _, _, rfl⟩
    · simp [hd, ← hnone]
    · rw [op?_unlink hd, if_pos rfl, hd]
      simp
  · have hsame : t.op? x = s.op? x := by
      rcases hcases with ⟨_, rfl⟩ | ⟨b, bd, _, _, rfl⟩
      · rfl
      · rw [op?_unlink hd, if_neg hxo]
    rw [hsame]
    cases s.op? x <;> simp [hxo]

/-- The operation leaves the block in which it stands, if it stands in one. -/
theorem detach_block? (hl : Linked s) (h : detach o s = .ok (u, t)) (b : BlockRef) :
    t.block? b = (s.block? b).map fun d => { d with ops := d.ops.filter (· ∉ [o]) } := by
  obtain ⟨d, hd, hcases⟩ := detach_ok h
  have hkeep : t.block? b = s.block? b → s.opParent o ≠ some (some b) →
      t.block? b = (s.block? b).map fun d => { d with ops := d.ops.filter (· ∉ [o]) } := by
    intro hsame hne
    rw [hsame]
    cases hb : s.block? b with
    | none => rfl
    | some e => rw [Option.map_some, filter_of_opParent_ne hl hb hne]
  rcases hcases with ⟨hnone, rfl⟩ | ⟨b', bd, hparent, hbd, rfl⟩
  · exact hkeep rfl (by simp [opParent, hd, hnone])
  · by_cases hb : b = b'
    · subst hb
      rw [block?_unlink hbd, if_pos rfl, hbd, Option.map_some]
      congr 2
      exact List.filter_congr fun y _ => by by_cases hy : y = o <;> simp [hy]
    · refine hkeep ?_ (by simp [opParent, hd, hparent, Ne.symm hb])
      rw [block?_unlink hbd, if_neg hb]

/-- Detaching leaves the recorded uses alone. -/
theorem detach_usesOf (h : detach o s = .ok (u, t)) (v : ValueRef) : t.usesOf v = s.usesOf v := by
  obtain ⟨d, _, ⟨_, rfl⟩ | ⟨b, bd, _, _, rfl⟩⟩ := detach_ok h <;> rfl

/-- Values and regions stay as they are, and no table grows. -/
theorem detach_tables (h : detach o s = .ok (u, t)) : t.values = s.values ∧
    t.regions = s.regions ∧ t.ops.size = s.ops.size ∧ t.blocks.size = s.blocks.size := by
  obtain ⟨d, _, ⟨_, rfl⟩ | ⟨b, bd, _, _, rfl⟩⟩ := detach_ok h
  · exact ⟨rfl, rfl, rfl, rfl⟩
  · exact ⟨rfl, rfl, by simp [Store.unlink, Store.setOp, Store.setBlock],
      by simp [Store.unlink, Store.setOp, Store.setBlock]⟩

/-- The last step: an operation leaves its block and its uses are forgotten. -/
theorem detach_removeOp_ok {s' : Store} {u' : Unit} (hl : Linked s) (hp : PointsBack s)
    (hdetach : detach o s = .ok (u, s')) (hremove : removeOp o s' = .ok (u', t)) :
    Erased s [o] t := by
  obtain ⟨d', hd', _, _, hdrop⟩ := removeOp_ok hremove
  obtain ⟨hvalues, hregions, hops, hblocks⟩ := detach_tables hdetach
  refine ⟨hdrop.values.trans hvalues, hdrop.regions.trans hregions, ?_, ?_, fun x => ?_,
    fun b => ?_, fun v => ?_⟩
  · rw [hdrop.ops, hops]
  · rw [hdrop.blocks, hblocks]
  · rw [← detach_op? hdetach]
    simp only [Store.op?, hdrop.ops]
  · rw [← detach_block? hl hdetach]
    simp only [Store.block?, hdrop.blocks]
  · rw [hdrop.usesOf, detach_usesOf hdetach]
    refine List.filter_congr fun x hx => ?_
    by_cases hxo : x.user = o
    · -- a use by the operation names one of its operands, so it is among those that are dropped
      have hslot := hp v x hx
      obtain ⟨d, hd, hslot⟩ := Option.bind_eq_some_iff.1 hslot
      rw [detach_op? hdetach, ← hxo, hd] at hd'
      cases hd'
      simp [hxo, hslot]
    · simp [hxo]

end Detach

section Loops

-- what the erasure of one operation does, as far as the loops over its regions need it
variable {erase : OpRef → Edit Unit}
  (step : ∀ {o s t u}, Linked s → PointsBack s → erase o s = .ok (u, t) → Clears s (· = o) t)

include step

/-- A list of operations is erased one after the other. -/
theorem forM_erase_ok {os : List OpRef} {u : PUnit} :
    ∀ {s t : Store}, Linked s → PointsBack s → os.forM erase s = .ok (u, t) →
      Clears s (· ∈ os) t := by
  induction os with
  | nil =>
    intro s t _ _ h
    cases h
    exact (Clears.refl s).congr (by simp) (by simp)
  | cons o os ih =>
    intro s t hl hp h
    rw [List.forM_eq_forM, List.forM_cons, Edit.bind_ok] at h
    obtain ⟨_, s', ho, hrest⟩ := h
    rw [← List.forM_eq_forM] at hrest
    have hfirst := step hl hp ho
    refine (hfirst.trans (ih (hfirst.linked hl) (hfirst.pointsBack hp) hrest)).congr ?_ ?_
    · rintro x (rfl | hx)
      · exact List.mem_cons_self
      · exact List.mem_cons_of_mem o hx
    · intro x hx
      exact ⟨x, List.mem_cons.1 hx, .refl⟩

/-- Blocks are emptied one after the other, each from its end. -/
theorem forM_eraseBlock_ok {bs : List BlockRef} {u : PUnit} {P : OpRef → Prop} (hl : Linked s)
    (hp : PointsBack s) :
    ∀ {s' t : Store}, Clears s P s' →
      (bs.forM fun b => (do
        let bd ← query (·.block b)
        bd.ops.reverse.forM erase : Edit PUnit)) s' = .ok (u, t) →
      Clears s (fun o => P o ∨ InBlocks s bs o) t := by
  induction bs generalizing P with
  | nil =>
    intro s' t hs h
    cases h
    exact hs.congr (fun _ => .inl) (by simp [InBlocks]; exact fun o ho => ⟨o, ho, .refl⟩)
  | cons b bs ih =>
    intro s' t hs h
    rw [List.forM_eq_forM, List.forM_cons, Edit.bind_ok] at h
    obtain ⟨_, s'', hb, hrest⟩ := h
    rw [← List.forM_eq_forM] at hrest
    simp only [Edit.query_bind, Store.block_ok] at hb
    obtain ⟨bd, hbd, hb⟩ := hb
    have hops := forM_erase_ok step (hs.linked hl) (hs.pointsBack hp) hb
    -- operations of the block that are missing here are gone already, as parts of other trees
    have hblock : Clears s (fun o => P o ∨ InBlocks s [b] o) s'' := by
      refine (hs.trans hops).congr ?_ ?_
      · rintro o (ho | ho)
        · exact .inl ho
        · obtain ⟨gone, he, _⟩ := hs
          have : InBlocks s' [b] o := ⟨b, by simp, bd, hbd, List.mem_reverse.1 ho⟩
          exact .inr (he.inBlocks_iff.1 this).1
      · rintro o (ho | ho)
        · exact ⟨o, .inl ho, .refl⟩
        · obtain ⟨gone, he, hgone⟩ := hs
          by_cases hog : o ∈ gone
          · obtain ⟨p, hpp, hw⟩ := (hgone o).1 hog
            exact ⟨p, .inl hpp, hw⟩
          · obtain ⟨b', hb', bd', hbd', ho'⟩ := he.inBlocks_iff.2 ⟨ho, hog⟩
            cases List.mem_singleton.1 hb'
            cases hbd.symm.trans hbd'
            exact ⟨o, .inr (List.mem_reverse.2 ho'), .refl⟩
    refine (ih hblock hrest).congr ?_ ?_
    · rintro o ((ho | ⟨b', hb', h⟩) | ⟨b', hb', h⟩)
      · exact .inl ho
      · exact .inr ⟨b', by simp_all, h⟩
      · exact .inr ⟨b', List.mem_cons_of_mem b hb', h⟩
    · rintro o (ho | ⟨b', hb', h⟩)
      · exact ⟨o, .inl (.inl ho), .refl⟩
      · rcases List.mem_cons.1 hb' with rfl | hb'
        · exact ⟨o, .inl (.inr ⟨b', by simp, h⟩), .refl⟩
        · exact ⟨o, .inr ⟨b', hb', h⟩, .refl⟩

/-- Regions are emptied one after the other. -/
theorem forM_eraseRegion_ok {rs : List RegionRef} {u : PUnit} {P : OpRef → Prop} (hl : Linked s)
    (hp : PointsBack s) :
    ∀ {s' t : Store}, Clears s P s' →
      (rs.forM fun r => (do
        let rd ← query (·.region r)
        rd.blocks.reverse.forM fun b => (do
          let bd ← query (·.block b)
          bd.ops.reverse.forM erase : Edit PUnit) : Edit PUnit)) s' = .ok (u, t) →
      Clears s (fun o => P o ∨ InRegions s rs o) t := by
  induction rs generalizing P with
  | nil =>
    intro s' t hs h
    cases h
    exact hs.congr (fun _ => .inl) (by simp [InRegions]; exact fun o ho => ⟨o, ho, .refl⟩)
  | cons r rs ih =>
    intro s' t hs h
    rw [List.forM_eq_forM, List.forM_cons, Edit.bind_ok] at h
    obtain ⟨_, s'', hr, hrest⟩ := h
    rw [← List.forM_eq_forM] at hrest
    simp only [Edit.query_bind, Store.region_ok] at hr
    obtain ⟨rd, hrd, hr⟩ := hr
    have hregion : s.region? r = some rd := by
      obtain ⟨_, he, _⟩ := hs
      rw [← he.region?, hrd]
    refine (ih (forM_eraseBlock_ok step hl hp hs hr) hrest).congr ?_ ?_
    · rintro o ((ho | ⟨b, hb, h⟩) | ⟨r', hr', h⟩)
      · exact .inl ho
      · exact .inr ⟨r, by simp, rd, hregion, b, List.mem_reverse.1 hb, h⟩
      · exact .inr ⟨r', List.mem_cons_of_mem r hr', h⟩
    · rintro o (ho | ⟨r', hr', rd', hrd', b, hb, h⟩)
      · exact ⟨o, .inl (.inl ho), .refl⟩
      · rcases List.mem_cons.1 hr' with rfl | hr'
        · cases hregion.symm.trans hrd'
          exact ⟨o, .inl (.inr ⟨b, List.mem_reverse.2 hb, h⟩), .refl⟩
        · exact ⟨o, .inr ⟨r', hr', rd', hrd', b, hb, h⟩, .refl⟩

end Loops

/-- By induction on the depth, what is erased is the tree under the operation. -/
theorem eraseWithin_ok (n : Nat) : ∀ {o : OpRef} {s t : Store} {u : Unit}, Linked s →
    PointsBack s → eraseWithin n o s = .ok (u, t) → Clears s (· = o) t := by
  induction n with
  | zero =>
    intro o s t u _ _ h
    cases h
  | succ n ih =>
    intro o s t u hl hp h
    simp only [eraseWithin, Edit.query_bind, Store.op_ok] at h
    obtain ⟨d, hd, h⟩ := h
    rw [Edit.bind_ok] at h
    obtain ⟨_, s', hregions, h⟩ := h
    rw [Edit.bind_ok] at h
    obtain ⟨_, s'', hdetach, hremove⟩ := h
    have hnested := forM_eraseRegion_ok ih hl hp (Clears.refl s) hregions
    obtain ⟨gone, he, hgone⟩ := hnested
    have hlast := detach_removeOp_ok (he.linked hl) (he.pointsBack hp) hdetach hremove
    refine ⟨gone ++ [o], he.trans hlast, fun x => ?_⟩
    have hchild : ∀ y, Child s o y ↔ InRegions s d.regions y := by
      intro y
      constructor
      · rintro ⟨d', hd', hin⟩
        cases hd.symm.trans hd'
        exact hin
      · intro hin
        exact ⟨d, hd, hin⟩
    rw [List.mem_append, List.mem_singleton, hgone]
    simp only [false_or, exists_eq_left, ← hchild]
    constructor
    · rintro (⟨y, hc, hw⟩ | rfl)
      · exact .head hc hw
      · exact .refl
    · intro hw
      rcases hw.cases_head with rfl | ⟨y, hc, hw⟩
      · exact .inr rfl
      · exact .inl ⟨y, hc, hw⟩

/-- Only an operation that is there can be erased. -/
theorem eraseOp_op? {o : OpRef} {u : Unit} (h : eraseOp o s = .ok (u, t)) :
    ∃ d, s.op? o = some d := by
  simp only [eraseOp, Edit.get_bind, Store.depthBound, eraseWithin, Edit.query_bind,
    Store.op_ok] at h
  obtain ⟨d, hd, _⟩ := h
  exact ⟨d, hd⟩

/-- What was erased has no results in use any more. -/
theorem eraseOp_unused {o : OpRef} {u : Unit} (h : eraseOp o s = .ok (u, t)) {v : ValueRef}
    (hv : v ∈ t.resultsOf o) : t.usesOf v = [] := by
  simp only [eraseOp, Edit.get_bind, Store.depthBound, eraseWithin, Edit.query_bind] at h
  obtain ⟨_, _, h⟩ := h
  rw [Edit.bind_ok] at h
  obtain ⟨_, s', _, h⟩ := h
  rw [Edit.bind_ok] at h
  obtain ⟨_, s'', _, hremove⟩ := h
  obtain ⟨d, hd, _, hunused, hdrop⟩ := removeOp_ok hremove
  have hentry : t.op? o = some d := by
    rw [Store.op?, hdrop.ops]
    exact hd
  rw [resultsOf_eq hentry] at hv
  rw [hdrop.usesOf, hunused v hv]
  rfl

/-- Erasing an operation takes exactly what is within it. -/
theorem eraseOp_ok {o : OpRef} {u : Unit} (hl : Linked s) (hp : PointsBack s)
    (h : eraseOp o s = .ok (u, t)) :
    ∃ gone, Erased s gone t ∧ ∀ x, x ∈ gone ↔ Within s o x := by
  rw [eraseOp, Edit.get_bind] at h
  obtain ⟨gone, he, hgone⟩ := eraseWithin_ok _ hl hp h
  exact ⟨gone, he, fun x => by rw [hgone, exists_eq_left]⟩

end AffineRaising.IR
