/-
# AffineRaising.Proofs.Store.Copy — a copy is new and stands apart.

A copy of an operation touches nothing that was there before: it is made of new operations, blocks,
regions and values, and its uses stand behind the older ones (`Copied`).  All its operations are
nested in the one that is returned (`NewUnder`), which is in no block and whose results nobody uses.
`cloneOp_ok` states this.  Where every operand is a value (`Grounded`), this stays so, and nobody
uses the results of the copy.
-/
import AffineRaising.Proofs.Store.UseChain

namespace AffineRaising.IR

open Store
open Edit (Keeps)

variable {s s' t : Store} {gone : OpRef → Prop}

/-! ## New beside old -/

/-- Everything that was there is there as it was; new uses are by new operations and stand behind
the older ones. -/
structure Copied (s t : Store) : Prop where
  op? : ∀ x d, s.op? x = some d → t.op? x = some d
  block? : ∀ b d, s.block? b = some d → t.block? b = some d
  region? : ∀ r d, s.region? r = some d → t.region? r = some d
  value? : ∀ v d, s.value? v = some d → t.value? v = some d
  usesOf : ∀ v, ∃ added, t.usesOf v = s.usesOf v ++ added ∧ ∀ u ∈ added, s.op? u.user = none

namespace Copied

theorem refl (s : Store) : Copied s s :=
  ⟨fun _ _ h => h, fun _ _ h => h, fun _ _ h => h, fun _ _ h => h, fun _ => ⟨[], by simp, by simp⟩⟩

/-- What is not in the new store was not in the old one. -/
theorem op?_none (h : Copied s t) {x : OpRef} (hx : t.op? x = none) : s.op? x = none := by
  cases hs : s.op? x with
  | none => rfl
  | some d =>
    rw [h.op? x d hs] at hx
    cases hx

theorem block?_none (h : Copied s t) {b : BlockRef} (hb : t.block? b = none) :
    s.block? b = none := by
  cases hs : s.block? b with
  | none => rfl
  | some d =>
    rw [h.block? b d hs] at hb
    cases hb

theorem region?_none (h : Copied s t) {r : RegionRef} (hr : t.region? r = none) :
    s.region? r = none := by
  cases hs : s.region? r with
  | none => rfl
  | some d =>
    rw [h.region? r d hs] at hr
    cases hr

/-- A new entry of an operation may change. -/
theorem setOp (h : Copied s t) {o : OpRef} (ho : s.op? o = none) {d e : OpData}
    (hd : t.op? o = some d) : Copied s (t.setOp o e) := by
  refine ⟨fun x dx hx => ?_, h.block?, h.region?, h.value?, h.usesOf⟩
  have hne : x ≠ o := by
    rintro rfl
    rw [ho] at hx
    cases hx
  rw [op?_setOp hd, if_neg hne]
  exact h.op? x dx hx

/-- A new entry of a block may change. -/
theorem setBlock (h : Copied s t) {b : BlockRef} (hb : s.block? b = none) {d e : BlockData}
    (hd : t.block? b = some d) : Copied s (t.setBlock b e) := by
  refine ⟨h.op?, fun x dx hx => ?_, h.region?, h.value?, h.usesOf⟩
  have hne : x ≠ b := by
    rintro rfl
    rw [hb] at hx
    cases hx
  rw [block?_setBlock hd, if_neg hne]
  exact h.block? x dx hx

/-- A new operation may be put into a new block. -/
theorem pushOp (h : Copied s s') {b : BlockRef} {o : OpRef} {u : Unit} (ho : s.op? o = none)
    (hb : s.block? b = none) (hrun : pushOp b o s' = .ok (u, t)) : Copied s t := by
  rw [pushOp_eq_insertOp] at hrun
  obtain ⟨d, bd, front, back, hd, _, hbd, _, _, _, rfl⟩ := insertOp_ok hrun
  exact (h.setOp ho hd).setBlock hb hbd

end Copied

/-- New values go behind those that are there. -/
theorem value?_append {es : List ValueData} (h : t.values = s.values ++ es.toArray) {v : ValueRef}
    {d : ValueData} (hv : s.value? v = some d) : t.value? v = some d := by
  unfold Store.value? at *
  obtain ⟨hlt, _⟩ := Array.getElem?_eq_some_iff.1 hv
  rw [h, Array.getElem?_append_left hlt, hv]

/-- A new operation with new regions leaves alone what is there. -/
theorem Created.copied {spec : OpSpec} {o : OpRef} (hc : Created s' spec o t) (h : Copied s s')
    (hr : ∀ r ∈ spec.regions, s.region? r = none) : Copied s t := by
  have hnone : s'.op? o = none := by rw [hc.eq_next, op?_next]
  refine ⟨fun x d hx => ?_, fun b d hb => ?_, fun r d hd => ?_, fun v d hv => ?_, fun v => ?_⟩
  · have hx' := h.op? x d hx
    have hne : x ≠ o := by
      rintro rfl
      rw [hnone] at hx'
      cases hx'
    rw [hc.op?, if_neg hne, hx']
  · have hb' := h.block? b d hb
    rwa [Store.block?, hc.blocks]
  · have hne : r ∉ spec.regions := fun hmem => by
      rw [hr r hmem] at hd
      cases hd
    rw [hc.region?, if_neg hne]
    exact h.region? r d hd
  · exact value?_append hc.values (h.value? v d hv)
  · obtain ⟨added, heq, hnew⟩ := h.usesOf v
    refine ⟨added ++ operandUses o spec.operands v, by rw [hc.usesOf, heq, List.append_assoc], ?_⟩
    intro u hu
    rcases List.mem_append.1 hu with hu | hu
    · exact hnew u hu
    · rw [(mem_operandUses.1 hu).1]
      exact h.op?_none hnone

theorem BlockCreated.copied {types : List Ty} {b : BlockRef} (hc : BlockCreated s' types b t)
    (h : Copied s s') : Copied s t := by
  have hnone : s'.block? b = none := by rw [hc.eq_next, block?_next]
  refine ⟨fun x d hx => ?_, fun x d hx => ?_, fun r d hr => ?_, fun v d hv => ?_, fun v => ?_⟩
  · have hx' := h.op? x d hx
    rwa [Store.op?, hc.ops]
  · have hx' := h.block? x d hx
    have hne : x ≠ b := by
      rintro rfl
      rw [hnone] at hx'
      cases hx'
    rw [hc.block?, if_neg hne, hx']
  · have hr' := h.region? r d hr
    rwa [Store.region?, hc.regions]
  · exact value?_append hc.values (h.value? v d hv)
  · have huses : t.usesOf v = s'.usesOf v := by rw [Store.usesOf, hc.uses]; rfl
    rw [huses]
    exact h.usesOf v

/-- A new region of new blocks leaves alone what is there. -/
theorem RegionCreated.copied {bs : List BlockRef} {r : RegionRef} (hc : RegionCreated s' bs r t)
    (h : Copied s s') (hb : ∀ b ∈ bs, s.block? b = none) : Copied s t := by
  have hnone : s'.region? r = none := by rw [hc.eq_next, region?_next]
  refine ⟨fun x d hx => ?_, fun x d hx => ?_, fun x d hx => ?_, fun v d hv => ?_, fun v => ?_⟩
  · have hx' := h.op? x d hx
    rwa [Store.op?, hc.ops]
  · have hne : x ∉ bs := fun hmem => by
      rw [hb x hmem] at hx
      cases hx
    rw [hc.block?, if_neg hne]
    exact h.block? x d hx
  · have hx' := h.region? x d hx
    have hne : x ≠ r := by
      rintro rfl
      rw [hnone] at hx'
      cases hx'
    rw [hc.region?, if_neg hne, hx']
  · have hv' := h.value? v d hv
    rwa [Store.value?, hc.values]
  · have huses : t.usesOf v = s'.usesOf v := by rw [Store.usesOf, hc.uses]; rfl
    rw [huses]
    exact h.usesOf v

/-- Values keep their origin when new ones are added. -/
theorem originOf_grows {es : List ValueData} (h : t.values = s.values ++ es.toArray) {v : ValueRef}
    {x : Origin} (hv : s.originOf v = some x) : t.originOf v = some x := by
  obtain ⟨d, hd, rfl⟩ := Option.map_eq_some_iff.1 hv
  rw [Store.originOf, value?_append h hd, Option.map_some]

/-! ## Nesting only grows -/

/-- Owners keep their regions, regions their blocks, and blocks their operations. -/
structure Nests (s t : Store) : Prop where
  op? : ∀ x d, s.op? x = some d → ∃ e, t.op? x = some e ∧ e.regions = d.regions
  region? : ∀ r d, s.region? r = some d → ∃ e, t.region? r = some e ∧ e.blocks = d.blocks
  block? : ∀ b d, s.block? b = some d → ∃ e, t.block? b = some e ∧ ∀ x ∈ d.ops, x ∈ e.ops

namespace Nests

theorem inBlocks (h : Nests s t) {bs : List BlockRef} {o : OpRef} (ho : InBlocks s bs o) :
    InBlocks t bs o := by
  obtain ⟨b, hb, bd, hbd, hmem⟩ := ho
  obtain ⟨e, he, hsub⟩ := h.block? b bd hbd
  exact ⟨b, hb, e, he, hsub o hmem⟩

theorem inRegions (h : Nests s t) {rs : List RegionRef} {o : OpRef} (ho : InRegions s rs o) :
    InRegions t rs o := by
  obtain ⟨r, hr, rd, hrd, hin⟩ := ho
  obtain ⟨e, he, heq⟩ := h.region? r rd hrd
  exact ⟨r, hr, e, he, heq ▸ h.inBlocks hin⟩

/-- What stands in an operation stays there. -/
theorem child (h : Nests s t) {p o : OpRef} (hc : Child s p o) : Child t p o := by
  obtain ⟨d, hd, hin⟩ := hc
  obtain ⟨e, he, heq⟩ := h.op? p d hd
  exact ⟨e, he, heq ▸ h.inRegions hin⟩

/-- What is nested in an operation stays nested in it. -/
theorem within (h : Nests s t) {p o : OpRef} (hw : Within s p o) : Within t p o :=
  Relation.ReflTransGen.mono (fun _ _ hc => h.child hc) _ _ hw

end Nests

/-- Moreover blocks keep the order of their operations, and values their origins. -/
structure Grows (s t : Store) : Prop where
  op? : ∀ x d, s.op? x = some d → ∃ e, t.op? x = some e ∧ e.regions = d.regions
  region? : ∀ r d, s.region? r = some d → ∃ e, t.region? r = some e ∧ e.blocks = d.blocks
  block? : ∀ b d, s.block? b = some d → ∃ e, t.block? b = some e ∧ d.ops.Sublist e.ops
  originOf : ∀ v x, s.originOf v = some x → t.originOf v = some x

namespace Grows

theorem nests (h : Grows s t) : Nests s t := by
  refine ⟨h.op?, h.region?, fun b d hd => ?_⟩
  obtain ⟨e, he, hsub⟩ := h.block? b d hd
  exact ⟨e, he, fun x hx => hsub.subset hx⟩

theorem refl (s : Store) : Grows s s :=
  ⟨fun _ d h => ⟨d, h, rfl⟩, fun _ d h => ⟨d, h, rfl⟩, fun _ d h => ⟨d, h, .refl _⟩, fun _ _ h => h⟩

theorem trans (h : Grows s s') (h' : Grows s' t) : Grows s t := by
  refine ⟨fun x d hd => ?_, fun r d hd => ?_, fun b d hd => ?_,
    fun v x hx => h'.originOf v x (h.originOf v x hx)⟩
  · obtain ⟨e, he, heq⟩ := h.op? x d hd
    obtain ⟨e', he', heq'⟩ := h'.op? x e he
    exact ⟨e', he', heq'.trans heq⟩
  · obtain ⟨e, he, heq⟩ := h.region? r d hd
    obtain ⟨e', he', heq'⟩ := h'.region? r e he
    exact ⟨e', he', heq'.trans heq⟩
  · obtain ⟨e, he, hsub⟩ := h.block? b d hd
    obtain ⟨e', he', hsub'⟩ := h'.block? b e he
    exact ⟨e', he', hsub.trans hsub'⟩

/-- An entry of an operation may change apart from its regions. -/
theorem setOp (s : Store) {o : OpRef} {d e : OpData} (hd : s.op? o = some d)
    (he : e.regions = d.regions) : Grows s (s.setOp o e) := by
  refine ⟨fun x dx hx => ?_, fun _ d h => ⟨d, h, rfl⟩, fun _ d h => ⟨d, h, .refl _⟩, fun _ _ h => h⟩
  rw [op?_setOp hd]
  by_cases hxo : x = o
  · subst hxo
    cases hd.symm.trans hx
    exact ⟨e, by simp, he⟩
  · exact ⟨dx, by simp [hxo, hx], rfl⟩

/-- Putting an operation into a block keeps the order of the others. -/
theorem attach {o : OpRef} {d : OpData} {b : BlockRef} {bd : BlockData} {front back : List OpRef}
    (hd : s.op? o = some d) (hb : s.block? b = some bd) (hsplit : bd.ops = front ++ back) :
    Grows s (s.attach o d b bd (front ++ o :: back)) := by
  refine (setOp s (e := { d with parent := some b }) hd rfl).trans ⟨fun _ d h => ⟨d, h, rfl⟩,
    fun _ d h => ⟨d, h, rfl⟩, fun x dx hx => ?_, fun _ _ h => h⟩
  rw [block?_attach hb]
  by_cases hxb : x = b
  · subst hxb
    cases hb.symm.trans hx
    refine ⟨_, if_pos rfl, ?_⟩
    rw [hsplit]
    exact (List.Sublist.refl front).append (List.sublist_cons_self o back)
  · exact ⟨dx, (if_neg hxb).trans hx, .refl _⟩

theorem insertOp {b : BlockRef} {before : Option OpRef} {o : OpRef} {u : Unit}
    (hrun : insertOp b before o s = .ok (u, t)) : Grows s t := by
  obtain ⟨d, bd, front, back, hd, _, hbd, hsplit, _, _, rfl⟩ := insertOp_ok hrun
  exact attach hd hbd hsplit

theorem copyStepsKeep (s : Store) : CopyStepsKeep (Grows s) where
  createOp spec s' o t h hrun := by
    have hc := createOp_ok hrun
    have hnone : s'.op? o = none := by rw [hc.eq_next, op?_next]
    refine h.trans ⟨fun x d hx => ?_, fun r d hr => ?_, fun b d hb => ?_,
      fun v x hx => originOf_grows hc.values hx⟩
    · have hne : x ≠ o := by
        rintro rfl
        rw [hnone] at hx
        cases hx
      exact ⟨d, by rw [hc.op?, if_neg hne, hx], rfl⟩
    · rw [hc.region?]
      split
      · exact ⟨{ d with parent := some o }, by rw [hr]; rfl, rfl⟩
      · exact ⟨d, hr, rfl⟩
    · exact ⟨d, by rwa [Store.block?, hc.blocks], .refl _⟩
  createBlock types s' b t h hrun := by
    have hc := createBlock_ok hrun
    have hnone : s'.block? b = none := by rw [hc.eq_next, block?_next]
    refine h.trans ⟨fun x d hx => ⟨d, by rwa [Store.op?, hc.ops], rfl⟩,
      fun r d hr => ⟨d, by rwa [Store.region?, hc.regions], rfl⟩, fun x d hx => ?_,
      fun v x hx => originOf_grows hc.values hx⟩
    have hne : x ≠ b := by
      rintro rfl
      rw [hnone] at hx
      cases hx
    exact ⟨d, by rw [hc.block?, if_neg hne, hx], .refl _⟩
  createRegion bs s' r t h hrun := by
    have hc := createRegion_ok hrun
    have hnone : s'.region? r = none := by rw [hc.eq_next, region?_next]
    refine h.trans ⟨fun x d hx => ⟨d, by rwa [Store.op?, hc.ops], rfl⟩, fun x d hx => ?_,
      fun b d hb => ?_, fun v x hx => by rwa [Store.originOf, Store.value?, hc.values]⟩
    · have hne : x ≠ r := by
        rintro rfl
        rw [hnone] at hx
        cases hx
      exact ⟨d, by rw [hc.region?, if_neg hne, hx], rfl⟩
    · rw [hc.block?]
      split
      · exact ⟨{ d with parent := some r }, by rw [hb]; rfl, .refl _⟩
      · exact ⟨d, hb, .refl _⟩
  pushOp b o s' u t h hrun := by
    rw [pushOp_eq_insertOp] at hrun
    exact h.trans (insertOp hrun)
  retargetSuccessors pairs o s' u t h hrun := by
    obtain ⟨d, successors, hd, rfl⟩ := retargetSuccessors_ok hrun
    exact h.trans (setOp s' hd rfl)

end Grows

/-! ## Operands are values -/

/-- Every operand is a value of the store. -/
def Grounded (s : Store) : Prop :=
  ∀ x d v, s.op? x = some d → v ∈ d.operands → ∃ e, s.value? v = some e

theorem Grounded.setOp (h : Grounded s) {o : OpRef} {d e : OpData} (hd : s.op? o = some d)
    (he : ∀ v ∈ e.operands, ∃ a, s.value? v = some a) : Grounded (s.setOp o e) := by
  intro x dx v hx hv
  rw [op?_setOp hd] at hx
  split at hx
  · cases hx
    exact he v hv
  · exact h x dx v hx hv

/-- Putting an operation into a block changes no operands. -/
theorem Grounded.insertOp (h : Grounded s) {b : BlockRef} {before : Option OpRef} {o : OpRef}
    {u : Unit} (hrun : insertOp b before o s = .ok (u, t)) : Grounded t := by
  obtain ⟨d, bd, front, back, hd, _, _, _, _, _, rfl⟩ := insertOp_ok hrun
  exact h.setOp (e := { d with parent := some b }) hd fun v hv => h o d v hd hv

/-- A new operation over values that are there keeps all operands values. -/
theorem Created.grounded {spec : OpSpec} {o : OpRef} (hc : Created s spec o t) (h : Grounded s)
    (hoperands : ∀ v ∈ spec.operands, ∃ e, s.value? v = some e) : Grounded t := by
  intro x d v hx hv
  have hold : ∃ e, s.value? v = some e := by
    rw [hc.op?] at hx
    split at hx
    · cases hx
      exact hoperands v hv
    · exact h x d v hx hv
  obtain ⟨e, he⟩ := hold
  exact ⟨e, value?_append hc.values he⟩

/-- Nobody uses what is not there. -/
theorem Grounded.usesOf_eq_nil (h : Grounded s) (hp : PointsBack s) {v : ValueRef}
    (hv : s.value? v = none) : s.usesOf v = [] := by
  refine List.eq_nil_iff_forall_not_mem.2 fun u hu => ?_
  obtain ⟨d, hd, hslot⟩ := Option.bind_eq_some_iff.1 (hp v u hu)
  obtain ⟨e, he⟩ := h u.user d v hd (List.mem_of_getElem? hslot)
  rw [hv] at he
  cases he

/-- Values stay. -/
theorem value?_copyStepsKeep (v : ValueRef) (e : ValueData) :
    CopyStepsKeep fun s => s.value? v = some e where
  createOp _ _ _ _ h hrun := value?_append (createOp_ok hrun).values h
  createBlock _ _ _ _ h hrun := value?_append (createBlock_ok hrun).values h
  createRegion bs s r t h hrun := by
    show t.values[v.index]? = some e
    rw [(createRegion_ok hrun).values]
    exact h
  pushOp _ _ _ _ _ h hrun := by
    rw [pushOp_eq_insertOp] at hrun
    obtain ⟨_, _, _, _, _, _, _, _, _, _, rfl⟩ := insertOp_ok hrun
    exact h
  retargetSuccessors _ _ _ _ _ h hrun := by
    obtain ⟨_, _, _, rfl⟩ := retargetSuccessors_ok hrun
    exact h

/-! ## Renamings -/

theorem Renaming.mem_insert {m : Renaming} {old new : ValueRef} {p : ValueRef × ValueRef}
    (h : p ∈ m.insert old new) : p ∈ m ∨ p = (old, new) := by
  unfold Renaming.insert at h
  split at h
  · obtain ⟨q, hq, rfl⟩ := List.mem_map.1 h
    split
    · exact .inr rfl
    · exact .inl hq
  · simpa using h

/-- A name that was added is one of the pairs of old and new values. -/
theorem Renaming.mem_insertAll {olds : List ValueRef} :
    ∀ {m : Renaming} {news : List ValueRef} {p : ValueRef × ValueRef},
      p ∈ m.insertAll olds news → p ∈ m ∨ p ∈ olds.zip news := by
  induction olds with
  | nil =>
    intro m news p h
    exact .inl h
  | cons old olds ih =>
    intro m news p h
    cases news with
    | nil => exact .inl h
    | cons new news =>
      rcases ih (m := m.insert old new) h with h | h
      · rcases Renaming.mem_insert h with h | h
        · exact .inl h
        · exact .inr (h ▸ List.mem_cons_self)
      · exact .inr (List.mem_cons_of_mem _ h)

/-- A renaming whose names are values takes values to values. -/
theorem Renaming.apply_exists {m : Renaming} (hm : ∀ p ∈ m, ∃ d, s.value? p.2 = some d)
    {v : ValueRef} (hv : ∃ d, s.value? v = some d) : ∃ d, s.value? (m.apply v) = some d := by
  unfold Renaming.apply Renaming.get?
  cases hfind : m.find? (fun p => p.1 == v) with
  | none => exact hv
  | some p => exact hm p (List.mem_of_find?_eq_some hfind)

/-! ## Copying under way -/

/-- Every operation that came into being is nested in one of the roots. -/
def NewUnder (s t : Store) (root : OpRef → Prop) : Prop :=
  ∀ x d, t.op? x = some d → s.op? x = none → ∃ y, root y ∧ Within t y x

theorem NewUnder.refl (s : Store) (root : OpRef → Prop) : NewUnder s s root := by
  intro x d hx hnone
  rw [hnone] at hx
  cases hx

/-- What came into being first stays nested where it was, so the roots of two steps can be put
together. -/
theorem NewUnder.trans {root root' all : OpRef → Prop} (h : NewUnder s s' root)
    (h' : NewUnder s' t root') (hn : Grows s' t) (hr : ∀ y, root y → all y)
    (hr' : ∀ y, root' y → all y) : NewUnder s t all := by
  intro x d hx hnone
  cases hx' : s'.op? x with
  | none =>
    obtain ⟨y, hy, hw⟩ := h' x d hx hx'
    exact ⟨y, hr' y hy, hw⟩
  | some d' =>
    obtain ⟨y, hy, hw⟩ := h x d' hx' hnone
    exact ⟨y, hr y hy, hn.nests.within hw⟩

/-- What holds while a copy is made: `base` is the store in which it began, and the renaming names
values that are there. -/
structure Copying (gone : OpRef → Prop) (base s : Store) (m : Renaming) : Prop where
  copied : Copied base s
  kept : Kept s gone
  grounded : Grounded base → Grounded s
  names : ∀ p ∈ m, ∃ d, s.value? p.2 = some d

variable {base : Store} {m m' : Renaming}

/-- Branches of what is new may be redirected. -/
theorem Copying.retargetSuccessors (h : Copying gone base s m) {o : OpRef}
    (ho : base.op? o = none) {pairs : List (BlockRef × BlockRef)} {u : Unit}
    (hrun : retargetSuccessors pairs o s = .ok (u, t)) : Copying gone base t m := by
  have hkept := (Kept.copyStepsKeep gone).retargetSuccessors pairs o s u t h.kept hrun
  obtain ⟨d, successors, hd, rfl⟩ := retargetSuccessors_ok hrun
  exact ⟨h.copied.setOp ho hd, hkept,
    fun hg => (h.grounded hg).setOp hd fun v hv => h.grounded hg o d v hd hv, h.names⟩

/-- What is new may be put into a new block. -/
theorem Copying.pushOp (h : Copying gone base s m) {b : BlockRef} {o : OpRef}
    (ho : base.op? o = none) (hb : base.block? b = none) {u : Unit}
    (hrun : pushOp b o s = .ok (u, t)) : Copying gone base t m := by
  have hcopied := h.copied.pushOp ho hb hrun
  rw [pushOp_eq_insertOp] at hrun
  refine ⟨hcopied, h.kept.insertOp hrun, fun hg => (h.grounded hg).insertOp hrun, ?_⟩
  obtain ⟨d, bd, front, back, _, _, _, _, _, _, rfl⟩ := insertOp_ok hrun
  exact h.names

/-- A copy of a block is a new block with as many arguments, and the renaming takes the old ones to
the new ones. -/
theorem cloneBlockHeader_ok {b b' : BlockRef} (h : cloneBlockHeader m b s = .ok ((b', m'), t)) :
    ∃ d, s.block? b = some d ∧ createBlock d.argTypes s = .ok (b', t) ∧
      m' = m.insertAll (t.argsOf b) (t.argsOf b') := by
  unfold cloneBlockHeader at h
  rw [Edit.query_bind] at h
  obtain ⟨d, hd, h⟩ := h
  rw [Edit.bind_ok] at h
  obtain ⟨_, s₁, hcreate, h⟩ := h
  rw [Edit.get_bind, Edit.pure_run] at h
  cases h
  exact ⟨d, block_ok.1 hd, hcreate, rfl⟩

section Copier

variable {clone : Renaming → OpRef → Edit (OpRef × Renaming)} {pairs : List (BlockRef × BlockRef)}

/-- The operations of a block are copied to the end of its copy, and then those of the others. -/
theorem cloneBodiesWith_parts {b b' : BlockRef} {rest : List (BlockRef × BlockRef)}
    (h : cloneBodiesWith clone pairs m ((b, b') :: rest) s = .ok (m', t)) :
    ∃ d m₁ s₁, s.block? b = some d ∧ cloneOpsWith clone pairs b' m d.ops s = .ok (m₁, s₁) ∧
      cloneBodiesWith clone pairs m₁ rest s₁ = .ok (m', t) := by
  rw [cloneBodiesWith, Edit.query_bind] at h
  obtain ⟨d, hd, h⟩ := h
  obtain ⟨m₁, s₁, hfirst, hrest⟩ := Edit.bind_ok.1 h
  exact ⟨d, m₁, s₁, block_ok.1 hd, hfirst, hrest⟩

/-- A copy of a region is a new region over copies of its blocks, which were filled when all of them
were there. -/
theorem cloneRegionWith_parts {r r' : RegionRef}
    (h : cloneRegionWith clone m r s = .ok ((r', m'), t)) :
    ∃ d bs m₁ s₁ s₂, s.region? r = some d ∧
      cloneBlockHeaders m d.blocks s = .ok ((bs, m₁), s₁) ∧
      cloneBodiesWith clone (d.blocks.zip bs) m₁ (d.blocks.zip bs) s₁ = .ok (m', s₂) ∧
      createRegion bs s₂ = .ok (r', t) := by
  rw [cloneRegionWith, Edit.query_bind] at h
  obtain ⟨d, hd, h⟩ := h
  simp only [Edit.bind_ok] at h
  obtain ⟨⟨bs, m₁⟩, s₁, hheaders, m₂, s₂, hbodies, _, s₃, hcreate, hresult⟩ := h
  cases hresult
  exact ⟨d, bs, m₁, s₁, s₂, region_ok.1 hd, hheaders, hbodies, hcreate⟩

end Copier

/-- A copy of an operation is a new operation over copies of its regions.  Its operands are renamed
as before they were copied, and the renaming takes its results to those of the copy. -/
theorem cloneWithin_parts {n : Nat} {o c : OpRef}
    (h : cloneWithin (n + 1) m o s = .ok ((c, m'), t)) :
    ∃ d rs m₁ s₁, s.op? o = some d ∧
      cloneRegionsWith (cloneWithin n) m d.regions s = .ok ((rs, m₁), s₁) ∧
      createOp ⟨d.name, d.operands.map m.apply, d.resultTypes, d.attrs, rs, d.successors⟩ s₁ =
        .ok (c, t) ∧ m' = m₁.insertAll (t.resultsOf o) (t.resultsOf c) := by
  unfold cloneWithin at h
  rw [Edit.query_bind] at h
  obtain ⟨d, hd, h⟩ := h
  simp only [Edit.bind_ok] at h
  obtain ⟨⟨rs, m₁⟩, s₁, hregions, _, s₂, hcreate, s₃, _, hget, hresult⟩ := h
  cases hget
  cases hresult
  exact ⟨d, rs, m₁, s₁, op_ok.1 hd, hregions, hcreate, rfl⟩

/-- Copies of blocks without their operations are new, and no operation came into being. -/
theorem cloneBlockHeaders_ok {bs : List BlockRef} :
    ∀ {s t : Store} {m m' : Renaming} {bs' : List BlockRef}, Copying gone base s m →
      cloneBlockHeaders m bs s = .ok ((bs', m'), t) →
      Copying gone base t m' ∧ t.ops = s.ops ∧ ∀ b ∈ bs', base.block? b = none := by
  induction bs with
  | nil =>
    intro s t m m' bs' h hrun
    cases hrun
    exact ⟨h, rfl, by simp⟩
  | cons b bs ih =>
    intro s t m m' bs' h hrun
    simp only [cloneBlockHeaders, Edit.bind_ok] at hrun
    obtain ⟨⟨b', m₁⟩, s₁, hheader, ⟨bs₁, m₂⟩, s₂, hrest, hresult⟩ := hrun
    cases hresult
    obtain ⟨_, _, hcreate, rfl⟩ := cloneBlockHeader_ok hheader
    have hc := createBlock_ok hcreate
    have hkept := (Kept.copyStepsKeep gone).createBlock _ _ _ _ h.kept hcreate
    have hnew : base.block? b' = none :=
      h.copied.block?_none (by rw [hc.eq_next, block?_next])
    have hargs : ∀ v ∈ s₁.argsOf b', ∃ e, s₁.value? v = some e := by
      intro v hv
      have hb' : s₁.block? b' = _ := (hc.block? b').trans (if_pos rfl)
      rw [argsOf_eq hb'] at hv
      obtain ⟨k, hk⟩ := List.mem_iff_getElem?.1 hv
      have horigin := (hkept.linked.args.mem_iff (by rw [argsIn, hb']; rfl) k v).1 hk
      obtain ⟨e, he, _⟩ := Option.map_eq_some_iff.1 horigin
      exact ⟨e, he⟩
    have hcopying : Copying gone base s₁ (m.insertAll (s₁.argsOf b) (s₁.argsOf b')) := by
      refine ⟨hc.copied h.copied, hkept, ?_, ?_⟩
      · intro hg x dx v hx hv
        rw [Store.op?, hc.ops] at hx
        obtain ⟨e, he⟩ := h.grounded hg x dx v hx hv
        exact ⟨e, value?_append hc.values he⟩
      · intro p hp
        rcases Renaming.mem_insertAll hp with hp | hp
        · obtain ⟨e, he⟩ := h.names p hp
          exact ⟨e, value?_append hc.values he⟩
        · exact hargs p.2 (List.of_mem_zip hp).2
    obtain ⟨hcopying', hops, hbs⟩ := ih hcopying hrest
    refine ⟨hcopying', hops.trans hc.ops, fun x hx => ?_⟩
    rcases List.mem_cons.1 hx with rfl | hx
    · exact hnew
    · exact hbs x hx

section Nested

-- the copier of the level below
variable {clone : Renaming → OpRef → Edit (OpRef × Renaming)}
  (hgrows : ∀ s m o, Keeps (Grows s) (clone m o))
  (hclone : ∀ {s t m m' o c}, Copying gone base s m → clone m o s = .ok ((c, m'), t) →
    Copying gone base t m' ∧ base.op? c = none ∧ NewUnder s t (· = c))

include hgrows hclone

/-- The copies of operations, with all that is nested in them, are nested in the new block. -/
theorem cloneOpsWith_ok {pairs : List (BlockRef × BlockRef)} {target : BlockRef}
    (htarget : base.block? target = none) {os : List OpRef} :
    ∀ {s t : Store} {m m' : Renaming}, Copying gone base s m →
      cloneOpsWith clone pairs target m os s = .ok (m', t) →
      Copying gone base t m' ∧ NewUnder s t (InBlocks t [target]) := by
  induction os with
  | nil =>
    intro s t m m' h hrun
    cases hrun
    exact ⟨h, .refl s _⟩
  | cons o os ih =>
    intro s t m m' h hrun
    simp only [cloneOpsWith, Edit.bind_ok] at hrun
    obtain ⟨⟨c, m₁⟩, s₁, hfirst, _, s₂, hretarget, _, s₃, hpush, hrest⟩ := hrun
    obtain ⟨h₁, hnew, hunder⟩ := hclone h hfirst
    have h₃ := (h₁.retargetSuccessors hnew hretarget).pushOp hnew htarget hpush
    obtain ⟨ht, hunder'⟩ := ih h₃ hrest
    have hrestGrows : Grows s₃ t := (Grows.copyStepsKeep s₃).cloneOpsWith (hgrows s₃) pairs target
      os m₁ s₃ m' t (.refl s₃) hrest
    have hsteps : Grows s₁ s₃ := (Grows.copyStepsKeep s₁).pushOp target c s₂ _ s₃
      ((Grows.copyStepsKeep s₁).retargetSuccessors pairs c s₁ _ s₂ (.refl s₁) hretarget) hpush
    -- neither redirecting successors nor pushing makes operations
    have hsame : NewUnder s₁ s₃ (· = c) := by
      intro x d hx hnone
      obtain ⟨d₁, successors, hd₁, rfl⟩ := retargetSuccessors_ok hretarget
      rw [pushOp_eq_insertOp] at hpush
      obtain ⟨d₂, bd, front, back, hd₂, _, _, _, _, _, rfl⟩ := insertOp_ok hpush
      rw [op?_attach hd₂, op?_setOp hd₁] at hx
      by_cases hxc : x = c
      · exact ⟨c, rfl, hxc ▸ .refl⟩
      · simp only [hxc, if_false] at hx
        rw [hnone] at hx
        cases hx
    have hunder₃ : NewUnder s s₃ (· = c) :=
      hunder.trans hsame hsteps (fun _ hy => hy) (fun _ hy => hy)
    refine ⟨ht, hunder₃.trans hunder' hrestGrows (fun y hy => ?_) (fun _ hy => hy)⟩
    subst hy
    refine hrestGrows.nests.inBlocks ?_
    rw [pushOp_eq_insertOp] at hpush
    obtain ⟨d₂, bd, front, back, _, _, hbd, _, _, _, rfl⟩ := insertOp_ok hpush
    exact ⟨target, by simp, _, by rw [block?_attach hbd, if_pos rfl], by simp⟩

/-- All that came into being with the bodies of new blocks is nested in these blocks. -/
theorem cloneBodiesWith_ok {pairs rest : List (BlockRef × BlockRef)} :
    ∀ {s t : Store} {m m' : Renaming}, (∀ p ∈ rest, base.block? p.2 = none) →
      Copying gone base s m → cloneBodiesWith clone pairs m rest s = .ok (m', t) →
      Copying gone base t m' ∧ NewUnder s t (InBlocks t (rest.map Prod.snd)) := by
  induction rest with
  | nil =>
    intro s t m m' _ h hrun
    cases hrun
    exact ⟨h, .refl s _⟩
  | cons p rest ih =>
    intro s t m m' hrest h hrun
    obtain ⟨b, b'⟩ := p
    obtain ⟨d, m₁, s₁, _, hfirst, hrun⟩ := cloneBodiesWith_parts hrun
    obtain ⟨h₁, hunder⟩ :=
      cloneOpsWith_ok hgrows hclone (hrest (b, b') List.mem_cons_self) h hfirst
    obtain ⟨ht, hunder'⟩ := ih (fun q hq => hrest q (List.mem_cons_of_mem _ hq)) h₁ hrun
    have hrestGrows : Grows s₁ t := (Grows.copyStepsKeep s₁).cloneBodiesWith (hgrows s₁) pairs rest
      m₁ s₁ m' t (.refl s₁) hrun
    exact ⟨ht, hunder.trans hunder' hrestGrows (fun y hy => (hrestGrows.nests.inBlocks hy).head)
      fun y hy => hy.tail⟩

/-- All that came into being with the copy of a region is nested in it. -/
theorem cloneRegionWith_ok {r r' : RegionRef} (h : Copying gone base s m)
    (hrun : cloneRegionWith clone m r s = .ok ((r', m'), t)) :
    Copying gone base t m' ∧ base.region? r' = none ∧ NewUnder s t (InRegions t [r']) := by
  obtain ⟨d, bs', m₁, s₁, s₂, _, hheaders, hbodies, hcreate⟩ := cloneRegionWith_parts hrun
  obtain ⟨h₁, hops, hbs⟩ := cloneBlockHeaders_ok h hheaders
  obtain ⟨h₂, hunder⟩ := cloneBodiesWith_ok hgrows hclone
    (fun p hp => hbs p.2 (List.of_mem_zip hp).2) h₁ hbodies
  have hc := createRegion_ok hcreate
  have hkept := (Kept.copyStepsKeep gone).createRegion _ _ _ _ h₂.kept hcreate
  have hlast : Grows s₂ t := (Grows.copyStepsKeep s₂).createRegion _ _ _ _ (.refl s₂) hcreate
  have hop : ∀ x, t.op? x = s₂.op? x := fun x => by rw [Store.op?, hc.ops]; rfl
  have hvalue : ∀ v, t.value? v = s₂.value? v := fun v => by rw [Store.value?, hc.values]; rfl
  refine ⟨⟨hc.copied h₂.copied hbs, hkept, fun hg x dx v hx hv => ?_, fun p hp => ?_⟩, ?_, ?_⟩
  · rw [hop] at hx
    rw [hvalue]
    exact h₂.grounded hg x dx v hx hv
  · rw [hvalue]
    exact h₂.names p hp
  · exact h₂.copied.region?_none (by rw [hc.eq_next, region?_next])
  · intro x dx hx hnone
    rw [hop] at hx
    obtain ⟨y, ⟨b, hb, hin⟩, hw⟩ := hunder x dx hx (by rwa [Store.op?, hops])
    obtain ⟨p, hp, rfl⟩ := List.mem_map.1 hb
    have hregion : t.region? r' = some ⟨bs', none⟩ := by rw [hc.region?, if_pos rfl]
    refine ⟨y, ⟨r', by simp, _, hregion, ?_⟩, hlast.nests.within hw⟩
    exact hlast.nests.inBlocks ⟨p.2, (List.of_mem_zip hp).2, hin⟩

/-- All that came into being with the copies of regions is nested in them. -/
theorem cloneRegionsWith_ok {rs : List RegionRef} :
    ∀ {s t : Store} {m m' : Renaming} {rs' : List RegionRef}, Copying gone base s m →
      cloneRegionsWith clone m rs s = .ok ((rs', m'), t) →
      Copying gone base t m' ∧ (∀ r ∈ rs', base.region? r = none) ∧
        NewUnder s t (InRegions t rs') := by
  induction rs with
  | nil =>
    intro s t m m' rs' h hrun
    cases hrun
    exact ⟨h, by simp, .refl s _⟩
  | cons r rs ih =>
    intro s t m m' rs' h hrun
    simp only [cloneRegionsWith, Edit.bind_ok] at hrun
    obtain ⟨⟨r', m₁⟩, s₁, hfirst, ⟨rs₁, m₂⟩, s₂, hrest, hresult⟩ := hrun
    cases hresult
    obtain ⟨h₁, hnew, hunder⟩ := cloneRegionWith_ok hgrows hclone h hfirst
    obtain ⟨ht, hnews, hunder'⟩ := ih h₁ hrest
    have hrestGrows : Grows s₁ t := (Grows.copyStepsKeep s₁).cloneRegionsWith (hgrows s₁) rs
      m₁ s₁ _ t (.refl s₁) hrest
    refine ⟨ht, fun x hx => ?_, hunder.trans hunder' hrestGrows
      (fun y hy => (hrestGrows.nests.inRegions hy).head) fun y hy => hy.tail⟩
    rcases List.mem_cons.1 hx with rfl | hx
    · exact hnew
    · exact hnews x hx

end Nested

/-- A copy was made: it is new, in no block, and where every operand is a value nobody uses its
results. -/
structure Cloned (gone : OpRef → Prop) (base : Store) (c : OpRef) (t : Store) : Prop where
  copied : Copied base t
  kept : Kept t gone
  grounded : Grounded base → Grounded t
  new : base.op? c = none
  detached : ∃ d, t.op? c = some d ∧ d.parent = none
  unused : Grounded base → ∀ v ∈ t.resultsOf c, t.usesOf v = []

/-- A new operation over values that are there, with new regions, stands apart. -/
theorem Created.cloned {spec : OpSpec} {c : OpRef} (hcopied : Copied base s) (hk : Kept s gone)
    (hg : Grounded base → Grounded s)
    (hoperands : Grounded base → ∀ v ∈ spec.operands, ∃ e, s.value? v = some e)
    (hregions : ∀ r ∈ spec.regions, base.region? r = none)
    (hcreate : createOp spec s = .ok (c, t)) : Cloned gone base c t := by
  have hc := createOp_ok hcreate
  have hentry := (hc.op? c).trans (if_pos rfl)
  refine ⟨hc.copied hcopied hregions, (Kept.copyStepsKeep gone).createOp _ _ _ _ hk hcreate,
    fun h => hc.grounded (hg h) (hoperands h), hcopied.op?_none (by rw [hc.eq_next, op?_next]),
    ⟨_, hentry, rfl⟩, fun h v hv => ?_⟩
  -- the results are new, so nothing recorded before names them, nor does the operation itself
  rw [resultsOf_eq hentry] at hv
  have hvnone : s.value? v = none := by
    obtain ⟨k, hk⟩ := List.mem_iff_getElem?.1 hv
    obtain ⟨_, hindex⟩ := (nextValues_getElem? s _ k v).1 hk
    rw [Store.value?, Array.getElem?_eq_none (by omega)]
  rw [hc.usesOf, (hg h).usesOf_eq_nil hk.uses.pointsBack hvnone, List.nil_append]
  refine List.eq_nil_iff_forall_not_mem.2 fun u hu => ?_
  obtain ⟨e, he⟩ := hoperands h v (List.mem_of_getElem? (mem_operandUses.1 hu).2)
  rw [hvnone] at he
  cases he

/-- By induction on the depth, a copy is made of new things under its root. -/
theorem cloneWithin_ok (n : Nat) : ∀ {s t : Store} {m m' : Renaming} {o c : OpRef},
    Copying gone base s m → cloneWithin n m o s = .ok ((c, m'), t) →
    (Copying gone base t m' ∧ base.op? c = none ∧ NewUnder s t (· = c)) ∧
      Cloned gone base c t := by
  induction n with
  | zero =>
    intro s t m m' o c _ hrun
    cases hrun
  | succ n ih =>
    intro s t m m' o c h hrun
    obtain ⟨d, rs', m₁, s₁, hd, hregions, hcreate, rfl⟩ := cloneWithin_parts hrun
    obtain ⟨h₁, hnews, hunder⟩ := cloneRegionsWith_ok
      (fun s => (Grows.copyStepsKeep s).cloneWithin n) (fun h hrun => (ih h hrun).1) h hregions
    have hc := createOp_ok hcreate
    have hentry := (hc.op? c).trans (if_pos rfl)
    have hoperands : Grounded base →
        ∀ v ∈ d.operands.map m.apply, ∃ e, s₁.value? v = some e := by
      intro hg v hv
      obtain ⟨w, hw, rfl⟩ := List.mem_map.1 hv
      obtain ⟨e, he⟩ := Renaming.apply_exists h.names (h.grounded hg o d w hd hw)
      exact ⟨e, (value?_copyStepsKeep _ e).cloneRegionsWith
        ((value?_copyStepsKeep _ e).cloneWithin n) d.regions m s _ s₁ he hregions⟩
    have hcloned := Created.cloned h₁.copied h₁.kept h₁.grounded hoperands hnews hcreate
    have hlast : Grows s₁ t := (Grows.copyStepsKeep s₁).createOp _ _ _ _ (.refl s₁) hcreate
    refine ⟨⟨⟨hcloned.copied, hcloned.kept, hcloned.grounded, fun p hp => ?_⟩, hcloned.new, ?_⟩,
      hcloned⟩
    · rcases Renaming.mem_insertAll hp with hp | hp
      · obtain ⟨e, he⟩ := h₁.names p hp
        exact ⟨e, value?_append hc.values he⟩
      · have hp := (List.of_mem_zip hp).2
        rw [resultsOf_eq hentry] at hp
        obtain ⟨k, hk⟩ := List.mem_iff_getElem?.1 hp
        have horigin :=
          (hcloned.kept.linked.results.mem_iff (by rw [resultsIn, hentry]; rfl) k p.2).1 hk
        obtain ⟨e, he, _⟩ := Option.map_eq_some_iff.1 horigin
        exact ⟨e, he⟩
    · -- what the regions hold is under the operation that owns them now
      intro x dx hx hnonex
      rw [hc.op?] at hx
      by_cases hxc : x = c
      · exact ⟨c, rfl, hxc ▸ .refl⟩
      · rw [if_neg hxc] at hx
        obtain ⟨y, hy, hw⟩ := hunder x dx hx hnonex
        exact ⟨c, rfl, .head ⟨_, hentry, hlast.nests.inRegions hy⟩ (hlast.nests.within hw)⟩

/-- A copy is made of new things, all of them under the operation that is returned. -/
theorem cloneOp_ok {o c : OpRef} (hk : Kept s gone)
    (hrun : cloneOp [] o s = .ok ((c, m'), t)) :
    Cloned gone s c t ∧ NewUnder s t (· = c) := by
  rw [cloneOp, Edit.get_bind] at hrun
  obtain ⟨⟨_, _, hunder⟩, hcloned⟩ :=
    cloneWithin_ok s.depthBound ⟨.refl s, hk, id, fun p hp => by cases hp⟩ hrun
  exact ⟨hcloned, hunder⟩

end AffineRaising.IR
