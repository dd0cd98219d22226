/-
# AffineRaising.Proofs.Store.UseChain — recorded uses are the operand slots.

Operands and recorded uses live in different tables, and every edit writes both.  `UsesExact` states
that they agree: the uses of a value are, without repetitions, the operand slots that hold it, among
the operations that were not removed.  Each edit keeps this, so it holds in every store that a
sequence of edits reaches from the empty one: `recorded_uses_exact`.

An operation that was removed keeps its entry, operands included, but none of its uses; so the
invariant has the removed operations as a parameter (`gone`), which `removeOp` and `eraseOp` add to.
No edit may name a removed operation (`Reached`): giving it new operands would record uses for it
again, which is the one case the general statement has to follow (`OperandsSet.usesExact`).
-/
import AffineRaising.Proofs.Store.Clone
import AffineRaising.Proofs.Store.Erase
import Mathlib

namespace AffineRaising.IR

open Store

variable {s t : Store} {gone : OpRef → Prop}

/-! ## The invariant -/

/-- The uses of a value are exactly the slots that hold it, outside the operations in `gone`. -/
structure UsesExact (s : Store) (gone : OpRef → Prop) : Prop where
  nodup : ∀ v, (s.usesOf v).Nodup
  mem_iff : ∀ v u, u ∈ s.usesOf v ↔ ¬ gone u.user ∧ s.slot? u = some v

namespace UsesExact

/-- A recorded use names a slot that holds the value. -/
theorem pointsBack (h : UsesExact s gone) : PointsBack s :=
  fun v u hu => ((h.mem_iff v u).1 hu).2

theorem congr (h : UsesExact s gone) (huses : ∀ v, t.usesOf v = s.usesOf v)
    (hslot : ∀ u, t.slot? u = s.slot? u) : UsesExact t gone := by
  refine ⟨fun v => ?_, fun v u => ?_⟩
  · rw [huses]
    exact h.nodup v
  · rw [huses, hslot]
    exact h.mem_iff v u

/-- An entry may change apart from its operands. -/
theorem setOp (h : UsesExact s gone) {o : OpRef} {d e : OpData} (hd : s.op? o = some d)
    (he : e.operands = d.operands) : UsesExact (s.setOp o e) gone := by
  refine h.congr (fun _ => rfl) (fun u => ?_)
  rw [Store.slot?, Store.slot?, op?_setOp hd]
  by_cases hu : u.user = o
  · simp [hu, hd, he]
  · simp [hu]

/-- Entries of blocks have no operands. -/
theorem setBlock (h : UsesExact s gone) (b : BlockRef) (bd : BlockData) :
    UsesExact (s.setBlock b bd) gone :=
  h.congr (fun _ => rfl) (fun _ => rfl)

end UsesExact

/-! ## Every edit keeps it -/

/-- Putting an operation into a block changes no operands and no uses. -/
theorem UsesExact.insertOp (h : UsesExact s gone) {b : BlockRef} {before : Option OpRef}
    {o : OpRef} {u : Unit} (hrun : insertOp b before o s = .ok (u, t)) : UsesExact t gone := by
  obtain ⟨d, bd, front, back, hd, _, _, _, _, _, rfl⟩ := insertOp_ok hrun
  exact (h.setOp (e := { d with parent := some b }) hd rfl).setBlock b _

/-- Nor does taking it out. -/
theorem UsesExact.detach (h : UsesExact s gone) {o : OpRef} {u : Unit}
    (hrun : detach o s = .ok (u, t)) : UsesExact t gone := by
  obtain ⟨d, hd, ⟨_, rfl⟩ | ⟨b, bd, _, _, rfl⟩⟩ := detach_ok hrun
  · exact h
  · exact (h.setBlock b _).setOp hd rfl

theorem UsesExact.takeRegions (h : UsesExact s gone) {o : OpRef} {rs : List RegionRef}
    (hrun : takeRegions o s = .ok (rs, t)) : UsesExact t gone := by
  obtain ⟨d, hd, _, hf⟩ := takeRegions_ok hrun
  refine (h.setOp (e := { d with regions := [] }) hd rfl).congr (fun v => ?_) (fun u => ?_)
  · simp only [Store.usesOf, hf.uses]
  · simp only [Store.slot?, Store.op?, hf.ops]

theorem BlockCreated.usesExact {types : List Ty} {b : BlockRef} (hc : BlockCreated s types b t)
    (h : UsesExact s gone) : UsesExact t gone := by
  refine h.congr (fun v => ?_) (fun u => ?_)
  · simp only [Store.usesOf, hc.uses]
  · simp only [Store.slot?, Store.op?, hc.ops]

theorem RegionCreated.usesExact {bs : List BlockRef} {r : RegionRef} (hc : RegionCreated s bs r t)
    (h : UsesExact s gone) : UsesExact t gone := by
  refine h.congr (fun v => ?_) (fun u => ?_)
  · simp only [Store.usesOf, hc.uses]
  · simp only [Store.slot?, Store.op?, hc.ops]

/-- The slots of a new operation hold its operands. -/
theorem Created.slot? {spec : OpSpec} {o : OpRef} (hc : Created s spec o t) (u : Use) :
    t.slot? u = if u.user = o then spec.operands[u.slot]? else s.slot? u := by
  rw [Store.slot?, Store.slot?, hc.op?]
  split <;> rfl

/-- The new operation brings exactly its own uses: it is not in `gone`, and nobody named its slots
before. -/
theorem Created.usesExact {spec : OpSpec} {o : OpRef} (hc : Created s spec o t)
    (hnew : ¬ gone o) (h : UsesExact s gone) : UsesExact t gone := by
  have hnone : s.op? o = none := by rw [hc.eq_next, op?_next]
  have hold : ∀ v u, u ∈ s.usesOf v → u.user ≠ o := by
    intro v u hu huser
    have hslot := h.pointsBack v u hu
    rw [Store.slot?, huser, hnone] at hslot
    cases hslot
  refine ⟨fun v => ?_, fun v u => ?_⟩
  · rw [hc.usesOf, List.nodup_append]
    refine ⟨h.nodup v, nodup_operandUses o spec.operands v, ?_⟩
    rintro u hu w hw rfl
    exact hold v u hu (mem_operandUses.1 hw).1
  · rw [hc.usesOf, List.mem_append, mem_operandUses, h.mem_iff, hc.slot?]
    by_cases huser : u.user = o
    · simp [huser, hnew, Store.slot?, hnone]
    · simp [huser]

/-- An operation whose operands are replaced has all its uses recorded, also if it had been
removed before. -/
theorem OperandsSet.usesExact {o : OpRef} {d : OpData} {operands : List ValueRef}
    (hs : OperandsSet s o d operands t) (hd : s.op? o = some d) (h : UsesExact s gone) :
    UsesExact t fun x => gone x ∧ x ≠ o := by
  have hslot : ∀ u, t.slot? u = if u.user = o then operands[u.slot]? else s.slot? u := by
    intro u
    rw [Store.slot?, Store.slot?, OperandsSet.op? hd hs]
    split <;> rfl
  -- the operation named no value that is not among its operands, so every use of it goes
  have hmem : ∀ v u, (v ∈ d.operands ∧ u.user = o ↔ u.user = o) ∨ u ∉ s.usesOf v := by
    intro v u
    by_cases huser : u.user = o
    · by_cases hv : v ∈ d.operands
      · exact .inl (by simp [huser, hv])
      · refine .inr fun hu => hv ?_
        have hu := h.pointsBack v u hu
        rw [Store.slot?, huser, hd, Option.bind_some] at hu
        exact List.mem_of_getElem? hu
    · exact .inl (by simp [huser])
  have hkept : ∀ v u, u ∈ (s.usesOf v).filter
      (fun u => !(decide (v ∈ d.operands) && decide (u.user = o))) ↔
      u ∈ s.usesOf v ∧ u.user ≠ o := by
    intro v u
    rw [List.mem_filter]
    rcases hmem v u with hiff | hnot
    · simp only [← Bool.decide_and, hiff, Bool.not_eq_true', decide_eq_false_iff_not, ne_eq]
    · simp [hnot]
  refine ⟨fun v => ?_, fun v u => ?_⟩
  · rw [hs.usesOf, List.nodup_append]
    refine ⟨(h.nodup v).filter _, nodup_operandUses o operands v, ?_⟩
    rintro u hu w hw rfl
    exact ((hkept v u).1 hu).2 (mem_operandUses.1 hw).1
  · rw [hs.usesOf, List.mem_append, hkept, mem_operandUses, h.mem_iff, hslot]
    by_cases huser : u.user = o
    · simp [huser]
    · simp [huser]

/-- Some uses of `old` move to `new`: their slots follow, and no other slot changes. -/
theorem Redirected.usesExact {old new : ValueRef} (accepts : Use → Bool) (hne : old ≠ new)
    (hr : Redirected (s.setUses old ((s.usesOf old).filter fun u => !accepts u))
      ((s.usesOf old).filter accepts) new t)
    (h : UsesExact s gone) : UsesExact t gone := by
  have hslot : ∀ u, t.slot? u =
      if u ∈ (s.usesOf old).filter accepts then some new else s.slot? u := by
    intro u
    rw [Store.slot?, Store.slot?, hr.op?, op?_setUses]
    cases hd : s.op? u.user with
    | none =>
      have hnot : u ∉ s.usesOf old := by
        intro hu
        have hslot := h.pointsBack old u hu
        rw [Store.slot?, hd] at hslot
        cases hslot
      simp [hnot]
    | some d =>
      simp only [Option.map_some, Option.bind_some, List.getElem?_mapIdx]
      by_cases hu : u ∈ (s.usesOf old).filter accepts
      · have hold := h.pointsBack old u (List.mem_filter.1 hu).1
        rw [Store.slot?, hd, Option.bind_some] at hold
        rw [hold, if_pos hu, Option.map_some, if_pos hu]
      · rw [if_neg hu]
        simp only [if_neg hu, Option.map_id']
  -- a moved use was one of `old`, hence none of `new`
  have hapart : ∀ u, u ∈ s.usesOf new → u ∉ (s.usesOf old).filter accepts := by
    intro u hu hmoved
    have hold := h.pointsBack old u (List.mem_filter.1 hmoved).1
    exact hne (Option.some.inj (hold.symm.trans (h.pointsBack new u hu)))
  refine ⟨fun v => ?_, fun v u => ?_⟩
  · rw [hr.usesOf]
    by_cases hv : v = new
    · rw [if_pos hv, usesOf_setUses, if_neg (Ne.symm hne), List.nodup_append]
      refine ⟨h.nodup new, (h.nodup old).filter _, ?_⟩
      rintro u hu w hw rfl
      exact hapart u hu hw
    · rw [if_neg hv, usesOf_setUses]
      split
      · exact (h.nodup old).filter _
      · exact h.nodup v
  · rw [hr.usesOf, hslot]
    by_cases hv : v = new
    · subst hv
      rw [if_pos rfl, usesOf_setUses, if_neg (Ne.symm hne), List.mem_append]
      by_cases hu : u ∈ (s.usesOf old).filter accepts
      · have hlive := ((h.mem_iff old u).1 (List.mem_filter.1 hu).1).1
        simp only [hu, or_true, if_true, and_true, true_iff]
        exact hlive
      · rw [if_neg hu, h.mem_iff]
        simp only [hu, or_false]
    · rw [if_neg hv, usesOf_setUses]
      by_cases hvo : v = old
      · subst hvo
        rw [if_pos rfl, List.mem_filter, h.mem_iff]
        by_cases hu : u ∈ (s.usesOf v).filter accepts
        · have haccepts := (List.mem_filter.1 hu).2
          simp [hu, haccepts, Ne.symm hne]
        · rw [if_neg hu]
          rw [List.mem_filter, h.mem_iff] at hu
          grind
      · rw [if_neg hvo, h.mem_iff]
        by_cases hu : u ∈ (s.usesOf old).filter accepts
        · have hold := h.pointsBack old u (List.mem_filter.1 hu).1
          simp [hu, hold, Ne.symm hv, Ne.symm hvo]
        · rw [if_neg hu]

/-- All uses of a value go over to another one. -/
theorem UsesExact.replaceAllUses (h : UsesExact s gone) {old new : ValueRef} {u : Unit}
    (hrun : replaceAllUses old new s = .ok (u, t)) : UsesExact t gone := by
  obtain ⟨_, rfl⟩ | ⟨hne, hr⟩ := replaceAllUses_ok hrun
  · exact h
  · have hall : (s.usesOf old).filter (fun _ => true) = s.usesOf old :=
      List.filter_eq_self.2 (by simp)
    have hnone : (s.usesOf old).filter (fun _ => !true) = [] := List.filter_eq_nil_iff.2 (by simp)
    refine Redirected.usesExact (fun _ => true) hne ?_ h
    rw [hall, hnone]
    exact hr

/-- Some uses of a value go over to another one. -/
theorem UsesExact.replaceUsesWhere (h : UsesExact s gone) {old new : ValueRef}
    {accepts : OpRef → Bool} {u : Unit}
    (hrun : replaceUsesWhere old new accepts s = .ok (u, t)) : UsesExact t gone := by
  obtain ⟨_, rfl⟩ | ⟨hne, hr⟩ := replaceUsesWhere_ok hrun
  · exact h
  · exact Redirected.usesExact (fun u => accepts u.user) hne hr h

/-- Nothing is recorded of an operation that left. -/
theorem Erased.usesExact {out : List OpRef} (he : Erased s out t) (h : UsesExact s gone) :
    UsesExact t fun o => gone o ∨ o ∈ out := by
  refine ⟨fun v => ?_, fun v u => ?_⟩
  · rw [he.usesOf]
    exact (h.nodup v).filter _
  · rw [he.usesOf, List.mem_filter, h.mem_iff, he.slot?]
    simp only [decide_not, Bool.not_eq_true', decide_eq_false_iff_not, not_or]
    constructor
    · rintro ⟨⟨hlive, hslot⟩, hin⟩
      exact ⟨⟨hlive, hin⟩, hslot⟩
    · rintro ⟨⟨hlive, hin⟩, hslot⟩
      exact ⟨⟨hlive, hslot⟩, hin⟩

/-- An operation that is removed has no uses any more. -/
theorem UsesDropped.usesExact {o : OpRef} {d : OpData} (hu : UsesDropped s o d t)
    (hd : s.op? o = some d) (h : UsesExact s gone) : UsesExact t fun x => gone x ∨ x = o := by
  have hslot : ∀ u, t.slot? u = s.slot? u := fun u => by simp only [Store.slot?, Store.op?, hu.ops]
  refine ⟨fun v => ?_, fun v u => ?_⟩
  · rw [hu.usesOf]
    exact (h.nodup v).filter _
  · rw [hu.usesOf, List.mem_filter, h.mem_iff, hslot]
    by_cases huser : u.user = o
    · have hslot : s.slot? u = d.operands[u.slot]? := by
        rw [Store.slot?, huser, hd, Option.bind_some]
      by_cases hv : d.operands[u.slot]? = some v <;> simp [huser, hslot, hv]
    · simp [huser]

/-! ## Sequences of edits -/

/-- The edits that programs are built and rewritten with. -/
inductive Command where
  | createBlock (argTypes : List Ty)
  | createRegion (blocks : List BlockRef)
  | createOp (spec : OpSpec)
  | setOperands (op : OpRef) (operands : List ValueRef)
  | setOperand (op : OpRef) (i : Nat) (v : ValueRef)
  | pushOp (block : BlockRef) (op : OpRef)
  | insertBefore (block : BlockRef) (before op : OpRef)
  | insertOp (block : BlockRef) (before : Option OpRef) (op : OpRef)
  | detach (op : OpRef)
  | removeOp (op : OpRef)
  | eraseOp (op : OpRef)
  | takeRegions (op : OpRef)
  | cloneOp (m : Renaming) (op : OpRef)
  | replaceAllUses (old new : ValueRef)
  | replaceUsesWhere (old new : ValueRef) (accepts : OpRef → Bool)

namespace Command

/-- Runs an edit for its effect. -/
def run : Command → Edit Unit
  | .createBlock argTypes => discard (IR.createBlock argTypes)
  | .createRegion blocks => discard (IR.createRegion blocks)
  | .createOp spec => discard (IR.createOp spec)
  | .setOperands op operands => IR.setOperands op operands
  | .setOperand op i v => IR.setOperand op i v
  | .pushOp block op => IR.pushOp block op
  | .insertBefore block before op => IR.insertBefore block before op
  | .insertOp block before op => IR.insertOp block before op
  | .detach op => IR.detach op
  | .removeOp op => IR.removeOp op
  | .eraseOp op => IR.eraseOp op
  | .takeRegions op => discard (IR.takeRegions op)
  | .cloneOp m op => discard (IR.cloneOp m op)
  | .replaceAllUses old new => IR.replaceAllUses old new
  | .replaceUsesWhere old new accepts => IR.replaceUsesWhere old new accepts

/-- The operations that an edit names. -/
def names : Command → List OpRef
  | .createBlock _ | .createRegion _ | .createOp _ => []
  | .setOperands op _ | .setOperand op _ _ | .pushOp _ op => [op]
  | .insertBefore _ before op => [before, op]
  | .insertOp _ before op => op :: before.toList
  | .detach op | .removeOp op | .eraseOp op | .takeRegions op | .cloneOp _ op => [op]
  | .replaceAllUses _ _ | .replaceUsesWhere _ _ _ => []

/-- The operations that an edit takes out of the program for good: the one that is removed, or the
one that is erased with everything nested in it. -/
def removes (s : Store) : Command → OpRef → Prop
  | .removeOp op => fun o => o = op
  | .eraseOp op => Within s op
  | _ => fun _ => False

end Command

/-- The stores that edits reach from the empty one, with the operations removed on the way.  No edit
names an operation that was removed before. -/
inductive Reached : Store → (OpRef → Prop) → Prop
  | empty : Reached Store.empty fun _ => False
  | step {s t : Store} {gone : OpRef → Prop} (c : Command) :
      Reached s gone → (∀ o ∈ c.names, ¬ gone o) → c.run s = .ok ((), t) →
      Reached t fun o => gone o ∨ c.removes s o

/-- What every reached store satisfies. -/
structure Kept (s : Store) (gone : OpRef → Prop) : Prop where
  linked : Linked s
  uses : UsesExact s gone
  created : ∀ o, gone o → o.index < s.ops.size

namespace Kept

theorem empty : Kept Store.empty fun _ => False := by
  refine ⟨.empty, ⟨fun v => ?_, fun v u => ?_⟩, fun _ h => h.elim⟩
  · simp [Store.empty, Store.usesOf]
  · simp [Store.empty, Store.usesOf, Store.slot?, Store.op?]

/-- Operations that were removed are still in the table, so they stay created. -/
theorem of_size (h : Kept s gone) (hl : Linked t) (hu : UsesExact t gone)
    (hsize : s.ops.size ≤ t.ops.size) : Kept t gone :=
  ⟨hl, hu, fun o ho => Nat.lt_of_lt_of_le (h.created o ho) hsize⟩

theorem insertOp (h : Kept s gone) {b : BlockRef} {before : Option OpRef} {o : OpRef} {u : Unit}
    (hrun : insertOp b before o s = .ok (u, t)) : Kept t gone := by
  refine h.of_size (h.linked.insertOp hrun) (h.uses.insertOp hrun) ?_
  obtain ⟨d, bd, front, back, _, _, _, _, _, _, rfl⟩ := insertOp_ok hrun
  simp [Store.attach, Store.setBlock, Store.setOp]

theorem detach (h : Kept s gone) {o : OpRef} {u : Unit} (hrun : detach o s = .ok (u, t)) :
    Kept t gone := by
  refine h.of_size (h.linked.detach hrun) (h.uses.detach hrun) ?_
  obtain ⟨d, _, ⟨_, rfl⟩ | ⟨b, bd, _, _, rfl⟩⟩ := detach_ok hrun
  · exact Nat.le_refl _
  · simp [Store.unlink, Store.setBlock, Store.setOp]

theorem takeRegions (h : Kept s gone) {o : OpRef} {rs : List RegionRef}
    (hrun : takeRegions o s = .ok (rs, t)) : Kept t gone := by
  refine h.of_size (h.linked.takeRegions hrun) (h.uses.takeRegions hrun) ?_
  obtain ⟨d, _, _, hf⟩ := takeRegions_ok hrun
  simp [hf.ops, Store.setOp]

/-- An operation that is given operands has its uses again. -/
theorem revive (h : Kept s gone) {o : OpRef} {d : OpData} {operands : List ValueRef}
    (hd : s.op? o = some d) (hs : OperandsSet s o d operands t) :
    Kept t fun x => gone x ∧ x ≠ o := by
  refine ⟨hs.linked hd h.linked, hs.usesExact hd h.uses, fun x hx => ?_⟩
  have hlt := h.created x hx.1
  simpa [hs.ops, Store.setOp] using hlt

/-- An operation that was not removed is given other operands. -/
theorem operandsSet (h : Kept s gone) {o : OpRef} {d : OpData} {operands : List ValueRef}
    (hd : s.op? o = some d) (hlive : ¬ gone o) (hs : OperandsSet s o d operands t) :
    Kept t gone := by
  have hsame : (fun x => gone x ∧ x ≠ o) = gone :=
    funext fun x => propext ⟨And.left, fun hx => ⟨hx, fun heq => hlive (heq ▸ hx)⟩⟩
  exact hsame ▸ h.revive hd hs

theorem replaceAllUses (h : Kept s gone) {old new : ValueRef} {u : Unit}
    (hrun : replaceAllUses old new s = .ok (u, t)) : Kept t gone := by
  refine h.of_size (h.linked.replaceAllUses hrun) (h.uses.replaceAllUses hrun) ?_
  obtain ⟨_, rfl⟩ | ⟨_, hr⟩ := replaceAllUses_ok hrun
  · exact Nat.le_refl _
  · exact Nat.le_of_eq hr.size.symm

theorem replaceUsesWhere (h : Kept s gone) {old new : ValueRef} {accepts : OpRef → Bool} {u : Unit}
    (hrun : replaceUsesWhere old new accepts s = .ok (u, t)) : Kept t gone := by
  have hu := h.uses.replaceUsesWhere hrun
  obtain ⟨_, rfl⟩ | ⟨_, hr⟩ := replaceUsesWhere_ok hrun
  · exact h
  · exact h.of_size (hr.linked (h.linked.setUses old _)) hu (Nat.le_of_eq hr.size.symm)

theorem copyStepsKeep (gone : OpRef → Prop) : CopyStepsKeep fun s => Kept s gone where
  createOp spec s o t h hrun := by
    have hc := createOp_ok hrun
    -- what was removed was created before
    have hnew : ¬ gone o := by
      intro ho
      have hlt := h.created o ho
      rw [hc.eq_next] at hlt
      exact Nat.lt_irrefl _ hlt
    refine h.of_size (hc.linked h.linked) (hc.usesExact hnew h.uses) ?_
    simp [hc.ops]
  createBlock types s b t h hrun := by
    have hc := createBlock_ok hrun
    exact h.of_size (hc.linked h.linked) (hc.usesExact h.uses) (Nat.le_of_eq (by rw [hc.ops]))
  createRegion bs s r t h hrun := by
    have hc := createRegion_ok hrun
    exact h.of_size (hc.linked h.linked) (hc.usesExact h.uses) (Nat.le_of_eq (by rw [hc.ops]))
  pushOp b o s u t h hrun := by
    rw [pushOp_eq_insertOp] at hrun
    exact h.insertOp hrun
  retargetSuccessors pairs o s u t h hrun := by
    obtain ⟨d, successors, hd, rfl⟩ := retargetSuccessors_ok hrun
    exact h.of_size (h.linked.setOp hd rfl) (h.uses.setOp hd rfl) (by simp [Store.setOp])

theorem removeOp (h : Kept s gone) {o : OpRef} {u : Unit} (hrun : removeOp o s = .ok (u, t)) :
    Kept t fun x => gone x ∨ x = o := by
  obtain ⟨d, hd, _, _, hdrop⟩ := removeOp_ok hrun
  refine ⟨hdrop.linked h.linked, hdrop.usesExact hd h.uses, ?_⟩
  rw [hdrop.ops]
  rintro x (hx | rfl)
  · exact h.created x hx
  · exact (Array.getElem?_eq_some_iff.1 hd).1

/-- Erasing an operation removes everything in it. -/
theorem eraseOp (h : Kept s gone) {o : OpRef} {u : Unit} (hrun : eraseOp o s = .ok (u, t)) :
    Kept t fun x => gone x ∨ Within s o x := by
  obtain ⟨out, he, hout⟩ := eraseOp_ok h.linked h.uses.pointsBack hrun
  have hsame : (fun x => gone x ∨ Within s o x) = fun x => gone x ∨ x ∈ out :=
    funext fun x => by rw [hout]
  rw [hsame]
  refine ⟨he.linked h.linked, he.usesExact h.uses, ?_⟩
  rw [he.ops_size]
  rintro x (hx | hx)
  · exact h.created x hx
  · obtain ⟨d, hd⟩ := h.linked.op?_of_within (eraseOp_op? hrun) ((hout x).1 hx)
    exact (Array.getElem?_eq_some_iff.1 hd).1

/-- One edit. -/
theorem step (h : Kept s gone) (c : Command) (hlive : ∀ o ∈ c.names, ¬ gone o)
    (hrun : c.run s = .ok ((), t)) : Kept t fun o => gone o ∨ c.removes s o := by
  have hsame : (∀ o, ¬ c.removes s o) → Kept t gone → Kept t fun o => gone o ∨ c.removes s o := by
    intro hnone hk
    have heq : (fun o => gone o ∨ c.removes s o) = gone := funext fun o => by simp [hnone]
    rw [heq]
    exact hk
  have hcopy := copyStepsKeep gone
  cases c with
  | createBlock types =>
    obtain ⟨b, hrun⟩ := Edit.discard_ok.1 hrun
    exact hsame (fun _ => id) (hcopy.createBlock types s b t h hrun)
  | createRegion bs =>
    obtain ⟨r, hrun⟩ := Edit.discard_ok.1 hrun
    exact hsame (fun _ => id) (hcopy.createRegion bs s r t h hrun)
  | createOp spec =>
    obtain ⟨o, hrun⟩ := Edit.discard_ok.1 hrun
    exact hsame (fun _ => id) (hcopy.createOp spec s o t h hrun)
  | setOperands o operands =>
    obtain ⟨d, hd, hs⟩ := setOperands_ok hrun
    exact hsame (fun _ => id) (h.operandsSet hd (hlive o (by simp [Command.names])) hs)
  | setOperand o i v =>
    obtain ⟨d, hd, _, hs⟩ := setOperand_ok hrun
    exact hsame (fun _ => id) (h.operandsSet hd (hlive o (by simp [Command.names])) hs)
  | pushOp b o => exact hsame (fun _ => id) (hcopy.pushOp b o s _ t h hrun)
  | insertBefore b x o =>
    rw [Command.run, insertBefore_eq_insertOp] at hrun
    exact hsame (fun _ => id) (h.insertOp hrun)
  | insertOp b before o => exact hsame (fun _ => id) (h.insertOp hrun)
  | detach o => exact hsame (fun _ => id) (h.detach hrun)
  | removeOp o => exact h.removeOp hrun
  | eraseOp o => exact h.eraseOp hrun
  | takeRegions o =>
    obtain ⟨rs, hrun⟩ := Edit.discard_ok.1 hrun
    exact hsame (fun _ => id) (h.takeRegions hrun)
  | cloneOp m o =>
    obtain ⟨p, hrun⟩ := Edit.discard_ok.1 hrun
    exact hsame (fun _ => id) (hcopy.cloneOp m o s p t h hrun)
  | replaceAllUses old new => exact hsame (fun _ => id) (h.replaceAllUses hrun)
  | replaceUsesWhere old new accepts => exact hsame (fun _ => id) (h.replaceUsesWhere hrun)

/-- A whole run. -/
theorem of_reached (h : Reached s gone) : Kept s gone := by
  induction h with
  | empty => exact .empty
  | step c _ hlive hrun ih => exact ih.step c hlive hrun

end Kept

/-- Replacing a value where the recorded uses are exact meets no stale use; it cannot fault. -/
theorem UsesExact.replaceAllUses_total (h : UsesExact s gone) (old new : ValueRef) :
    ∃ t, IR.replaceAllUses old new s = .ok ((), t) := by
  by_cases heq : old = new
  · exact ⟨s, by simp [IR.replaceAllUses, heq]⟩
  · have hslots : ∀ u ∈ s.usesOf old, (s.setUses old []).slot? u = some old := fun u hu =>
      h.pointsBack old u hu
    obtain ⟨t, ht⟩ := forM_redirectCheckedUse_total new (h.nodup old) hslots
    refine ⟨t, ?_⟩
    simp only [IR.replaceAllUses, Edit.ite_run, heq, if_false, Edit.get_bind, Edit.modify_bind]
    exact ht

/-- In every reached store the uses of a value are, without repetitions, the operand slots that hold
it, of operations that were created and not removed.  Replacing a value therefore never meets a use
whose slot holds another one. -/
theorem recorded_uses_exact (h : Reached s gone) :
    (∀ v, (s.usesOf v).Nodup ∧ ∀ o i, (⟨o, i⟩ : Use) ∈ s.usesOf v ↔
      (∃ d, s.op o = .ok d ∧ d.operands[i]? = some v) ∧ ¬ gone o) ∧
    ∀ old new, ∃ t, replaceAllUses old new s = .ok ((), t) := by
  have hu := (Kept.of_reached h).uses
  refine ⟨fun v => ⟨hu.nodup v, fun o i => ?_⟩, hu.replaceAllUses_total⟩
  rw [hu.mem_iff]
  simp only [Store.slot?, Option.bind_eq_some_iff, Store.op_ok]
  exact and_comm

/-- A value used twice by one operation moves to a value that has a use already; then one of the
two users goes. -/
theorem recorded_uses_exact_doubled :
    ∃ t gone, Reached t gone ∧ (⟨⟨2⟩, 1⟩ : Use) ∈ t.usesOf ⟨1⟩ ∧ (t.usesOf ⟨1⟩).Nodup ∧
      (⟨⟨3⟩, 0⟩ : Use) ∉ t.usesOf ⟨1⟩ := by
  let op (operands results : List ValueRef) (types : List Ty) : OpData :=
    ⟨⟨"test", "op"⟩, operands, results, types, [], [], [], none⟩
  let values : Array ValueData := #[⟨.result ⟨0⟩ 0, .index⟩, ⟨.result ⟨1⟩ 0, .index⟩]
  let s₁ : Store := ⟨#[op [] [⟨0⟩] [.index], op [] [⟨1⟩] [.index]], values, #[], #[], #[]⟩
  let s₂ : Store := { s₁ with
    ops := s₁.ops ++ #[op [⟨0⟩, ⟨0⟩] [] [], op [⟨1⟩] [] []]
    uses := #[[⟨⟨2⟩, 0⟩, ⟨⟨2⟩, 1⟩], [⟨⟨3⟩, 0⟩]] }
  let s₃ : Store := { s₁ with
    ops := s₁.ops ++ #[op [⟨1⟩, ⟨1⟩] [] [], op [⟨1⟩] [] []]
    uses := #[[], [⟨⟨3⟩, 0⟩, ⟨⟨2⟩, 0⟩, ⟨⟨2⟩, 1⟩]] }
  have h : Reached Store.empty _ := .empty
  have h := h.step (.createOp { name := ⟨"test", "op"⟩, resultTypes := [.index] })
    (by simp [Command.names]) (by cbv)
  have h := h.step (t := s₁) (.createOp { name := ⟨"test", "op"⟩, resultTypes := [.index] })
    (by simp [Command.names]) (by cbv)
  have h := h.step (.createOp { name := ⟨"test", "op"⟩, operands := [⟨0⟩, ⟨0⟩] })
    (by simp [Command.names]) (by cbv)
  have h := h.step (t := s₂) (.createOp { name := ⟨"test", "op"⟩, operands := [⟨1⟩] })
    (by simp [Command.names]) (by cbv)
  have h := h.step (t := s₃) (.replaceAllUses ⟨0⟩ ⟨1⟩) (by simp [Command.names]) (by cbv)
  have h := h.step (.removeOp ⟨3⟩) (by simp [Command.names, Command.removes]) (by cbv)
  refine ⟨_, _, h, ?_, ((recorded_uses_exact h).1 ⟨1⟩).1, ?_⟩
  · rw [((recorded_uses_exact h).1 ⟨1⟩).2]
    exact ⟨⟨_, rfl, rfl⟩, by simp [Command.removes]⟩
  · rw [((recorded_uses_exact h).1 ⟨1⟩).2]
    simp [Command.removes]

end AffineRaising.IR
