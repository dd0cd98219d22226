/-
# AffineRaising.Proofs.Store.Sized — values for types.

Operations list the types of their results and blocks those of their arguments; the values come from
another table.  An edit either makes an entry together with its values or leaves types and values of
all entries as they were (`SameSizes`).  So there are as many values as types in every store that
edits reach: `Sized.of_reached`.

The copy of a block needs this: it names the new arguments by the old ones pairwise, which reaches
all of them only if there are as many new ones as old ones, and the new ones come from the types.
-/
import AffineRaising.Proofs.Resolve.Run
import AffineRaising.Proofs.Store.Restore
import AffineRaising.Proofs.Store.UseChain

namespace AffineRaising.IR

open Store

variable {gone : OpRef → Prop} {s s₁ t : Store}

/-! ## Sizes -/

/-- There are as many results and arguments as types are listed for them. -/
structure Sized (s : Store) : Prop where
  results : ∀ o d, s.op? o = some d → d.results.length = d.resultTypes.length
  args : ∀ b d, s.block? b = some d → d.args.length = d.argTypes.length

/-- Entries that are new agree with their types, and the others are as they were. -/
theorem Sized.of_entries (h : Sized s)
    (hop : ∀ x e, t.op? x = some e → e.results.length = e.resultTypes.length ∨
      ∃ d, s.op? x = some d ∧ e.results = d.results ∧ e.resultTypes = d.resultTypes)
    (hblock : ∀ b e, t.block? b = some e → e.args.length = e.argTypes.length ∨
      ∃ d, s.block? b = some d ∧ e.args = d.args ∧ e.argTypes = d.argTypes) : Sized t where
  results x e he := by
    obtain hnew | ⟨d, hd, hresults, htypes⟩ := hop x e he
    · exact hnew
    · rw [hresults, htypes]
      exact h.results x d hd
  args b e he := by
    obtain hnew | ⟨d, hd, hargs, htypes⟩ := hblock b e he
    · exact hnew
    · rw [hargs, htypes]
      exact h.args b d hd

/-! ## Edits that make nothing -/

/-- No entry is new, and results, arguments and their types are as they were. -/
structure SameSizes (s t : Store) : Prop where
  op? : ∀ x, (t.op? x).map (fun d => (d.results, d.resultTypes)) =
    (s.op? x).map fun d => (d.results, d.resultTypes)
  block? : ∀ b, (t.block? b).map (fun d => (d.args, d.argTypes)) =
    (s.block? b).map fun d => (d.args, d.argTypes)

namespace SameSizes

/-- Where results, arguments and their types did not change, they still agree. -/
theorem sized (h : SameSizes s t) (hs : Sized s) : Sized t := by
  refine hs.of_entries (fun x e he => .inr ?_) fun b e he => .inr ?_
  · have hx := h.op? x
    rw [he, Option.map_some] at hx
    obtain ⟨d, hd, heq⟩ := Option.map_eq_some_iff.1 hx.symm
    rw [Prod.mk.injEq] at heq
    exact ⟨d, hd, heq.1.symm, heq.2.symm⟩
  · have hb := h.block? b
    rw [he, Option.map_some] at hb
    obtain ⟨d, hd, heq⟩ := Option.map_eq_some_iff.1 hb.symm
    rw [Prod.mk.injEq] at heq
    exact ⟨d, hd, heq.1.symm, heq.2.symm⟩

/-- The same operations are in both tables. -/
theorem op?_none (h : SameSizes s t) {x : OpRef} : t.op? x = none ↔ s.op? x = none := by
  rw [← Option.map_eq_none_iff, h.op?, Option.map_eq_none_iff]

theorem of_eq (hops : t.ops = s.ops) (hblocks : t.blocks = s.blocks) : SameSizes s t :=
  ⟨fun x => by rw [Store.op?, hops]; rfl, fun b => by rw [Store.block?, hblocks]; rfl⟩

theorem setUses (s : Store) (v : ValueRef) (us : List Use) : SameSizes s (s.setUses v us) :=
  of_eq rfl rfl

/-- An entry may change in everything but its results and their types. -/
theorem setOp {o : OpRef} {d e : OpData} (hd : s.op? o = some d) (hresults : e.results = d.results)
    (htypes : e.resultTypes = d.resultTypes) : SameSizes s (s.setOp o e) := by
  refine ⟨fun x => ?_, fun b => rfl⟩
  rw [op?_setOp hd]
  split
  · rename_i hx
    rw [hx, hd, Option.map_some, Option.map_some, hresults, htypes]
  · rfl

theorem trans (h : SameSizes s s₁) (h' : SameSizes s₁ t) : SameSizes s t :=
  ⟨fun x => (h'.op? x).trans (h.op? x), fun b => (h'.block? b).trans (h.block? b)⟩

/-- Replacing operands changes no results. -/
theorem operandsSet {o : OpRef} {d : OpData} {operands : List ValueRef} (hd : s.op? o = some d)
    (h : OperandsSet s o d operands t) : SameSizes s t :=
  (setOp (e := { d with operands := operands }) hd rfl rfl).trans (.of_eq h.ops h.blocks)

theorem redirected {us : List Use} {new : ValueRef} (h : Redirected s us new t) :
    SameSizes s t := by
  refine ⟨fun x => ?_, fun b => by rw [Store.block?, h.blocks]; rfl⟩
  rw [h.op?, Option.map_map]
  rfl

theorem redirectedAll {ps : List (ValueRef × ValueRef)} (h : RedirectedAll s ps t) :
    SameSizes s t := by
  refine ⟨fun x => ?_, fun b => by rw [Store.block?, h.blocks]; rfl⟩
  rw [h.op?, Option.map_map]
  rfl

/-- Erasing takes operations out of blocks and changes no results. -/
theorem erased {out : List OpRef} (h : Erased s out t) : SameSizes s t := by
  refine ⟨fun x => ?_, fun b => ?_⟩
  · rw [h.op?, Option.map_map]
    refine congrFun (congrArg _ (funext fun d => ?_)) _
    rw [Function.comp_apply]
    split <;> rfl
  · rw [h.block?, Option.map_map]
    rfl

theorem insertOp {b : BlockRef} {before : Option OpRef} {o : OpRef} {u : Unit}
    (h : insertOp b before o s = .ok (u, t)) : SameSizes s t := by
  obtain ⟨d, bd, front, back, hd, _, hbd, _, _, _, rfl⟩ := insertOp_ok h
  refine ⟨(setOp (e := { d with parent := some b }) hd rfl rfl).op?, fun x => ?_⟩
  rw [block?_attach hbd]
  split
  · rename_i hx
    rw [hx, hbd]
    rfl
  · rfl

theorem detach {o : OpRef} {u : Unit} (h : detach o s = .ok (u, t)) : SameSizes s t := by
  obtain ⟨d, hd, ⟨_, rfl⟩ | ⟨b, bd, _, hbd, rfl⟩⟩ := detach_ok h
  · exact .of_eq rfl rfl
  · refine ⟨(setOp (e := { d with parent := none }) hd rfl rfl).op?, fun x => ?_⟩
    rw [block?_unlink hbd]
    split
    · rename_i hx
      rw [hx, hbd]
      rfl
    · rfl

theorem takeRegions {o : OpRef} {rs : List RegionRef} (h : takeRegions o s = .ok (rs, t)) :
    SameSizes s t := by
  obtain ⟨d, hd, _, hf⟩ := takeRegions_ok h
  exact (setOp (e := { d with regions := [] }) hd rfl rfl).trans (.of_eq hf.ops hf.blocks)

theorem replaceAllUses {old new : ValueRef} {u : Unit} (h : replaceAllUses old new s = .ok (u, t)) :
    SameSizes s t := by
  obtain ⟨_, rfl⟩ | ⟨_, hr⟩ := replaceAllUses_ok h
  · exact .of_eq rfl rfl
  · exact (setUses s old _).trans (redirected hr)

theorem replaceUsesWhere {old new : ValueRef} {accepts : OpRef → Bool} {u : Unit}
    (h : replaceUsesWhere old new accepts s = .ok (u, t)) : SameSizes s t := by
  obtain ⟨_, rfl⟩ | ⟨_, hr⟩ := replaceUsesWhere_ok h
  · exact .of_eq rfl rfl
  · exact (setUses s old _).trans (redirected hr)

end SameSizes

/-! ## Every edit -/

/-- Putting an operation into a block changes no results. -/
theorem Sized.insertOp (hs : Sized s) {b : BlockRef} {before : Option OpRef} {o : OpRef} {u : Unit}
    (h : insertOp b before o s = .ok (u, t)) : Sized t :=
  (SameSizes.insertOp h).sized hs

/-- The edits that copies are made of create results and arguments from types. -/
theorem Sized.copyStepsKeep : CopyStepsKeep Sized where
  createOp spec s o t hs h := by
    have hc := createOp_ok h
    refine hs.of_entries (fun x e he => ?_) fun b e he => ?_
    · rw [hc.op?] at he
      split at he
      · cases he
        exact .inl (by simp [OpSpec.entry, Store.nextValues])
      · exact .inr ⟨e, he, rfl, rfl⟩
    · rw [Store.block?, hc.blocks] at he
      exact .inr ⟨e, he, rfl, rfl⟩
  createBlock types s b t hs h := by
    have hc := createBlock_ok h
    refine hs.of_entries (fun x e he => ?_) fun b e he => ?_
    · rw [Store.op?, hc.ops] at he
      exact .inr ⟨e, he, rfl, rfl⟩
    · rw [hc.block?] at he
      split at he
      · cases he
        exact .inl (by simp [Store.nextValues])
      · exact .inr ⟨e, he, rfl, rfl⟩
  createRegion bs s r t hs h := by
    have hc := createRegion_ok h
    refine hs.of_entries (fun x e he => ?_) fun b e he => ?_
    · rw [Store.op?, hc.ops] at he
      exact .inr ⟨e, he, rfl, rfl⟩
    · rw [hc.block?] at he
      split at he
      · obtain ⟨d, hd, rfl⟩ := Option.map_eq_some_iff.1 he
        exact .inr ⟨d, hd, rfl, rfl⟩
      · exact .inr ⟨e, he, rfl, rfl⟩
  pushOp b o s u t hs h := by
    rw [pushOp_eq_insertOp] at h
    exact hs.insertOp h
  retargetSuccessors pairs o s u t hs h := by
    obtain ⟨d, successors, hd, rfl⟩ := retargetSuccessors_ok h
    exact (SameSizes.setOp (e := { d with successors := successors }) hd rfl rfl).sized hs

theorem Sized.empty : Sized Store.empty where
  results o d hd := by simp [Store.op?, Store.empty] at hd
  args b d hd := by simp [Store.block?, Store.empty] at hd

/-- What the reader of a program builds is sized. -/
theorem sized_of_built {tree : Surface.Op} {root : OpRef} {scope : Scope}
    (h : buildOp Scope.empty tree Store.empty = .ok (.ok (root, scope), s)) : Sized s :=
  Sized.copyStepsKeep.buildOp tree Scope.empty _ _ s .empty h

/-- One edit. -/
theorem Sized.step (hs : Sized s) (hk : Kept s gone) (c : Command) (h : c.run s = .ok ((), t)) :
    Sized t := by
  have hcopy := Sized.copyStepsKeep
  cases c with
  | createBlock types =>
    obtain ⟨b, h⟩ := Edit.discard_ok.1 h
    exact hcopy.createBlock types s b t hs h
  | createRegion bs =>
    obtain ⟨b, h⟩ := Edit.discard_ok.1 h
    exact hcopy.createRegion bs s b t hs h
  | createOp spec =>
    obtain ⟨o, h⟩ := Edit.discard_ok.1 h
    exact hcopy.createOp spec s o t hs h
  | setOperands o operands =>
    obtain ⟨d, hd, hset⟩ := setOperands_ok h
    exact (SameSizes.operandsSet hd hset).sized hs
  | setOperand o i v =>
    obtain ⟨d, hd, _, hset⟩ := setOperand_ok h
    exact (SameSizes.operandsSet hd hset).sized hs
  | pushOp b o => exact hcopy.pushOp b o s _ t hs h
  | insertBefore b x o =>
    rw [Command.run, insertBefore_eq_insertOp] at h
    exact hs.insertOp h
  | insertOp b before o => exact hs.insertOp h
  | detach o => exact (SameSizes.detach h).sized hs
  | removeOp o =>
    obtain ⟨d, _, _, _, hdrop⟩ := removeOp_ok h
    exact (SameSizes.of_eq hdrop.ops hdrop.blocks).sized hs
  | eraseOp o =>
    obtain ⟨out, he, _⟩ := eraseOp_ok hk.linked hk.uses.pointsBack h
    exact (SameSizes.erased he).sized hs
  | takeRegions o =>
    obtain ⟨rs, h⟩ := Edit.discard_ok.1 h
    exact (SameSizes.takeRegions h).sized hs
  | cloneOp m o =>
    obtain ⟨p, h⟩ := Edit.discard_ok.1 h
    exact hcopy.cloneOp m o s p t hs h
  | replaceAllUses old new => exact (SameSizes.replaceAllUses h).sized hs
  | replaceUsesWhere old new accepts => exact (SameSizes.replaceUsesWhere h).sized hs

/-- A whole run of edits. -/
theorem Sized.of_reached (h : Reached s gone) : Sized s := by
  induction h with
  | empty => exact .empty
  | step c hprev _ hrun ih => exact ih.step (.of_reached hprev) c hrun

end AffineRaising.IR
