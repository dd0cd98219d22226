/-
# AffineRaising.Proofs.Store.Clone — copying is creating.

A copy is put together from five edits: new blocks, new operations, new regions, operations pushed
into blocks, and successors set to other blocks.  What these keep, a copy keeps: `cloneOp_keeps`.

A property that all five edits keep is therefore kept by `cloneOp`, whatever it copies; the
induction over the recursion of the copy is made here once, and later modules give only the five
cases (`CopyStepsKeep`).  Links between entries are the first property of this kind; uses, sizes and
growth follow in the modules that introduce them.
-/
import AffineRaising.Proofs.Store.Links

namespace AffineRaising.IR

open Edit (Keeps)

/-! ## What a copy keeps -/

/-- The five edits that copies are made of keep `P`. -/
structure CopyStepsKeep (P : Store → Prop) : Prop where
  createOp : ∀ spec, Keeps P (createOp spec)
  createBlock : ∀ types, Keeps P (createBlock types)
  createRegion : ∀ bs, Keeps P (createRegion bs)
  pushOp : ∀ b o, Keeps P (pushOp b o)
  retargetSuccessors : ∀ pairs o, Keeps P (retargetSuccessors pairs o)

namespace CopyStepsKeep

variable {P : Store → Prop} (h : CopyStepsKeep P)

include h

/-- Blocks are created one after the other. -/
theorem cloneBlockHeaders (bs : List BlockRef) :
    ∀ m : Renaming, Keeps P (cloneBlockHeaders m bs) := by
  induction bs with
  | nil =>
    intro m
    exact .pure _
  | cons b bs ih =>
    intro m
    have hheader : Keeps P (cloneBlockHeader m b) :=
      .bind (.query _) fun d => .bind (h.createBlock d.argTypes) fun _ =>
        .bind .get fun _ => .pure _
    exact .bind hheader fun p => .bind (ih p.2) fun _ => .pure _

section Nested

-- the copier of the level below
variable {clone : Renaming → OpRef → Edit (OpRef × Renaming)}
  (hclone : ∀ m o, Keeps P (clone m o))

include hclone

/-- Copies of operations are pushed into the new block, one after the other. -/
theorem cloneOpsWith (pairs : List (BlockRef × BlockRef)) (target : BlockRef) (os : List OpRef) :
    ∀ m : Renaming, Keeps P (cloneOpsWith clone pairs target m os) := by
  induction os with
  | nil =>
    intro m
    exact .pure _
  | cons o os ih =>
    intro m
    exact .bind (hclone m o) fun p => .bind (h.retargetSuccessors pairs p.1) fun _ =>
      .bind (h.pushOp target p.1) fun _ => ih p.2

/-- New blocks are filled, one after the other. -/
theorem cloneBodiesWith (pairs rest : List (BlockRef × BlockRef)) :
    ∀ m : Renaming, Keeps P (cloneBodiesWith clone pairs m rest) := by
  induction rest with
  | nil =>
    intro m
    exact .pure _
  | cons p rest ih =>
    intro m
    exact .bind (.query _) fun d =>
      .bind (cloneOpsWith h hclone pairs p.2 d.ops m) fun m' => ih m'

/-- A region is copied by copying its blocks and creating a region of the copies. -/
theorem cloneRegionsWith (rs : List RegionRef) :
    ∀ m : Renaming, Keeps P (cloneRegionsWith clone m rs) := by
  induction rs with
  | nil =>
    intro m
    exact .pure _
  | cons r rs ih =>
    intro m
    have hregion : Keeps P (cloneRegionWith clone m r) :=
      .bind (.query _) fun d => .bind (h.cloneBlockHeaders d.blocks m) fun p =>
        .bind (cloneBodiesWith h hclone _ _ p.2) fun _ =>
          .bind (h.createRegion p.1) fun _ => .pure _
    exact .bind hregion fun p => .bind (ih p.2) fun _ => .pure _

end Nested

/-- By induction on the depth of the copy. -/
theorem cloneWithin (n : Nat) : ∀ (m : Renaming) (o : OpRef), Keeps P (cloneWithin n m o) := by
  induction n with
  | zero =>
    intro m o s a t _ hrun
    cases hrun
  | succ n ih =>
    intro m o
    exact .bind (.query _) fun d => .bind (h.cloneRegionsWith ih d.regions m) fun _ =>
      .bind (h.createOp _) fun _ => .bind .get fun _ => .pure _

/-- What the five edits keep, copying keeps. -/
theorem cloneOp (m : Renaming) (o : OpRef) : Keeps P (cloneOp m o) :=
  .bind .get fun s => h.cloneWithin s.depthBound m o

end CopyStepsKeep

theorem Store.Linked.copyStepsKeep : CopyStepsKeep Store.Linked where
  createOp _ _ _ _ hs h := (createOp_ok h).linked hs
  createBlock _ _ _ _ hs h := (createBlock_ok h).linked hs
  createRegion _ _ _ _ hs h := (createRegion_ok h).linked hs
  pushOp _ _ _ _ _ hs h := by
    rw [pushOp_eq_insertOp] at h
    exact hs.insertOp h
  retargetSuccessors _ _ _ _ _ hs h := by
    obtain ⟨d, successors, hd, rfl⟩ := retargetSuccessors_ok h
    exact hs.setOp hd rfl

end AffineRaising.IR
