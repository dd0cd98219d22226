/-
# AffineRaising.Proofs.Store.Mirror — a copy looks like what it was copied from.

Everything that comes into being while an operation is copied has a source: an operation the one
with its name, attributes and result types, over operands that its own stand for; a region the one
with as many blocks; a block the one with the same operations in the same order (`Mirrors`).  What
branched to a block of its region branches to the copy of that block.  The sources are settled one
by one as the copy is made and never change again (`Source.Extends`), so the result of a copy is
nested as the original is: `cloneOp_mirrors`.
-/
import AffineRaising.Proofs.Analysis.Nesting
import AffineRaising.Proofs.Store.Restore

namespace AffineRaising.IR

open Store AffineRaising.Analysis
open Edit (Keeps)

variable {gone : OpRef → Prop} {base s s₁ t : Store} {m m' : Renaming}

/-! ## Sources -/

/-- What operations, blocks and regions were copied from; what is no copy is its own source. -/
structure Source where
  op : OpRef → OpRef
  block : BlockRef → BlockRef
  region : RegionRef → RegionRef

namespace Source

variable {src src₁ src' : Source}

/-- Nothing was copied yet. -/
def self : Source := ⟨id, id, id⟩

/-- The source of an origin. -/
def origin (src : Source) : Origin → Origin
  | .result x k => .result (src.op x) k
  | .argument b k => .argument (src.block b) k

/-- What is in the store keeps its source. -/
structure Extends (src : Source) (s : Store) (src' : Source) : Prop where
  op : ∀ x d, s.op? x = some d → src'.op x = src.op x
  block : ∀ b d, s.block? b = some d → src'.block b = src.block b
  region : ∀ r d, s.region? r = some d → src'.region r = src.region r

namespace Extends

theorem refl (src : Source) (s : Store) : src.Extends s src :=
  ⟨fun _ _ _ => rfl, fun _ _ _ => rfl, fun _ _ _ => rfl⟩

/-- Sources that were settled stay so. -/
theorem trans (h : src.Extends s src₁) (hg : Grows s s₁) (h' : src₁.Extends s₁ src') :
    src.Extends s src' := by
  refine ⟨fun x d hd => ?_, fun b d hd => ?_, fun r d hd => ?_⟩
  · obtain ⟨e, he, _⟩ := hg.op? x d hd
    exact (h'.op x e he).trans (h.op x d hd)
  · obtain ⟨e, he, _⟩ := hg.block? b d hd
    exact (h'.block b e he).trans (h.block b d hd)
  · obtain ⟨e, he, _⟩ := hg.region? r d hd
    exact (h'.region r e he).trans (h.region r d hd)

/-- Only what is new gets a source. -/
theorem setOp (src : Source) (o : OpRef) {c : OpRef} (hc : s.op? c = none) :
    src.Extends s { src with op := Function.update src.op c o } := by
  refine ⟨fun x d hd => Function.update_of_ne ?_ _ _, fun _ _ _ => rfl, fun _ _ _ => rfl⟩
  rintro rfl
  rw [hc] at hd
  cases hd

theorem setBlock (src : Source) (b : BlockRef) {b' : BlockRef} (hb : s.block? b' = none) :
    src.Extends s { src with block := Function.update src.block b' b } := by
  refine ⟨fun _ _ _ => rfl, fun x d hd => Function.update_of_ne ?_ _ _, fun _ _ _ => rfl⟩
  rintro rfl
  rw [hb] at hd
  cases hd

theorem setRegion (src : Source) (r : RegionRef) {r' : RegionRef} (hr : s.region? r' = none) :
    src.Extends s { src with region := Function.update src.region r' r } := by
  refine ⟨fun _ _ _ => rfl, fun _ _ _ => rfl, fun x d hd => Function.update_of_ne ?_ _ _⟩
  rintro rfl
  rw [hr] at hd
  cases hd

section Linked

variable (h : src.Extends s src') (hl : Linked s)

include h hl

/-- The origins of values that are there keep their sources. -/
theorem origin_eq {v : ValueRef} {a : Origin} (ha : s.originOf v = some a) :
    src'.origin a = src.origin a := by
  cases a with
  | result x k =>
    obtain ⟨d, hd⟩ := op?_of_result hl ha
    rw [Source.origin, Source.origin, h.op x d hd]
  | argument b k =>
    obtain ⟨d, hd⟩ := block?_of_argument hl ha
    rw [Source.origin, Source.origin, h.block b d hd]

theorem map_regions {x : OpRef} {e : OpData} (he : s.op? x = some e) :
    e.regions.map src'.region = e.regions.map src.region := by
  refine List.map_congr_left fun r hr => ?_
  obtain ⟨rd, hrd, _⟩ := region?_of_op hl he hr
  exact h.region r rd hrd

theorem map_blocks {r : RegionRef} {e : RegionData} (he : s.region? r = some e) :
    e.blocks.map src'.block = e.blocks.map src.block := by
  refine List.map_congr_left fun b hb => ?_
  obtain ⟨bd, hbd, _⟩ := block?_of_region hl he hb
  exact h.block b bd hbd

theorem map_ops {b : BlockRef} {e : BlockData} (he : s.block? b = some e) :
    e.ops.map src'.op = e.ops.map src.op := by
  refine List.map_congr_left fun x hx => ?_
  have hparent := (hl.ops.mem_iff (a := b) (by simp [opsIn, he]) x).1 hx
  obtain ⟨d, hd, _⟩ := Option.map_eq_some_iff.1 hparent
  exact h.op x d hd

end Linked

end Extends

end Source

/-! ## Mirrors -/

/-- Value `w` stands for `v`: it has the same place in what was copied from the definition of
`v`. -/
def Stands (base : Store) (src : Source) (s : Store) (v w : ValueRef) : Prop :=
  ∃ a, s.originOf w = some a ∧ base.originOf v = some (src.origin a)

/-- The part of an entry that a copy repeats. -/
def shapeOf (d : OpData) : OpName × Dict × List Ty × List RegionRef × List ValueRef :=
  (d.name, d.attrs, d.resultTypes, d.regions, d.operands)

/-- Entry `e` was copied from `d`. -/
structure Alike (base : Store) (src : Source) (s : Store) (d e : OpData) : Prop where
  name : e.name = d.name
  attrs : e.attrs = d.attrs
  resultTypes : e.resultTypes = d.resultTypes
  regions : e.regions.map src.region = d.regions
  operands : List.Forall₂ (Stands base src s) d.operands e.operands

/-- The operation branches only to blocks of the region that contains it. -/
def BranchesLocally (s : Store) (x : OpRef) : Prop :=
  ∀ d b, s.op? x = some d → b ∈ d.successors →
    ∃ r rd, s.region? r = some rd ∧ b ∈ rd.blocks ∧ InBlocks s rd.blocks x

/-- Entry `e` branches to copies of the blocks to which `d` does. -/
structure Rebranched (base : Store) (src : Source) (s : Store) (d e : OpData) : Prop where
  sources : e.successors.map src.block = d.successors
  new : ∀ b ∈ e.successors, base.block? b = none
  there : ∀ b ∈ e.successors, ∃ bd, s.block? b = some bd

/-- What is new since `base` looks like its source, and the renaming takes values to values that
stand for them.  Blocks count once a region owns them: until then they are being filled.  Branches
count once the operation is in a block. -/
structure Mirrors (base : Store) (src : Source) (s : Store) (m : Renaming) : Prop where
  old : Source.self.Extends base src
  ops : ∀ x e, base.op? x = none → s.op? x = some e →
    ∃ d, base.op? (src.op x) = some d ∧ Alike base src s d e
  regions : ∀ r e, base.region? r = none → s.region? r = some e →
    ∃ d, base.region? (src.region r) = some d ∧ e.blocks.map src.block = d.blocks
  blocks : ∀ b e, base.block? b = none → s.block? b = some e → e.parent ≠ none →
    ∃ d, base.block? (src.block b) = some d ∧ e.argTypes = d.argTypes ∧ e.ops.map src.op = d.ops
  branches : ∀ x e, base.op? x = none → s.op? x = some e → e.parent ≠ none →
    BranchesLocally base (src.op x) → ∀ d, base.op? (src.op x) = some d → Rebranched base src s d e
  names : ∀ p ∈ m, Stands base src s p.1 p.2

/-- Before anything is copied, everything mirrors itself. -/
theorem Mirrors.refl (s : Store) : Mirrors s .self s [] := by
  refine ⟨.refl _ _, fun x e hnone he => ?_, fun r e hnone he => ?_, fun b e hnone he => ?_,
    fun x e hnone he => ?_, fun p hp => by cases hp⟩
  · rw [hnone] at he
    cases he
  · rw [hnone] at he
    cases he
  · rw [hnone] at he
    cases he
  · rw [hnone] at he
    cases he

section Later

variable {src src' : Source} (hl : Linked s) (hext : src.Extends s src')
  (horigin : ∀ v a, s.originOf v = some a → t.originOf v = some a)

include hl hext horigin

/-- A value stands for another one also later on. -/
theorem Stands.later {v w : ValueRef} (h : Stands base src s v w) : Stands base src' t v w := by
  obtain ⟨a, ha, hv⟩ := h
  exact ⟨a, horigin w a ha, by rw [hext.origin_eq hl ha, hv]⟩

/-- An operation that was there still looks like its source, as long as it keeps its shape. -/
theorem Mirrors.op_later (h : Mirrors base src s m) {x : OpRef} {e e' : OpData}
    (hx : base.op? x = none) (he : s.op? x = some e) (hshape : shapeOf e' = shapeOf e) :
    ∃ d, base.op? (src'.op x) = some d ∧ Alike base src' t d e' := by
  obtain ⟨d, hd, hname, hattrs, htypes, hregions, hoperands⟩ := h.ops x e hx he
  simp only [shapeOf, Prod.mk.injEq] at hshape
  obtain ⟨hname', hattrs', htypes', hregions', hoperands'⟩ := hshape
  refine ⟨d, by rw [hext.op x e he, hd], hname'.trans hname, hattrs'.trans hattrs,
    htypes'.trans htypes, ?_, ?_⟩
  · rw [hregions', hext.map_regions hl he, hregions]
  · rw [hoperands']
    exact hoperands.imp fun v w hw => hw.later hl hext horigin

omit horigin in
theorem Mirrors.region_later (h : Mirrors base src s m) {r : RegionRef} {e e' : RegionData}
    (hr : base.region? r = none) (he : s.region? r = some e) (hblocks : e'.blocks = e.blocks) :
    ∃ d, base.region? (src'.region r) = some d ∧ e'.blocks.map src'.block = d.blocks := by
  obtain ⟨d, hd, heq⟩ := h.regions r e hr he
  exact ⟨d, by rw [hext.region r e he, hd], by rw [hblocks, hext.map_blocks hl he, heq]⟩

omit horigin in
theorem Mirrors.block_later (h : Mirrors base src s m) {b : BlockRef} {e : BlockData}
    (hb : base.block? b = none) (he : s.block? b = some e) (hparent : e.parent ≠ none) :
    ∃ d, base.block? (src'.block b) = some d ∧ e.argTypes = d.argTypes ∧
      e.ops.map src'.op = d.ops := by
  obtain ⟨d, hd, htypes, hops⟩ := h.blocks b e hb he hparent
  exact ⟨d, by rw [hext.block b e he, hd], htypes, by rw [hext.map_ops hl he, hops]⟩

omit hl horigin in
theorem Rebranched.later (hblock : ∀ b bd, s.block? b = some bd → ∃ bd', t.block? b = some bd')
    {d e : OpData} (h : Rebranched base src s d e) : Rebranched base src' t d e := by
  refine ⟨?_, h.new, fun b hb => ?_⟩
  · rw [← h.sources]
    refine List.map_congr_left fun b hb => ?_
    obtain ⟨bd, hbd⟩ := h.there b hb
    exact hext.block b bd hbd
  · obtain ⟨bd, hbd⟩ := h.there b hb
    exact hblock b bd hbd

omit hl horigin in
theorem Mirrors.branch_later (hblock : ∀ b bd, s.block? b = some bd → ∃ bd', t.block? b = some bd')
    (h : Mirrors base src s m) {x : OpRef} {e : OpData} (hx : base.op? x = none)
    (he : s.op? x = some e) (hparent : e.parent ≠ none) (hlocal : BranchesLocally base (src'.op x))
    {d : OpData} (hd : base.op? (src'.op x) = some d) : Rebranched base src' t d e := by
  rw [hext.op x e he] at hlocal hd
  exact (h.branches x e hx he hparent hlocal d hd).later hext hblock

/-- So do the values of a renaming. -/
theorem Mirrors.names_later (h : Mirrors base src s m) :
    ∀ p ∈ m, Stands base src' t p.1 p.2 :=
  fun p hp => (h.names p hp).later hl hext horigin

end Later

/-! ## The steps of a copy -/

namespace Mirrors

variable {src : Source} (h : Mirrors base src s m) (hcopied : Copied base s) (hl : Linked s)

include h

/-- Sources of what is not in the store may be settled. -/
theorem old_later {src' : Source} (hcopied : Copied base s) (hext : src.Extends s src') :
    Source.self.Extends base src' :=
  ⟨fun x d hd => (hext.op x d (hcopied.op? x d hd)).trans (h.old.op x d hd),
    fun b d hd => (hext.block b d (hcopied.block? b d hd)).trans (h.old.block b d hd),
    fun r d hd => (hext.region r d (hcopied.region? r d hd)).trans (h.old.region r d hd)⟩

/-- A value that is no copy stands for itself. -/
theorem stands_self (hcopied : Copied base s) (hlb : Linked base) {v : ValueRef} {a : Origin}
    (ha : base.originOf v = some a) : Stands base src s v v := by
  obtain ⟨d, hd, rfl⟩ := Option.map_eq_some_iff.1 ha
  refine ⟨d.origin, by rw [originOf, hcopied.value? v d hd, Option.map_some], ?_⟩
  rw [ha, h.old.origin_eq hlb ha]
  cases d.origin <;> rfl

/-- The renaming yields values that stand for what is renamed. -/
theorem stands_apply (hcopied : Copied base s) (hlb : Linked base) {v : ValueRef} {a : Origin}
    (ha : base.originOf v = some a) : Stands base src s v (m.apply v) := by
  unfold Renaming.apply Renaming.get?
  cases hfind : m.find? (fun p => p.1 == v) with
  | none => exact h.stands_self hcopied hlb ha
  | some p =>
    have hv : p.1 = v := by simpa using List.find?_some hfind
    exact hv ▸ h.names p (List.mem_of_find?_eq_some hfind)

include hl

theorem retargetSuccessors {pairs : List (BlockRef × BlockRef)} {o : OpRef} {u : Unit}
    (hfree : ∀ d, s.op? o = some d → d.parent = none)
    (hrun : retargetSuccessors pairs o s = .ok (u, t)) : Mirrors base src t m := by
  obtain ⟨d, successors, hd, ht⟩ := retargetSuccessors_ok hrun
  have horigin : ∀ v a, s.originOf v = some a → t.originOf v = some a := ht ▸ fun _ _ ha => ha
  refine ⟨h.old, fun x e hx he => ?_, ht ▸ h.regions, ht ▸ h.blocks,
    fun x e hx he hparent hlocal d' hd' => ?_, ht ▸ h.names⟩
  · rw [ht, op?_setOp hd] at he
    split at he
    · rename_i heq
      cases he
      subst heq
      exact h.op_later hl (.refl _ _) horigin hx hd rfl
    · exact h.op_later hl (.refl _ _) horigin hx he rfl
  · rw [ht, op?_setOp hd] at he
    split at he
    · -- what is in no block yet may branch to anything
      cases he
      exact absurd (hfree d hd) hparent
    · have hblock : ∀ b bd, s.block? b = some bd → ∃ bd', t.block? b = some bd' :=
        ht ▸ fun b bd hb => ⟨bd, hb⟩
      exact h.branch_later (.refl _ _) hblock hx he hparent hlocal hd'

/-- A copy is put into the copy of its block while that has no owner. -/
theorem pushOp {target : BlockRef} {o : OpRef} {u : Unit}
    (htarget : ∃ e, s.block? target = some e ∧ e.parent = none)
    (hbranches : ∀ e, s.op? o = some e → BranchesLocally base (src.op o) →
      ∀ d, base.op? (src.op o) = some d → Rebranched base src s d e)
    (hrun : pushOp target o s = .ok (u, t)) : Mirrors base src t m := by
  rw [pushOp_eq_insertOp] at hrun
  obtain ⟨d, bd, front, back, hd, _, hbd, _, _, _, ht⟩ := insertOp_ok hrun
  have horigin : ∀ v a, s.originOf v = some a → t.originOf v = some a := ht ▸ fun _ _ ha => ha
  have hblock : ∀ b bd, s.block? b = some bd → ∃ bd', t.block? b = some bd' := fun b bd' hb => by
    obtain ⟨e, he, _⟩ := (Grows.insertOp hrun).block? b bd' hb
    exact ⟨e, he⟩
  refine ⟨h.old, fun x e hx he => ?_, ht ▸ h.regions, fun b e hb he hparent => ?_,
    fun x e hx he hparent hlocal d' hd' => ?_, ht ▸ h.names⟩
  · rw [ht, op?_attach hd] at he
    split at he
    · rename_i heq
      cases he
      subst heq
      exact h.op_later hl (.refl _ _) horigin hx hd rfl
    · exact h.op_later hl (.refl _ _) horigin hx he rfl
  · rw [ht, block?_attach hbd] at he
    split at he
    · -- the block that is filled is in no region yet
      obtain ⟨te, hte, hnone⟩ := htarget
      cases hbd.symm.trans hte
      cases he
      exact absurd hnone hparent
    · exact h.blocks b e hb he hparent
  · rw [ht, op?_attach hd] at he
    split at he
    · rename_i heq
      cases he
      subst heq
      obtain ⟨hsources, hnew, hthere⟩ := (hbranches d hd hlocal d' hd').later (.refl _ _) hblock
      exact ⟨hsources, hnew, hthere⟩
    · exact h.branch_later (.refl _ _) hblock hx he hparent hlocal hd'

include hcopied

/-- The new block has the old one as its source. -/
theorem createBlock {types : List Ty} {b' : BlockRef} (b : BlockRef)
    (hc : BlockCreated s types b' t) :
    Mirrors base { src with block := Function.update src.block b' b } t m := by
  have hnew : s.block? b' = none := by rw [hc.eq_next, block?_next]
  have hext := Source.Extends.setBlock src b hnew
  have horigin := fun v a => originOf_grows (v := v) (x := a) hc.values
  refine ⟨h.old_later hcopied hext, fun x e hx he => ?_, fun r e hr he => ?_,
    fun x e hx he hparent => ?_, fun x e hx he hparent hlocal d hd => ?_,
    h.names_later hl hext horigin⟩
  · rw [Store.op?, hc.ops] at he
    exact h.op_later hl hext horigin hx he rfl
  · rw [Store.region?, hc.regions] at he
    exact h.region_later hl hext hr he rfl
  · rw [hc.block?] at he
    split at he
    · cases he
      exact absurd rfl hparent
    · exact h.block_later hl hext hx he hparent
  · rw [Store.op?, hc.ops] at he
    have hsame := (hc.copied (.refl s)).block?
    exact h.branch_later hext (fun b bd hb => ⟨bd, hsame b bd hb⟩) hx he hparent hlocal hd

/-- The new operation has the old one as its source, over values that stand for its operands. -/
theorem createOp {spec : OpSpec} {c o : OpRef} {d : OpData} (hc : Created s spec c t)
    (hd : base.op? o = some d) (hname : spec.name = d.name) (hattrs : spec.attrs = d.attrs)
    (htypes : spec.resultTypes = d.resultTypes) (hregions : spec.regions.map src.region = d.regions)
    (hoperands : List.Forall₂ (Stands base src s) d.operands spec.operands) :
    Mirrors base { src with op := Function.update src.op c o } t m := by
  have hnew : s.op? c = none := by rw [hc.eq_next, op?_next]
  have hext := Source.Extends.setOp src o hnew
  have horigin := fun v a => originOf_grows (v := v) (x := a) hc.values
  refine ⟨h.old_later hcopied hext, fun x e hx he => ?_, fun r e hr he => ?_,
    fun b e hb he hparent => ?_, fun x e hx he hparent hlocal d' hd' => ?_,
    h.names_later hl hext horigin⟩
  · rw [hc.op?] at he
    split at he
    · rename_i heq
      cases he
      subst heq
      refine ⟨d, by simp [hd], hname, hattrs, htypes, hregions, ?_⟩
      exact hoperands.imp fun v w hw => hw.later hl hext horigin
    · exact h.op_later hl hext horigin hx he rfl
  · rw [hc.region?] at he
    split at he
    · obtain ⟨e', he', rfl⟩ := Option.map_eq_some_iff.1 he
      exact h.region_later hl hext hr he' rfl
    · exact h.region_later hl hext hr he rfl
  · rw [Store.block?, hc.blocks] at he
    exact h.block_later hl hext hb he hparent
  · rw [hc.op?] at he
    split at he
    · cases he
      exact absurd rfl hparent
    · exact h.branch_later hext (fun b bd hb => ⟨bd, by rwa [Store.block?, hc.blocks]⟩) hx he
        hparent hlocal hd'

/-- The new region has the old one as its source, and owns copies of its blocks. -/
theorem createRegion {bs : List BlockRef} {r' r : RegionRef} {d : RegionData}
    (hc : RegionCreated s bs r' t) (hd : base.region? r = some d)
    (hbs : bs.map src.block = d.blocks)
    (hblocks : ∀ b ∈ bs, ∀ e, s.block? b = some e → ∃ d, base.block? (src.block b) = some d ∧
      e.argTypes = d.argTypes ∧ e.ops.map src.op = d.ops) :
    Mirrors base { src with region := Function.update src.region r' r } t m := by
  have hnew : s.region? r' = none := by rw [hc.eq_next, region?_next]
  have hext := Source.Extends.setRegion src r hnew
  have horigin : ∀ v a, s.originOf v = some a → t.originOf v = some a := by
    intro v a ha
    rwa [originOf, Store.value?, hc.values]
  refine ⟨h.old_later hcopied hext, fun x e hx he => ?_, fun x e hx he => ?_,
    fun b e hb he hparent => ?_, fun x e hx he hparent hlocal d' hd' => ?_,
    h.names_later hl hext horigin⟩
  · rw [Store.op?, hc.ops] at he
    exact h.op_later hl hext horigin hx he rfl
  · rw [hc.region?] at he
    split at he
    · rename_i heq
      cases he
      subst heq
      exact ⟨d, by simp [hd], hbs⟩
    · exact h.region_later hl hext hx he rfl
  · rw [hc.block?] at he
    split at he
    · rename_i hmem
      obtain ⟨e', he', rfl⟩ := Option.map_eq_some_iff.1 he
      exact hblocks b hmem e' he'
    · exact h.block_later hl hext hb he hparent
  · rw [Store.op?, hc.ops] at he
    refine h.branch_later hext (fun b bd hb => ?_) hx he hparent hlocal hd'
    rw [hc.block?, hb]
    split
    · exact ⟨_, rfl⟩
    · exact ⟨bd, rfl⟩

end Mirrors

/-! ## Copies of blocks -/

/-- The values of two lists stand for each other, place by place. -/
theorem Mirrors.insertAll {src : Source} (h : Mirrors base src s m) (olds news : List ValueRef)
    (hnews : ∀ (k : Nat) v w, olds[k]? = some v → news[k]? = some w → Stands base src s v w) :
    Mirrors base src s (m.insertAll olds news) := by
  refine ⟨h.old, h.ops, h.regions, h.blocks, h.branches, fun p hp => ?_⟩
  rcases Renaming.mem_insertAll hp with hp | hp
  · exact h.names p hp
  · obtain ⟨k, hk⟩ := List.mem_iff_getElem?.1 hp
    obtain ⟨hv, hw⟩ := List.getElem?_zip_eq_some.1 hk
    exact hnews k p.1 p.2 hv hw

/-- Block `b'` is the copy of `b`, in no region yet, and holds copies of the operations listed. -/
def Filling (base : Store) (src : Source) (s : Store) (copied : List OpRef) (b b' : BlockRef) :
    Prop :=
  src.block b' = b ∧ ∃ d e, base.block? b = some d ∧ s.block? b' = some e ∧ e.parent = none ∧
    e.argTypes = d.argTypes ∧ e.ops.map src.op = copied

/-- A block that is being filled keeps what it has. -/
theorem Filling.later {src src' : Source} {copied : List OpRef} {b b' : BlockRef}
    (h : Filling base src s copied b b') (hl : Linked s) (hext : src.Extends s src')
    (hblock : ∀ e, s.block? b' = some e → t.block? b' = some e) :
    Filling base src' t copied b b' := by
  obtain ⟨hsrc, d, e, hd, he, hparent, htypes, hops⟩ := h
  refine ⟨(hext.block b' e he).trans hsrc, d, e, hd, hblock e he, hparent, htypes, ?_⟩
  rw [hext.map_ops hl he, hops]

/-- The rest of a copy leaves alone what the first part made. -/
theorem Copying.again (h : Copying gone base s m) : Copying gone s s m :=
  ⟨.refl s, h.kept, id, h.names⟩

/-- Copies of blocks begin empty, with arguments that stand for the old ones. -/
theorem cloneBlockHeaders_mirrors (hlb : Linked base) {bs : List BlockRef} :
    ∀ {s t : Store} {m m' : Renaming} {bs' : List BlockRef} {src : Source},
      (∀ b ∈ bs, ∃ d, base.block? b = some d) → Copying gone base s m → Mirrors base src s m →
      cloneBlockHeaders m bs s = .ok ((bs', m'), t) →
      ∃ src', src.Extends s src' ∧ Mirrors base src' t m' ∧
        List.Forall₂ (Filling base src' t []) bs bs' := by
  induction bs with
  | nil =>
    intro s t m m' bs' src _ _ h hrun
    cases hrun
    exact ⟨src, .refl _ _, h, .nil⟩
  | cons b bs ih =>
    intro s t m m' bs' src hbs hcopying h hrun
    simp only [cloneBlockHeaders, Edit.bind_ok] at hrun
    obtain ⟨⟨b', m₁⟩, s₁, hheader, ⟨bs₁, m₂⟩, s₂, hrest, hresult⟩ := hrun
    cases hresult
    have hone : cloneBlockHeaders m [b] s = .ok (([b'], m₁), s₁) := by
      simp only [cloneBlockHeaders, Edit.bind_ok]
      exact ⟨_, _, hheader, _, _, rfl, rfl⟩
    obtain ⟨hcopying₁, _, _⟩ := cloneBlockHeaders_ok hcopying hone
    obtain ⟨d, hd, hcreate, rfl⟩ := cloneBlockHeader_ok hheader
    have hc := createBlock_ok hcreate
    have hl := hcopying.kept.linked
    obtain ⟨d', hd'⟩ := hbs b List.mem_cons_self
    cases (hcopying.copied.block? b d' hd').symm.trans hd
    have hnew : s.block? b' = none := by rw [hc.eq_next, block?_next]
    have hentry := (hc.block? b').trans (if_pos rfl)
    have hext := Source.Extends.setBlock src b hnew
    have h₁ := (h.createBlock hcopying.copied hl b hc).insertAll
      (s₁.argsOf b) (s₁.argsOf b') fun k v w hv hw => by
        have hb₁ : s₁.block? b = some d := (hc.copied (.refl s)).block? b d hd
        rw [argsOf_eq hb₁] at hv
        rw [argsOf_eq hentry] at hw
        refine ⟨.argument b' k, ?_, ?_⟩
        · exact (hcopying₁.kept.linked.args.mem_iff (by rw [argsIn, hentry]; rfl) k w).1 hw
        · rw [(hlb.args.mem_iff (by rw [argsIn, hd']; rfl) k v).1 hv]
          simp [Source.origin]
    have hfirst : Filling base { src with block := Function.update src.block b' b } s₁ [] b b' :=
      ⟨by simp, d, _, hd', hentry, rfl, rfl, rfl⟩
    obtain ⟨src', hext', h', hall⟩ := ih (fun x hx => hbs x (List.mem_cons_of_mem b hx)) hcopying₁
      h₁ hrest
    have hrest' := (cloneBlockHeaders_ok hcopying₁.again hrest).1.copied
    have hgrows : Grows s s₁ := (Grows.copyStepsKeep s).createBlock _ _ _ _ (.refl s) hcreate
    refine ⟨src', hext.trans hgrows hext', h', .cons ?_ hall⟩
    exact hfirst.later hcopying₁.kept.linked hext' (hrest'.block? b')

/-! ## Branches -/

/-- The second block is the copy of the first. -/
structure Paired (base : Store) (src : Source) (s : Store) (p : BlockRef × BlockRef) : Prop where
  new : base.block? p.2 = none
  source : src.block p.2 = p.1
  there : ∃ e, s.block? p.2 = some e

/-- A pair stays one. -/
theorem Paired.later {src src' : Source} {p : BlockRef × BlockRef} (h : Paired base src s p)
    (hext : src.Extends s src') (hg : Grows s t) : Paired base src' t p := by
  obtain ⟨e, he⟩ := h.there
  obtain ⟨e', he', _⟩ := hg.block? p.2 e he
  exact ⟨h.new, (hext.block p.2 e he).trans h.source, e', he'⟩

/-- An operation that branches only to blocks of its region branches to blocks that have a
partner. -/
def Partnered (base : Store) (pairs : List (BlockRef × BlockRef)) (o : OpRef) : Prop :=
  BranchesLocally base o → ∀ d b, base.op? o = some d → b ∈ d.successors → b ∈ pairs.map Prod.fst

/-- The operations of a region branch to its blocks. -/
theorem partnered_of_region (hlb : Linked base) {r : RegionRef} {rd : RegionData}
    {pairs : List (BlockRef × BlockRef)} (hr : base.region? r = some rd)
    (hfst : pairs.map Prod.fst = rd.blocks) {o : OpRef} (ho : InBlocks base rd.blocks o) :
    Partnered base pairs o := by
  intro hlocal d b hd hb
  obtain ⟨r', rd', hr', hb', b₁, hb₁, bd₁, hbd₁, ho₁⟩ := hlocal d b hd hb
  obtain ⟨b₂, hb₂, bd₂, hbd₂, ho₂⟩ := ho
  cases hlb.block_unique hbd₁ ho₁ hbd₂ ho₂
  cases region_of_block_unique hlb hr' hb₁ hr hb₂
  cases hr.symm.trans hr'
  rwa [hfst]

/-- Redirected along pairs of a block and its copy, an operation branches to copies. -/
theorem retargetSuccessors_rebranched {src : Source} {pairs : List (BlockRef × BlockRef)}
    {o : OpRef} {d e e' : OpData} {u : Unit} (he : s.op? o = some e)
    (hsame : e.successors = d.successors) (hknown : ∀ b ∈ d.successors, b ∈ pairs.map Prod.fst)
    (hpairs : ∀ p ∈ pairs, Paired base src s p)
    (hrun : retargetSuccessors pairs o s = .ok (u, t)) (he' : t.op? o = some e') :
    Rebranched base src t d e' := by
  simp only [retargetSuccessors, Edit.query_bind, op_ok, Edit.modify_run] at hrun
  obtain ⟨_, hentry, hrun⟩ := hrun
  cases he.symm.trans hentry
  cases hrun
  rw [op?_setOp he, if_pos rfl] at he'
  cases he'
  have hpartner : ∀ b ∈ d.successors, ∃ p ∈ pairs, p.1 = b ∧
      ((pairs.find? fun p => p.1 == b).map (·.2)).getD b = p.2 := by
    intro b hb
    obtain ⟨q, hq, rfl⟩ := List.mem_map.1 (hknown b hb)
    cases hfind : pairs.find? fun p => p.1 == q.1 with
    | none => simpa using List.find?_eq_none.1 hfind q hq
    | some p => exact ⟨p, List.mem_of_find?_eq_some hfind,
      by simpa using List.find?_some hfind, rfl⟩
  have hmem : ∀ b' ∈ e.successors.map fun b => ((pairs.find? fun p => p.1 == b).map (·.2)).getD b,
      ∃ p ∈ pairs, p.2 = b' := by
    intro b' hb'
    obtain ⟨b, hb, rfl⟩ := List.mem_map.1 hb'
    obtain ⟨p, hp, _, hget⟩ := hpartner b (hsame ▸ hb)
    exact ⟨p, hp, hget.symm⟩
  refine ⟨?_, fun b' hb' => ?_, fun b' hb' => ?_⟩
  · rw [List.map_map, hsame]
    conv_rhs => rw [← List.map_id d.successors]
    refine List.map_congr_left fun b hb => ?_
    obtain ⟨p, hp, hfst, hget⟩ := hpartner b hb
    rw [Function.comp_apply, hget, (hpairs p hp).source, hfst, id]
  · obtain ⟨p, hp, rfl⟩ := hmem b' hb'
    exact (hpairs p hp).new
  · obtain ⟨p, hp, rfl⟩ := hmem b' hb'
    exact (hpairs p hp).there

/-! ## Copies of operations -/

/-- The operation is there, and the operands in it are values. -/
def GroundedIn (s : Store) (o : OpRef) : Prop :=
  (∃ d, s.op? o = some d) ∧ ∀ x d v, Within s o x → s.op? x = some d → v ∈ d.operands →
    ∃ e, s.value? v = some e

theorem Grounded.groundedIn (h : Grounded s) {o : OpRef} {d : OpData} (hd : s.op? o = some d) :
    GroundedIn s o :=
  ⟨⟨d, hd⟩, fun x e v _ => h x e v⟩

/-- What is nested in a grounded operation is grounded. -/
theorem GroundedIn.child (hl : Linked s) {o z : OpRef} (h : GroundedIn s o) (hz : Child s o z) :
    GroundedIn s z :=
  ⟨hl.op?_of_within h.1 (.single hz), fun x d v hw => h.2 x d v (.head hz hw)⟩

/-- The copy of an operation as it is made: in no block, with the successors of the original. -/
def Loose (base : Store) (o : OpRef) (s : Store) (c : OpRef) : Prop :=
  ∃ d e, base.op? o = some d ∧ s.op? c = some e ∧ e.parent = none ∧ e.successors = d.successors

/-- A copier that yields mirrors. -/
def CopierMirrors (gone : OpRef → Prop) (base : Store)
    (clone : Renaming → OpRef → Edit (OpRef × Renaming)) : Prop :=
  ∀ {s t : Store} {m m' : Renaming} {o c : OpRef} {src : Source}, GroundedIn base o →
    Copying gone base s m → Mirrors base src s m → clone m o s = .ok ((c, m'), t) →
    ∃ src', src.Extends s src' ∧ Mirrors base src' t m' ∧ src'.op c = o ∧ Loose base o t c

section Nested

-- the copier of the level below
variable {clone : Renaming → OpRef → Edit (OpRef × Renaming)}
  (hgrows : ∀ s m o, Keeps (Grows s) (clone m o))
  (hclone : ∀ {base s t m m' o c}, Copying gone base s m → clone m o s = .ok ((c, m'), t) →
    Copying gone base t m' ∧ base.op? c = none ∧ NewUnder s t (· = c))
  (hmirrors : CopierMirrors gone base clone)

include hgrows hclone hmirrors

/-- The copies of operations stand behind what the block holds already; other blocks stay. -/
theorem cloneOpsWith_mirrors {pairs : List (BlockRef × BlockRef)} {b target : BlockRef}
    (htarget : base.block? target = none) {os : List OpRef} :
    ∀ {s t : Store} {m m' : Renaming} {src : Source} {copied : List OpRef},
      (∀ o ∈ os, GroundedIn base o ∧ Partnered base pairs o) →
      (∀ p ∈ pairs, Paired base src s p) → Copying gone base s m → Mirrors base src s m →
      Filling base src s copied b target → cloneOpsWith clone pairs target m os s = .ok (m', t) →
      ∃ src', src.Extends s src' ∧ Mirrors base src' t m' ∧
        Filling base src' t (copied ++ os) b target ∧
        ∀ x e, x ≠ target → s.block? x = some e → t.block? x = some e := by
  induction os with
  | nil =>
    intro s t m m' src copied _ _ _ h hfill hrun
    cases hrun
    exact ⟨src, .refl _ _, h, by rwa [List.append_nil], fun _ _ _ he => he⟩
  | cons o os ih =>
    intro s t m m' src copied hos hpairs hcopying h hfill hrun
    simp only [cloneOpsWith, Edit.bind_ok] at hrun
    obtain ⟨⟨c, m₁⟩, s₁, hfirst, _, s₂, hretarget, _, s₃, hpush, hrest⟩ := hrun
    obtain ⟨hcopying₁, hnew, _⟩ := hclone hcopying hfirst
    have hsame := (hclone hcopying.again hfirst).1.copied
    obtain ⟨hground, hpartner⟩ := hos o List.mem_cons_self
    obtain ⟨src₁, hext₁, h₁, hsrc, od, oe, hod, hoe, hfree, hsuccessors⟩ :=
      hmirrors hground hcopying h hfirst
    have hpairs₁ : ∀ p ∈ pairs, Paired base src₁ s₁ p := fun p hp =>
      (hpairs p hp).later hext₁ (hgrows s m o s _ s₁ (.refl s) hfirst)
    have hcopying₂ := hcopying₁.retargetSuccessors hnew hretarget
    have hcopying₃ := hcopying₂.pushOp hnew htarget hpush
    have hfill₁ := hfill.later hcopying.kept.linked hext₁ (hsame.block? target)
    have h₂ := h₁.retargetSuccessors hcopying₁.kept.linked
      (fun e he => Option.some.inj (hoe.symm.trans he) ▸ hfree) hretarget
    have hbranches : ∀ e, s₂.op? c = some e → BranchesLocally base (src₁.op c) →
        ∀ d, base.op? (src₁.op c) = some d → Rebranched base src₁ s₂ d e := by
      intro e he hlocal d hd
      rw [hsrc] at hlocal hd
      cases hod.symm.trans hd
      exact retargetSuccessors_rebranched hoe hsuccessors
        (fun b hb => hpartner hlocal od b hod hb) hpairs₁ hretarget he
    have hblocks₂ : ∀ x, s₂.block? x = s₁.block? x := by
      obtain ⟨_, _, _, rfl⟩ := retargetSuccessors_ok hretarget
      exact fun x => rfl
    obtain ⟨hb, d, e, hd, he, hparent, htypes, hops⟩ := hfill₁
    have h₃ := h₂.pushOp hcopying₂.kept.linked ⟨e, (hblocks₂ target).trans he, hparent⟩
      hbranches hpush
    rw [pushOp_eq_insertOp] at hpush
    obtain ⟨cd, bd, front, back, hcd, _, hbd, hsplit, hback, _, hs₃⟩ := insertOp_ok hpush
    cases ((hblocks₂ target).trans he).symm.trans hbd
    have hback : back = [] := List.head?_eq_none_iff.1 hback
    subst hback
    have hfill₃ : Filling base src₁ s₃ (copied ++ [o]) b target := by
      have hentry : s₃.block? target = some { e with ops := front ++ [c] } := by
        rw [hs₃, block?_attach hbd, if_pos rfl]
      refine ⟨hb, d, _, hd, hentry, hparent, htypes, ?_⟩
      rw [List.append_nil] at hsplit
      rw [List.map_append, List.map_cons, hsrc, List.map_nil, ← hsplit, hops]
    have hgrows₃ : Grows s s₃ := by
      have hfirst' := hgrows s m o s _ s₁ (.refl s) hfirst
      have hretarget' := (Grows.copyStepsKeep s).retargetSuccessors pairs c s₁ _
        s₂ hfirst' hretarget
      exact hretarget'.trans (Grows.insertOp hpush)
    obtain ⟨src', hext', h', hfill', hothers⟩ :=
      ih (fun x hx => hos x (List.mem_cons_of_mem o hx))
        (fun p hp => (hpairs p hp).later hext₁ hgrows₃) hcopying₃ h₃ hfill₃ hrest
    refine ⟨src', hext₁.trans hgrows₃ hext', h', by simpa using hfill', fun x e hx he => ?_⟩
    refine hothers x e hx ?_
    rw [hs₃, block?_attach hbd, if_neg hx, hblocks₂]
    exact hsame.block? x e he

/-- The copies of blocks are filled one by one, in the order of their sources. -/
theorem cloneBodiesWith_mirrors {pairs rest : List (BlockRef × BlockRef)} :
    ∀ {s t : Store} {m m' : Renaming} {src : Source}, (rest.map Prod.snd).Nodup →
      (∀ p ∈ rest, base.block? p.2 = none ∧ Filling base src s [] p.1 p.2) →
      (∀ p ∈ rest, ∀ o, InBlocks base [p.1] o → GroundedIn base o ∧ Partnered base pairs o) →
      (∀ p ∈ pairs, Paired base src s p) →
      Copying gone base s m → Mirrors base src s m →
      cloneBodiesWith clone pairs m rest s = .ok (m', t) →
      ∃ src', src.Extends s src' ∧ Mirrors base src' t m' ∧
        (∀ p ∈ rest, ∃ d, base.block? p.1 = some d ∧ Filling base src' t d.ops p.1 p.2) ∧
        ∀ x e, x ∉ rest.map Prod.snd → s.block? x = some e → t.block? x = some e := by
  induction rest with
  | nil =>
    intro s t m m' src _ _ _ _ _ h hrun
    cases hrun
    exact ⟨src, .refl _ _, h, by simp, fun _ _ _ he => he⟩
  | cons p rest ih =>
    intro s t m m' src hnodup hfill hin hpairs hcopying h hrun
    obtain ⟨b, b'⟩ := p
    rw [List.map_cons, List.nodup_cons] at hnodup
    obtain ⟨d, m₁, s₁, hd, hfirst, hrun⟩ := cloneBodiesWith_parts hrun
    obtain ⟨hnew, hfill'⟩ := hfill (b, b') List.mem_cons_self
    -- the block is an old one, so what is read is what it held
    have hbd : base.block? b = some d := by
      obtain ⟨_, d', _, hd', _⟩ := hfill'
      cases (hcopying.copied.block? b d' hd').symm.trans hd
      exact hd'
    have hos : ∀ o ∈ d.ops, GroundedIn base o ∧ Partnered base pairs o := fun o ho =>
      hin (b, b') List.mem_cons_self o ⟨b, List.mem_singleton_self b, d, hbd, ho⟩
    have hcopying₁ := (cloneOpsWith_ok hgrows hclone hnew hcopying hfirst).1
    obtain ⟨src₁, hext₁, h₁, hfill₁, hothers₁⟩ :=
      cloneOpsWith_mirrors hgrows hclone hmirrors hnew hos hpairs hcopying h hfill' hfirst
    have hne : ∀ q ∈ rest, q.2 ≠ b' := by
      intro q hq heq
      exact hnodup.1 (List.mem_map.2 ⟨q, hq, heq⟩)
    have hfill₁' : ∀ q ∈ rest, base.block? q.2 = none ∧ Filling base src₁ s₁ [] q.1 q.2 := by
      intro q hq
      obtain ⟨hnew', hfill''⟩ := hfill q (List.mem_cons_of_mem _ hq)
      exact ⟨hnew', hfill''.later hcopying.kept.linked hext₁ fun e => hothers₁ q.2 e (hne q hq)⟩
    have hgrows₁ : Grows s s₁ := (Grows.copyStepsKeep s).cloneOpsWith (hgrows s) pairs b' d.ops
      m s m₁ s₁ (.refl s) hfirst
    obtain ⟨src', hext', h', hall, hothers⟩ := ih hnodup.2 hfill₁'
      (fun q hq => hin q (List.mem_cons_of_mem _ hq))
      (fun q hq => (hpairs q hq).later hext₁ hgrows₁) hcopying₁ h₁ hrun
    refine ⟨src', hext₁.trans hgrows₁ hext', h', fun q hq => ?_, fun x e hx he => ?_⟩
    · rcases List.mem_cons.1 hq with rfl | hq
      · exact ⟨d, hbd, hfill₁.later hcopying₁.kept.linked hext' fun e => hothers b' e hnodup.1⟩
      · exact hall q hq
    · rw [List.map_cons, List.mem_cons, not_or] at hx
      exact hothers x e hx.2 (hothers₁ x e hx.1 he)

/-- A region is copied with its blocks and branches. -/
theorem cloneRegionWith_mirrors (hlb : Linked base) {r r' : RegionRef} {src : Source}
    (hr : ∃ d, base.region? r = some d) (hin : ∀ z, InRegions base [r] z → GroundedIn base z)
    (hcopying : Copying gone base s m) (h : Mirrors base src s m)
    (hrun : cloneRegionWith clone m r s = .ok ((r', m'), t)) :
    ∃ src', src.Extends s src' ∧ Mirrors base src' t m' ∧ src'.region r' = r ∧
      ∃ e, t.region? r' = some e := by
  obtain ⟨d, bs', m₁, s₁, s₂, hd, hheaders, hbodies, hcreate⟩ := cloneRegionWith_parts hrun
  have hrd : base.region? r = some d := by
    obtain ⟨d', hd'⟩ := hr
    cases (hcopying.copied.region? r d' hd').symm.trans hd
    exact hd'
  have hbs : ∀ b ∈ d.blocks, ∃ bd, base.block? b = some bd := by
    intro b hb
    obtain ⟨bd, hbd, _⟩ := block?_of_region hlb hrd hb
    exact ⟨bd, hbd⟩
  obtain ⟨hcopying₁, _, hnew⟩ := cloneBlockHeaders_ok hcopying hheaders
  obtain ⟨src₁, hext₁, h₁, hfill₁⟩ := cloneBlockHeaders_mirrors hlb hbs hcopying h hheaders
  have hlength := hfill₁.length_eq
  have hsnd : (d.blocks.zip bs').map Prod.snd = bs' := List.map_snd_zip (by omega)
  have hfst : (d.blocks.zip bs').map Prod.fst = d.blocks := List.map_fst_zip (by omega)
  have hc := createRegion_ok hcreate
  have hzip : ∀ p ∈ d.blocks.zip bs', Filling base src₁ s₁ [] p.1 p.2 :=
    fun p hp => (List.forall₂_iff_zip.1 hfill₁).2 hp
  have hcopying₂ := (cloneBodiesWith_ok hgrows hclone
    (fun p hp => hnew p.2 (List.of_mem_zip hp).2) hcopying₁ hbodies).1
  have hpairs : ∀ p ∈ d.blocks.zip bs', Paired base src₁ s₁ p := fun p hp => by
    obtain ⟨hsource, _, e, _, he, _⟩ := hzip p hp
    exact ⟨hnew p.2 (List.of_mem_zip hp).2, hsource, e, he⟩
  have hos : ∀ p ∈ d.blocks.zip bs', ∀ o, InBlocks base [p.1] o →
      GroundedIn base o ∧ Partnered base (d.blocks.zip bs') o := by
    rintro p hp o ⟨b, hb, ho⟩
    have ho : InBlocks base d.blocks o :=
      ⟨b, List.mem_singleton.1 hb ▸ (List.of_mem_zip hp).1, ho⟩
    exact ⟨hin o ⟨r, List.mem_singleton_self r, d, hrd, ho⟩, partnered_of_region hlb hrd hfst ho⟩
  obtain ⟨src₂, hext₂, h₂, hfilled, _⟩ := cloneBodiesWith_mirrors hgrows hclone hmirrors
    (by rw [hsnd]; exact hc.nodup)
    (fun p hp => ⟨hnew p.2 (List.of_mem_zip hp).2, hzip p hp⟩) hos hpairs hcopying₁ h₁ hbodies
  have hmap : bs'.map src₂.block = d.blocks := by
    conv_lhs => rw [← hsnd]
    conv_rhs => rw [← hfst]
    rw [List.map_map]
    refine List.map_congr_left fun p hp => ?_
    obtain ⟨_, _, hp', _⟩ := hfilled p hp
    exact hp'
  have h₃ := h₂.createRegion hcopying₂.copied hcopying₂.kept.linked hc hrd hmap fun b hb e he => by
    rw [← hsnd] at hb
    obtain ⟨p, hp, rfl⟩ := List.mem_map.1 hb
    obtain ⟨bd, hbd, hsrc, bd', e', hbd', he', _, htypes, hops⟩ := hfilled p hp
    cases hbd.symm.trans hbd'
    cases he'.symm.trans he
    exact ⟨bd, by rw [hsrc, hbd], htypes, hops⟩
  have hgrows₁ : Grows s s₁ :=
    (Grows.copyStepsKeep s).cloneBlockHeaders d.blocks m s _ s₁ (.refl s) hheaders
  have hgrows₂ : Grows s s₂ := (Grows.copyStepsKeep s).cloneBodiesWith (hgrows s) _ _ _ s₁ _ s₂
    hgrows₁ hbodies
  have hnone : s₂.region? r' = none := by rw [hc.eq_next, region?_next]
  refine ⟨_, (hext₁.trans hgrows₁ hext₂).trans hgrows₂ (.setRegion src₂ r hnone), h₃, by simp, ?_⟩
  exact ⟨_, (hc.region? r').trans (if_pos rfl)⟩

/-- Regions are copied one by one. -/
theorem cloneRegionsWith_mirrors (hlb : Linked base) {rs : List RegionRef} :
    ∀ {s t : Store} {m m' : Renaming} {rs' : List RegionRef} {src : Source},
      (∀ r ∈ rs, ∃ d, base.region? r = some d) →
      (∀ z, InRegions base rs z → GroundedIn base z) → Copying gone base s m →
      Mirrors base src s m → cloneRegionsWith clone m rs s = .ok ((rs', m'), t) →
      ∃ src', src.Extends s src' ∧ Mirrors base src' t m' ∧ rs'.map src'.region = rs := by
  induction rs with
  | nil =>
    intro s t m m' rs' src _ _ _ h hrun
    cases hrun
    exact ⟨src, .refl _ _, h, rfl⟩
  | cons r rs ih =>
    intro s t m m' rs' src hrs hin hcopying h hrun
    simp only [cloneRegionsWith, Edit.bind_ok] at hrun
    obtain ⟨⟨r', m₁⟩, s₁, hfirst, ⟨rs₁, m₂⟩, s₂, hrest, hresult⟩ := hrun
    cases hresult
    have hinHead : ∀ z, InRegions base [r] z → GroundedIn base z := fun z hz => hin z hz.head
    have hinTail : ∀ z, InRegions base rs z → GroundedIn base z := fun z hz => hin z hz.tail
    obtain ⟨src₁, hext₁, h₁, hsrc, e, he⟩ := cloneRegionWith_mirrors hgrows hclone hmirrors hlb
      (hrs r List.mem_cons_self) hinHead hcopying h hfirst
    have hcopying₁ := (cloneRegionWith_ok hgrows hclone hcopying hfirst).1
    obtain ⟨src', hext', h', hmap⟩ :=
      ih (fun x hx => hrs x (List.mem_cons_of_mem r hx)) hinTail hcopying₁ h₁ hrest
    have hone : cloneRegionsWith clone m [r] s = .ok (([r'], m₁), s₁) := by
      simp only [cloneRegionsWith, Edit.bind_ok]
      exact ⟨_, _, hfirst, _, _, rfl, rfl⟩
    have hgrows₁ : Grows s s₁ :=
      (Grows.copyStepsKeep s).cloneRegionsWith (hgrows s) [r] m s _ s₁ (.refl s) hone
    refine ⟨src', hext₁.trans hgrows₁ hext', h', ?_⟩
    rw [List.map_cons, hmap, hext'.region r' e he, hsrc]

end Nested

/-- By induction on the depth, a copy mirrors what was copied. -/
theorem cloneWithin_mirrors (hlb : Linked base) (n : Nat) :
    CopierMirrors gone base (cloneWithin n) := by
  induction n with
  | zero =>
    intro s t m m' o c src _ _ _ hrun
    cases hrun
  | succ n ih =>
    intro s t m m' o c src hground hcopying h hrun
    obtain ⟨d, hd⟩ := hground.1
    obtain ⟨d', rs', m₁, s₁, hd', hregions, hcreate, rfl⟩ := cloneWithin_parts hrun
    cases (hcopying.copied.op? o d hd).symm.trans hd'
    have hbelow := fun {base s t m m' o c} (h : Copying gone base s m)
      (hrun : cloneWithin n m o s = .ok ((c, m'), t)) => (cloneWithin_ok n h hrun).1
    have hgrows := fun s => (Grows.copyStepsKeep s).cloneWithin n
    have hcopying₁ := (cloneRegionsWith_ok hgrows hbelow hcopying hregions).1
    have hrs : ∀ r ∈ d.regions, ∃ rd, base.region? r = some rd := by
      intro r hr
      obtain ⟨rd, hrd, _⟩ := region?_of_op hlb hd hr
      exact ⟨rd, hrd⟩
    obtain ⟨src₁, hext₁, h₁, hmap⟩ :=
      cloneRegionsWith_mirrors hgrows hbelow ih hlb hrs
        (fun z hz => hground.child hlb ⟨d, hd, hz⟩) hcopying h hregions
    have hgrows₁ : Grows s s₁ :=
      (Grows.copyStepsKeep s).cloneRegionsWith (hgrows s) d.regions m s _ s₁ (.refl s) hregions
    have hl₁ := hcopying₁.kept.linked
    -- the operands are renamed as the renaming was before the regions were copied
    have hoperands : List.Forall₂ (Stands base src₁ s₁) d.operands (d.operands.map m.apply) := by
      rw [List.forall₂_map_right_iff, List.forall₂_same]
      intro v hv
      obtain ⟨a, ha⟩ := hground.2 o d v .refl hd hv
      have horigin : base.originOf v = some a.origin := by rw [originOf, ha, Option.map_some]
      exact (h.stands_apply hcopying.copied hlb horigin).later hcopying.kept.linked hext₁
        hgrows₁.originOf
    have hc := createOp_ok hcreate
    have hnew : s₁.op? c = none := by rw [hc.eq_next, op?_next]
    have hentry := (hc.op? c).trans (if_pos rfl)
    have hl₂ := hc.linked hl₁
    have h₂ := h₁.createOp hcopying₁.copied hl₁ hc hd rfl rfl rfl hmap hoperands
    refine ⟨_, hext₁.trans hgrows₁ (.setOp src₁ o hnew), h₂.insertAll _ _ ?_, by simp,
      d, _, hd, hentry, rfl, rfl⟩
    intro k v w hv hw
    have ho₂ : t.op? o = some d := by
      have ho₁ := hcopying₁.copied.op? o d hd
      have hne : o ≠ c := by
        rintro rfl
        rw [hnew] at ho₁
        cases ho₁
      rw [hc.op?, if_neg hne, ho₁]
    rw [resultsOf_eq ho₂] at hv
    rw [resultsOf_eq hentry] at hw
    refine ⟨.result c k, (hl₂.results.mem_iff (by rw [resultsIn, hentry]; rfl) k w).1 hw, ?_⟩
    rw [(hlb.results.mem_iff (by rw [resultsIn, hd]; rfl) k v).1 hv]
    simp [Source.origin]

/-! ## The copy as a whole -/

section Whole

variable {src : Source} (h : Mirrors s src t m) (hcopied : Copied s t) (hs : Linked s)
  (ht : Linked t)

include h hcopied hs ht

/-- What is nested in something new is new, and nested as the sources are. -/
theorem Mirrors.child {x z : OpRef} (hx : s.op? x = none) (hc : Child t x z) :
    s.op? z = none ∧ Child s (src.op x) (src.op z) := by
  refine ⟨op?_none_of_child hs ht (fun y d hd => ⟨d, hcopied.op? y d hd, rfl⟩)
    (fun b d hd => ⟨d, hcopied.block? b d hd, rfl⟩) hcopied.region? hc hx, ?_⟩
  obtain ⟨e, he, r, hr, re, hre, b, hb, be, hbe, hz⟩ := hc
  obtain ⟨rd, hrd, hrparent⟩ := region?_of_op ht he hr
  cases hre.symm.trans hrd
  obtain ⟨bd, hbd, hbparent⟩ := block?_of_region ht hre hb
  cases hbe.symm.trans hbd
  -- a region of something new is new, and so are its blocks
  have hrnew : s.region? r = none := by
    cases hsr : s.region? r with
    | none => rfl
    | some rd' =>
      cases (hcopied.region? r rd' hsr).symm.trans hre
      obtain ⟨l, hl⟩ := hs.regions.holder (b := r) (a := x) (by simp [regionParent, hsr, hrparent])
      rw [regionsIn, hx] at hl
      cases hl
  have hbnew : s.block? b = none := by
    cases hsb : s.block? b with
    | none => rfl
    | some bd' =>
      cases (hcopied.block? b bd' hsb).symm.trans hbe
      obtain ⟨l, hl⟩ := hs.blocks.holder (b := b) (a := r) (by simp [blockParent, hsb, hbparent])
      rw [blocksIn, hrnew] at hl
      cases hl
  obtain ⟨d, hd, halike⟩ := h.ops x e hx he
  obtain ⟨rd', hrd', hblocks⟩ := h.regions r re hrnew hre
  obtain ⟨bd', hbd', _, hops⟩ := h.blocks b be hbnew hbe (by simp [hbparent])
  refine ⟨d, hd, src.region r, ?_, rd', hrd', src.block b, ?_, bd', hbd', ?_⟩
  · rw [← halike.regions]
    exact List.mem_map_of_mem hr
  · rw [← hblocks]
    exact List.mem_map_of_mem hb
  · rw [← hops]
    exact List.mem_map_of_mem hz

/-- What is nested in a copy is the copy of something nested in the original. -/
theorem Mirrors.within {x z : OpRef} (hx : s.op? x = none) (hw : Within t x z) :
    s.op? z = none ∧ Within s (src.op x) (src.op z) := by
  induction hw with
  | refl => exact ⟨hx, .refl⟩
  | tail _ hchild ih =>
    obtain ⟨hnew, hwithin⟩ := ih
    obtain ⟨hnew', hchild'⟩ := h.child hcopied hs ht hnew hchild
    exact ⟨hnew', hwithin.tail hchild'⟩

end Whole

/-- A copy mirrors the operation, and all that is new was copied from something in it. -/
theorem cloneOp_mirrors {o c : OpRef} (hk : Kept s gone) (hg : GroundedIn s o)
    (hrun : cloneOp [] o s = .ok ((c, m'), t)) :
    ∃ src, Mirrors s src t m' ∧ src.op c = o ∧ Loose s o t c ∧
      ∀ x e, s.op? x = none → t.op? x = some e → Within s o (src.op x) := by
  obtain ⟨hcloned, hunder⟩ := cloneOp_ok hk hrun
  rw [cloneOp, Edit.get_bind] at hrun
  have hcopying : Copying gone s s [] := ⟨.refl s, hk, id, fun p hp => by cases hp⟩
  obtain ⟨src, _, h, hc, hloose⟩ :=
    cloneWithin_mirrors hk.linked s.depthBound hg hcopying (.refl s) hrun
  refine ⟨src, h, hc, hloose, fun x e hx he => ?_⟩
  obtain ⟨_, rfl, hw⟩ := hunder x e he hx
  rw [← hc]
  exact (h.within hcloned.copied hk.linked hcloned.kept.linked hcloned.new hw).2

end AffineRaising.IR
