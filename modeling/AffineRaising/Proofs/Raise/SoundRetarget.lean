/-
# AffineRaising.Proofs.Raise.SoundRetarget — terminators that are replaced soundly.

The last operation of a block in a region of an operation is replaced by a terminator with the same
operands.  That keeps a module sound, and outside of the operation nothing changes (`EditedInside`).
When a conditional is raised its regions have been taken out of it already.  A store in which they
have not differs only there (`Stripped`), and what replaces a terminator does the same in both.
-/
import AffineRaising.Proofs.Raise.Draws
import AffineRaising.Proofs.Raise.SoundChange
import AffineRaising.Proofs.Raise.Spared

namespace AffineRaising.Raise

open AffineRaising.IR AffineRaising.IR.Store AffineRaising.Ops AffineRaising.Analysis
open AffineRaising.Transform

variable {sided : Prop} {gone out : OpRef → Prop} {s s₁ s₂ t s' t' : Store} {v w : ValueRef}
  {root c o x y z : OpRef} {b : BlockRef} {d e : OpData}

/-! ## Replacing a terminator -/

/-- The last operation of the block has the name `source` and is replaced by a terminator named
`target` with the same operands; or it has another name and nothing happens. -/
inductive Retargets (source target : OpName) (b : BlockRef) (s t : Store) : Prop
  | same (h : t = s)
  | replaced {last new : OpRef} {d : OpData} {bd : BlockData} {s₁ s₂ : Store}
      (hblock : s.block? b = some bd) (hlast : bd.ops.getLast? = some last)
      (hd : s.op? last = some d) (hname : d.name = source)
      (hcreate : createOp (yieldSpec target d.operands) s = .ok (new, s₁))
      (hinsert : insertOp b (some last) new s₁ = .ok ((), s₂))
      (herase : eraseOp last s₂ = .ok ((), t))

theorem retargetBlock_ok {source target : OpName} {n : Nat}
    (h : retargetBlock source target b s = .ok (n, t)) : Retargets source target b s t := by
  rw [retargetBlock, Edit.query_bind] at h
  obtain ⟨bd, hbd, h⟩ := h
  cases hlast : bd.ops.getLast? with
  | none =>
    simp only [hlast] at h
    cases h
    exact .same rfl
  | some last =>
    simp only [hlast] at h
    rw [Edit.query_bind] at h
    obtain ⟨d, hd, h⟩ := h
    split at h
    · cases h
      exact .same rfl
    · rename_i hname
      obtain ⟨new, s₁, hcreate, h⟩ := Edit.bind_ok.1 h
      obtain ⟨_, s₂, hinsert, h⟩ := Edit.bind_ok.1 h
      obtain ⟨_, s₃, herase, h⟩ := Edit.bind_ok.1 h
      cases h
      exact .replaced (block_ok.1 hbd) hlast (op_ok.1 hd) (by simpa using hname) hcreate hinsert
        herase

/-- An operation that something holds keeps its entry and what it sees and holds; operations in no
block stay out, with the trees below them, and definitions stay. -/
structure EditedInside (root x : OpRef) (s t : Store) : Prop where
  entry : t.op? x = s.op? x
  nested : Nested s root x → Nested t root x
  sees : ∀ w, Sees s w x → Sees t w x
  detached : ∀ y, s.opParent y = some none → t.opParent y = some none
  originOf : ∀ v k, s.originOf v = some k → t.originOf v = some k
  region? : ∀ r d, s.region? r = some d → t.region? r = some d
  spares : ∀ o, s.opParent o = some none → o ≠ root → Spares s t o

namespace EditedInside

theorem refl : EditedInside root x s s :=
  ⟨rfl, id, fun _ => id, fun _ => id, fun _ _ => id, fun _ _ => id, fun _ _ _ => .refl⟩

theorem trans (h : EditedInside root x s s₁) (h' : EditedInside root x s₁ t) :
    EditedInside root x s t where
  entry := h'.entry.trans h.entry
  nested hx := h'.nested (h.nested hx)
  sees w hw := h'.sees w (h.sees w hw)
  detached y hy := h'.detached y (h.detached y hy)
  originOf v k hv := h'.originOf v k (h.originOf v k hv)
  region? r d hd := h'.region? r d (h.region? r d hd)
  spares o ho hne := (h.spares o ho hne).trans (h'.spares o (h.detached o ho) hne)

theorem holds (h : EditedInside root x s t) (hx : Holds s x b) : Holds t x b := by
  obtain ⟨d, hd, r, hr, rd, hrd, hb⟩ := hx
  exact ⟨d, h.entry.trans hd, r, hr, rd, h.region? r rd hrd, hb⟩

end EditedInside

/-- A new terminator fits. -/
theorem suits_yield (operands : List ValueRef) (s : Store) :
    Fitted sided ((yieldSpec affineYieldName operands).entry s) := by
  refine .of_name (.of_name ?_ ?_ ?_ ?_ (.of_name ?_ ?_)) ?_ <;>
    simp only [OpSpec.entry, yieldSpec] <;> decide

/-- The terminator of a block of an operation is replaced soundly. -/
theorem Retargets.sound {source : OpName} (h : Retargets source affineYieldName b s t)
    (hs : Sound sided root gone out s) (hx : Nested s root x) (hb : Holds s x b) :
    ∃ gone', Sound sided root gone' out t ∧ EditedInside root x s t := by
  cases h with
  | same h =>
    subst h
    exact ⟨gone, hs, .refl⟩
  | @replaced last new d bd s₁ s₂ hblock hlast hd hname hcreate hinsert herase =>
    have hl := hs.linked
    have hmem : last ∈ bd.ops := List.mem_of_getLast? hlast
    have hchild : Child s x last := child_iff.2 ⟨b, bd, hb, hblock, hmem⟩
    have hnested : Nested s root last := Relation.TransGen.tail hx hchild
    have hc := createOp_ok hcreate
    have hcopied := hc.copied_self rfl
    have hnew : ∀ {y e}, s.op? y = some e → y ≠ new := by
      rintro y e he rfl
      cases hc.new.symm.trans he
    have hlive : ¬ gone new := fun hgone => by
      have hlt := hs.tidy.kept.created new hgone
      rw [hc.eq_next] at hlt
      exact Nat.lt_irrefl _ hlt
    obtain ⟨rd, hrd, _⟩ := opParent_eq_some.1 hs.top
    have hsees : ∀ w ∈ d.operands, Sees s w last := fun w hw => hs.visible last d w hnested hd hw
    have hs₁ := hs.created hcreate rfl (fun w hw => value?_of_sees (hsees w hw))
      (suits_yield d.operands s)
    have hs₂ := hs₁.inserted hlive (hnew hrd).symm hinsert (hnested.grows hcopied.grows)
      fun y e w hy he hw => by
        cases hc.within_self rfl hy
        rw [hc.op?, if_pos rfl] at he
        cases he
        exact .inl (hcopied.grows.sees (hsees w hw))
    have hi := insertedBefore_of_ok hinsert
    have hne : last ≠ root := hnested.ne_root hl hs.top
    obtain ⟨tree, he, htree⟩ := eraseOp_ok hs₂.linked hs₂.tidy.kept.uses.pointsBack herase
    have hleft := LeftBlocks.of_erased he
    obtain ⟨xd, hxd, _⟩ := hb
    have hxlast : Relation.TransGen (Child s₂) x last :=
      .single (hi.grows.nests.child (hcopied.grows.nests.child hchild))
    -- the operation is not nested in its terminator
    have hstays : ∀ y, Within s₂ y x → y ∉ tree := fun y hyx hy =>
      hs₂.acyclic x (hxlast.trans_left (((htree y).1 hy).trans hyx))
    refine ⟨_, (hs₂.erased hne herase).mono fun y hy => hy.1.1.resolve_right hy.1.2, ?_,
      fun hx => ?_, fun w hw => ?_, fun y hy => ?_, fun v k hv => ?_, fun r d hr => ?_,
      fun o ho hne => ?_⟩
    · rw [hleft.op?, hi.op?_other (hnew hxd), hcopied.op? x xd hxd, hxd, Option.map_some,
        if_neg (hstays x .refl)]
    · exact hleft.nested_of ((hx.grows hcopied.grows).grows hi.grows) hstays
    · refine hleft.thinned.sees (hi.grows.sees (hcopied.grows.sees hw)) hstays fun o k hwo ho => ?_
      exact (StandsAhead.of_sees (hi.grows.sees (hcopied.grows.sees hw)) hwo).not_within_left
        hs₂.linked hs₂.acyclic (hxlast.to_reflTransGen.trans ((htree o).1 ho))
    · obtain ⟨yd, hyd, hparent⟩ := opParent_eq_some.1 hy
      have hy₂ : s₂.opParent y = some none := by
        rw [hi.opParent_other (hnew hyd), opParent, hcopied.op? y yd hyd, Option.map_some, hparent]
      by_cases hyt : y ∈ tree
      · obtain ⟨e, he, _⟩ := opParent_eq_some.1 hy₂
        exact hleft.opParent_out hyt he
      · rw [hleft.opParent_other hyt, hy₂]
    · rw [hleft.originOf_eq]
      exact hi.grows.originOf v k (hcopied.grows.originOf v k hv)
    · rw [hleft.region?_eq, hi.region?_eq]
      exact hcopied.region? r d hr
    · obtain ⟨od, hod, hnone⟩ := opParent_eq_some.1 ho
      have ho₁ : s₁.opParent o = some none := opParent_eq_some.2 ⟨od, hcopied.op? o od hod, hnone⟩
      have ho₂ : s₂.opParent o = some none := by rw [hi.opParent_other (hnew hod), ho₁]
      have hlast₁ : Nested s₁ root last := hnested.grows hcopied.grows
      have hsame₁ : SameTree s s₁ o := .copied hcopied hl hs₁.linked hod
      have hsame₂ : SameTree s₁ s₂ o := .inserted hi fun p hp =>
        apart_of_nested hi hs₁.linked hs₁.top hlast₁ ho₁ hne hp
      -- what is erased was in the module
      have hsame₃ : SameTree s₂ t o := .left hleft hs₂.linked fun y hy hoy =>
        ((hlast₁.grows hi.grows).trans_within ((htree y).1 hy)).not_within_detached hs₂.linked
          hs₂.top ho₂ hne hoy.to_reflTransGen
      refine ⟨(hsame₁.trans hsame₂).trans hsame₃, fun y v k hy hv u hu => ?_⟩
      rw [he.usesOf] at hu
      have hu := List.mem_of_mem_filter hu
      rw [show s₂.usesOf v = s₁.usesOf v by rw [usesOf, usesOf, hi.uses], hc.usesOf] at hu
      refine (List.mem_append.1 hu).resolve_right fun hnamed => ?_
      -- the terminator sees what it names, so that is defined in the module
      have hmem : v ∈ d.operands := List.mem_of_getElem? (mem_operandUses.1 hnamed).2
      exact (hnested.definition hl hs.top (hsees v hmem) hv).not_within_detached hl hs.top ho hne hy

/-! ## Stores that differ in the regions of one operation -/

/-- In the second store the operation has no regions, and regions may have other owners. -/
structure Stripped (x : OpRef) (s t : Store) : Prop where
  there : ∃ d, s.op? x = some d
  op? : ∀ y, t.op? y = (s.op? y).map fun d => if y = x then { d with regions := [] } else d
  size : t.ops.size = s.ops.size
  block? : ∀ b, t.block? b = s.block? b
  blocks_size : t.blocks.size = s.blocks.size
  region? : ∀ r, (t.region? r).map (·.blocks) = (s.region? r).map (·.blocks)
  values : t.values = s.values
  usesOf : ∀ v, t.usesOf v = s.usesOf v

namespace Stripped

variable (h : Stripped x s s')

include h

theorem other (hy : y ≠ x) : s'.op? y = s.op? y := by
  rw [h.op?]
  simp [hy]

/-- What is kept of the entries, regions apart. -/
theorem op?_cases (he : s'.op? y = some e) :
    ∃ d, s.op? y = some d ∧ e = { d with regions := e.regions } := by
  rw [h.op?] at he
  obtain ⟨d, hd, rfl⟩ := Option.map_eq_some_iff.1 he
  refine ⟨d, hd, ?_⟩
  split <;> rfl

/-- All but the links is tidy in one store if it is in the other one. -/
theorem tidy (hs : Tidy gone s) (hl : Linked s') : Tidy gone s' := by
  have hvalue : ∀ v, s'.value? v = s.value? v := fun v => by
    rw [Store.value?, Store.value?, h.values]
  have hslot : ∀ u, s'.slot? u = s.slot? u := fun u => by
    rw [Store.slot?, Store.slot?, h.op?]
    cases s.op? u.user with
    | none => rfl
    | some d =>
      simp only [Option.map_some, Option.bind_some]
      split <;> rfl
  refine ⟨⟨hl, ?_, fun o ho => ?_⟩, fun y e v he hv => ?_, ?_, fun o e hgone he => ?_⟩
  · exact ⟨fun v => h.usesOf v ▸ hs.kept.uses.nodup v, fun v u => by
      rw [h.usesOf, hslot, hs.kept.uses.mem_iff]⟩
  · rw [h.size]
    exact hs.kept.created o ho
  · obtain ⟨d, hd, hed⟩ := h.op?_cases he
    rw [hed] at hv
    rw [hvalue]
    exact hs.grounded y d v hd hv
  · refine hs.typed.of_entries h.values fun y e he => ?_
    obtain ⟨d, hd, hed⟩ := h.op?_cases he
    rw [hed]
    exact ⟨d, hd, rfl, rfl⟩
  · obtain ⟨d, hd, hed⟩ := h.op?_cases he
    rw [hed]
    exact hs.removed o d hgone hd

theorem created {spec : OpSpec} (hregions : spec.regions = [])
    (hrun : createOp spec s' = .ok (c, t')) :
    ∃ t, createOp spec s = .ok (c, t) ∧ Stripped x t t' := by
  obtain ⟨c', t, ht⟩ := createOp_total hregions s
  have hc := createOp_ok hrun
  have hc₀ := createOp_ok ht
  have hcc : c' = c := by rw [hc.eq_next, hc₀.eq_next, h.size]
  subst hcc
  obtain ⟨d, hd⟩ := h.there
  have hne : c' ≠ x := by
    rintro rfl
    cases hc₀.new.symm.trans hd
  have hentry : spec.entry s' = spec.entry s := by
    rw [OpSpec.entry, OpSpec.entry, Store.nextValues, Store.nextValues, h.values]
  refine ⟨t, ht, ⟨d, ?_⟩, fun y => ?_, ?_, fun b => ?_, ?_, fun r => ?_, ?_, fun v => ?_⟩
  · rw [hc₀.op?, if_neg hne.symm, hd]
  · rw [hc.op?, hc₀.op?, h.op?, hentry]
    by_cases hy : y = c'
    · subst hy
      rw [if_pos rfl, if_pos rfl, Option.map_some, if_neg hne]
    · rw [if_neg hy, if_neg hy]
  · rw [hc.ops, hc₀.ops, Array.size_push, Array.size_push, h.size]
  · rw [Store.block?, Store.block?, hc.blocks, hc₀.blocks]
    exact h.block? b
  · rw [hc.blocks, hc₀.blocks, h.blocks_size]
  · rw [hc.region?, hc₀.region?, hregions]
    simpa using h.region? r
  · rw [hc.values, hc₀.values, h.values]
  · rw [hc.usesOf, hc₀.usesOf, h.usesOf]

theorem inserted {before : Option OpRef} (hne : c ≠ x) {u : Unit}
    (hrun : insertOp b before c s' = .ok (u, t')) :
    ∃ t, insertOp b before c s = .ok ((), t) ∧ Stripped x t t' := by
  obtain ⟨d, bd, front, back, hd, hparent, hb, hsplit, hhead, hfront, rfl⟩ := insertOp_ok hrun
  rw [h.other hne] at hd
  have hd' := (h.other hne).trans hd
  rw [h.block?] at hb
  have hb' := (h.block? b).trans hb
  obtain ⟨xd, hxd⟩ := h.there
  refine ⟨_, insertOp_eq hd hparent hb hsplit hhead hfront, ⟨xd, ?_⟩, fun y => ?_, ?_, fun a => ?_,
    ?_, h.region?, h.values, h.usesOf⟩
  · rw [op?_attach hd, if_neg hne.symm, hxd]
  · rw [op?_attach hd, op?_attach hd', h.op?]
    by_cases hy : y = c
    · rw [if_pos hy, if_pos hy, Option.map_some, if_neg (hy ▸ hne)]
    · rw [if_neg hy, if_neg hy]
  · simp [Store.attach, Store.setBlock, Store.setOp, h.size]
  · rw [block?_attach hb, block?_attach hb', h.block?]
  · simp [Store.attach, Store.setBlock, Store.setOp, h.blocks_size]

end Stripped

theorem within_of_no_regions (hd : s.op? o = some d) (hregions : d.regions = [])
    (h : Within s o y) : y = o := by
  rcases h.cases_head with rfl | ⟨z, ⟨e, he, r, hr, _⟩, _⟩
  · rfl
  · cases hd.symm.trans he
    rw [hregions] at hr
    cases hr

/-- An operation without regions can be erased exactly if its results are unused. -/
theorem eraseOp_iff (hl : Linked s) (hd : s.op? o = some d) (hregions : d.regions = []) :
    (∃ t, eraseOp o s = .ok ((), t)) ↔ ∀ v ∈ d.results, s.usesOf v = [] := by
  have hrun : ∀ t, eraseOp o s = .ok ((), t) ↔
      ∃ s', detach o s = .ok ((), s') ∧ removeOp o s' = .ok ((), t) := fun t => by
    simp only [eraseOp, Edit.get_bind, Store.depthBound, eraseWithin, Edit.op_eq hd, hregions]
    rw [Edit.bind_ok]
    constructor
    · rintro ⟨_, s', hnil, h⟩
      cases hnil
      obtain ⟨_, s₂, hdetach, hremove⟩ := Edit.bind_ok.1 h
      exact ⟨s₂, hdetach, hremove⟩
    · rintro ⟨s', hdetach, hremove⟩
      exact ⟨⟨⟩, s, rfl, Edit.bind_ok.2 ⟨(), s', hdetach, hremove⟩⟩
  constructor
  · rintro ⟨t, h⟩ v hv
    obtain ⟨s', hdetach, hremove⟩ := (hrun t).1 h
    obtain ⟨d', hd', _, hunused, _⟩ := removeOp_ok hremove
    obtain ⟨d₀, hd₀, ⟨_, rfl⟩ | ⟨b, bd, _, _, rfl⟩⟩ := detach_ok hdetach
    · cases hd.symm.trans hd'
      exact hunused v hv
    · cases hd.symm.trans hd₀
      rw [op?_unlink hd, if_pos rfl] at hd'
      cases hd'
      exact hunused v hv
  · intro hunused
    obtain ⟨s', t, hdetach, hremove⟩ := detach_removeOp_total hl hd hunused
    exact ⟨t, (hrun t).2 ⟨s', hdetach, hremove⟩⟩

namespace Stripped

theorem erased (h : Stripped x s s') (hk : Kept s gone) (hk' : Kept s' gone) (hne : o ≠ x)
    (hd : s.op? o = some d) (hregions : d.regions = []) (hrun : eraseOp o s' = .ok ((), t')) :
    ∃ t, eraseOp o s = .ok ((), t) ∧ Stripped x t t' := by
  have hd' := (h.other hne).trans hd
  obtain ⟨t, ht⟩ := (eraseOp_iff hk.linked hd hregions).2 fun v hv => by
    rw [← h.usesOf]
    exact (eraseOp_iff hk'.linked hd' hregions).1 ⟨t', hrun⟩ v hv
  obtain ⟨tree, he, htree⟩ := eraseOp_ok hk.linked hk.uses.pointsBack ht
  obtain ⟨tree', he', htree'⟩ := eraseOp_ok hk'.linked hk'.uses.pointsBack hrun
  have hmem : ∀ y, y ∈ tree ↔ y = o := fun y =>
    (htree y).trans ⟨within_of_no_regions hd hregions, fun hy => hy ▸ .refl⟩
  have hmem' : ∀ y, y ∈ tree' ↔ y = o := fun y =>
    (htree' y).trans ⟨within_of_no_regions hd' hregions, fun hy => hy ▸ .refl⟩
  obtain ⟨xd, hxd⟩ := h.there
  refine ⟨t, ht, ⟨_, (he.op? x).trans (congrArg _ hxd)⟩, fun y => ?_, ?_, fun b => ?_, ?_,
    fun r => ?_, ?_, fun v => ?_⟩
  · rw [he.op?, he'.op?, h.op?, Option.map_map, Option.map_map]
    congr 1
    funext d
    simp only [Function.comp_apply, hmem, hmem']
    by_cases hyo : y = o
    · simp [hyo, hne]
    · simp [hyo]
  · rw [he.ops_size, he'.ops_size, h.size]
  · rw [he.block?, he'.block?, h.block?]
    simp only [hmem, hmem']
  · rw [he.blocks_size, he'.blocks_size, h.blocks_size]
  · rw [he.region?, he'.region?]
    exact h.region? r
  · rw [he.values, he'.values, h.values]
  · rw [he.usesOf, he'.usesOf, h.usesOf]
    simp only [hmem, hmem']

end Stripped

/-- What replaces a terminator does the same in a store in which the operation that holds the block
has its regions. -/
theorem Retargets.stripped {target : OpName} (h : Stripped x s s')
    (hs : Sound sided root gone out s)
    (hl' : Linked s') (hx : Nested s root x) (hb : Holds s x b)
    (hrun : Retargets scfYieldName target b s' t') :
    ∃ t, Retargets scfYieldName target b s t ∧ Stripped x t t' ∧ Linked t' := by
  cases hrun with
  | same hrun =>
    subst hrun
    exact ⟨s, .same rfl, h, hl'⟩
  | @replaced last new d bd s₁' s₂' hblock hlast hd hname hcreate hinsert herase =>
    have hl := hs.linked
    rw [h.block?] at hblock
    have hchild : Child s x last :=
      child_iff.2 ⟨b, bd, hb, hblock, List.mem_of_getLast? hlast⟩
    have hlastx : last ≠ x := fun heq => hs.acyclic x (.single (heq ▸ hchild))
    rw [h.other hlastx] at hd
    obtain ⟨s₁, hcreate₁, h₁⟩ := h.created rfl hcreate
    have hc := createOp_ok hcreate₁
    obtain ⟨xd, hxd⟩ := h.there
    have hnewx : new ≠ x := by
      rintro rfl
      cases hc.new.symm.trans hxd
    have hnewlast : last ≠ new := by
      rintro rfl
      cases hc.new.symm.trans hd
    obtain ⟨s₂, hinsert₁, h₂⟩ := h₁.inserted hnewx hinsert
    have hk₂ : Kept s₂ gone :=
      ((Kept.copyStepsKeep gone).createOp _ _ _ _ hs.tidy.kept hcreate₁).insertOp hinsert₁
    have hk₂' : Kept s₂' gone :=
      ((Kept.copyStepsKeep gone).createOp _ _ _ _ (h.tidy hs.tidy hl').kept hcreate).insertOp
        hinsert
    have hnested : Nested s root last := Relation.TransGen.tail hx hchild
    have hfits := hs.fitting last d (hnested.ne_root hl hs.top) (hs.tidy.not_gone hnested) hd
    have hregions : d.regions = [] :=
      List.length_eq_zero_iff.1 (hfits.suits.regions.terminator hname)
    have hd₂ : s₂.op? last = some d := by
      rw [(insertedBefore_of_ok hinsert₁).op?_other hnewlast, hc.op?, if_neg hnewlast, hd]
    obtain ⟨t, herase₁, ht⟩ := h₂.erased hk₂ hk₂' hlastx hd₂ hregions herase
    exact ⟨t, .replaced hblock hlast hd hname hcreate₁ hinsert₁ herase₁, ht,
      (hk₂'.eraseOp herase).linked⟩

/-! ## All blocks of a region -/

/-- A sound store in which the operation has its regions, and one in which they were taken out. -/
structure Retargeting (sided : Prop) (root x : OpRef) (out : OpRef → Prop)
    (s s' : Store) : Prop where
  sound : ∃ gone, Sound sided root gone out s
  nested : Nested s root x
  stripped : Stripped x s s'
  linked : Linked s'

/-- The terminators of the blocks that an operation holds are replaced soundly. -/
theorem Retargeting.blocks {bs : List BlockRef} : ∀ {s s' t' : Store} {n : Nat},
    Retargeting sided root x out s s' → (∀ b ∈ bs, Holds s x b) →
    sumM (retargetBlock scfYieldName affineYieldName) bs s' = .ok (n, t') →
    ∃ t, Retargeting sided root x out t t' ∧ EditedInside root x s t := by
  induction bs with
  | nil =>
    intro s s' t' n h _ hrun
    cases hrun
    exact ⟨s, h, .refl⟩
  | cons b bs ih =>
    intro s s' t' n h hbs hrun
    obtain ⟨n₁, s₁', hfirst, hrun⟩ := Edit.bind_ok.1 hrun
    obtain ⟨n₂, s₂', hrest, hrun⟩ := Edit.bind_ok.1 hrun
    cases hrun
    obtain ⟨⟨gone, hs⟩, hx, hstripped, hl'⟩ := h
    have hb := hbs b List.mem_cons_self
    obtain ⟨s₁, hretargets, h₁, hl₁⟩ := (retargetBlock_ok hfirst).stripped hstripped hs hl' hx hb
    obtain ⟨gone₁, hs₁, hedited⟩ := hretargets.sound hs hx hb
    obtain ⟨t, ht, hedited'⟩ := ih ⟨⟨gone₁, hs₁⟩, hedited.nested hx, h₁, hl₁⟩
      (fun b' hb' => hedited.holds (hbs b' (List.mem_cons_of_mem b hb'))) hrest
    exact ⟨t, ht, hedited.trans hedited'⟩

/-- The terminators of a region that was taken out are replaced soundly. -/
theorem Retargeting.region (h : Retargeting sided root x out s s') {r : RegionRef} {n : Nat}
    (hd : s.op? x = some d) (hr : r ∈ d.regions)
    (hrun : retargetTerminators scfYieldName affineYieldName r s' = .ok (n, t')) :
    ∃ t, Retargeting sided root x out t t' ∧ EditedInside root x s t := by
  rw [retargetTerminators, Edit.query_bind] at hrun
  obtain ⟨rd', hrd', hrun⟩ := hrun
  have hblocks := h.stripped.region? r
  rw [region_ok.1 hrd', Option.map_some] at hblocks
  obtain ⟨rd, hrd, heq⟩ := Option.map_eq_some_iff.1 hblocks.symm
  exact h.blocks (fun b hb => ⟨d, hd, r, hr, rd, hrd, heq ▸ hb⟩) hrun

end AffineRaising.Raise
