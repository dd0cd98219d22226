/-
# AffineRaising.Proofs.Store.Total — copies come about.

Copying reads what is there and creates something new for it.  It can only fail where an entry is
missing, where a new block or region has an owner already, or where the nesting is deeper than there
are operations.  None of this happens in a store with consistent links in which nothing is nested in
itself: what was created stays free until the copy itself takes it (`FreeBlock`, `FreeRegion`), and
every level of nesting leaves an operation behind.  So every operation can be copied:
`cloneOp_total`.
-/
import AffineRaising.Proofs.Store.Mirror

namespace AffineRaising.IR

open Store AffineRaising.Analysis

variable {gone : OpRef → Prop} {base s t : Store} {m m' : Renaming}

/-! ## Reading -/

section Read

variable {α β : Type}

/-- A run goes on from where its first part came to an end. -/
theorem Edit.bind_eq {e : Edit α} {a : α} (h : e s = .ok (a, t)) {f : α → Edit β} :
    (e >>= f) s = f a t := by
  show (e s >>= fun p => f p.1 p.2) = f a t
  rw [h]
  rfl

/-- A query that has an answer hands it on. -/
theorem Edit.query_eq (q : Store → Except Fault α) {a : α} (h : q s = .ok a) {f : α → Edit β} :
    (query q >>= f) s = f a s :=
  Edit.bind_eq (Edit.query_ok.2 ⟨h, rfl⟩)

theorem Edit.op_eq {o : OpRef} {d : OpData} (hd : s.op? o = some d) {f : OpData → Edit β} :
    (query (·.op o) >>= f) s = f d s :=
  query_eq (·.op o) (op_ok.2 hd)

theorem Edit.block_eq {b : BlockRef} {d : BlockData} (hd : s.block? b = some d)
    {f : BlockData → Edit β} : (query (·.block b) >>= f) s = f d s :=
  query_eq (·.block b) (block_ok.2 hd)

end Read

/-! ## Creating -/

/-- An edit goes through a list without repetitions if it goes through wherever a condition holds
and keeps the condition for the other members. -/
theorem forM_total {α : Type} {edit : α → Edit PUnit} (ready : Store → α → Prop)
    (hedit : ∀ {s a}, ready s a → ∃ t, edit a s = .ok (⟨⟩, t) ∧ ∀ b, b ≠ a → ready s b → ready t b)
    {l : List α} (hnd : l.Nodup) :
    ∀ {s : Store}, (∀ a ∈ l, ready s a) → ∃ t, l.forM edit s = .ok (⟨⟩, t) := by
  induction l with
  | nil => exact fun {s} _ => ⟨s, rfl⟩
  | cons a l ih =>
    intro s hready
    obtain ⟨hnot, hnd⟩ := List.nodup_cons.1 hnd
    obtain ⟨s₁, hfirst, hothers⟩ := hedit (hready a List.mem_cons_self)
    obtain ⟨t, hrest⟩ := ih hnd fun b hb => hothers b (fun heq => hnot (heq ▸ hb))
      (hready b (List.mem_cons_of_mem a hb))
    refine ⟨t, ?_⟩
    rw [List.forM_eq_forM, List.forM_cons, Edit.bind_ok]
    exact ⟨⟨⟩, s₁, hfirst, by rwa [← List.forM_eq_forM]⟩

/-- The region is there, and nobody owns it. -/
def FreeRegion (s : Store) (r : RegionRef) : Prop :=
  ∃ d, s.region? r = some d ∧ d.parent = none

/-- The block is there, and nobody owns it. -/
def FreeBlock (s : Store) (b : BlockRef) : Prop :=
  ∃ d, s.block? b = some d ∧ d.parent = none

/-- A free region finds its owner, and other free regions stay free. -/
theorem ownRegion_total (o : OpRef) {r : RegionRef} (h : FreeRegion s r) :
    ∃ t, ownRegion o r s = .ok ((), t) ∧ ∀ r', r' ≠ r → FreeRegion s r' → FreeRegion t r' := by
  obtain ⟨d, hd, hfree⟩ := h
  refine ⟨s.setRegion r { d with parent := some o }, ?_, fun r' hne ⟨d', hd', hfree'⟩ => ?_⟩
  · rw [ownRegion, Edit.query_bind]
    exact ⟨d, region_ok.2 hd, by simp [hfree]⟩
  · exact ⟨d', by rw [region?_setRegion hd, if_neg hne, hd'], hfree'⟩

/-- A free block finds its owner, and other free blocks stay free. -/
theorem ownBlock_total (r : RegionRef) {b : BlockRef} (h : FreeBlock s b) :
    ∃ t, ownBlock r b s = .ok ((), t) ∧ ∀ b', b' ≠ b → FreeBlock s b' → FreeBlock t b' := by
  obtain ⟨d, hd, hfree⟩ := h
  refine ⟨s.setBlock b { d with parent := some r }, ?_, fun b' hne ⟨d', hd', hfree'⟩ => ?_⟩
  · rw [ownBlock, Edit.query_bind]
    exact ⟨d, block_ok.2 hd, by simp [hfree]⟩
  · exact ⟨d', by rw [block?_setBlock hd, if_neg hne, hd'], hfree'⟩

/-- An operation can be created with any free regions, each of them named once. -/
theorem createOp_free_total {spec : OpSpec} (hnd : spec.regions.Nodup)
    (hfree : ∀ r ∈ spec.regions, FreeRegion s r) : ∃ c t, createOp spec s = .ok (c, t) := by
  obtain ⟨t, hown⟩ := forM_total FreeRegion (ownRegion_total ⟨s.ops.size⟩) hnd
    (s := { s with
      ops := s.ops.push (spec.entry s)
      values := s.values ++ (resultEntries ⟨s.ops.size⟩ spec.resultTypes).toArray }) hfree
  refine ⟨⟨s.ops.size⟩, t.addOperandUses ⟨s.ops.size⟩ spec.operands, ?_⟩
  simp only [createOp, Edit.get_bind, Edit.set_bind, Edit.bind_ok, Edit.modify_bind,
    Edit.pure_run]
  exact ⟨(), t, hown, rfl⟩

/-- A region can be created with any free blocks, each of them named once. -/
theorem createRegion_free_total {bs : List BlockRef} (hnd : bs.Nodup)
    (hfree : ∀ b ∈ bs, FreeBlock s b) : ∃ r t, createRegion bs s = .ok (r, t) := by
  obtain ⟨t, hown⟩ := forM_total FreeBlock (ownBlock_total ⟨s.regions.size⟩) hnd
    (s := { s with regions := s.regions.push ⟨bs, none⟩ }) hfree
  refine ⟨⟨s.regions.size⟩, t, ?_⟩
  simp only [createRegion, Edit.get_bind, Edit.set_bind, Edit.bind_ok, Edit.pure_run]
  exact ⟨(), t, hown, rfl⟩

/-- The branches of an operation that is there can be redirected. -/
theorem retargetSuccessors_total {o : OpRef} {d : OpData} (hd : s.op? o = some d)
    (pairs : List (BlockRef × BlockRef)) : ∃ t, retargetSuccessors pairs o s = .ok ((), t) := by
  rw [retargetSuccessors, Edit.op_eq hd]
  exact ⟨_, rfl⟩

section Insert

variable {b : BlockRef} {bd : BlockData} {o : OpRef} {d : OpData} (hd : s.op? o = some d)
  (hp : d.parent = none) (hb : s.block? b = some bd)

include hd hp hb

/-- An operation that is in no block can be put in front of what is in a block, or at its end. -/
theorem insertOp_total {before : Option OpRef} (hbefore : ∀ x, before = some x → x ∈ bd.ops) :
    ∃ t, insertOp b before o s = .ok ((), t) := by
  cases before with
  | none =>
    refine ⟨s.attach o d b bd (bd.ops ++ [o]), ?_⟩
    simp only [insertOp, pushOp, Edit.op_eq hd, hp, Option.isSome_none,
      Bool.false_eq_true, if_false, Edit.block_eq hb, Edit.modify_run]
    rfl
  | some x =>
    obtain ⟨i, hi⟩ : ∃ i, bd.ops.idxOf? x = some i := by
      refine Option.ne_none_iff_exists'.1 fun hnone => ?_
      exact List.idxOf?_eq_none_iff.1 hnone (hbefore x rfl)
    refine ⟨s.attach o d b bd (bd.ops.take i ++ o :: bd.ops.drop i), ?_⟩
    simp only [insertOp, insertBefore, Edit.op_eq hd, hp, Option.isSome_none,
      Bool.false_eq_true, if_false, Edit.block_eq hb, hi, Edit.modify_run]
    rfl

/-- In front of what is not in the block nothing can be put. -/
theorem insertOp_missing {x : OpRef} (hx : x ∉ bd.ops) :
    insertOp b (some x) o s = .error (.opNotInBlock x) := by
  simp only [insertOp, insertBefore, Edit.op_eq hd, hp, Option.isSome_none,
    Bool.false_eq_true, if_false, Edit.block_eq hb, List.idxOf?_eq_none_iff.2 hx,
    Edit.throw_run]

end Insert

/-! ## Copies of blocks -/

/-- Every block stays with its owner, or without one. -/
def BlocksStay (s t : Store) : Prop :=
  ∀ b d, s.block? b = some d → ∃ e, t.block? b = some e ∧ e.parent = d.parent

namespace BlocksStay

theorem refl (s : Store) : BlocksStay s s := fun _ d hd => ⟨d, hd, rfl⟩

theorem trans {s₁ : Store} (h : BlocksStay s s₁) (h' : BlocksStay s₁ t) : BlocksStay s t := by
  intro b d hd
  obtain ⟨e, he, hparent⟩ := h b d hd
  obtain ⟨e', he', hparent'⟩ := h' b e he
  exact ⟨e', he', hparent'.trans hparent⟩

theorem of_copied (h : Copied s t) : BlocksStay s t := fun b d hd => ⟨d, h.block? b d hd, rfl⟩

/-- A free block is free later on if blocks stay with their owners. -/
theorem free (h : BlocksStay s t) {b : BlockRef} (hb : FreeBlock s b) : FreeBlock t b := by
  obtain ⟨d, hd, hfree⟩ := hb
  obtain ⟨e, he, hparent⟩ := h b d hd
  exact ⟨e, he, hparent.trans hfree⟩

theorem retargetSuccessors {pairs : List (BlockRef × BlockRef)} {o : OpRef} {u : Unit}
    (h : retargetSuccessors pairs o s = .ok (u, t)) : BlocksStay s t := by
  obtain ⟨_, _, _, rfl⟩ := retargetSuccessors_ok h
  exact .refl s

theorem pushOp {b : BlockRef} {o : OpRef} {u : Unit} (h : pushOp b o s = .ok (u, t)) :
    BlocksStay s t := by
  rw [pushOp_eq_insertOp] at h
  obtain ⟨_, bd, _, _, _, _, hbd, _, _, _, rfl⟩ := insertOp_ok h
  intro x d hd
  rw [block?_attach hbd]
  by_cases hx : x = b
  · subst hx
    cases hbd.symm.trans hd
    exact ⟨_, if_pos rfl, rfl⟩
  · exact ⟨d, (if_neg hx).trans hd, rfl⟩

end BlocksStay

/-- Blocks that are there can be copied without their operations, and the copies are free. -/
theorem cloneBlockHeaders_total {bs : List BlockRef} :
    ∀ {s : Store} {m : Renaming}, (∀ b ∈ bs, ∃ d, base.block? b = some d) →
      Copying gone base s m → ∃ bs' m' t, cloneBlockHeaders m bs s = .ok ((bs', m'), t) ∧
        bs'.Nodup ∧ ∀ b ∈ bs', FreeBlock t b := by
  induction bs with
  | nil => exact fun {s m} _ _ => ⟨[], m, s, rfl, .nil, by simp⟩
  | cons b bs ih =>
    intro s m hbs h
    obtain ⟨d, hd⟩ := hbs b List.mem_cons_self
    obtain ⟨b', s₁, hcreate⟩ : ∃ b' s₁, createBlock d.argTypes s = .ok (b', s₁) := ⟨_, _, rfl⟩
    have hheader : cloneBlockHeader m b s =
        .ok ((b', m.insertAll (s₁.argsOf b) (s₁.argsOf b')), s₁) := by
      rw [cloneBlockHeader, Edit.query_bind]
      exact ⟨d, block_ok.2 (h.copied.block? b d hd), Edit.bind_ok.2 ⟨_, _, hcreate, rfl⟩⟩
    have hone : cloneBlockHeaders m [b] s =
        .ok (([b'], m.insertAll (s₁.argsOf b) (s₁.argsOf b')), s₁) := by
      simp only [cloneBlockHeaders, Edit.bind_ok]
      exact ⟨_, _, hheader, _, _, rfl, rfl⟩
    obtain ⟨h₁, _, _⟩ := cloneBlockHeaders_ok h hone
    obtain ⟨bs', m', t, hrest, hnd, hfree⟩ := ih (fun x hx => hbs x (List.mem_cons_of_mem b hx)) h₁
    have hb' : s₁.block? b' = _ := ((createBlock_ok hcreate).block? b').trans (if_pos rfl)
    -- the other copies were made when this one was there already
    obtain ⟨hrest', _, hnew⟩ := cloneBlockHeaders_ok h₁.again hrest
    refine ⟨b' :: bs', m', t, ?_, List.nodup_cons.2 ⟨fun hmem => ?_, hnd⟩, fun x hx => ?_⟩
    · simp only [cloneBlockHeaders, Edit.bind_ok]
      exact ⟨_, _, hheader, _, _, hrest, rfl⟩
    · rw [hnew b' hmem] at hb'
      cases hb'
    · rcases List.mem_cons.1 hx with rfl | hx
      · exact (BlocksStay.of_copied hrest'.copied).free ⟨_, hb', rfl⟩
      · exact hfree x hx

/-! ## Copies of operations -/

section Nested

-- the copier of the level below, and the operations that it can copy
variable {clone : Renaming → OpRef → Edit (OpRef × Renaming)} {able : OpRef → Prop}
  (hgrows : ∀ s m o, Edit.Keeps (Grows s) (clone m o))
  (hclone : ∀ {base s t m m' o c}, Copying gone base s m → clone m o s = .ok ((c, m'), t) →
    (Copying gone base t m' ∧ base.op? c = none ∧ NewUnder s t (· = c)) ∧ Cloned gone base c t)
  (htotal : ∀ {s m o}, able o → Copying gone base s m → ∃ c m' t, clone m o s = .ok ((c, m'), t))

include hgrows hclone htotal

omit hgrows in
/-- Operations that can be copied are copied into a block that is there. -/
theorem cloneOpsWith_total (pairs : List (BlockRef × BlockRef)) {target : BlockRef}
    (htarget : base.block? target = none) {os : List OpRef} :
    ∀ {s : Store} {m : Renaming}, (∀ o ∈ os, able o) → Copying gone base s m →
      (∃ e, s.block? target = some e) →
      ∃ m' t, cloneOpsWith clone pairs target m os s = .ok (m', t) ∧ BlocksStay s t := by
  induction os with
  | nil => exact fun {s m} _ _ _ => ⟨m, s, rfl, .refl s⟩
  | cons o os ih =>
    intro s m hos h hblock
    obtain ⟨c, m₁, s₁, hfirst⟩ := htotal (hos o List.mem_cons_self) h
    obtain ⟨⟨h₁, hnew, _⟩, hcloned⟩ := hclone h hfirst
    have hstay₁ := BlocksStay.of_copied (hclone h.again hfirst).1.1.copied
    obtain ⟨cd, hcd, hdetached⟩ := hcloned.detached
    obtain ⟨s₂, hretarget⟩ := retargetSuccessors_total hcd pairs
    have h₂ := h₁.retargetSuccessors hnew hretarget
    have hstay₂ := hstay₁.trans (BlocksStay.retargetSuccessors hretarget)
    obtain ⟨e, he⟩ := hblock
    obtain ⟨e₂, he₂, _⟩ := hstay₂ target e he
    obtain ⟨s₃, hpush⟩ : ∃ s₃, pushOp target c s₂ = .ok ((), s₃) := by
      obtain ⟨d, successors, hd, rfl⟩ := retargetSuccessors_ok hretarget
      cases hcd.symm.trans hd
      rw [pushOp_eq_insertOp]
      exact insertOp_total (d := { cd with successors := successors })
        ((op?_setOp hcd).trans (if_pos rfl)) hdetached he₂ (by simp)
    have hstay₃ := hstay₂.trans (BlocksStay.pushOp hpush)
    obtain ⟨e₃, he₃, _⟩ := hstay₃ target e he
    obtain ⟨m', t, hrest, hstay⟩ := ih (fun x hx => hos x (List.mem_cons_of_mem o hx))
      (h₂.pushOp hnew htarget hpush) ⟨e₃, he₃⟩
    refine ⟨m', t, ?_, hstay₃.trans hstay⟩
    simp only [cloneOpsWith, Edit.bind_ok]
    exact ⟨_, s₁, hfirst, _, s₂, hretarget, _, s₃, hpush, hrest⟩

/-- Blocks whose operations can be copied are filled one by one, and free blocks stay free
meanwhile. -/
theorem cloneBodiesWith_total (pairs rest : List (BlockRef × BlockRef)) :
    ∀ {s : Store} {m : Renaming}, (∀ p ∈ rest, base.block? p.2 = none ∧ FreeBlock s p.2 ∧
        ∃ d, base.block? p.1 = some d ∧ ∀ o ∈ d.ops, able o) → Copying gone base s m →
      ∃ m' t, cloneBodiesWith clone pairs m rest s = .ok (m', t) ∧ BlocksStay s t := by
  induction rest with
  | nil => exact fun {s m} _ _ => ⟨m, s, rfl, .refl s⟩
  | cons p rest ih =>
    intro s m hrest h
    obtain ⟨b, b'⟩ := p
    obtain ⟨hnew, ⟨e, he, _⟩, d, hd, hable⟩ := hrest (b, b') List.mem_cons_self
    obtain ⟨m₁, s₁, hfirst, hstay₁⟩ := cloneOpsWith_total hclone htotal pairs hnew
      hable h ⟨e, he⟩
    have h₁ := (cloneOpsWith_ok hgrows (fun h hrun => (hclone h hrun).1) hnew h hfirst).1
    obtain ⟨m', t, hmore, hstay⟩ := ih (fun q hq => by
      obtain ⟨hnew', hfree, hq⟩ := hrest q (List.mem_cons_of_mem _ hq)
      exact ⟨hnew', hstay₁.free hfree, hq⟩) h₁
    refine ⟨m', t, ?_, hstay₁.trans hstay⟩
    rw [cloneBodiesWith, Edit.query_bind]
    exact ⟨d, block_ok.2 (h.copied.block? b d hd), Edit.bind_ok.2 ⟨_, s₁, hfirst, hmore⟩⟩

/-- A region whose operations can be copied is copied, and the copy is free. -/
theorem cloneRegionWith_total (hlb : Linked base) {r : RegionRef} {rd : RegionData}
    (hr : base.region? r = some rd) (hable : ∀ o, InRegions base [r] o → able o)
    (h : Copying gone base s m) :
    ∃ r' m' t, cloneRegionWith clone m r s = .ok ((r', m'), t) ∧ FreeRegion t r' := by
  have hbs : ∀ b ∈ rd.blocks, ∃ d, base.block? b = some d := fun b hb => by
    obtain ⟨d, hd, _⟩ := block?_of_region hlb hr hb
    exact ⟨d, hd⟩
  obtain ⟨bs', m₁, s₁, hheaders, hnd, hfree⟩ := cloneBlockHeaders_total hbs h
  obtain ⟨h₁, _, hnew⟩ := cloneBlockHeaders_ok h hheaders
  obtain ⟨m₂, s₂, hbodies, hstay⟩ := cloneBodiesWith_total hgrows hclone htotal
    (rd.blocks.zip bs') (rd.blocks.zip bs') (fun p hp => by
      obtain ⟨hb, hb'⟩ := List.of_mem_zip hp
      obtain ⟨d, hd⟩ := hbs p.1 hb
      refine ⟨hnew p.2 hb', hfree p.2 hb', d, hd, fun o ho => hable o ?_⟩
      exact ⟨r, List.mem_singleton_self r, rd, hr, p.1, hb, d, hd, ho⟩) h₁
  obtain ⟨r', t, hcreate⟩ := createRegion_free_total hnd fun b hb => hstay.free (hfree b hb)
  refine ⟨r', m₂, t, ?_, _, ((createRegion_ok hcreate).region? r').trans (if_pos rfl), rfl⟩
  rw [cloneRegionWith, Edit.query_bind]
  refine ⟨rd, region_ok.2 (h.copied.region? r rd hr), ?_⟩
  simp only [Edit.bind_ok]
  exact ⟨_, s₁, hheaders, _, s₂, hbodies, _, t, hcreate, rfl⟩

/-- The copies of regions are free and all different, so an operation can take them. -/
theorem cloneRegionsWith_total (hlb : Linked base) {rs : List RegionRef} :
    ∀ {s : Store} {m : Renaming}, (∀ r ∈ rs, ∃ d, base.region? r = some d) →
      (∀ o, InRegions base rs o → able o) → Copying gone base s m →
      ∃ rs' m' t, cloneRegionsWith clone m rs s = .ok ((rs', m'), t) ∧ rs'.Nodup ∧
        ∀ r ∈ rs', FreeRegion t r := by
  induction rs with
  | nil => exact fun {s m} _ _ _ => ⟨[], m, s, rfl, .nil, by simp⟩
  | cons r rs ih =>
    intro s m hrs hable h
    have hone : ∀ o, InRegions base [r] o → able o := fun o ho => hable o ho.head
    have hmore : ∀ o, InRegions base rs o → able o := fun o ho => hable o ho.tail
    obtain ⟨rd, hrd⟩ := hrs r List.mem_cons_self
    obtain ⟨r', m₁, s₁, hfirst, e, he, hfree⟩ :=
      cloneRegionWith_total hgrows hclone htotal hlb hrd hone h
    have h₁ := (cloneRegionWith_ok hgrows (fun h hrun => (hclone h hrun).1) h hfirst).1
    obtain ⟨rs', m', t, hrest, hnd, hfree'⟩ :=
      ih (fun x hx => hrs x (List.mem_cons_of_mem r hx)) hmore h₁
    obtain ⟨hrest', hnew, _⟩ :=
      cloneRegionsWith_ok hgrows (fun h hrun => (hclone h hrun).1) h₁.again hrest
    refine ⟨r' :: rs', m', t, ?_, List.nodup_cons.2 ⟨fun hmem => ?_, hnd⟩, fun x hx => ?_⟩
    · simp only [cloneRegionsWith, Edit.bind_ok]
      exact ⟨_, s₁, hfirst, _, t, hrest, rfl⟩
    · rw [hnew r' hmem] at he
      cases he
    · rcases List.mem_cons.1 hx with rfl | hx
      · exact ⟨e, hrest'.copied.region? x e he, hfree⟩
      · exact hfree' x hx

end Nested

/-- Every level of nesting leaves an operation behind, so a bound of as many operations as can be
met is enough. -/
theorem cloneWithin_total (hlb : Linked base) (hac : Acyclic base) (n : Nat) :
    ∀ {s : Store} {m : Renaming} {o : OpRef} {d : OpData}, base.op? o = some d →
      (metFrom base (Child base) o).card ≤ n → Copying gone base s m →
      ∃ c m' t, cloneWithin n m o s = .ok ((c, m'), t) := by
  induction n with
  | zero =>
    intro s m o d hd hn _
    have hpos := Finset.card_pos.2 ⟨o.index, index_mem_metFrom (R := Child base) hd⟩
    omega
  | succ n ih =>
    intro s m o d hd hn h
    have hrs : ∀ r ∈ d.regions, ∃ rd, base.region? r = some rd := fun r hr => by
      obtain ⟨rd, hrd, _⟩ := region?_of_op hlb hd hr
      exact ⟨rd, hrd⟩
    -- what is nested leads to fewer operations
    have hbelow : ∀ {s m x}, (∃ e, base.op? x = some e ∧ (metFrom base (Child base) x).card ≤ n) →
        Copying gone base s m → ∃ c m' t, cloneWithin n m x s = .ok ((c, m'), t) :=
      fun ⟨_, he, hcard⟩ h => ih he hcard h
    obtain ⟨rs', m₁, s₁, hregions, hnd, hfree⟩ := cloneRegionsWith_total
      (fun s => (Grows.copyStepsKeep s).cloneWithin n) (cloneWithin_ok n) hbelow hlb hrs
      (fun x hx => by
        have hchild : Child base o x := ⟨d, hd, hx⟩
        obtain ⟨e, he⟩ := hlb.op?_of_within ⟨d, hd⟩ (.single hchild)
        have hlt := card_metFrom_lt hd hchild (hac o)
        exact ⟨e, he, by omega⟩) h
    let spec : OpSpec :=
      ⟨d.name, d.operands.map m.apply, d.resultTypes, d.attrs, rs', d.successors⟩
    obtain ⟨c, t, hcreate⟩ : ∃ c t, createOp spec s₁ = .ok (c, t) :=
      createOp_free_total hnd hfree
    refine ⟨c, m₁.insertAll (t.resultsOf o) (t.resultsOf c), t, ?_⟩
    rw [cloneWithin, Edit.query_bind]
    refine ⟨d, op_ok.2 (h.copied.op? o d hd), ?_⟩
    simp only [Edit.bind_ok]
    exact ⟨_, s₁, hregions, _, t, hcreate, _, _, rfl, rfl⟩

/-- An operation can be copied wherever nothing is nested in itself. -/
theorem cloneOp_total {o : OpRef} {d : OpData} (hk : Kept s gone) (hac : Acyclic s)
    (hd : s.op? o = some d) : ∃ c m' t, cloneOp [] o s = .ok ((c, m'), t) := by
  rw [cloneOp, Edit.get_bind]
  exact cloneWithin_total hk.linked hac s.depthBound hd
    ((card_metFrom_le s _ o).trans (Nat.le_succ _)) ⟨.refl s, hk, id, fun p hp => by cases hp⟩

end AffineRaising.IR
