/-
# AffineRaising.Proofs.Analysis.Nesting — walks and climbs come to an end.

Walks go down from an operation to what is nested in it, climbs go up to what encloses it, and both
give up after as many steps as there are operations.  Where no operation is nested in itself they
never give up: each step leaves an operation behind for good, so the number of operations that can
still be met decreases.  A walk then meets exactly what is nested in its root, and a climb finds the
enclosing operation it looks for if there is one.
-/
import AffineRaising.Analysis.Walk
import AffineRaising.Proofs.Analysis.Forest
import AffineRaising.Proofs.Store.Visible

namespace AffineRaising.Analysis

open AffineRaising.IR AffineRaising.IR.Store

/-! ## Lists of queries -/

section Lists

variable {ε α β : Type} {f : α → Except ε β} {l : List α} {bs : List β}

theorem mapM_total (h : ∀ a ∈ l, ∃ b, f a = .ok b) : ∃ bs, l.mapM f = .ok bs := by
  induction l with
  | nil => exact ⟨[], rfl⟩
  | cons a l ih =>
    obtain ⟨b, hb⟩ := h a List.mem_cons_self
    obtain ⟨bs, hbs⟩ := ih fun x hx => h x (List.mem_cons_of_mem a hx)
    refine ⟨b :: bs, ?_⟩
    rw [List.mapM_cons, hb]
    show (l.mapM f >>= fun bs => pure (b :: bs)) = .ok (b :: bs)
    rw [hbs]
    rfl

theorem mem_of_mapM_ok (h : l.mapM f = .ok bs) (b : β) : b ∈ bs ↔ ∃ a ∈ l, f a = .ok b := by
  induction l generalizing bs with
  | nil =>
    cases h
    simp
  | cons a l ih =>
    rw [List.mapM_cons, except_bind_ok] at h
    obtain ⟨b', hb', h⟩ := h
    rw [except_bind_ok] at h
    obtain ⟨bs', hbs', h⟩ := h
    cases h
    rw [List.mem_cons, ih hbs']
    constructor
    · rintro (rfl | ⟨x, hx, hxb⟩)
      · exact ⟨a, List.mem_cons_self, hb'⟩
      · exact ⟨x, List.mem_cons_of_mem a hx, hxb⟩
    · rintro ⟨x, hx, hxb⟩
      rcases List.mem_cons.1 hx with rfl | hx
      · exact .inl (Except.ok.inj (hxb.symm.trans hb'))
      · exact .inr ⟨x, hx, hxb⟩

theorem ok_of_mapM_ok {a : α} (h : l.mapM f = .ok bs) (ha : a ∈ l) : ∃ b, f a = .ok b := by
  induction l generalizing bs with
  | nil => cases ha
  | cons x l ih =>
    rw [List.mapM_cons] at h
    simp only [except_bind_ok] at h
    obtain ⟨b, hb, bs', hbs', _⟩ := h
    rcases List.mem_cons.1 ha with rfl | ha
    · exact ⟨b, hb⟩
    · exact ih hbs' ha

/-- Queries that all yield nothing yield nothing together. -/
theorem mapM_flatten_nil {g : α → Except ε (List β)} (h : ∀ a ∈ l, g a = .ok []) :
    ∃ bss, l.mapM g = .ok bss ∧ bss.flatten = [] := by
  obtain ⟨bss, hbss⟩ := mapM_total fun a ha => ⟨[], h a ha⟩
  refine ⟨bss, hbss, List.flatten_eq_nil_iff.2 fun bs hbs => ?_⟩
  obtain ⟨a, ha, hbs⟩ := (mem_of_mapM_ok hbss bs).1 hbs
  exact (Except.ok.inj ((h a ha).symm.trans hbs)).symm

/-- Queries that yield nothing together all yield nothing. -/
theorem of_mapM_flatten_nil {g : α → Except ε (List β)} {bss : List (List β)}
    (h : l.mapM g = .ok bss) (hnil : bss.flatten = []) : ∀ a ∈ l, g a = .ok [] := by
  intro a ha
  obtain ⟨bs, hbs⟩ := ok_of_mapM_ok h ha
  cases List.flatten_eq_nil_iff.1 hnil bs ((mem_of_mapM_ok h bs).2 ⟨a, ha, hbs⟩)
  exact hbs

theorem filterM_eq_nil {test : α → Except ε Bool} (h : ∀ a ∈ l, test a = .ok false) :
    l.filterM test = .ok [] := by
  have haux : l.filterAuxM test [] = .ok [] := by
    induction l with
    | nil => rfl
    | cons a l ih =>
      rw [List.filterAuxM, h a List.mem_cons_self]
      exact ih fun x hx => h x (List.mem_cons_of_mem a hx)
  rw [List.filterM, haux]
  rfl

theorem filterAuxM_prefix {test : α → Except ε Bool} : ∀ {l acc result : List α},
    l.filterAuxM test acc = .ok result → ∀ a ∈ acc, a ∈ result := by
  intro l
  induction l with
  | nil =>
    intro acc result h a ha
    cases h
    exact ha
  | cons b l ih =>
    intro acc result h a ha
    simp only [List.filterAuxM] at h
    cases hb : test b with
    | error e =>
      rw [hb] at h
      cases h
    | ok w =>
      rw [hb] at h
      refine ih h a ?_
      cases w
      · exact ha
      · exact List.mem_cons_of_mem b ha

/-- Where a filter keeps nothing, the test fails for every member. -/
theorem of_filterM_eq_nil {test : α → Except ε Bool} (h : l.filterM test = .ok []) :
    ∀ a ∈ l, test a = .ok false := by
  have haux : l.filterAuxM test [] = .ok [] := by
    rw [List.filterM] at h
    cases hrun : l.filterAuxM test [] with
    | error e =>
      rw [hrun] at h
      cases h
    | ok kept =>
      rw [hrun] at h
      rw [List.reverse_eq_nil_iff.1 (Except.ok.inj h)]
  clear h
  induction l with
  | nil => exact fun a ha => by cases ha
  | cons b l ih =>
    simp only [List.filterAuxM] at haux
    cases hb : test b with
    | error e =>
      rw [hb] at haux
      cases haux
    | ok w =>
      rw [hb] at haux
      cases w with
      | true => cases filterAuxM_prefix haux b List.mem_cons_self
      | false =>
        intro a ha
        rcases List.mem_cons.1 ha with rfl | ha
        · exact hb
        · exact ih haux a ha

end Lists

variable {s : Store} {root o x y : OpRef}

/-! ## Nesting without cycles -/

/-- No operation is nested in itself. -/
def Acyclic (s : Store) : Prop :=
  ∀ x, ¬ Relation.TransGen (Child s) x x

theorem Acyclic.up (h : Acyclic s) (x : OpRef) :
    ¬ Relation.TransGen (fun c p => Child s p c) x x := by
  intro hcycle
  exact h x (Relation.transGen_swap.1 hcycle)

/-- Taking operations out of where they stand makes no cycle. -/
theorem Acyclic.mono {t : Store} (h : Acyclic s) (hchild : ∀ p o, Child t p o → Child s p o) :
    Acyclic t := fun x hx => h x (Relation.TransGen.mono hchild _ _ hx)

/-! ## Members -/

theorem block?_of_region (hl : Linked s) {r : RegionRef} {rd : RegionData} {b : BlockRef}
    (hr : s.region? r = some rd) (hb : b ∈ rd.blocks) :
    ∃ bd, s.block? b = some bd ∧ bd.parent = some r :=
  Option.map_eq_some_iff.1 ((hl.blocks.mem_iff (a := r) (by simp [blocksIn, hr]) b).1 hb)

theorem region?_of_op (hl : Linked s) {d : OpData} {r : RegionRef} (hd : s.op? o = some d)
    (hr : r ∈ d.regions) : ∃ rd, s.region? r = some rd ∧ rd.parent = some o :=
  Option.map_eq_some_iff.1 ((hl.regions.mem_iff (a := o) (by simp [regionsIn, hd]) r).1 hr)

/-- A block is in one region only. -/
theorem region_of_block_unique (hl : Linked s) {r r' : RegionRef} {rd rd' : RegionData}
    {b : BlockRef} (hr : s.region? r = some rd) (hb : b ∈ rd.blocks)
    (hr' : s.region? r' = some rd') (hb' : b ∈ rd'.blocks) : r = r' := by
  obtain ⟨bd, hbd, hp⟩ := block?_of_region hl hr hb
  obtain ⟨bd', hbd', hp'⟩ := block?_of_region hl hr' hb'
  cases hbd.symm.trans hbd'
  exact Option.some.inj (hp.symm.trans hp')

theorem mapM_block_ok (bs : List BlockRef) (hbs : ∀ b ∈ bs, ∃ bd, s.block? b = some bd) :
    ∃ bds, bs.mapM s.block = .ok bds ∧ ∀ x, x ∈ bds.flatMap (·.ops) ↔ InBlocks s bs x := by
  obtain ⟨bds, hbds⟩ := mapM_total (f := s.block) (l := bs) fun b hb => by
    obtain ⟨bd, hbd⟩ := hbs b hb
    exact ⟨bd, block_ok.2 hbd⟩
  refine ⟨bds, hbds, fun x => ?_⟩
  rw [List.mem_flatMap]
  constructor
  · rintro ⟨bd, hbd, hx⟩
    obtain ⟨b, hb, hbbd⟩ := (mem_of_mapM_ok hbds bd).1 hbd
    exact ⟨b, hb, bd, block_ok.1 hbbd, hx⟩
  · rintro ⟨b, hb, bd, hbd, hx⟩
    exact ⟨bd, (mem_of_mapM_ok hbds bd).2 ⟨b, hb, block_ok.2 hbd⟩, hx⟩

/-- Whatever can be listed as nested directly in an operation is. -/
theorem child_of_childOps {c : OpRef} {os : List OpRef} (h : s.childOps o = .ok os)
    (hc : c ∈ os) : Child s o c := by
  simp only [childOps, except_bind_ok, op_ok, except_pure, Except.ok.injEq] at h
  obtain ⟨d, hd, rds, hrds, bds, hbds, rfl⟩ := h
  obtain ⟨bd, hbd, hmem⟩ := List.mem_flatMap.1 hc
  obtain ⟨b, hb, hblock⟩ := (mem_of_mapM_ok hbds bd).1 hbd
  obtain ⟨rd, hrd, hb⟩ := List.mem_flatMap.1 hb
  obtain ⟨r, hr, hregion⟩ := (mem_of_mapM_ok hrds rd).1 hrd
  exact ⟨d, hd, r, hr, rd, region_ok.1 hregion, b, hb, bd, block_ok.1 hblock, hmem⟩

/-- The operations that are listed are those nested directly. -/
theorem mem_childOps {os : List OpRef} {z : OpRef} (h : s.childOps o = .ok os) :
    z ∈ os ↔ Child s o z := by
  refine ⟨child_of_childOps h, ?_⟩
  rintro ⟨d, hd, r, hr, rd, hrd, b, hb, bd, hbd, hmem⟩
  simp only [childOps, except_bind_ok, op_ok, except_pure, Except.ok.injEq] at h
  obtain ⟨d', hd', rds, hrds, bds, hbds, rfl⟩ := h
  cases hd.symm.trans hd'
  have hrd' : rd ∈ rds := (mem_of_mapM_ok hrds rd).2 ⟨r, hr, region_ok.2 hrd⟩
  have hb' : b ∈ rds.flatMap (·.blocks) := List.mem_flatMap.2 ⟨rd, hrd', hb⟩
  have hbd' : bd ∈ bds := (mem_of_mapM_ok hbds bd).2 ⟨b, hb', block_ok.2 hbd⟩
  exact List.mem_flatMap.2 ⟨bd, hbd', hmem⟩

/-- The operations nested directly in an operation can be listed. -/
theorem childOps_ok (hl : Linked s) {d : OpData} (hd : s.op? o = some d) :
    ∃ os, s.childOps o = .ok os ∧ ∀ x, x ∈ os ↔ Child s o x := by
  obtain ⟨rds, hrds⟩ := mapM_total (f := s.region) (l := d.regions) fun r hr => by
    obtain ⟨rd, hrd, _⟩ := region?_of_op hl hd hr
    exact ⟨rd, region_ok.2 hrd⟩
  obtain ⟨bds, hbds⟩ := mapM_total (f := s.block) (l := rds.flatMap (·.blocks)) fun b hb => by
    obtain ⟨rd, hrd, hb⟩ := List.mem_flatMap.1 hb
    obtain ⟨r, _, hr⟩ := (mem_of_mapM_ok hrds rd).1 hrd
    obtain ⟨bd, hbd, _⟩ := block?_of_region hl (region_ok.1 hr) hb
    exact ⟨bd, block_ok.2 hbd⟩
  have hos : s.childOps o = .ok (bds.flatMap (·.ops)) := by
    simp only [childOps, except_bind_ok, op_ok, except_pure, Except.ok.injEq]
    exact ⟨d, hd, rds, hrds, bds, hbds, rfl⟩
  exact ⟨_, hos, fun x => mem_childOps hos⟩

/-! ## Walks -/

/-- Walks over several operations meet what the single walks meet. -/
theorem walkListWith_ok (walk : OpRef → Except Fault Trace) {os : List OpRef}
    (h : ∀ o ∈ os, ∃ seen, walk o = .ok ⟨seen, none⟩ ∧ ∀ x, x ∈ seen ↔ Within s o x) :
    ∃ seen, walkListWith walk os = .ok ⟨seen, none⟩ ∧ ∀ x, x ∈ seen ↔ ∃ o ∈ os, Within s o x := by
  induction os with
  | nil => exact ⟨[], rfl, by simp⟩
  | cons o os ih =>
    obtain ⟨first, hfirst, hmem⟩ := h o List.mem_cons_self
    obtain ⟨more, hmore, hmem'⟩ := ih fun x hx => h x (List.mem_cons_of_mem o hx)
    refine ⟨first ++ more, ?_, fun x => ?_⟩
    · rw [walkListWith, hfirst]
      show (walkListWith walk os >>= fun more => _) = _
      rw [hmore]
      rfl
    · rw [List.mem_append, hmem, hmem']
      simp

/-- With as much fuel as there is left to meet, a walk meets exactly what is nested. -/
theorem walkWithin_ok (hl : Linked s) (hac : Acyclic s) (n : Nat) :
    ∀ {o : OpRef} {d : OpData}, s.op? o = some d → (metFrom s (Child s) o).card ≤ n →
      ∃ seen, walkWithin s (fun _ => .descend) n o = .ok ⟨seen, none⟩ ∧
        ∀ x, x ∈ seen ↔ Within s o x := by
  induction n with
  | zero =>
    intro o d hd hn
    have hpos := Finset.card_pos.2 ⟨o.index, index_mem_metFrom (R := Child s) hd⟩
    omega
  | succ n ih =>
    intro o d hd hn
    obtain ⟨os, hos, hchild⟩ := childOps_ok hl hd
    obtain ⟨seen, hseen, hmem⟩ := walkListWith_ok (s := s)
        (walkWithin s (fun _ => .descend) n) fun c hc => by
      have hoc : Child s o c := (hchild c).1 hc
      obtain ⟨cd, hcd⟩ := hl.op?_of_within ⟨d, hd⟩ (.single hoc)
      have hlt := card_metFrom_lt (R := Child s) hd hoc (hac o)
      exact ih hcd (by omega)
    refine ⟨o :: seen, ?_, fun x => ?_⟩
    · simp only [walkWithin, except_bind_ok, op_ok]
      exact ⟨d, hd, os, hos, _, hseen, rfl⟩
    · rw [List.mem_cons, hmem]
      constructor
      · rintro (rfl | ⟨c, hc, hw⟩)
        · exact .refl
        · exact .head ((hchild c).1 hc) hw
      · intro hw
        rcases Relation.ReflTransGen.cases_head hw with rfl | ⟨c, hc, hw⟩
        · exact .inl rfl
        · exact .inr ⟨c, (hchild c).2 hc, hw⟩

theorem walk_ok (hl : Linked s) (hac : Acyclic s) {d : OpData} (hd : s.op? o = some d) :
    ∃ seen, walk s (fun _ => .descend) o = .ok ⟨seen, none⟩ ∧ ∀ x, x ∈ seen ↔ Within s o x :=
  walkWithin_ok hl hac s.depthBound hd
    ((card_metFrom_le s _ o).trans (Nat.le_succ _))

/-- An operation is nested in the first region of another one. -/
def InBody (s : Store) (root x : OpRef) : Prop :=
  ∃ d, s.op? root = some d ∧ ∃ r ∈ d.regions.head?, ∃ y, InRegions s [r] y ∧ Within s y x

theorem op?_of_inBody (hl : Linked s) (h : InBody s root x) : ∃ d, s.op? x = some d := by
  obtain ⟨_, _, r, _, y, ⟨_, _, _, _, b, _, bd, hbd, hy⟩, hw⟩ := h
  obtain ⟨yd, hyd, _⟩ := hl.op?_of_mem hbd hy
  exact hl.op?_of_within ⟨yd, hyd⟩ hw

/-- Everything nested in the first region of an operation can be listed. -/
theorem bodyOps_ok (hl : Linked s) (hac : Acyclic s) {d : OpData} (hd : s.op? root = some d) :
    ∃ os, bodyOps s root = .ok os ∧ ∀ x, x ∈ os ↔ InBody s root x := by
  cases hregions : d.regions with
  | nil =>
    refine ⟨[], ?_, fun x => ⟨by simp, ?_⟩⟩
    · simp only [bodyOps, except_bind_ok, op_ok]
      exact ⟨d, hd, by rw [hregions]; rfl⟩
    · rintro ⟨d', hd', r, hr, _⟩
      cases hd.symm.trans hd'
      simp [hregions] at hr
  | cons r rs =>
    obtain ⟨rd, hrd, _⟩ := region?_of_op hl hd (r := r) (by simp [hregions])
    obtain ⟨bds, hbds, hops⟩ := mapM_block_ok (s := s) rd.blocks fun b hb => by
      obtain ⟨bd, hbd, _⟩ := block?_of_region hl hrd hb
      exact ⟨bd, hbd⟩
    obtain ⟨seen, hseen, hmem⟩ := walkListWith_ok (s := s)
        (walk s fun _ => .descend) fun y hy => by
      obtain ⟨b, _, bd, hbd, hy⟩ := (hops y).1 hy
      obtain ⟨yd, hyd, _⟩ := hl.op?_of_mem hbd hy
      exact walk_ok hl hac hyd
    refine ⟨seen, ?_, fun x => ?_⟩
    · simp only [bodyOps, except_bind_ok, op_ok]
      refine ⟨d, hd, ?_⟩
      simp only [hregions, except_bind_ok, region_ok]
      exact ⟨rd, hrd, bds, hbds, _, hseen, rfl⟩
    · rw [hmem]
      constructor
      · rintro ⟨y, hy, hw⟩
        exact ⟨d, hd, r, by rw [hregions]; rfl, y, ⟨r, by simp, rd, hrd, (hops y).1 hy⟩, hw⟩
      · rintro ⟨d', hd', r', hr', y, ⟨r'', hr'', rd', hrd', hin⟩, hw⟩
        cases hd.symm.trans hd'
        rw [hregions] at hr'
        cases hr'
        cases List.mem_singleton.1 hr''
        cases hrd.symm.trans hrd'
        exact ⟨y, (hops y).2 hin, hw⟩

/-! ## Climbs -/

theorem blockOwner?_ok (hl : Linked s) {b : BlockRef} {bd : BlockData} (hb : s.block? b = some bd) :
    ∃ p?, s.blockOwner? b = .ok p? ∧ ∀ p, p? = some p ↔ Holds s p b := by
  cases hparent : bd.parent with
  | none =>
    refine ⟨none, ?_, fun p => ⟨by simp, ?_⟩⟩
    · simp only [blockOwner?, except_bind_ok, block_ok]
      exact ⟨bd, hb, by rw [hparent]; rfl⟩
    · rintro ⟨_, _, r, _, rd, hrd, hmem⟩
      obtain ⟨bd', hbd', hp⟩ := block?_of_region hl hrd hmem
      cases hb.symm.trans hbd'
      rw [hparent] at hp
      cases hp
  | some r =>
    have hbr : s.blockParent b = some (some r) := by simp [blockParent, hb, hparent]
    obtain ⟨l, hlist⟩ := hl.blocks.holder hbr
    obtain ⟨rd, hrd, rfl⟩ := Option.map_eq_some_iff.1 hlist
    refine ⟨rd.parent, ?_, fun p => ⟨fun hp => ?_, ?_⟩⟩
    · simp only [blockOwner?, except_bind_ok, block_ok]
      refine ⟨bd, hb, ?_⟩
      simp only [hparent, except_bind_ok, region_ok]
      exact ⟨rd, hrd, rfl⟩
    · have hrp : s.regionParent r = some (some p) := by simp [regionParent, hrd, hp]
      obtain ⟨l, hlist'⟩ := hl.regions.holder hrp
      obtain ⟨d, hd, rfl⟩ := Option.map_eq_some_iff.1 hlist'
      exact ⟨d, hd, r, (hl.regions.mem_iff hlist' r).2 hrp, rd, hrd,
        (hl.blocks.mem_iff hlist b).2 hbr⟩
    · rintro ⟨d, hd, r', hr', rd', hrd', hmem⟩
      obtain ⟨bd', hbd', hp⟩ := block?_of_region hl hrd' hmem
      cases hb.symm.trans hbd'
      cases hparent.symm.trans hp
      obtain ⟨rd'', hrd'', hp'⟩ := region?_of_op hl hd hr'
      cases hrd.symm.trans hrd''
      exact hp'

theorem enclosingOp?_ok (hl : Linked s) {d : OpData} (hd : s.op? o = some d) :
    ∃ p?, s.enclosingOp? o = .ok p? ∧ ∀ p, p? = some p ↔ Child s p o := by
  cases hparent : d.parent with
  | none =>
    refine ⟨none, ?_, fun p => ⟨by simp, fun hc => ?_⟩⟩
    · simp only [enclosingOp?, except_bind_ok, op_ok]
      exact ⟨d, hd, by rw [hparent]; rfl⟩
    · exact absurd hc (not_child_of_detached hl hd hparent)
  | some b =>
    obtain ⟨bd, hbd, ho⟩ := hl.mem_of_parent hd hparent
    obtain ⟨p?, hp?, howner⟩ := blockOwner?_ok hl hbd
    refine ⟨p?, ?_, fun p => (howner p).trans (child_iff_holds hl hbd ho).symm⟩
    simp only [enclosingOp?, except_bind_ok, op_ok]
    exact ⟨d, hd, by rw [hparent]; exact hp?⟩

theorem op?_of_child (h : Child s x y) : ∃ d, s.op? x = some d := by
  obtain ⟨d, hd, _⟩ := h
  exact ⟨d, hd⟩

/-- Climbing decides whether an operation is nested in another one. -/
theorem isWithinFuel_ok (hl : Linked s) (hac : Acyclic s) (a : OpRef) (n : Nat) :
    ∀ {o : OpRef} {d : OpData}, s.op? o = some d →
      (metFrom s (fun c p => Child s p c) o).card ≤ n →
      ∃ w, s.isWithinFuel a n o = .ok w ∧ (w = true ↔ Within s a o) := by
  induction n with
  | zero =>
    intro o d hd hn
    have hpos := Finset.card_pos.2 ⟨o.index, index_mem_metFrom (R := fun c p => Child s p c) hd⟩
    omega
  | succ n ih =>
    intro o d hd hn
    by_cases hoa : o = a
    · subst hoa
      refine ⟨true, ?_, by simpa using .refl⟩
      simp [isWithinFuel]
    · obtain ⟨p?, hp?, hchild⟩ := enclosingOp?_ok hl hd
      -- nested in `a` is what stands in something nested in `a`
      have hwithin : Within s a o ↔ ∃ p, p? = some p ∧ Within s a p := by
        constructor
        · intro hw
          rcases Relation.ReflTransGen.cases_tail hw with heq | ⟨p, hap, hp⟩
          · exact absurd heq hoa
          · exact ⟨p, (hchild p).2 hp, hap⟩
        · rintro ⟨p, hp, hap⟩
          exact hap.tail ((hchild p).1 hp)
      cases p? with
      | none =>
        refine ⟨false, ?_, by simp [hwithin]⟩
        simp only [isWithinFuel, hoa, if_false, hp?, except_bind_ok]
        exact ⟨none, rfl, rfl⟩
      | some p =>
        have hpo : Child s p o := (hchild p).1 rfl
        obtain ⟨pd, hpd⟩ := op?_of_child hpo
        have hlt := card_metFrom_lt (R := fun c p => Child s p c) hd hpo (hac.up o)
        obtain ⟨w, hw, hiff⟩ := ih hpd (by omega)
        refine ⟨w, ?_, by rw [hiff, hwithin]; simp⟩
        simp only [isWithinFuel, hoa, if_false, hp?, except_bind_ok]
        exact ⟨some p, rfl, hw⟩

theorem isWithin_ok (hl : Linked s) (hac : Acyclic s) (a : OpRef) {d : OpData}
    (hd : s.op? o = some d) : ∃ w, s.isWithin a o = .ok w ∧ (w = true ↔ Within s a o) :=
  isWithinFuel_ok hl hac a s.depthBound hd ((card_metFrom_le s _ o).trans (Nat.le_succ _))

/-- Where members and holders name each other, the parent links lead from members to holders. -/
theorem stepsOut_eq (hl : Linked s) : StepsOut s = fun c p => Child s p c := by
  funext c p
  refine propext ⟨fun hstep => ?_, fun hchild => ?_⟩
  · obtain ⟨b, hb⟩ := hstep.attached
    obtain ⟨d, hd, -⟩ := opParent_eq_some.1 hb
    obtain ⟨p?, hp?, hiff⟩ := enclosingOp?_ok hl hd
    exact (hiff p).1 (Except.ok.inj (hp?.symm.trans hstep))
  · obtain ⟨b, bd, -, hbd, hc⟩ := child_iff.1 hchild
    obtain ⟨d, hd, -⟩ := hl.op?_of_mem hbd hc
    obtain ⟨p?, hp?, hiff⟩ := enclosingOp?_ok hl hd
    rw [StepsOut, hp?, (hiff p).2 hchild]

theorem stepsOut_iff_within (hl : Linked s) :
    Relation.ReflTransGen (StepsOut s) o a ↔ Within s a o := by
  rw [stepsOut_eq hl]
  exact Relation.reflTransGen_swap

theorem forest_of_linked (hl : Linked s) (hac : Acyclic s) : Forest s where
  attached hd hp := hl.mem_of_parent hd hp
  once hb := hl.ops_nodup hb
  region hb hp := by
    obtain ⟨l, hlist⟩ := hl.blocks.holder (Option.map_eq_some_iff.2 ⟨_, hb, hp⟩)
    obtain ⟨rd, hrd, -⟩ := Option.map_eq_some_iff.1 hlist
    exact ⟨rd, hrd⟩
  owner hr hp := by
    obtain ⟨l, hlist⟩ := hl.regions.holder (Option.map_eq_some_iff.2 ⟨_, hr, hp⟩)
    obtain ⟨d, hd, -⟩ := Option.map_eq_some_iff.1 hlist
    exact ⟨d, hd⟩
  definer hv ho := op?_of_result hl (Option.map_eq_some_iff.2 ⟨_, hv, ho⟩)
  binder hv ho := block?_of_argument hl (Option.map_eq_some_iff.2 ⟨_, hv, ho⟩)
  acyclic x := by
    rw [stepsOut_eq hl]
    exact hac.up x

end AffineRaising.Analysis
