/-
# AffineRaising.Proofs.Store.Visible — what an operation can see.

Blocks are straight-line code.  An operation sees the arguments of the blocks around it and the
results of the operations in front of it, or in front of an operation that encloses it: `Sees`.
What it sees is kept when a store grows, and what it loses when operations go are only the results
of those operations.

Three relations carry the definition. `Holds` joins an operation to a block in one of its regions,
`Precedes` is the order in a block, and `Offered` says that a value is there where an operation
stands. `Reaches` turns `Sees` round: it says of an operation, not of a value, that it comes before
another one, and is what stays fixed when uses are redirected from one result to another one.
-/
import AffineRaising.Proofs.Store.Copy

namespace AffineRaising.IR

open Store

variable {s t : Store} {v w : ValueRef} {a c o p q x y : OpRef} {b : BlockRef} {bd : BlockData}

/-! ## Values and what defines them -/

/-- The operation that has a value as its result is there. -/
theorem op?_of_result (hl : Linked s) {k : Nat} (hv : s.originOf v = some (.result o k)) :
    ∃ d, s.op? o = some d := by
  obtain ⟨l, hlist⟩ := hl.results.holder hv
  obtain ⟨d, hd, _⟩ := Option.map_eq_some_iff.1 hlist
  exact ⟨d, hd⟩

theorem block?_of_argument (hl : Linked s) {k : Nat} (hv : s.originOf v = some (.argument b k)) :
    ∃ bd, s.block? b = some bd := by
  obtain ⟨l, hlist⟩ := hl.args.holder hv
  obtain ⟨bd, hbd, _⟩ := Option.map_eq_some_iff.1 hlist
  exact ⟨bd, hbd⟩

/-- A value is named by its place. -/
theorem eq_of_originOf (hl : Linked s) {origin : Origin} (hv : s.originOf v = some origin)
    (hw : s.originOf w = some origin) : v = w := by
  cases origin with
  | result x k =>
    obtain ⟨l, hlist⟩ := hl.results.holder hv
    exact Option.some.inj
      (((hl.results.mem_iff hlist k v).2 hv).symm.trans ((hl.results.mem_iff hlist k w).2 hw))
  | argument b k =>
    obtain ⟨l, hlist⟩ := hl.args.holder hv
    exact Option.some.inj
      (((hl.args.mem_iff hlist k v).2 hv).symm.trans ((hl.args.mem_iff hlist k w).2 hw))

/-! ## Blocks and their owners -/

namespace Store.Linked

/-- A member of a block is there and names the block. -/
theorem op?_of_mem (hl : Linked s) (hb : s.block? b = some bd) (ho : o ∈ bd.ops) :
    ∃ d, s.op? o = some d ∧ d.parent = some b := by
  have hp : s.opParent o = some (some b) := (hl.ops.mem_iff (by simp [opsIn, hb]) o).1 ho
  exact Option.map_eq_some_iff.1 hp

/-- The block that an operation names is there and has it as a member. -/
theorem mem_of_parent (hl : Linked s) {d : OpData} (hd : s.op? o = some d)
    (hp : d.parent = some b) : ∃ bd, s.block? b = some bd ∧ o ∈ bd.ops := by
  have hparent : s.opParent o = some (some b) := by simp [opParent, hd, hp]
  obtain ⟨l, hops⟩ := hl.ops.holder hparent
  obtain ⟨bd, hbd, rfl⟩ := Option.map_eq_some_iff.1 hops
  exact ⟨bd, hbd, (hl.ops.mem_iff hops o).2 hparent⟩

/-- An operation is a member of one block. -/
theorem block_unique (hl : Linked s) {b' : BlockRef} {bd' : BlockData} (hb : s.block? b = some bd)
    (ho : o ∈ bd.ops) (hb' : s.block? b' = some bd') (ho' : o ∈ bd'.ops) : b = b' := by
  obtain ⟨d, hd, hp⟩ := hl.op?_of_mem hb ho
  obtain ⟨d', hd', hp'⟩ := hl.op?_of_mem hb' ho'
  cases hd.symm.trans hd'
  exact Option.some.inj (hp.symm.trans hp')

theorem ops_nodup (hl : Linked s) (hb : s.block? b = some bd) : bd.ops.Nodup :=
  hl.ops.nodup (a := b) (by simp [opsIn, hb])

end Store.Linked

/-- The block is in a region of the operation. -/
def Holds (s : Store) (p : OpRef) (b : BlockRef) : Prop :=
  ∃ d, s.op? p = some d ∧ ∃ r ∈ d.regions, ∃ rd, s.region? r = some rd ∧ b ∈ rd.blocks

/-- An operation stands in another one if it is in a block that the other one holds. -/
theorem child_iff : Child s p o ↔ ∃ b bd, Holds s p b ∧ s.block? b = some bd ∧ o ∈ bd.ops := by
  constructor
  · rintro ⟨d, hd, r, hr, rd, hrd, b, hb, bd, hbd, ho⟩
    exact ⟨b, bd, ⟨d, hd, r, hr, rd, hrd, hb⟩, hbd, ho⟩
  · rintro ⟨b, bd, ⟨d, hd, r, hr, rd, hrd, hb⟩, hbd, ho⟩
    exact ⟨d, hd, r, hr, rd, hrd, b, hb, bd, hbd, ho⟩

/-- What stands in a block stands in what holds the block. -/
theorem child_iff_holds (hl : Linked s) (hb : s.block? b = some bd) (ho : o ∈ bd.ops) :
    Child s p o ↔ Holds s p b := by
  rw [child_iff]
  constructor
  · rintro ⟨b', bd', hh, hb', ho'⟩
    rwa [hl.block_unique hb ho hb' ho']
  · exact fun hh => ⟨b, bd, hh, hb, ho⟩

/-- A block is held by one operation. -/
theorem Holds.unique (hl : Linked s) (h : Holds s p b) (h' : Holds s q b) : p = q := by
  rcases h with ⟨d, hd, r, hr, rd, hrd, hb⟩
  rcases h' with ⟨d', hd', r', hr', rd', hrd', hb'⟩
  have hregion : r = r' := by
    have h₁ := (hl.blocks.mem_iff (a := r) (by simp [blocksIn, hrd]) b).1 hb
    have h₂ := (hl.blocks.mem_iff (a := r') (by simp [blocksIn, hrd']) b).1 hb'
    exact Option.some.inj (Option.some.inj (h₁.symm.trans h₂))
  subst hregion
  have h₁ := (hl.regions.mem_iff (a := p) (by simp [regionsIn, hd]) r).1 hr
  have h₂ := (hl.regions.mem_iff (a := q) (by simp [regionsIn, hd']) r).1 hr'
  exact Option.some.inj (Option.some.inj (h₁.symm.trans h₂))

/-- An operation stands in one other operation. -/
theorem Child.unique (hl : Linked s) (h : Child s p x) (h' : Child s q x) : p = q := by
  rcases child_iff.1 h with ⟨b, bd, hh, hb, hx⟩
  exact hh.unique hl ((child_iff_holds hl hb hx).1 h')

/-- An operation in no block stands in no operation. -/
theorem not_child_of_detached (hl : Linked s) {d : OpData} (hd : s.op? x = some d)
    (hp : d.parent = none) : ¬ Child s p x := by
  intro h
  rcases child_iff.1 h with ⟨b, bd, _, hb, hx⟩
  rcases hl.op?_of_mem hb hx with ⟨d', hd', hp'⟩
  cases hd.symm.trans hd'
  rw [hp] at hp'
  cases hp'

/-- Two operations that enclose a third one enclose each other. -/
theorem within_or_within (hl : Linked s) (ha : Within s a x) (hc : Within s c x) :
    Within s a c ∨ Within s c a := by
  induction ha with
  | refl => exact .inr hc
  | tail hw hchild ih =>
    rcases Relation.ReflTransGen.cases_tail hc with rfl | ⟨q, hcq, hq⟩
    · exact .inl (hw.tail hchild)
    · exact ih (hq.unique hl hchild ▸ hcq)

/-- Below an operation that nothing encloses there are no cycles. -/
theorem acyclic_of_detached (hl : Linked s) {root : OpRef} {d : OpData}
    (hd : s.op? root = some d) (hp : d.parent = none) (hx : Within s root x) :
    ¬ Relation.TransGen (Child s) x x := by
  -- a cycle below the root could be followed upwards to the root
  induction hx with
  | refl =>
    intro hcycle
    obtain ⟨q, _, hq⟩ := Relation.TransGen.tail'_iff.1 hcycle
    exact not_child_of_detached hl hd hp hq
  | tail _ hchild ih =>
    intro hcycle
    obtain ⟨q, hwq, hq⟩ := Relation.TransGen.tail'_iff.1 hcycle
    cases hq.unique hl hchild
    exact ih (Relation.TransGen.head' hchild hwq)

/-! ## Order in a block -/

section Pairs

variable {l front back : List OpRef}

theorem pair_sublist_of_mem (hy : y ∈ front) (hx : x ∈ back) : [y, x].Sublist (front ++ back) :=
  (List.singleton_sublist.2 hy).append (List.singleton_sublist.2 hx)

theorem left_mem_of_pair (h : [a, c].Sublist l) : a ∈ l := h.subset (by simp)

theorem right_mem_of_pair (h : [a, c].Sublist l) : c ∈ l := h.subset (by simp)

/-- In a list without repetitions, what comes after an element stands behind the place of the
element. -/
theorem mem_back_of_pair (hnd : (front ++ o :: back).Nodup)
    (h : [o, x].Sublist (front ++ o :: back)) : x ∈ back := by
  have hfront : o ∉ front := fun ho => (List.nodup_append.1 hnd).2.2 o ho o (by simp) rfl
  obtain ⟨l₁, l₂, heq, h₁, h₂⟩ := List.sublist_append_iff.1 h
  cases l₁ with
  | nil =>
    rw [List.nil_append] at heq
    rw [← heq, List.cons_sublist_cons] at h₂
    exact List.singleton_sublist.1 h₂
  | cons z l₁ =>
    have hz : z = o := (List.cons.inj heq).1.symm
    subst hz
    exact absurd (h₁.subset (by simp)) hfront

theorem mem_front_of_pair (hnd : (front ++ x :: back).Nodup)
    (h : [y, x].Sublist (front ++ x :: back)) : y ∈ front := by
  obtain ⟨l₁, l₂, heq, h₁, h₂⟩ := List.sublist_append_iff.1 h
  cases l₁ with
  | nil =>
    -- both members would have to be behind the front
    rw [List.nil_append] at heq
    rw [← heq] at h₂
    have hx : x ∈ back := by
      rcases List.sublist_cons_iff.1 h₂ with h₂ | ⟨r, hr, h₂⟩
      · exact right_mem_of_pair h₂
      · cases hr
        exact List.singleton_sublist.1 h₂
    exact absurd hx (List.nodup_cons.1 (List.nodup_append.1 hnd).2.1).1
  | cons z l₁ =>
    have hz : z = y := (List.cons.inj heq).1.symm
    subst hz
    exact h₁.subset (by simp)

/-- In a list without repetitions, order is transitive. -/
theorem pair_sublist_trans (hnd : l.Nodup) (h : [a, c].Sublist l) (h' : [c, x].Sublist l) :
    [a, x].Sublist l := by
  obtain ⟨front, back, rfl⟩ := List.append_of_mem (left_mem_of_pair h')
  have hx : x ∈ back := mem_back_of_pair hnd h'
  exact pair_sublist_of_mem (mem_front_of_pair hnd h) (List.mem_cons_of_mem _ hx)

theorem ne_of_pair (hnd : l.Nodup) (h : [a, c].Sublist l) : a ≠ c := by
  have hpair := hnd.sublist h
  simpa using hpair

end Pairs

/-- The first operation stands in front of the second one in their block. -/
def Precedes (s : Store) (y x : OpRef) : Prop :=
  ∃ b bd, s.block? b = some bd ∧ [y, x].Sublist bd.ops

/-- The order in a block is transitive, since an operation is in one block only. -/
theorem Precedes.trans (hl : Linked s) (h : Precedes s a c) (h' : Precedes s c x) :
    Precedes s a x := by
  rcases h with ⟨b, bd, hb, hac⟩
  rcases h' with ⟨b', bd', hb', hcx⟩
  cases hl.block_unique hb (right_mem_of_pair hac) hb' (left_mem_of_pair hcx)
  cases hb.symm.trans hb'
  exact ⟨b, bd, hb, pair_sublist_trans (hl.ops_nodup hb) hac hcx⟩

/-- Operations of one block stand in the same operation. -/
theorem Precedes.child_iff (hl : Linked s) (h : Precedes s y x) : Child s p y ↔ Child s p x := by
  rcases h with ⟨b, bd, hb, hyx⟩
  rw [child_iff_holds hl hb (left_mem_of_pair hyx), child_iff_holds hl hb (right_mem_of_pair hyx)]

theorem Precedes.ne (hl : Linked s) (h : Precedes s y x) : y ≠ x := by
  rcases h with ⟨b, bd, hb, hyx⟩
  exact ne_of_pair (hl.ops_nodup hb) hyx

/-- An operation that encloses one of two neighbours properly encloses the other one too. -/
theorem Precedes.within (hl : Linked s) (h : Precedes s y x) (ha : Within s a y) (hne : a ≠ y) :
    Within s a x := by
  rcases Relation.ReflTransGen.cases_tail ha with rfl | ⟨q, haq, hq⟩
  · exact absurd rfl hne
  · exact haq.tail ((h.child_iff hl).1 hq)

/-- Neighbours do not enclose each other unless they are in a cycle. -/
theorem Precedes.not_within (hl : Linked s) (h : Precedes s y x)
    (hacyclic : ¬ Relation.TransGen (Child s) y y) : ¬ Within s y x := by
  intro hw
  rcases Relation.ReflTransGen.cases_tail hw with heq | ⟨q, hyq, hq⟩
  · exact h.ne hl heq.symm
  · exact hacyclic (Relation.TransGen.tail' hyq ((h.child_iff hl).2 hq))

/-- Nor is the first one nested in the second one. -/
theorem Precedes.not_within_left (hl : Linked s) (h : Precedes s y x)
    (hacyclic : ¬ Relation.TransGen (Child s) x x) : ¬ Within s x y := by
  intro hw
  rcases Relation.ReflTransGen.cases_tail hw with heq | ⟨q, hxq, hq⟩
  · exact h.ne hl heq
  · exact hacyclic (Relation.TransGen.tail' hxq ((h.child_iff hl).1 hq))

/-! ## Visibility -/

/-- The value is there where the operation stands, by its own block: an argument of the block or a
result of an operation in front of it. -/
def Offered (s : Store) (v : ValueRef) (a : OpRef) : Prop :=
  (∃ b k bd, s.originOf v = some (.argument b k) ∧ s.block? b = some bd ∧ a ∈ bd.ops) ∨
    ∃ o k, s.originOf v = some (.result o k) ∧ Precedes s o a

/-- The operation, or one that encloses it, is offered the value. -/
def Sees (s : Store) (v : ValueRef) (x : OpRef) : Prop :=
  ∃ a, Within s a x ∧ Offered s v a

/-- The first operation, or one behind it in its block, is or encloses the second one. -/
def Reaches (s : Store) (y x : OpRef) : Prop :=
  ∃ a, Within s a x ∧ (a = y ∨ Precedes s y a)

theorem Offered.sees (h : Offered s v x) : Sees s v x := ⟨x, .refl, h⟩

/-- What an operation sees is seen by everything nested in it. -/
theorem Sees.within (h : Sees s v y) (hw : Within s y x) : Sees s v x := by
  rcases h with ⟨a, ha, hv⟩
  exact ⟨a, ha.trans hw, hv⟩

/-- An operation that sees a result comes after the operation that has it. -/
theorem Sees.reaches (h : Sees s v x) {k : Nat} (hv : s.originOf v = some (.result o k)) :
    ∃ a, Within s a x ∧ Precedes s o a := by
  rcases h with ⟨a, ha, ⟨b, j, bd, hv', _, _⟩ | ⟨o', j, hv', hoa⟩⟩
  · cases hv.symm.trans hv'
  · cases hv.symm.trans hv'
    exact ⟨a, ha, hoa⟩

/-- An operation does not enclose those that see its results. -/
theorem Sees.not_within (hl : Linked s) (h : Sees s v x) {k : Nat}
    (hv : s.originOf v = some (.result o k))
    (hacyclic : ∀ y, Within s y x → ¬ Relation.TransGen (Child s) y y) : ¬ Within s o x := by
  intro hox
  rcases h.reaches hv with ⟨a, ha, hoa⟩
  rcases within_or_within hl hox ha with hw | hw
  · exact hoa.not_within hl (hacyclic o hox) hw
  · exact hoa.not_within_left hl (hacyclic a ha) hw

/-! ## Growing -/

namespace Grows

/-- Order in a block is kept. -/
theorem precedes (h : Grows s t) (hyx : Precedes s y x) : Precedes t y x := by
  rcases hyx with ⟨b, bd, hb, hpair⟩
  rcases h.block? b bd hb with ⟨e, he, hsub⟩
  exact ⟨b, e, he, hpair.trans hsub⟩

/-- What is offered stays offered. -/
theorem offered (h : Grows s t) (hv : Offered s v a) : Offered t v a := by
  rcases hv with ⟨b, k, bd, hv, hb, ha⟩ | ⟨o, k, hv, hoa⟩
  · rcases h.block? b bd hb with ⟨e, he, hsub⟩
    exact .inl ⟨b, k, e, h.originOf v _ hv, he, hsub.subset ha⟩
  · exact .inr ⟨o, k, h.originOf v _ hv, h.precedes hoa⟩

/-- What is seen stays seen. -/
theorem sees (h : Grows s t) (hv : Sees s v x) : Sees t v x := by
  rcases hv with ⟨a, ha, hv⟩
  exact ⟨a, h.nests.within ha, h.offered hv⟩

theorem reaches (h : Grows s t) (hyx : Reaches s y x) : Reaches t y x := by
  rcases hyx with ⟨a, ha, hya⟩
  exact ⟨a, h.nests.within ha, hya.imp_right h.precedes⟩

end Grows

/-! ## Taking operations out of their blocks -/

/-- Some operations were taken out of their blocks. -/
structure Thinned (s : Store) (out : OpRef → Prop) (t : Store) : Prop where
  op? : ∀ x d, s.op? x = some d → ∃ e, t.op? x = some e ∧ e.regions = d.regions
  region? : ∀ r, t.region? r = s.region? r
  block? : ∀ b d, s.block? b = some d → ∃ e, t.block? b = some e ∧ e.ops.Sublist d.ops ∧
    ∀ l : List OpRef, l.Sublist d.ops → (∀ y ∈ l, ¬ out y) → l.Sublist e.ops
  originOf : ∀ v, t.originOf v = s.originOf v

namespace Thinned

variable {out : OpRef → Prop}

/-- What stays is where it was. -/
theorem child (h : Thinned s out t) (hc : Child s p x) (hx : ¬ out x) : Child t p x := by
  rcases hc with ⟨d, hd, r, hr, rd, hrd, b, hb, bd, hbd, hmem⟩
  rcases h.op? p d hd with ⟨e, he, heq⟩
  rcases h.block? b bd hbd with ⟨be, hbe, _, hkeep⟩
  have hx' : [x].Sublist be.ops :=
    hkeep [x] (List.singleton_sublist.2 hmem) (by simpa using hx)
  exact ⟨e, he, r, heq ▸ hr, rd, (h.region? r).trans hrd, b, hb, be, hbe,
    List.singleton_sublist.1 hx'⟩

theorem within (h : Thinned s out t) (hw : Within s a x) (hx : ∀ y, Within s y x → ¬ out y) :
    Within t a x := by
  induction hw with
  | refl => exact .refl
  | tail hw hchild ih =>
    refine (ih fun y hy => hx y (hy.tail hchild)).tail (h.child hchild (hx _ .refl))

theorem precedes (h : Thinned s out t) (hyx : Precedes s y x) (hy : ¬ out y) (hx : ¬ out x) :
    Precedes t y x := by
  rcases hyx with ⟨b, bd, hb, hpair⟩
  rcases h.block? b bd hb with ⟨e, he, _, hkeep⟩
  refine ⟨b, e, he, hkeep [y, x] hpair ?_⟩
  simpa using ⟨hy, hx⟩

/-- What is offered to an operation that stays is lost only if it is a result of what goes. -/
theorem offered (h : Thinned s out t) (hv : Offered s v a) (ha : ¬ out a)
    (hout : ∀ o k, s.originOf v = some (.result o k) → ¬ out o) : Offered t v a := by
  rcases hv with ⟨b, k, bd, hv, hb, hmem⟩ | ⟨o, k, hv, hoa⟩
  · rcases h.block? b bd hb with ⟨e, he, _, hkeep⟩
    have ha' : [a].Sublist e.ops := hkeep [a] (List.singleton_sublist.2 hmem) (by simpa using ha)
    exact .inl ⟨b, k, e, (h.originOf v).trans hv, he, List.singleton_sublist.1 ha'⟩
  · exact .inr ⟨o, k, (h.originOf v).trans hv, h.precedes hoa (hout o k hv) ha⟩

/-- What an operation sees is lost only if it is a result of what goes, or if something goes that
encloses the operation. -/
theorem sees (h : Thinned s out t) (hv : Sees s v x) (hx : ∀ y, Within s y x → ¬ out y)
    (hout : ∀ o k, s.originOf v = some (.result o k) → ¬ out o) : Sees t v x := by
  rcases hv with ⟨a, ha, hv⟩
  exact ⟨a, h.within ha hx, h.offered hv (hx a ha) hout⟩

end Thinned

/-- Taking one operation out of its block thins the store by it. -/
theorem thinned_unlink {d : OpData} (hd : s.op? o = some d) (hb : s.block? b = some bd) :
    Thinned s (· = o) (s.unlink o d b bd) := by
  refine ⟨fun x dx hx => ?_, fun _ => rfl, fun x dx hx => ?_, fun _ => rfl⟩
  · rw [op?_unlink hd]
    by_cases hxo : x = o
    · subst hxo
      cases hd.symm.trans hx
      exact ⟨_, if_pos rfl, rfl⟩
    · exact ⟨dx, (if_neg hxo).trans hx, rfl⟩
  · rw [block?_unlink hb]
    by_cases hxb : x = b
    · subst hxb
      cases hb.symm.trans hx
      refine ⟨_, if_pos rfl, List.filter_sublist, fun l hl hout => ?_⟩
      have hkeep := hl.filter (· != o)
      rwa [List.filter_eq_self.2 (fun y hy => by simpa using hout y hy)] at hkeep
    · exact ⟨dx, (if_neg hxb).trans hx, .refl _, fun l hl _ => hl⟩

/-! ## Putting operations into blocks -/

section Insert

variable {front back : List OpRef} {d : OpData}

/-- What comes after the operation behind a new one comes after the new one. -/
theorem Reaches.inserted (hl : Linked s) (hd : s.op? o = some d) (hb : s.block? b = some bd)
    (hsplit : bd.ops = front ++ y :: back) (h : Reaches s y x) :
    ∃ a, Within (s.attach o d b bd (front ++ o :: y :: back)) a x ∧
      Precedes (s.attach o d b bd (front ++ o :: y :: back)) o a := by
  have hb' : (s.attach o d b bd (front ++ o :: y :: back)).block? b =
      some { bd with ops := front ++ o :: y :: back } := (block?_attach hb _ b).trans (if_pos rfl)
  rcases h with ⟨a, ha, hya⟩
  refine ⟨a, (Grows.attach hd hb hsplit).nests.within ha, b, _, hb', ?_⟩
  have hmem : a ∈ y :: back := by
    rcases hya with rfl | ⟨b', bd', hb'', hpair⟩
    · simp
    · cases hl.block_unique hb'' (left_mem_of_pair hpair) hb (by simp [hsplit])
      cases hb.symm.trans hb''
      have hnd := hl.ops_nodup hb
      rw [hsplit] at hnd hpair
      exact List.mem_cons_of_mem _ (mem_back_of_pair hnd hpair)
  exact (pair_sublist_of_mem (List.mem_singleton_self o) hmem).trans
    (List.sublist_append_right front (o :: y :: back))

end Insert

end AffineRaising.IR
