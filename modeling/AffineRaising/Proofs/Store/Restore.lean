/-
# AffineRaising.Proofs.Store.Restore — going back to an earlier store.

A store restores an earlier one if everything that the earlier one had is there again as it was:
operations, blocks, regions and values with their entries, and the uses of every value in their
order.  What came into being in between may still be in the tables.  Two lemmas lead back: values
that were redirected to fresh ones can be redirected again (`RedirectedAll.undo`), and operations
that came into being can be erased (`RestoredBut.erase`).

Nothing is said of the entries of what came into being: those of erased operations stay in the
tables, which no query looks at without a reference.  That a pattern undoes what it tried is stated
with this relation, and that the undone program is the same program follows from it by way of
`Padded` and `Repeats`.
-/
import AffineRaising.Proofs.Store.Copy

namespace AffineRaising.IR

open Store

variable {s s' t t' : Store} {gone : OpRef → Prop}

/-- Everything that was in `s` is in `t` as it was in `s`. -/
structure Restores (s t : Store) : Prop where
  op? : ∀ x d, s.op? x = some d → t.op? x = some d
  block? : ∀ b d, s.block? b = some d → t.block? b = some d
  region? : ∀ r d, s.region? r = some d → t.region? r = some d
  value? : ∀ v d, s.value? v = some d → t.value? v = some d
  usesOf : ∀ v d, s.value? v = some d → t.usesOf v = s.usesOf v

theorem Restores.refl (s : Store) : Restores s s :=
  ⟨fun _ _ h => h, fun _ _ h => h, fun _ _ h => h, fun _ _ h => h, fun _ _ _ => rfl⟩

theorem Restores.trans (h : Restores s s') (h' : Restores s' t) : Restores s t :=
  ⟨fun x d hd => h'.op? x d (h.op? x d hd), fun b d hd => h'.block? b d (h.block? b d hd),
    fun r d hd => h'.region? r d (h.region? r d hd), fun v d hd => h'.value? v d (h.value? v d hd),
    fun v d hd => (h'.usesOf v d (h.value? v d hd)).trans (h.usesOf v d hd)⟩

/-! ## Redirecting several values -/

/-- What a value is redirected to. -/
def redirected (ps : List (ValueRef × ValueRef)) (v : ValueRef) : ValueRef :=
  (ps.lookup v).getD v

/-- The values of the pairs are all different. -/
structure Apart (ps : List (ValueRef × ValueRef)) : Prop where
  olds : (ps.map Prod.fst).Nodup
  news : (ps.map Prod.snd).Nodup
  disjoint : ∀ v ∈ ps.map Prod.fst, v ∉ ps.map Prod.snd

namespace Apart

variable {ps : List (ValueRef × ValueRef)} {p : ValueRef × ValueRef}

theorem tail (h : Apart (p :: ps)) : Apart ps :=
  ⟨(List.nodup_cons.1 h.olds).2, (List.nodup_cons.1 h.news).2,
    fun v hv hv' => h.disjoint v (List.mem_cons_of_mem _ hv) (List.mem_cons_of_mem _ hv')⟩

/-- Pairs can be turned round. -/
theorem swap (h : Apart ps) : Apart (ps.map Prod.swap) := by
  have hfst : (ps.map Prod.swap).map Prod.fst = ps.map Prod.snd := by simp
  have hsnd : (ps.map Prod.swap).map Prod.snd = ps.map Prod.fst := by simp
  refine ⟨hfst ▸ h.news, hsnd ▸ h.olds, fun v hv hv' => ?_⟩
  rw [hfst] at hv
  rw [hsnd] at hv'
  exact h.disjoint v hv' hv

/-- Lists without repetitions and without a common value pair up. -/
theorem zip {l l' : List ValueRef} (hl : l.Nodup) (hl' : l'.Nodup) (hd : ∀ v ∈ l, v ∉ l') :
    Apart (l.zip l') := by
  have hfst : ((l.zip l').map Prod.fst).Sublist l := by
    rw [List.zip_eq_zip_take_min, List.map_fst_zip (by simp)]
    exact List.take_sublist _ _
  have hsnd : ((l.zip l').map Prod.snd).Sublist l' := by
    rw [List.zip_eq_zip_take_min, List.map_snd_zip (by simp)]
    exact List.take_sublist _ _
  exact ⟨hl.sublist hfst, hl'.sublist hsnd, fun v hv hv' => hd v (hfst.subset hv) (hsnd.subset hv')⟩

theorem redirected_old (h : Apart ps) (hp : p ∈ ps) : redirected ps p.1 = p.2 := by
  induction ps with
  | nil => cases hp
  | cons q ps ih =>
    obtain ⟨a, b⟩ := q
    rcases List.mem_cons.1 hp with rfl | hp
    · simp [redirected]
    · have hmem : p.1 ∈ ps.map Prod.fst := List.mem_map_of_mem hp
      have hne : p.1 ≠ a := fun heq => (List.nodup_cons.1 h.olds).1 (heq ▸ hmem)
      rw [← ih h.tail hp]
      simp [redirected, List.lookup_cons, beq_eq_false_iff_ne.2 hne]

end Apart

/-- A value that is not the first one of a pair stays itself. -/
theorem redirected_other {ps : List (ValueRef × ValueRef)} {v : ValueRef}
    (hv : v ∉ ps.map Prod.fst) : redirected ps v = v := by
  unfold redirected
  cases hlookup : ps.lookup v with
  | none => rfl
  | some w =>
    obtain ⟨front, back, rfl, _⟩ := List.lookup_eq_some_iff.1 hlookup
    simp at hv

theorem redirected_cons {ps : List (ValueRef × ValueRef)} {r c v : ValueRef} (hv : v ≠ r) :
    redirected ((r, c) :: ps) v = redirected ps v := by
  simp [redirected, List.lookup_cons, beq_eq_false_iff_ne.2 hv]

/-- The operands of `x` after the recorded uses of some values went over to others. -/
def redirectedOperands (s : Store) (ps : List (ValueRef × ValueRef)) (x : OpRef)
    (operands : List ValueRef) : List ValueRef :=
  operands.mapIdx fun i w => if ⟨x, i⟩ ∈ s.usesOf w then redirected ps w else w

/-- A slot changes if it is a recorded use of the value in it. -/
theorem getElem?_redirectedOperands (s : Store) (ps : List (ValueRef × ValueRef)) (x : OpRef)
    (operands : List ValueRef) (i : Nat) : (redirectedOperands s ps x operands)[i]? =
      (operands[i]?).map fun w => if ⟨x, i⟩ ∈ s.usesOf w then redirected ps w else w := by
  rw [redirectedOperands, List.getElem?_mapIdx]

/-- The recorded uses of the first values of the pairs went over to the second ones. -/
structure RedirectedAll (s : Store) (ps : List (ValueRef × ValueRef)) (t : Store) : Prop where
  values : t.values = s.values
  blocks : t.blocks = s.blocks
  regions : t.regions = s.regions
  op? : ∀ x, t.op? x =
    (s.op? x).map fun d => { d with operands := redirectedOperands s ps x d.operands }
  usesOf_old : ∀ p ∈ ps, t.usesOf p.1 = []
  usesOf_new : ∀ p ∈ ps, t.usesOf p.2 = s.usesOf p.2 ++ s.usesOf p.1
  usesOf_other : ∀ v, v ∉ ps.map Prod.fst → v ∉ ps.map Prod.snd → t.usesOf v = s.usesOf v

theorem RedirectedAll.nil (s : Store) : RedirectedAll s [] s := by
  refine ⟨rfl, rfl, rfl, fun x => ?_, by simp, by simp, fun _ _ _ => rfl⟩
  cases s.op? x with
  | none => rfl
  | some d =>
    have hid : redirectedOperands s [] x d.operands = d.operands := by
      apply List.ext_getElem?
      intro i
      rw [getElem?_redirectedOperands]
      cases d.operands[i]? <;> simp [redirected]
    rw [Option.map_some, hid]

/-- As the values of the pairs are all different, the uses that the first pair moved stay with it.
-/
theorem RedirectedAll.cons {ps : List (ValueRef × ValueRef)} {r c : ValueRef}
    (ha : Apart ((r, c) :: ps)) (hp : PointsBack s)
    (hfirst : Redirected (s.setUses r []) (s.usesOf r) c s')
    (hrest : RedirectedAll s' ps t) : RedirectedAll s ((r, c) :: ps) t := by
  have hrc : r ≠ c := by
    intro heq
    exact ha.disjoint r (by simp) (by simp [heq])
  have hrfst : r ∉ ps.map Prod.fst := (List.nodup_cons.1 ha.olds).1
  have hcsnd : c ∉ ps.map Prod.snd := (List.nodup_cons.1 ha.news).1
  have hrsnd : r ∉ ps.map Prod.snd := fun h =>
    ha.disjoint r (by simp) (List.mem_cons_of_mem _ h)
  have hcfst : c ∉ ps.map Prod.fst := fun h =>
    ha.disjoint c (List.mem_cons_of_mem _ h) (by simp)
  -- uses after the first pair
  have huses : ∀ v, s'.usesOf v = if v = c then s.usesOf c ++ s.usesOf r
      else if v = r then [] else s.usesOf v := fun v => by
    rw [hfirst.usesOf]
    simp [Ne.symm hrc]
  refine ⟨hrest.values.trans hfirst.values, hrest.blocks.trans hfirst.blocks,
    hrest.regions.trans hfirst.regions, fun x => ?_, fun p hp => ?_, fun p hp => ?_,
    fun v hv hv' => ?_⟩
  · rw [hrest.op?, hfirst.op?, op?_setUses]
    cases hd : s.op? x with
    | none => rfl
    | some d =>
      simp only [Option.map_some, Option.some.injEq, OpData.mk.injEq, true_and, and_true]
      apply List.ext_getElem?
      intro i
      simp only [getElem?_redirectedOperands, List.getElem?_mapIdx]
      cases hw : d.operands[i]? with
      | none => rfl
      | some w =>
        simp only [Option.map_some, Option.some.injEq]
        by_cases hmoved : (⟨x, i⟩ : Use) ∈ s.usesOf r
        · have hwr : w = r := by
            have hslot := hp r ⟨x, i⟩ hmoved
            rw [slot?_eq hd, hw] at hslot
            exact Option.some.inj hslot
          subst hwr
          have hc : (⟨x, i⟩ : Use) ∈ s'.usesOf c := by
            rw [huses, if_pos rfl]
            exact List.mem_append_right _ hmoved
          rw [if_pos hmoved, if_pos hc, redirected_other hcfst, if_pos hmoved]
          exact (ha.redirected_old List.mem_cons_self).symm
        · simp only [hmoved, if_false]
          by_cases hwr : w = r
          · subst hwr
            simp [hmoved, huses, hrc]
          · rw [redirected_cons hwr]
            by_cases hwc : w = c
            · subst hwc
              simp [redirected_other hcfst]
            · rw [huses, if_neg hwc, if_neg hwr]
  · rcases List.mem_cons.1 hp with rfl | hp
    · rw [hrest.usesOf_other r hrfst hrsnd, huses, if_neg hrc, if_pos rfl]
    · exact hrest.usesOf_old p hp
  · rcases List.mem_cons.1 hp with rfl | hp
    · rw [hrest.usesOf_other c hcfst hcsnd, huses, if_pos rfl]
    · have hp1 : p.1 ∈ ps.map Prod.fst := List.mem_map_of_mem hp
      have hp2 : p.2 ∈ ps.map Prod.snd := List.mem_map_of_mem hp
      have h1c : p.1 ≠ c := fun h => hcfst (h ▸ hp1)
      have h1r : p.1 ≠ r := fun h => hrfst (h ▸ hp1)
      have h2c : p.2 ≠ c := fun h => hcsnd (h ▸ hp2)
      have h2r : p.2 ≠ r := fun h => hrsnd (h ▸ hp2)
      rw [hrest.usesOf_new p hp, huses, huses, if_neg h2c, if_neg h2r, if_neg h1c, if_neg h1r]
  · simp only [List.map_cons, List.mem_cons, not_or] at hv hv'
    rw [hrest.usesOf_other v hv.2 hv'.2, huses, if_neg hv'.1, if_neg hv.1]

/-- Replacing the first values of the pairs by the second ones, one pair after the other. -/
theorem forM_replaceAllUses_ok {ps : List (ValueRef × ValueRef)} {u : PUnit} :
    ∀ {s t : Store}, Apart ps → Kept s gone →
      (ps.forM fun p => replaceAllUses p.1 p.2) s = .ok (u, t) →
      RedirectedAll s ps t ∧ Kept t gone := by
  induction ps with
  | nil =>
    intro s t _ hk h
    cases h
    exact ⟨.nil s, hk⟩
  | cons p ps ih =>
    intro s t ha hk h
    obtain ⟨r, c⟩ := p
    rw [List.forM_eq_forM, List.forM_cons, Edit.bind_ok] at h
    obtain ⟨_, s', hfirst, hrest⟩ := h
    rw [← List.forM_eq_forM] at hrest
    obtain ⟨hrest, hkept⟩ := ih ha.tail (hk.replaceAllUses hfirst) hrest
    obtain ⟨heq, _⟩ | ⟨_, hr⟩ := replaceAllUses_ok hfirst
    · have heq : r = c := heq
      exact absurd (by simp [heq]) (ha.disjoint r (by simp))
    · exact ⟨.cons ha hk.uses.pointsBack hr hrest, hkept⟩

/-- Redirecting values that nobody used before back to where the uses came from restores the store,
whatever else came into being in between. -/
theorem RedirectedAll.undo {ps : List (ValueRef × ValueRef)} (ha : Apart ps) (hp : PointsBack s)
    (hfwd : RedirectedAll s ps s') (hunused : ∀ p ∈ ps, s.usesOf p.2 = [])
    (hvalues : ∀ p ∈ ps, (∃ d, s.value? p.1 = some d) ∧ ∃ d, s.value? p.2 = some d)
    (hrestores : Restores s' t) (hback : RedirectedAll t (ps.map Prod.swap) t') :
    Restores s t' := by
  have hvalue : ∀ v, s'.value? v = s.value? v := fun v => by rw [Store.value?, hfwd.values]; rfl
  -- the uses that the store in between has of old values
  have huses : ∀ v d, s.value? v = some d → t.usesOf v = s'.usesOf v := fun v d hd =>
    hrestores.usesOf v d ((hvalue v).trans hd)
  have hfst : ∀ p ∈ ps, t.usesOf p.1 = [] := fun p hp => by
    obtain ⟨⟨d, hd⟩, _⟩ := hvalues p hp
    rw [huses p.1 d hd, hfwd.usesOf_old p hp]
  have hsnd : ∀ p ∈ ps, t.usesOf p.2 = s.usesOf p.1 := fun p hp => by
    obtain ⟨_, d, hd⟩ := hvalues p hp
    rw [huses p.2 d hd, hfwd.usesOf_new p hp, hunused p hp, List.nil_append]
  have hswap : ∀ {p}, p ∈ ps → p.swap ∈ ps.map Prod.swap := fun hp => List.mem_map_of_mem hp
  have hnot : ∀ {v}, v ∉ ps.map Prod.snd → v ∉ (ps.map Prod.swap).map Prod.fst := fun hv => by
    simpa using hv
  refine ⟨fun x d hd => ?_, fun b d hb => ?_, fun r d hr => ?_, fun v d hv => ?_, fun v d hv => ?_⟩
  · have ht : t.op? x = some { d with operands := redirectedOperands s ps x d.operands } :=
      hrestores.op? x _ (by rw [hfwd.op?, hd]; rfl)
    rw [hback.op?, ht, Option.map_some]
    have hoperands : redirectedOperands t (ps.map Prod.swap) x
        (redirectedOperands s ps x d.operands) = d.operands := by
      apply List.ext_getElem?
      intro i
      rw [getElem?_redirectedOperands, getElem?_redirectedOperands]
      cases hw : d.operands[i]? with
      | none => rfl
      | some w =>
        simp only [Option.map_some, Option.some.injEq]
        by_cases hold : w ∈ ps.map Prod.fst
        · obtain ⟨p, hp, rfl⟩ := List.mem_map.1 hold
          by_cases hmoved : (⟨x, i⟩ : Use) ∈ s.usesOf p.1
          · rw [if_pos hmoved, ha.redirected_old hp, hsnd p hp, if_pos hmoved]
            exact ha.swap.redirected_old (hswap hp)
          · rw [if_neg hmoved, hfst p hp]
            simp
        · have hsame : redirected ps w = w := redirected_other hold
          rw [hsame, ite_self]
          by_cases hnew : w ∈ ps.map Prod.snd
          · obtain ⟨p, hp', rfl⟩ := List.mem_map.1 hnew
            -- a slot that holds a new value was no use of an old one
            have hnone : (⟨x, i⟩ : Use) ∉ t.usesOf p.2 := by
              rw [hsnd p hp']
              intro hmem
              have hslot := hp p.1 ⟨x, i⟩ hmem
              rw [slot?_eq hd, hw] at hslot
              exact hold (Option.some.inj hslot ▸ List.mem_map_of_mem hp')
            rw [if_neg hnone]
          · rw [redirected_other (hnot hnew), ite_self]
    rw [hoperands]
  · rw [Store.block?, hback.blocks]
    refine hrestores.block? b d ?_
    rw [Store.block?, hfwd.blocks]
    exact hb
  · rw [Store.region?, hback.regions]
    refine hrestores.region? r d ?_
    rw [Store.region?, hfwd.regions]
    exact hr
  · rw [Store.value?, hback.values]
    exact hrestores.value? v d ((hvalue v).trans hv)
  · by_cases hold : v ∈ ps.map Prod.fst
    · obtain ⟨p, hp, rfl⟩ := List.mem_map.1 hold
      rw [show p.1 = p.swap.2 from rfl, hback.usesOf_new p.swap (hswap hp), Prod.snd_swap,
        Prod.fst_swap, hfst p hp, hsnd p hp, List.nil_append]
    · by_cases hnew : v ∈ ps.map Prod.snd
      · obtain ⟨p, hp, rfl⟩ := List.mem_map.1 hnew
        rw [show p.2 = p.swap.1 from rfl, hback.usesOf_old p.swap (hswap hp), Prod.fst_swap,
          hunused p hp]
      · have hold' : v ∉ (ps.map Prod.swap).map Prod.snd := by simpa using hold
        rw [hback.usesOf_other v (hnot hnew) hold', huses v d hv, hfwd.usesOf_other v hold hnew]

/-- Redirecting and taking an operation out of its block do not meet. -/
theorem RedirectedAll.unlink {ps : List (ValueRef × ValueRef)} (h : RedirectedAll s ps t)
    {o : OpRef} {d e : OpData} {b : BlockRef} {bd : BlockData} (hd : s.op? o = some d)
    (he : t.op? o = some e) (hb : s.block? b = some bd) :
    RedirectedAll (s.unlink o d b bd) ps (t.unlink o e b bd) := by
  have hb' : t.block? b = some bd := by
    rw [Store.block?, h.blocks]
    exact hb
  have hentry : { d with operands := redirectedOperands s ps o d.operands } = e := by
    rw [h.op?, hd] at he
    exact Option.some.inj he
  refine ⟨h.values, ?_, h.regions, fun x => ?_, h.usesOf_old, h.usesOf_new, h.usesOf_other⟩
  · show t.blocks.setIfInBounds _ _ = s.blocks.setIfInBounds _ _
    rw [h.blocks]
  · rw [op?_unlink he, op?_unlink hd]
    by_cases hx : x = o
    · subst hx
      rw [if_pos rfl, if_pos rfl, ← hentry]
      rfl
    · rw [if_neg hx, if_neg hx, h.op?]
      rfl

/-- Operands that are redirected to values are values. -/
theorem RedirectedAll.grounded {ps : List (ValueRef × ValueRef)} (h : RedirectedAll s ps t)
    (hg : Grounded s) (hnews : ∀ p ∈ ps, ∃ d, s.value? p.2 = some d) : Grounded t := by
  intro x d v hd hv
  rw [h.op?] at hd
  obtain ⟨e, he, rfl⟩ := Option.map_eq_some_iff.1 hd
  obtain ⟨i, hi⟩ := List.mem_iff_getElem?.1 hv
  rw [getElem?_redirectedOperands] at hi
  obtain ⟨w, hw, rfl⟩ := Option.map_eq_some_iff.1 hi
  have hold : ∃ a, s.value? w = some a := hg x e w he (List.mem_of_getElem? hw)
  have hnew : ∃ a, s.value? (redirected ps w) = some a := by
    unfold redirected
    cases hlookup : ps.lookup w with
    | none => exact hold
    | some c =>
      obtain ⟨front, back, rfl, _⟩ := List.lookup_eq_some_iff.1 hlookup
      exact hnews (w, c) (by simp)
  rw [Store.value?, h.values]
  split
  · exact hnew
  · exact hold

/-! ## Erasing what is new -/

/-- Apart from the operations in `out`, which are new, `t` has everything as it was in `s`. -/
structure RestoredBut (s : Store) (out : List OpRef) (t : Store) : Prop where
  op? : ∀ x d, s.op? x = some d → t.op? x = some d
  block? : ∀ b d, s.block? b = some d →
    ∃ ops, t.block? b = some { d with ops := ops } ∧ ops.filter (· ∉ out) = d.ops
  region? : ∀ r d, s.region? r = some d → t.region? r = some d
  value? : ∀ v d, s.value? v = some d → t.value? v = some d
  usesOf : ∀ v d, s.value? v = some d → (t.usesOf v).filter (·.user ∉ out) = s.usesOf v
  new : ∀ x ∈ out, s.op? x = none

/-- Erasing what is new leaves the store as it was. -/
theorem RestoredBut.erase {out : List OpRef} (h : RestoredBut s out t) (he : Erased t out t') :
    Restores s t' := by
  refine ⟨fun x d hd => ?_, fun b d hb => ?_, fun r d hr => ?_, fun v d hv => ?_, fun v d hv => ?_⟩
  · have hnot : x ∉ out := fun hx => by
      rw [h.new x hx] at hd
      cases hd
    rw [he.op?_left hnot, h.op? x d hd]
  · obtain ⟨ops, hops, hfilter⟩ := h.block? b d hb
    rw [he.block?, hops]
    simp only [Option.map_some, hfilter]
  · rw [he.region?]
    exact h.region? r d hr
  · rw [he.value?]
    exact h.value? v d hv
  · rw [he.usesOf]
    exact h.usesOf v d hv

/-- Erasing changes no operands. -/
theorem Erased.grounded {out : List OpRef} (h : Erased s out t) (hg : Grounded s) : Grounded t := by
  intro x d v hd hv
  rw [h.op?] at hd
  obtain ⟨e, he, rfl⟩ := Option.map_eq_some_iff.1 hd
  rw [h.value?]
  refine hg x e v he ?_
  split at hv
  · exact hv
  · exact hv

/-- What stands in something new is new, as long as old things keep their places. -/
theorem op?_none_of_child (hs : Linked s) (ht : Linked t)
    (hops : ∀ x d, s.op? x = some d → ∃ e, t.op? x = some e ∧ e.parent = d.parent)
    (hblocks : ∀ b d, s.block? b = some d → ∃ e, t.block? b = some e ∧ e.parent = d.parent)
    (hregions : ∀ r d, s.region? r = some d → t.region? r = some d) {p x : OpRef}
    (hc : Child t p x) (hp : s.op? p = none) : s.op? x = none := by
  obtain ⟨d, hd, r, hr, rd, hrd, b, hb, bd, hbd, hx⟩ := hc
  have hxb : t.opParent x = some (some b) := (ht.ops.mem_iff (by simp [opsIn, hbd]) x).1 hx
  have hbr : t.blockParent b = some (some r) :=
    (ht.blocks.mem_iff (by simp [blocksIn, hrd]) b).1 hb
  have hrp : t.regionParent r = some (some p) :=
    (ht.regions.mem_iff (by simp [regionsIn, hd]) r).1 hr
  cases hsx : s.op? x with
  | none => rfl
  | some dx =>
    -- climb from the operation to its block, the region of the block and the owner of the region
    obtain ⟨ex, hex, hparent⟩ := hops x dx hsx
    have hsxb : s.opParent x = some (some b) := by
      simp only [opParent, hex, Option.map_some, Option.some.injEq] at hxb
      simp [opParent, hsx, ← hparent, hxb]
    obtain ⟨l, hl⟩ := hs.ops.holder hsxb
    obtain ⟨sb, hsb, _⟩ := Option.map_eq_some_iff.1 hl
    obtain ⟨eb, heb, hbparent⟩ := hblocks b sb hsb
    have hsbr : s.blockParent b = some (some r) := by
      simp only [blockParent, heb, Option.map_some, Option.some.injEq] at hbr
      simp [blockParent, hsb, ← hbparent, hbr]
    obtain ⟨l', hl'⟩ := hs.blocks.holder hsbr
    obtain ⟨sr, hsr, _⟩ := Option.map_eq_some_iff.1 hl'
    have hsrp : s.regionParent r = some (some p) := by
      rw [regionParent, hregions r sr hsr] at hrp
      rw [regionParent, hsr]
      exact hrp
    obtain ⟨l'', hl''⟩ := hs.regions.holder hsrp
    rw [regionsIn, hp] at hl''
    cases hl''

end AffineRaising.IR
