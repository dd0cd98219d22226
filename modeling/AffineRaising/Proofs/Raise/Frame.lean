/-
# AffineRaising.Proofs.Raise.Frame — what a promotion meets.

A promotion starts from one operation and moves computations to places in the blocks around it, its
*spine*.  What it meets on the way are arguments of these blocks and results of operations that
stand in them, or stand nowhere any more: such values are rooted.  What is nested in such an
operation refers to rooted values or to values of its own (`InFrame`), so the free operands of what
is met are rooted as well, and so are the results of its copies.  With the sources' ranks for the
copies, every operation still needs only operations of lower ranks: `Framed.hoist`.
-/
import AffineRaising.Proofs.Raise.SavedPlace
import AffineRaising.Proofs.Raise.Termination
import AffineRaising.Proofs.Store.Isomorphic

namespace AffineRaising.IR

open Store AffineRaising.Analysis AffineRaising.Raise

variable {outside : ValueRef → Prop} {s t : Store} {src : Source} {m : Renaming} {o c x y : OpRef}

/-! ## Sources -/

theorem Alike.operand_source {d e : OpData} (h : Alike s src t d e) {w : ValueRef}
    (hw : w ∈ e.operands) : ∃ u ∈ d.operands, Stands s src t u w := by
  obtain ⟨i, hi, rfl⟩ := List.getElem_of_mem hw
  obtain ⟨hlength, hget⟩ := List.forall₂_iff_get.1 h.operands
  exact ⟨d.operands[i], List.getElem_mem _, hget i (hlength.symm ▸ hi) hi⟩

theorem Copied.grows (h : Copied s t) : Grows s t := by
  refine ⟨fun x d hd => ⟨d, h.op? x d hd, rfl⟩, fun r d hd => ⟨d, h.region? r d hd, rfl⟩,
    fun b d hd => ⟨d, h.block? b d hd, .refl _⟩, fun v a ha => ?_⟩
  obtain ⟨d, hd, rfl⟩ := Option.map_eq_some_iff.1 ha
  rw [originOf, h.value? v d hd, Option.map_some]

namespace CopyOf

variable (h : CopyOf outside s o c t src m)

include h

theorem source_old {d : OpData} (hd : s.op? x = some d) : src.op x = x := h.mirrors.old.op x d hd

theorem source_exists {e : OpData} (he : t.op? x = some e) : ∃ d, s.op? (src.op x) = some d := by
  cases hx : s.op? x with
  | some d => exact ⟨d, by rw [h.source_old hx, hx]⟩
  | none =>
    obtain ⟨d, hd, _⟩ := h.mirrors.ops x e hx he
    exact ⟨d, hd⟩

/-- What an operation computes with is there the source of what its source computes with. -/
theorem computesWith (hg : Grounded s) (hn : ComputesWith t x y) :
    ComputesWith s (src.op x) (src.op y) := by
  obtain ⟨e, v, k, he, hv, hk⟩ := hn
  cases hx : s.op? x with
  | some d =>
    cases (h.copied.op? x d hx).symm.trans he
    obtain ⟨a, ha⟩ := hg x e v hx hv
    have hk' : s.originOf v = some (.result y k) := by
      rw [originOf, h.copied.value? v a ha] at hk
      rw [originOf, ha, hk]
    obtain ⟨dy, hdy⟩ := op?_of_result h.linked hk'
    rw [h.source_old hx, h.source_old hdy]
    exact ⟨e, v, k, hx, hv, hk'⟩
  | none =>
    obtain ⟨d, hd, halike⟩ := h.mirrors.ops x e hx he
    obtain ⟨u, hu, a, ha, hua⟩ := halike.operand_source hv
    cases hk.symm.trans ha
    exact ⟨d, u, k, hd, hu, hua⟩

/-- What an operation needs, its source needs: there the source of it. -/
theorem needs (hg : Grounded s) (hn : Needs t x y) : Needs s (src.op x) (src.op y) := by
  rcases hn with hn | hc
  · exact .inl (h.computesWith hg hn)
  · cases hx : s.op? x with
    | some d =>
      have hc' := (h.copied.child_iff h.linked hx).1 hc
      obtain ⟨dy, hdy⟩ := h.linked.op?_of_within ⟨d, hx⟩ (.single hc')
      rw [h.source_old hx, h.source_old hdy]
      exact .inr hc'
    | none => exact .inr (h.child hx hc).2

end CopyOf

end AffineRaising.IR

namespace AffineRaising.Raise

open AffineRaising.IR AffineRaising.IR.Store AffineRaising.Analysis

variable {gone : OpRef → Prop} {J J' : Journal} {s t : Store}

/-! ## Definitions and operands after a hoist -/

namespace Hoisted

variable {o c : OpRef} {p : Point} {b : BlockRef} {before : Option OpRef} {sc si sr : Store}
  (h : Hoisted gone s o p b before c sc si sr t)

include h

theorem originOf_eq (v : ValueRef) : t.originOf v = sc.originOf v := by
  obtain ⟨_, _, _, _, _, _, _, rfl⟩ := h.detached
  obtain ⟨hr, _, _⟩ := h.redirected
  obtain ⟨_, _, _, _, _, _, _, _, _, _, hsi⟩ := insertOp_ok h.placed.insert
  show (sr.values[v.index]?).map _ = (sc.values[v.index]?).map _
  rw [hr.values, hsi]
  rfl

theorem originOf_old {v : ValueRef} {a : Origin} (hv : s.originOf v = some a) :
    t.originOf v = some a := by
  rw [h.originOf_eq, h.placed.cloned.copied.grows.originOf v a hv]

/-- An operand after the hoist was one before it, or stands where a result of the original was and
is a result of the copy. -/
theorem operand_cases {x : OpRef} {e : OpData} (he : t.op? x = some e) {w : ValueRef}
    (hw : w ∈ e.operands) : ∃ e', sc.op? x = some e' ∧ (w ∈ e'.operands ∨
      (∃ v k, v ∈ e'.operands ∧ sc.originOf v = some (.result o k)) ∧
        ∃ k, sc.originOf w = some (.result c k)) := by
  have horigin := h.originOf_eq
  obtain ⟨_, e₀, bd, _, _, he₀, _, ht⟩ := h.detached
  obtain ⟨hr, _, _⟩ := h.redirected
  obtain ⟨d, _, _, _, hd, _, _, _, _, _, hsi⟩ := insertOp_ok h.placed.insert
  have hsr : ∃ e₁, sr.op? x = some e₁ ∧ e.operands = e₁.operands := by
    rw [ht, op?_unlink he₀] at he
    by_cases hx : x = o
    · rw [if_pos hx] at he
      cases he
      exact ⟨e₀, hx ▸ he₀, rfl⟩
    · rw [if_neg hx] at he
      exact ⟨e, he, rfl⟩
  obtain ⟨e₁, he₁, hoperands⟩ := hsr
  rw [hr.op?] at he₁
  obtain ⟨e₂, he₂, rfl⟩ := Option.map_eq_some_iff.1 he₁
  have hsc : ∃ e', sc.op? x = some e' ∧ e₂.operands = e'.operands := by
    rw [hsi, op?_attach hd] at he₂
    by_cases hx : x = c
    · rw [if_pos hx] at he₂
      cases he₂
      exact ⟨d, hx ▸ hd, rfl⟩
    · rw [if_neg hx] at he₂
      exact ⟨e₂, he₂, rfl⟩
  obtain ⟨e', he', hoperands'⟩ := hsc
  refine ⟨e', he', ?_⟩
  rw [hoperands] at hw
  obtain ⟨i, hi⟩ := List.mem_iff_getElem?.1 hw
  rw [getElem?_redirectedOperands] at hi
  obtain ⟨v, hv, hvw⟩ := Option.map_eq_some_iff.1 hi
  have hmem : v ∈ e'.operands := hoperands' ▸ List.mem_of_getElem? hv
  split at hvw
  · have hlinked := h.placed.kept_after.linked
    by_cases hpair : v ∈ (resultPairs si o c).map Prod.fst
    · obtain ⟨q, hq, rfl⟩ := List.mem_map.1 hpair
      rw [(resultPairs_apart hlinked h.source_ne).redirected_old hq] at hvw
      have hsame : ∀ u, si.originOf u = sc.originOf u := fun u => by
        rw [hsi]
        rfl
      obtain ⟨k, hk⟩ := originOf_of_mem_results hlinked (List.of_mem_zip hq).1
      obtain ⟨k', hk'⟩ := originOf_of_mem_results hlinked (List.of_mem_zip hq).2
      rw [hsame] at hk hk'
      exact .inr ⟨⟨q.1, k, hmem, hk⟩, k', hvw ▸ hk'⟩
    · rw [redirected_other hpair] at hvw
      exact .inl (hvw ▸ hmem)
  · exact .inl (hvw ▸ hmem)

/-- What an operation computes with after the hoist, its source computed with before. -/
theorem computesWith {outside : ValueRef → Prop} {src : Source} {m : Renaming} {x y : OpRef}
    (hg : Grounded s) (hcopy : CopyOf outside s o c sc src m) (hn : ComputesWith t x y) :
    ComputesWith s (src.op x) (src.op y) := by
  obtain ⟨e, w, k, he, hw, hk⟩ := hn
  rw [h.originOf_eq] at hk
  obtain ⟨e', he', hw' | ⟨⟨v, j, hv, hj⟩, j', hj'⟩⟩ := h.operand_cases he hw
  · exact hcopy.computesWith hg ⟨e', w, k, he', hw', hk⟩
  · -- the original stood where the copy stands now
    cases hk.symm.trans hj'
    obtain ⟨d, hd, _⟩ := h.entry
    have hsource : src.op o = src.op c := (hcopy.source_old hd).trans hcopy.root.symm
    exact hsource ▸ hcopy.computesWith hg ⟨e', v, j, he', hv, hj⟩

/-- What stays of the operations of a block keeps its order. -/
theorem ops_sublist {b' : BlockRef} {be : BlockData} (hbe : sc.block? b' = some be)
    {l : List OpRef} (hl : l.Sublist be.ops) (hlo : ∀ y ∈ l, y ≠ o) :
    ∃ be', t.block? b' = some be' ∧ l.Sublist be'.ops := by
  have hfilter := h.opsIn_eq b'
  rw [opsIn, opsIn, hbe, Option.map_some, Option.map_some] at hfilter
  obtain ⟨ops, hops, heq⟩ := Option.map_eq_some_iff.1 hfilter
  obtain ⟨be', hbe', rfl⟩ := Option.map_eq_some_iff.1 hops
  -- the copy is in no block yet
  have hlc : ∀ y ∈ l, y ≠ c := by
    rintro y hy rfl
    obtain ⟨cd, hcd, hdetached⟩ := h.placed.cloned.detached
    obtain ⟨cd', hcd', hparent⟩ := h.placed.cloned.kept.linked.op?_of_mem hbe (hl.subset hy)
    cases hcd.symm.trans hcd'
    rw [hdetached] at hparent
    cases hparent
  have hsub : l.Sublist (be.ops.filter fun y => y != c && y != o) := by
    have hself : l.filter (fun y => y != c && y != o) = l := by
      rw [List.filter_eq_self]
      intro y hy
      simp [hlc y hy, hlo y hy]
    rw [← hself]
    exact hl.filter _
  exact ⟨be', hbe', (heq ▸ hsub).trans List.filter_sublist⟩

theorem precedes {x y : OpRef} (hxy : Precedes s x y) (hx : x ≠ o) (hy : y ≠ o) :
    Precedes t x y := by
  obtain ⟨b', bd, hbd, hpair⟩ := hxy
  obtain ⟨be, hbe, hsub⟩ := h.ops_sublist (h.placed.cloned.copied.block? b' bd hbd) hpair
    (by simp [hx, hy])
  exact ⟨b', be, hbe, hsub⟩

/-- What is offered to an operation that stays is still offered, results of the original apart. -/
theorem offered {v : ValueRef} {a : OpRef} (hv : Offered sc v a) (ha : a ≠ o)
    (hout : ∀ k, sc.originOf v ≠ some (.result o k)) : Offered t v a := by
  rcases hv with ⟨b', k, be, hv, hbe, hmem⟩ | ⟨y, k, hv, b', be, hbe, hpair⟩
  · obtain ⟨be', hbe', hsub⟩ := h.ops_sublist hbe (List.singleton_sublist.2 hmem)
      (by simpa using ha)
    exact .inl ⟨b', k, be', by rw [h.originOf_eq, hv], hbe', List.singleton_sublist.1 hsub⟩
  · have hy : y ≠ o := by
      rintro rfl
      exact hout k hv
    obtain ⟨be', hbe', hsub⟩ := h.ops_sublist hbe hpair (by simp [hy, ha])
    exact .inr ⟨y, k, by rw [h.originOf_eq, hv], b', be', hbe', hsub⟩

theorem sized {m : Renaming} (hs : Sized s) (hclone : cloneOp [] o s = .ok ((c, m), sc)) :
    Sized t := by
  have hplaced : Sized si :=
    (Sized.copyStepsKeep.cloneOp [] o s _ sc hs hclone).insertOp h.placed.insert
  have hredirected : Sized sr := (SameSizes.redirectedAll h.redirected.1).sized hplaced
  exact (SameSizes.detach h.detach).sized hredirected

end Hoisted

/-! ## Frames -/

section Frame

variable (spine : BlockRef → Prop)

/-- The operation stands in a block of the spine, or nowhere. -/
def Seated (s : Store) (x : OpRef) : Prop :=
  ∃ d, s.op? x = some d ∧ ∀ b, d.parent = some b → spine b

/-- The value is an argument of a block of the spine or a result of a seated operation. -/
def Rooted (s : Store) (v : ValueRef) : Prop :=
  (∃ b k, s.originOf v = some (.argument b k) ∧ spine b) ∨
    ∃ x k, s.originOf v = some (.result x k) ∧ Seated spine s x

/-- The operation and what is nested in it refer to rooted values and to values of their own. -/
def InFrame (s : Store) (x : OpRef) : Prop :=
  ∀ z d v, Within s x z → s.op? z = some d → v ∈ d.operands →
    Rooted spine s v ∨ SeenInside s x z v

/-- A promotion whose operation is of rank `top` can go on from here: what it may meet is of no
higher rank, and what holds the places to which it may move something is of a higher one. -/
structure Framed (top : Nat) (rank : OpRef → Nat) (s : Store) : Prop where
  consistent : Consistent s
  acyclic : Acyclic s
  sized : Sized s
  ranks : RanksUpTo s top rank
  blocks : ∀ b, spine b → ∃ bd, s.block? b = some bd
  above : ∀ q b, spine b → Holds s q b → top < rank q
  inside : ∀ x, Seated spine s x → rank x ≤ top → InFrame spine s x

/-- What was there before is there after: with its rank and its definition, and seated if it
was. -/
structure Carried (rank rank' : OpRef → Nat) (s t : Store) : Prop where
  rank : ∀ x d, s.op? x = some d → rank' x = rank x
  seated : ∀ x, Seated spine s x → Seated spine t x
  op? : ∀ x d, s.op? x = some d → ∃ e, t.op? x = some e
  originOf : ∀ v a, s.originOf v = some a → t.originOf v = some a

end Frame

variable {spine : BlockRef → Prop} {top : Nat} {rank rank' rank'' : OpRef → Nat}

namespace Carried

theorem refl (spine : BlockRef → Prop) (rank : OpRef → Nat) (s : Store) :
    Carried spine rank rank s s :=
  ⟨fun _ _ _ => rfl, fun _ h => h, fun _ d hd => ⟨d, hd⟩, fun _ _ h => h⟩

variable {s₁ : Store}

theorem trans (h : Carried spine rank rank' s s₁) (h' : Carried spine rank' rank'' s₁ t) :
    Carried spine rank rank'' s t := by
  refine ⟨fun x d hd => ?_, fun x hx => h'.seated x (h.seated x hx), fun x d hd => ?_,
    fun v a ha => h'.originOf v a (h.originOf v a ha)⟩
  · obtain ⟨e, he⟩ := h.op? x d hd
    rw [h'.rank x e he, h.rank x d hd]
  · obtain ⟨e, he⟩ := h.op? x d hd
    exact h'.op? x e he

theorem rooted (h : Carried spine rank rank' s t) {v : ValueRef} (hv : Rooted spine s v) :
    Rooted spine t v := by
  rcases hv with ⟨b, k, hv, hb⟩ | ⟨x, k, hv, hx⟩
  · exact .inl ⟨b, k, h.originOf v _ hv, hb⟩
  · exact .inr ⟨x, k, h.originOf v _ hv, h.seated x hx⟩

theorem valueRank (h : Carried spine rank rank' s t) {v : ValueRef} (hv : Rooted spine s v) :
    valueRank t rank' v = valueRank s rank v := by
  rcases hv with ⟨b, k, hv, _⟩ | ⟨x, k, hv, d, hd, _⟩
  · rw [Raise.valueRank, Raise.valueRank, hv, h.originOf v _ hv]
  · rw [Raise.valueRank, Raise.valueRank, hv, h.originOf v _ hv]
    exact h.rank x d hd

end Carried

theorem depthBound_le (h : ∀ x d, s.op? x = some d → ∃ e, t.op? x = some e) :
    s.depthBound ≤ t.depthBound := by
  refine Nat.succ_le_succ (Nat.le_of_not_lt fun hlt => ?_)
  obtain ⟨e, he⟩ := h ⟨t.ops.size⟩ s.ops[t.ops.size] (Array.getElem?_eq_getElem hlt)
  simp [Store.op?] at he

theorem Framed.apart (h : Framed spine top rank s) {x q : OpRef} {b : BlockRef}
    (hrank : rank x ≤ top) (hw : Within s x q) (hb : spine b) : ¬ Holds s q b := by
  intro hq
  exact absurd (h.above q b hb hq) (Nat.not_lt.2 (Nat.le_trans (h.ranks.within_le hrank hw) hrank))

/-! ## Hoisting within a frame -/

section Hoist

variable {o c : OpRef} {p : Point} {b : BlockRef} {before : Option OpRef} {sc si sr : Store}
  {src : Source} {m : Renaming} (hf : Framed spine top rank s)
  (h : Hoisted gone s o p b before c sc si sr t) (hcopy : CopyOf (Rooted spine s) s o c sc src m)
  (hspine : spine p.block) (hseated : Seated spine s o) (hrank : rank o ≤ top)

include h

theorem Hoisted.seated_old {x : OpRef} (hx : Seated spine s x) : Seated spine t x := by
  obtain ⟨d, hd, hparent⟩ := hx
  obtain ⟨e, he, _, _, heq⟩ := h.op? hd
  refine ⟨e, he, fun b' hb' => ?_⟩
  rw [heq] at hb'
  split at hb'
  · cases hb'
  · exact hparent b' hb'

include hspine in
theorem Hoisted.seated_copy : Seated spine t c := by
  obtain ⟨cd, hcd, _⟩ := h.placed.cloned.detached
  obtain ⟨e, he, _⟩ := h.fixed_of_op? hcd
  refine ⟨e, he, fun b' hb' => ?_⟩
  obtain ⟨be, hbe, hmem⟩ := h.kept_after.linked.mem_of_parent he hb'
  rw [h.copy_block hbe hmem]
  exact hspine

theorem Hoisted.rooted_old {v : ValueRef} (hv : Rooted spine s v) : Rooted spine t v := by
  rcases hv with ⟨b', k, hv, hb⟩ | ⟨x, k, hv, hx⟩
  · exact .inl ⟨b', k, h.originOf_old hv, hb⟩
  · exact .inr ⟨x, k, h.originOf_old hv, h.seated_old hx⟩

include hf in
/-- What is nested in something that is met was nested there before. -/
theorem Hoisted.within_old (hspine : spine p.block) {x z : OpRef} {d : OpData}
    (hd : s.op? x = some d) (hx : rank x ≤ top) (hw : Within t x z) :
    Within s x z ∧ (z = x ∨ z ≠ o) := by
  induction hw with
  | refl => exact ⟨.refl, .inl rfl⟩
  | @tail q z _ hc ih =>
    obtain ⟨hw, _⟩ := ih
    obtain ⟨dq, hdq⟩ := h.placed.kept.linked.op?_of_within ⟨d, hd⟩ hw
    rcases h.child_old hdq hc with rfl | ⟨hzo, hc'⟩
    · exact absurd (h.holds_of_child (hf.blocks _ hspine) hc) (hf.apart hx hw hspine)
    · exact ⟨hw.tail hc', .inr hzo⟩

include hf in
/-- What lies between something that is met and something nested in it still does. -/
theorem Hoisted.between_old (hspine : spine p.block) {x a z : OpRef} {d : OpData}
    (hd : s.op? x = some d) (hx : rank x ≤ top) (hw : Within t x z) (hxa : Within s x a)
    (haz : Within s a z) : Within t x a ∧ Within t a z := by
  have hlinked := h.placed.kept.linked
  induction hw with
  | refl =>
    rcases Relation.reflTransGen_iff_eq_or_transGen.1 hxa with rfl | hxa
    · exact ⟨.refl, .refl⟩
    · exact absurd (hxa.trans_left haz) (hf.acyclic x)
  | @tail q z hq hc ih =>
    rcases Relation.ReflTransGen.cases_tail haz with rfl | ⟨q', hq', hc'⟩
    · exact ⟨hq.tail hc, .refl⟩
    · obtain ⟨hw, _⟩ := h.within_old hf hspine hd hx hq
      obtain ⟨dq, hdq⟩ := hlinked.op?_of_within ⟨d, hd⟩ hw
      rcases h.child_old hdq hc with rfl | ⟨_, hc''⟩
      · exact absurd (h.holds_of_child (hf.blocks _ hspine) hc) (hf.apart hx hw hspine)
      · cases hc'.unique hlinked hc''
        obtain ⟨hxa, haq⟩ := ih hq'
        exact ⟨hxa, haq.tail hc⟩

include hf in
theorem Hoisted.seenInside_old (hspine : spine p.block) {x z : OpRef} {d : OpData}
    (hd : s.op? x = some d) (hx : rank x ≤ top) (hw : Within t x z) {v : ValueRef}
    (hv : SeenInside s x z v) (hout : ∀ k, t.originOf v ≠ some (.result o k)) :
    SeenInside t x z v := by
  obtain ⟨a, hxa, haz, hoffered⟩ := hv
  obtain ⟨hxa', haz'⟩ := h.between_old hf hspine hd hx hw hxa.to_reflTransGen haz
  have hne : a ≠ x := by
    rintro rfl
    exact hf.acyclic a hxa
  have hao : a ≠ o := ((h.within_old hf hspine hd hx hxa').2.resolve_left hne)
  refine ⟨a, (Relation.reflTransGen_iff_eq_or_transGen.1 hxa').resolve_left hne, haz', ?_⟩
  refine h.offered (h.placed.cloned.copied.grows.offered hoffered) hao fun k => ?_
  rw [← h.originOf_eq]
  exact hout k

include hf hspine hseated in
/-- The operands of what is met are rooted or its own, as before. -/
theorem Hoisted.inFrame_old {x : OpRef} (hx : Seated spine s x) (hxrank : rank x ≤ top) :
    InFrame spine t x := by
  intro z e w hw he hwmem
  obtain ⟨dx, hdx, _⟩ := id hx
  obtain ⟨hws, _⟩ := h.within_old hf hspine hdx hxrank hw
  obtain ⟨d, hd⟩ := h.placed.kept.linked.op?_of_within ⟨dx, hdx⟩ hws
  obtain ⟨e', he', hcases⟩ := h.operand_cases he hwmem
  cases (h.placed.cloned.copied.op? z d hd).symm.trans he'
  rcases hcases with hwmem' | ⟨_, k, hk⟩
  · rcases hf.inside x hx hxrank z d w hws hd hwmem' with hroot | hseen
    · exact .inl (h.rooted_old hroot)
    · by_cases hout : ∃ k, t.originOf w = some (.result o k)
      · obtain ⟨k, hk⟩ := hout
        exact .inl (.inr ⟨o, k, hk, h.seated_old hseated⟩)
      · exact .inr (h.seenInside_old hf hspine hdx hxrank hw hseen fun k hk => hout ⟨k, hk⟩)
  · exact .inl (.inr ⟨c, k, by rw [h.originOf_eq, hk], h.seated_copy hspine⟩)

include hcopy

/-- What is nested in the copy was nested in it before it was placed. -/
theorem Hoisted.within_copy (hp : ∃ bd, s.block? p.block = some bd) {z : OpRef}
    (hw : Within t c z) : Within sc c z := by
  induction hw with
  | refl => exact .refl
  | @tail q z _ hc ih =>
    rcases h.child_cases hc with rfl | ⟨_, hc'⟩
    · obtain ⟨d, hd, _⟩ := h.holds_of_child hp hc
      rw [(hcopy.within hcopy.new ih).1] at hd
      cases hd
    · exact ih.tail hc'

theorem Hoisted.child_new {q z : OpRef} (hq : s.op? q = none) (hc : Child sc q z) :
    Child t q z := by
  refine h.child_of hc ?_
  rintro rfl
  obtain ⟨d, hd, _⟩ := h.entry
  rw [(hcopy.child hq hc).1] at hd
  cases hd

theorem Hoisted.seenInside_copy {z : OpRef} {w : ValueRef} (hw : SeenInside sc c z w)
    (hout : ∀ k, t.originOf w ≠ some (.result o k)) : SeenInside t c z w := by
  have hlift : ∀ {q z : OpRef}, s.op? q = none → Within sc q z → Within t q z := by
    intro q z hq hw
    induction hw with
    | refl => exact .refl
    | tail hw hc ih => exact ih.tail (h.child_new hcopy (hcopy.within hq hw).1 hc)
  obtain ⟨a, hca, haz, hoffered⟩ := hw
  obtain ⟨q, hcq, hqa⟩ := Relation.TransGen.tail'_iff.1 hca
  obtain ⟨hqnew, _⟩ := hcopy.within hcopy.new hcq
  obtain ⟨hanew, _⟩ := hcopy.child hqnew hqa
  refine ⟨a, .tail' (hlift hcopy.new hcq) (h.child_new hcopy hqnew hqa), hlift hanew haz, ?_⟩
  refine h.offered hoffered ?_ fun k => ?_
  · rintro rfl
    obtain ⟨d, hd, _⟩ := h.entry
    rw [hanew] at hd
    cases hd
  · rw [← h.originOf_eq]
    exact hout k

include hf

/-- What is seated after the hoist is the copy or was seated before. -/
theorem Hoisted.seated_cases (hseated : Seated spine s o) {x : OpRef} (hx : Seated spine t x) :
    x = c ∨ Seated spine s x := by
  obtain ⟨e, he, hparent⟩ := hx
  cases hsx : s.op? x with
  | some d =>
    right
    by_cases hxo : x = o
    · rw [hxo]
      exact hseated
    · obtain ⟨e', he', _, _, heq⟩ := h.op? hsx
      cases he.symm.trans he'
      rw [if_neg hxo] at heq
      exact ⟨d, hsx, fun b' hb' => hparent b' (heq.trans hb')⟩
  | none =>
    left
    obtain ⟨e', he', _⟩ := h.op?_of_fixed he
    rcases Relation.ReflTransGen.cases_tail (hcopy.within_new he' hsx) with heq | ⟨q, hq, hc⟩
    · exact heq
    · -- the block of anything else that is new is new
      obtain ⟨hqnew, _⟩ := hcopy.within hcopy.new hq
      obtain ⟨b', be, hholds, hbe, hmem⟩ := child_iff.1 (h.child_new hcopy hqnew hc)
      obtain ⟨e'', he'', hb'⟩ := h.kept_after.linked.op?_of_mem hbe hmem
      cases he.symm.trans he''
      obtain ⟨bd, hbd⟩ := hf.blocks b' (hparent b' hb')
      obtain ⟨d, hd, _⟩ := h.holds_old hbd hholds
      rw [hqnew] at hd
      cases hd

include hrank

/-- A new value that stands for a rooted one is a result of the copy. -/
theorem Hoisted.stands_rooted {u w : ValueRef} (hw : s.value? w = none)
    (hstands : Stands s src sc u w) (hu : Rooted spine s u) :
    ∃ k, sc.originOf w = some (.result c k) := by
  obtain ⟨a, ha, hua⟩ := hstands
  obtain ⟨hresult, hargument⟩ := hcopy.origin_new hw
  have hsource : ∀ {q}, s.op? q = none → Within sc c q → Within s o (src.op q) := by
    intro q _ hq
    have := (hcopy.within hcopy.new hq).2
    rwa [hcopy.root] at this
  cases a with
  | result y k =>
    obtain ⟨_, _, hu, _⟩ | ⟨x, _, hu, d, hd, hparent⟩ := hu
    · cases hua.symm.trans hu
    cases hua.symm.trans hu
    obtain ⟨e, he⟩ := op?_of_result hcopy.linked_after ha
    rcases Relation.ReflTransGen.cases_tail (hcopy.within_new he (hresult y k ha)) with
      rfl | ⟨q, hq, hc⟩
    · exact ⟨k, ha⟩
    · -- what is properly inside the original stands in none of the blocks around
      obtain ⟨hqnew, _⟩ := hcopy.within hcopy.new hq
      obtain ⟨b', bd, hholds, hbd, hmem⟩ := child_iff.1 (hcopy.child hqnew hc).2
      obtain ⟨d', hd', hb'⟩ := hcopy.linked.op?_of_mem hbd hmem
      cases hd.symm.trans hd'
      exact absurd hholds (hf.apart hrank (hsource hqnew hq) (hparent b' hb'))
  | argument b' k =>
    obtain ⟨b'', _, hu, hb''⟩ | ⟨_, _, hu, _⟩ := hu
    · cases hua.symm.trans hu
      obtain ⟨be, hbe⟩ := block?_of_argument hcopy.linked_after ha
      obtain ⟨q, hqnew, hholds⟩ := hcopy.holder hbe (hargument b' k ha)
      obtain ⟨e, he, _⟩ := id hholds
      exact absurd (hcopy.holds hqnew hholds).2
        (hf.apart hrank (hsource hqnew (hcopy.within_new he hqnew)) hb'')
    · cases hua.symm.trans hu

include hspine hseated

/-- The operands of the copy are rooted or its own. -/
theorem Hoisted.inFrame_copy : InFrame spine t c := by
  intro z e w hw he hwmem
  have hw' := h.within_copy hcopy (hf.blocks _ hspine) hw
  obtain ⟨hznew, hwithin⟩ := hcopy.within hcopy.new hw'
  rw [hcopy.root] at hwithin
  have hcopied : ∀ {k}, sc.originOf w = some (.result c k) → Rooted spine t w := fun {k} hk =>
    .inr ⟨c, k, by rw [h.originOf_eq, hk], h.seated_copy hspine⟩
  obtain ⟨e', he', hwmem' | ⟨_, k, hk⟩⟩ := h.operand_cases he hwmem
  · by_cases hout : ∃ k, t.originOf w = some (.result o k)
    · obtain ⟨k, hk⟩ := hout
      exact .inl (.inr ⟨o, k, hk, h.seated_old hseated⟩)
    rcases hcopy.built.operands z e' w he' hznew hwmem' with hroot | ⟨hwnew, _⟩
    · exact .inl (h.rooted_old hroot)
    · obtain ⟨d, hd, halike⟩ := hcopy.mirrors.ops z e' hznew he'
      obtain ⟨u, hu, hstands⟩ := halike.operand_source hwmem'
      rcases hf.inside o hseated hrank (src.op z) d u hwithin hd hu with hroot | hseen
      · obtain ⟨k, hk⟩ := h.stands_rooted hf hcopy hrank hwnew hstands hroot
        exact .inl (hcopied hk)
      · exact .inr (h.seenInside_copy hcopy (hcopy.seenInside hw' hwnew hstands hseen)
          fun k hk => hout ⟨k, hk⟩)
  · exact .inl (hcopied hk)

omit hspine hseated in
/-- With the ranks of the sources, every operation needs only operations of lower ranks. -/
theorem Hoisted.ranks (hspine : spine p.block) : RanksUpTo t top fun x => rank (src.op x) where
  pos x e he := by
    obtain ⟨e', he', _⟩ := h.op?_of_fixed he
    obtain ⟨d, hd⟩ := hcopy.source_exists he'
    exact hf.ranks.pos _ d hd
  falls x y hx hn := by
    rcases hn with hn | hc
    · exact hf.ranks.falls _ _ hx (.inl (h.computesWith hf.consistent.grounded hcopy hn))
    · rcases h.child_cases hc with rfl | ⟨_, hc'⟩
      · have hholds := h.holds_of_child (hf.blocks _ hspine) hc
        obtain ⟨d, hd, _⟩ := id hholds
        rw [hcopy.root, hcopy.source_old hd]
        exact Nat.lt_of_le_of_lt hrank (hf.above x _ hspine hholds)
      · exact hf.ranks.falls _ _ hx (hcopy.needs hf.consistent.grounded (.inr hc'))
  bound := by
    refine Nat.lt_of_lt_of_le hf.ranks.bound (depthBound_le fun y d hd => ?_)
    obtain ⟨e, he, _⟩ := h.op? hd
    exact ⟨e, he⟩

end Hoist

/-- A hoist of something that is met keeps the frame, and only the copy becomes seated. -/
theorem Framed.hoist (hf : Framed spine top rank s) {o c : OpRef} {p : Point}
    (hspine : spine p.block) (hseated : Seated spine s o) (hrank : rank o ≤ top)
    (hrun : Raise.hoist o p J s = .ok ((some c, J'), t)) :
    ∃ rank', Framed spine top rank' t ∧ Carried spine rank rank' s t ∧ Seated spine t c ∧
      rank' c = rank o ∧ ∀ x, Seated spine t x → x = c ∨ Seated spine s x := by
  obtain ⟨⟨gone, hk⟩, hg⟩ := hf.consistent
  obtain ⟨b, before, sc, si, sr, m, h, hclone, _⟩ := hoist_hoisted hk hg hrun
  obtain ⟨d, hd, _⟩ := h.entry
  obtain ⟨src, hcopy⟩ := cloneOp_copyOf hk (hg.groundedIn hd) hf.acyclic hf.sized
    (fun z e v hw he hv => (hf.inside o hseated hrank z e v hw he hv).imp_right .inr) hclone
  have hsource : ∀ {x d}, s.op? x = some d → src.op x = x := hcopy.source_old
  have hstep : HoistStep (J, s) (J', t) := ⟨o, p, c, hf.blocks p.block hspine, hrun⟩
  refine ⟨fun x => rank (src.op x), ⟨h.consistent, ?_, h.sized hf.sized hclone,
    h.ranks hf hcopy hrank hspine, fun b' hb' => ?_, fun q b' hb' hq => ?_, fun x hx hxrank => ?_⟩,
    ⟨fun x d hd => ?_, fun x hx => h.seated_old hx, fun x d hd => ?_,
      fun v a ha => h.originOf_old ha⟩, h.seated_copy hspine, congrArg rank hcopy.root,
    fun x hx => h.seated_cases hf hcopy hseated hx⟩
  · exact h.acyclic (hf.blocks _ hspine) hclone hf.acyclic
  · obtain ⟨bd, hbd⟩ := hf.blocks b' hb'
    exact hstep.block? hbd
  · obtain ⟨bd, hbd⟩ := hf.blocks b' hb'
    have hq := h.holds_old hbd hq
    obtain ⟨dq, hdq, _⟩ := id hq
    rw [hsource hdq]
    exact hf.above q b' hb' hq
  · rcases h.seated_cases hf hcopy hseated hx with rfl | hx
    · exact h.inFrame_copy hf hcopy hspine hseated hrank
    · obtain ⟨dx, hdx, _⟩ := id hx
      rw [hsource hdx] at hxrank
      exact h.inFrame_old hf hspine hseated hx hxrank
  · rw [hsource hd]
  · obtain ⟨e, he, _⟩ := h.op? hd
    exact ⟨e, he⟩

end AffineRaising.Raise
