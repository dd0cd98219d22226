/-
# AffineRaising.Proofs.Raise.Anchor — hoists into the body of a function.

A hoist to a place in front of an anchor takes an operation out of a loop and leaves the bodies of
functions as they were, but for the copy.  Operations that stay keep what is nested in them, and
their free operands, except that results of the copy stand for those of the original.  So the
anchors stay in place, the places in front of them stay there too, and whatever could be lifted
still can, unless it was a result of what was moved (`Staged.hoist`).
-/
import AffineRaising.Proofs.Raise.Lifting

namespace AffineRaising.Raise

open AffineRaising.IR AffineRaising.IR.Store AffineRaising.Ops AffineRaising.Analysis

variable {J J' : Journal} {s t : Store} {v u w : ValueRef} {x y z : OpRef} {b' : BlockRef}
  {spine : BlockRef → Prop} {anchor : OpRef → Prop} {top : Nat} {rank rank' rank'' : OpRef → Nat}

/-! ## Operations that stay -/

namespace Hoisted

variable {gone : OpRef → Prop} {o c : OpRef} {p : Point} {b : BlockRef} {before : Option OpRef}
  {sc si sr : Store} (h : Hoisted gone s o p b before c sc si sr t)

include h

theorem holds_of (hx : Holds s x b') : Holds t x b' := by
  have hcopied := h.placed.cloned.copied
  obtain ⟨d, hd, r, hr, rd, hrd, hb⟩ := hx
  obtain ⟨e, he, hfixed⟩ := h.fixed_of_op? (hcopied.op? x d hd)
  have hregions : e.regions = d.regions := congrArg (·.regions) hfixed
  exact ⟨e, he, r, hregions ▸ hr, rd, by rw [h.region?_eq, hcopied.region? r rd hrd], hb⟩

/-- What is nested in an operation stays there if the original is not on the way to it. -/
theorem within_of (hw : Within s x z)
    (hpath : ∀ y, Relation.TransGen (Child s) x y → Within s y z → y ≠ o) : Within t x z := by
  induction hw with
  | refl => exact .refl
  | @tail q z hw hc ih =>
    obtain ⟨d, hd⟩ := op?_of_child hc
    have hc' := (h.placed.cloned.copied.child_iff h.placed.kept.linked hd).2 hc
    exact (ih fun y hxy hyq => hpath y hxy (hyq.tail hc)).tail
      (h.child_of hc' (hpath z (.tail' hw hc) .refl))

theorem inFunction_iff {bd : BlockData} (hb : s.block? b' = some bd) :
    InFunction t b' ↔ InFunction s b' := by
  have hcopied := h.placed.cloned.copied
  constructor
  · rintro ⟨q, e, hq, he, hname⟩
    have hq := h.holds_old hb hq
    obtain ⟨d, hd, _⟩ := id hq
    exact ⟨q, d, hq, hd, by rwa [← h.name_eq he (hcopied.op? q d hd)]⟩
  · rintro ⟨q, d, hq, hd, hname⟩
    obtain ⟨e, he, _⟩ := h.op? hd
    exact ⟨q, e, h.holds_of hq, he, by rwa [h.name_eq he (hcopied.op? q d hd)]⟩

theorem outside_iff {d : OpData} (hd : s.op? x = some d) (hx : x ≠ o) :
    Outside t x ↔ Outside s x := by
  obtain ⟨e, he, _, _, hparent⟩ := h.op? hd
  rw [if_neg hx] at hparent
  have hblock : ∀ {b'}, d.parent = some b' → (InFunction t b' ↔ InFunction s b') := by
    intro b' hb'
    obtain ⟨bd, hbd, _⟩ := h.placed.kept.linked.mem_of_parent hd hb'
    exact h.inFunction_iff hbd
  constructor
  · rintro ⟨e', b', he', hb', hout⟩
    cases he.symm.trans he'
    rw [hparent] at hb'
    exact ⟨d, b', hd, hb', fun hin => hout ((hblock hb').2 hin)⟩
  · rintro ⟨d', b', hd', hb', hout⟩
    cases hd.symm.trans hd'
    exact ⟨e, b', he, hparent.trans hb', fun hin => hout ((hblock hb').1 hin)⟩

theorem copy_parent {e : OpData} (he : t.op? c = some e) (hb' : e.parent = some b') :
    b' = p.block := by
  obtain ⟨be, hbe, hmem⟩ := h.kept_after.linked.mem_of_parent he hb'
  exact h.copy_block hbe hmem

/-- The operation in front of which the copy is put is in the block, and the copy precedes it and
what it precedes. -/
theorem precedes_copy {bd : BlockData} (hbd : s.block? p.block = some bd)
    (hy : p.before = some y) : y ∈ bd.ops ∧ ∀ a, a ≠ o → (a = y ∨ Precedes s y a) →
      Precedes t c a := by
  have hlinked := h.placed.kept.linked
  obtain ⟨_, e, be, _, _, he, hbe, rfl⟩ := h.detached
  obtain ⟨hr, _, _⟩ := h.redirected
  obtain ⟨_, bd', front, back, _, _, hbd', hops, hhead, _, hsi⟩ := insertOp_ok h.placed.insert
  cases (h.placed.cloned.copied.block? p.block bd hbd).symm.trans hbd'
  obtain ⟨back', rfl⟩ := List.head?_eq_some_iff.1 (hhead.trans hy)
  have hmem : y ∈ bd.ops := by simp [hops]
  refine ⟨hmem, fun a ha hya => ?_⟩
  have hback : a ∈ y :: back' := by
    rcases hya with rfl | ⟨b'', bd'', hbd'', hpair⟩
    · exact List.mem_cons_self
    · cases hlinked.block_unique hbd hmem hbd'' (left_mem_of_pair hpair)
      cases hbd.symm.trans hbd''
      rw [hops] at hpair
      exact List.mem_cons_of_mem y (mem_back_of_pair (hops ▸ hlinked.ops_nodup hbd) hpair)
  have hblock : ∀ b', sr.block? b' = si.block? b' := fun b' => by
    rw [Store.block?, hr.blocks]
    rfl
  have hplaced : Precedes sr c a := by
    refine ⟨p.block, { bd with ops := front ++ c :: y :: back' }, ?_, ?_⟩
    · rw [hblock, hsi, block?_attach hbd', if_pos rfl]
    · exact (List.cons_sublist_cons.2 (List.singleton_sublist.2 hback)).trans
        (List.sublist_append_right front _)
  exact (thinned_unlink he ((hblock b).trans hbe)).precedes hplaced h.source_ne.symm ha

/-- Values that are not results of the original keep their homes. -/
theorem lives_iff {a : Origin} (hv : s.originOf v = some a) (hout : ∀ k, a ≠ .result o k) :
    Lives t v b' ↔ Lives s v b' := by
  have hv' := h.originOf_old hv
  cases a with
  | argument b'' k =>
    simp [Lives, hv, hv']
  | result y k =>
    have hy : y ≠ o := fun heq => hout k (heq ▸ rfl)
    obtain ⟨d, hd⟩ := op?_of_result h.placed.kept.linked hv
    obtain ⟨e, he, _, _, hparent⟩ := h.op? hd
    rw [if_neg hy] at hparent
    constructor
    · rintro (⟨_, hv''⟩ | ⟨y', _, e', hv'', he', hb'⟩)
      · cases hv'.symm.trans hv''
      · cases hv'.symm.trans hv''
        cases he.symm.trans he'
        exact .inr ⟨y, k, d, hv, hd, hparent.symm.trans hb'⟩
    · rintro (⟨_, hv''⟩ | ⟨y', _, d', hv'', hd', hb'⟩)
      · cases hv.symm.trans hv''
      · cases hv.symm.trans hv''
        cases hd.symm.trans hd'
        exact .inr ⟨y, k, e, hv', he, hparent.trans hb'⟩

/-! ## Operands -/

/-- An operand stays, or a result of the copy takes its place. -/
theorem operand_of {d : OpData} (hd : s.op? x = some d) (hv : v ∈ d.operands) :
    ∃ e, t.op? x = some e ∧
      ∃ w ∈ e.operands, w = v ∨ ∃ k, t.originOf w = some (.result c k) := by
  obtain ⟨i, hi⟩ := List.mem_iff_getElem?.1 hv
  have hslot := getElem?_redirectedOperands si (resultPairs si o c) x d.operands i
  rw [hi, Option.map_some] at hslot
  refine ⟨_, h.entry_after hd, _, List.mem_of_getElem? hslot, ?_⟩
  split
  · by_cases hpair : v ∈ (resultPairs si o c).map Prod.fst
    · obtain ⟨q, hq, rfl⟩ := List.mem_map.1 hpair
      have hlinked := h.placed.kept_after.linked
      rw [(resultPairs_apart hlinked h.source_ne).redirected_old hq]
      obtain ⟨k, hk⟩ := originOf_of_mem_results hlinked (List.of_mem_zip hq).2
      refine .inr ⟨k, ?_⟩
      obtain ⟨_, _, _, _, _, _, _, rfl⟩ := h.detached
      obtain ⟨hr, _, _⟩ := h.redirected
      show (sr.values[q.2.index]?).map _ = _
      rw [hr.values]
      exact hk
    · exact .inl (redirected_other hpair)
  · exact .inl rfl

end Hoisted

/-! ## The copy's results -/

theorem getElem?_resultsOf (hl : Linked s) {k : Nat} (hv : s.originOf v = some (.result x k)) :
    (s.resultsOf x)[k]? = some v := by
  obtain ⟨d, hd⟩ := op?_of_result hl hv
  rw [resultsOf_eq hd]
  exact (hl.results.mem_iff (by rw [resultsIn, hd, Option.map_some]) k v).2 hv

section Results

variable {o c : OpRef} {p : Point} {b : BlockRef} {before : Option OpRef} {sc si sr : Store}
  {m : Renaming} (h : Hoisted gone s o p b before c sc si sr t)
  (hclone : cloneOp [] o s = .ok ((c, m), sc)) (hsized : Sized s)

include h hclone hsized

/-- The copy has as many results as the original. -/
theorem Hoisted.length_results : (t.resultsOf c).length = (s.resultsOf o).length := by
  obtain ⟨d, hd, _⟩ := h.entry
  rw [(h.typed hd hclone).length_eq, resultsOf_eq hd, hsized.results o d hd]

/-- No operand of what was not removed is a result of the original any more. -/
theorem Hoisted.operand_ne {e : OpData} (he : t.op? x = some e) (hx : ¬ gone x)
    (hv : v ∈ e.operands) (k : Nat) : t.originOf v ≠ some (.result o k) := by
  intro hk
  obtain ⟨d, hd, _⟩ := h.entry
  obtain ⟨e', he', hresults, _⟩ := h.op? hd
  -- it is the first of a pair, so all its recorded uses are gone
  have hpair : ∃ w, (v, w) ∈ resultPairs si o c := by
    have hvk := getElem?_resultsOf h.kept_after.linked hk
    rw [resultsOf_eq he', hresults, ← resultsOf_eq hd] at hvk
    obtain ⟨hlt, _⟩ := List.getElem?_eq_some_iff.1 hvk
    rw [← h.length_results hclone hsized] at hlt
    exact ⟨_, h.resultPairs_mem hvk (List.getElem?_eq_getElem hlt)⟩
  obtain ⟨w, hpair⟩ := hpair
  have hunused : t.usesOf v = [] := by
    obtain ⟨_, _, _, _, _, _, _, rfl⟩ := h.detached
    obtain ⟨hr, _, _⟩ := h.redirected
    exact hr.usesOf_old (v, w) hpair
  obtain ⟨i, hi⟩ := List.mem_iff_getElem?.1 hv
  have huse := (h.kept_after.uses.mem_iff v ⟨x, i⟩).2 ⟨hx, by rw [Store.slot?, he]; exact hi⟩
  rw [hunused] at huse
  cases huse

end Results

/-! ## Free operands of what stays -/

theorem Framed.not_nested (hf : Framed spine top rank s) {o : OpRef} (hseated : Seated spine s o)
    (hx : rank x ≤ top) : ¬ Relation.TransGen (Child s) x o := by
  intro hxo
  obtain ⟨q, hxq, hqo⟩ := Relation.TransGen.tail'_iff.1 hxo
  obtain ⟨b', bd, hholds, hbd, hmem⟩ := child_iff.1 hqo
  obtain ⟨d, hd, hb'⟩ := hf.consistent.linked.op?_of_mem hbd hmem
  obtain ⟨d', hd', hspine⟩ := hseated
  cases hd.symm.trans hd'
  exact hf.apart hx hxq (hspine b' hb') hholds

section Free

variable {o c : OpRef} {p : Point} {b : BlockRef} {before : Option OpRef} {sc si sr : Store}
  {m : Renaming} (hf : Framed spine top rank s)
  (h : Hoisted gone s o p b before c sc si sr t)
  (hclone : cloneOp [] o s = .ok ((c, m), sc)) (hlive : ∀ y, rank y ≤ top → ¬ gone y)
  (hspine : spine p.block) (hseated : Seated spine s o) {d : OpData} (hd : s.op? x = some d)
  (hx : rank x ≤ top)

include hf h hspine hseated hd hx

theorem Hoisted.within_iff : Within t x z ↔ Within s x z := by
  constructor
  · exact fun hw => (h.within_old hf hspine hd hx hw).1
  · refine fun hw => h.within_of hw ?_
    rintro y hxy _ rfl
    exact hf.not_nested hseated hx hxy

theorem Hoisted.inside_iff {a : Origin} (hv : s.originOf v = some a)
    (hout : ∀ k, a ≠ .result o k) : Inside t x v ↔ Inside s x v := by
  have hlives : ∀ {b'}, Lives t v b' ↔ Lives s v b' := h.lives_iff hv hout
  have hwithin : ∀ {q}, Within t x q ↔ Within s x q := h.within_iff hf hspine hseated hd hx
  constructor
  · rintro ⟨b', q, hb', hq, hw⟩
    obtain ⟨_, bd, hbd⟩ := (hlives.1 hb').home hf.consistent.linked
    exact ⟨b', q, hlives.1 hb', h.holds_old hbd hq, hwithin.1 hw⟩
  · rintro ⟨b', q, hb', hq, hw⟩
    exact ⟨b', q, hlives.2 hb', h.holds_of hq, hwithin.2 hw⟩

/-- Results of the copy are not inside what stays. -/
theorem Hoisted.not_inside_copy {k : Nat} (hv : t.originOf v = some (.result c k)) :
    ¬ Inside t x v := by
  rintro ⟨b', q, hb', hq, hw⟩
  obtain ⟨bd, hbd⟩ := hf.blocks _ hspine
  have hblock : b' = p.block := by
    obtain ⟨_, hv'⟩ | ⟨_, _, e, hv', he, hparent⟩ := hb'
    · cases hv.symm.trans hv'
    · cases hv.symm.trans hv'
      exact h.copy_parent he hparent
  subst hblock
  exact hf.apart hx ((h.within_iff hf hspine hseated hd hx).1 hw) hspine (h.holds_old hbd hq)

include hclone hlive

/-- A free operand of what stays was one before, or it is a result of the copy. -/
theorem Hoisted.free_cases (hv : Free t x v) :
    (Free s x v ∧ ∀ k, s.originOf v ≠ some (.result o k)) ∨
      ∃ k, t.originOf v = some (.result c k) := by
  obtain ⟨z, e, hw, he, hmem, hout⟩ := hv
  have hw' := (h.within_iff hf hspine hseated hd hx).1 hw
  obtain ⟨d', hd'⟩ := h.placed.kept.linked.op?_of_within ⟨d, hd⟩ hw'
  obtain ⟨e', he', hmem' | ⟨_, k, hk⟩⟩ := h.operand_cases he hmem
  · cases (h.placed.cloned.copied.op? z d' hd').symm.trans he'
    obtain ⟨a, ha⟩ := hf.consistent.grounded z d' v hd' hmem'
    have hv : s.originOf v = some a.origin := by rw [originOf, ha, Option.map_some]
    have hne : ∀ k, a.origin ≠ .result o k := by
      intro k heq
      have hz := hlive z (Nat.le_trans (hf.ranks.within_le hx hw') hx)
      refine h.operand_ne hclone hf.sized he hz hmem k ?_
      rw [h.originOf_old hv, heq]
    refine .inl ⟨⟨z, d', hw', hd', hmem', ?_⟩, fun k hk => hne k (Option.some.inj (hv ▸ hk))⟩
    rwa [h.inside_iff hf hspine hseated hd hx hv hne] at hout
  · exact .inr ⟨k, by rw [h.originOf_eq, hk]⟩

/-- What stays and had a free operand has one. -/
theorem Hoisted.free_of (hv : Free s x v) : ∃ w, Free t x w := by
  obtain ⟨z, d', hw, hd', hmem, hout⟩ := hv
  obtain ⟨e, he, w, hwmem, hcases⟩ := h.operand_of hd' hmem
  refine ⟨w, z, e, (h.within_iff hf hspine hseated hd hx).2 hw, he, hwmem, ?_⟩
  rcases hcases with rfl | ⟨k, hk⟩
  · obtain ⟨a, ha⟩ := hf.consistent.grounded z d' w hd' hmem
    have hv : s.originOf w = some a.origin := by rw [originOf, ha, Option.map_some]
    rw [h.inside_iff hf hspine hseated hd hx hv]
    · exact hout
    · intro k heq
      have hz := hlive z (Nat.le_trans (hf.ranks.within_le hx hw) hx)
      refine h.operand_ne hclone hf.sized he hz hwmem k ?_
      rw [h.originOf_old hv, heq]
  · exact h.not_inside_copy hf hspine hseated hd hx hk

end Free

/-! ## What can be lifted -/

/-- The value is there, and it is needed by operations of rank `top` at most. -/
def Low (top : Nat) (rank : OpRef → Nat) (s : Store) (v : ValueRef) : Prop :=
  (∃ a, s.originOf v = some a) ∧ valueRank s rank v ≤ top

theorem Low.rank_le (h : Low top rank s v) {k : Nat} (hv : s.originOf v = some (.result x k)) :
    rank x ≤ top := by
  have hrank := h.2
  rwa [valueRank, hv] at hrank

theorem Low.carried (h : Low top rank s v) (hl : Linked s) (hc : Carried spine rank rank' s t) :
    Low top rank' t v := by
  obtain ⟨⟨a, ha⟩, hrank⟩ := h
  have ha' := hc.originOf v a ha
  refine ⟨⟨a, ha'⟩, ?_⟩
  rw [valueRank, ha] at hrank
  rw [valueRank, ha']
  cases a with
  | argument b k => exact hrank
  | result x k =>
    obtain ⟨d, hd⟩ := op?_of_result hl ha
    exact (hc.rank x d hd).trans_le hrank

theorem Free.low (h : Free s x v) (hg : Grounded s) (hr : RanksUpTo s top rank)
    (hx : rank x ≤ top) :
    Low top rank s v := by
  have hrank := h.valueRank_lt hr hx
  obtain ⟨z, d, _, hd, hv, _⟩ := h
  obtain ⟨e, he⟩ := hg z d v hd hv
  exact ⟨⟨e.origin, by rw [originOf, he, Option.map_some]⟩, by omega⟩

theorem Lifts.outside_definition (h : Lifts s v y) :
    ∃ x k, s.originOf v = some (.result x k) ∧ Outside s x := by
  cases h with
  | self hv hout => exact ⟨_, _, hv, hout⟩
  | free hv hout _ _ => exact ⟨_, _, hv, hout⟩

theorem Lifts.outside (h : Lifts s v y) : Outside s y := by
  induction h with
  | self _ hout => exact hout
  | free _ _ _ _ ih => exact ih

/-- The value is defined by none of the operations. -/
def DefinedElsewhere (moved : OpRef → Prop) (s : Store) (v : ValueRef) : Prop :=
  ∀ x k, s.originOf v = some (.result x k) → ¬ moved x

section Hoist

variable {o c : OpRef} {p : Point} {b : BlockRef} {before : Option OpRef} {sc si sr : Store}
  {m : Renaming} (hs : Staged spine anchor top rank s)
  (h : Hoisted gone s o p b before c sc si sr t) (hlive : ∀ y, rank y ≤ top → ¬ gone y)
  (hclone : cloneOp [] o s = .ok ((c, m), sc)) (hp : AtAnchor anchor s p)
  (hseated : Seated spine s o) (hout : Outside s o)

theorem Staged.place (hs : Staged spine anchor top rank s) (hp : AtAnchor anchor s p) :
    spine p.block ∧ InFunction s p.block := by
  have hl := hs.consistent.linked
  obtain ⟨a, _, _, ha, _, hplace, _⟩ := hp.index hl (forest_of_linked hl hs.acyclic)
  obtain ⟨d, hd, hparent⟩ := opParent_eq_some.1 hplace.parent
  obtain ⟨d', b', hd', hparent', hblock⟩ := hs.stands a ha
  cases hd.symm.trans hd'
  cases hparent.symm.trans hparent'
  exact hblock

include hs h

section Bodies

include hout

/-- The bodies of functions lose nothing. -/
theorem Staged.ops_sublist (hin : InFunction s b') {bd : BlockData}
    (hbd : s.block? b' = some bd) : ∃ be, t.block? b' = some be ∧ bd.ops.Sublist be.ops := by
  have hlinked := hs.consistent.linked
  have hops := h.opsIn_eq b'
  rw [opsIn, opsIn, h.placed.cloned.copied.block? b' bd hbd, Option.map_some,
    Option.map_some] at hops
  obtain ⟨l, hl, heq⟩ := Option.map_eq_some_iff.1 hops
  obtain ⟨be, hbe, rfl⟩ := Option.map_eq_some_iff.1 hl
  have hself : bd.ops.filter (fun y => y != c && y != o) = bd.ops := by
    rw [List.filter_eq_self]
    intro y hy
    obtain ⟨d, hd, hparent⟩ := hlinked.op?_of_mem hbd hy
    have hyo : y ≠ o := by
      rintro rfl
      obtain ⟨d', b'', hd', hparent', hnot⟩ := hout
      cases hd.symm.trans hd'
      cases hparent.symm.trans hparent'
      exact hnot hin
    simp [h.placed.old_ne hd, hyo]
  rw [hself] at heq
  exact ⟨be, hbe, heq ▸ List.filter_sublist⟩

theorem Staged.precedes_anchor {a : OpRef} (ha : anchor a) (hx : Precedes s x a) :
    Precedes t x a := by
  obtain ⟨b', bd, hbd, hpair⟩ := hx
  obtain ⟨_, hin⟩ := hs.inFunction ha hbd (right_mem_of_pair hpair)
  obtain ⟨be, hbe, hsub⟩ := hs.ops_sublist h hout hin hbd
  exact ⟨b', be, hbe, hpair.trans hsub⟩

/-- What is offered to an anchor still is. -/
theorem Staged.offered_anchor {a : OpRef} (ha : anchor a) (hv : Offered s v a) :
    Offered t v a := by
  rcases hv with ⟨b', k, bd, hv, hbd, hmem⟩ | ⟨x, k, hv, hx⟩
  · obtain ⟨_, hin⟩ := hs.inFunction ha hbd hmem
    obtain ⟨be, hbe, hsub⟩ := hs.ops_sublist h hout hin hbd
    exact .inl ⟨b', k, be, h.originOf_old hv, hbe, hsub.subset hmem⟩
  · exact .inr ⟨x, k, h.originOf_old hv, hs.precedes_anchor h hout ha hx⟩

/-- Places in front of anchors stay. -/
theorem Staged.atAnchor {q : Point} (hq : AtAnchor anchor s q) : AtAnchor anchor t q := by
  obtain ⟨_, hin⟩ := hs.place hq
  obtain ⟨a, bd, x, ha, hbd, hx, hmem, hxa⟩ := hq
  obtain ⟨be, hbe, hsub⟩ := hs.ops_sublist h hout hin hbd
  exact ⟨a, be, x, ha, hbe, hx, hsub.subset hmem,
    hxa.imp_right fun hpre => hs.precedes_anchor h hout ha hpre⟩

end Bodies

include hp

theorem Staged.not_outside_copy : ¬ Outside t c := by
  rintro ⟨e, b', he, hparent, hout⟩
  obtain ⟨hspine, hin⟩ := hs.place hp
  obtain ⟨bd, hbd⟩ := hs.blocks _ hspine
  rw [h.copy_parent he hparent] at hout
  exact hout ((h.inFunction_iff hbd).2 hin)

theorem Staged.not_lifts_copy {k : Nat} (hv : t.originOf v = some (.result c k)) :
    ¬ Lifts t v y := by
  intro hlifts
  obtain ⟨x, j, hv', hout⟩ := hlifts.outside_definition
  cases hv.symm.trans hv'
  exact hs.not_outside_copy h hp hout

include hout in
/-- The results of the copy are offered to an anchor. -/
theorem Staged.offered_copy {k : Nat} (hv : t.originOf v = some (.result c k)) :
    ∃ a, anchor a ∧ Offered t v a := by
  obtain ⟨a, bd, q, ha, hbd, hq, hmem, hqa⟩ := hp
  -- anchors stand in bodies of functions, unlike the original
  have hne : a ≠ o := by
    rintro rfl
    obtain ⟨d, b', hd, hparent, _, hin⟩ := hs.stands a ha
    obtain ⟨d', b'', hd', hparent', hnot⟩ := hout
    cases hd.symm.trans hd'
    cases hparent.symm.trans hparent'
    exact hnot hin
  obtain ⟨_, hprecedes⟩ := h.precedes_copy hbd hq
  exact ⟨a, ha, .inr ⟨c, k, hv, hprecedes a hne (hqa.imp_left Eq.symm)⟩⟩

include hclone hseated hlive

/-- Nothing else has to be moved than before. -/
theorem Staged.lifts_old (hv : Low top rank s v) (helse : DefinedElsewhere (· = o) s v)
    (hlifts : Lifts t v y) : Lifts s v y := by
  obtain ⟨hspine, _⟩ := hs.place hp
  induction hlifts with
  | @self v x k hvx hx =>
    obtain ⟨⟨a, ha⟩, _⟩ := id hv
    cases (h.originOf_old ha).symm.trans hvx
    obtain ⟨d, hd⟩ := op?_of_result hs.consistent.linked ha
    exact .self ha ((h.outside_iff hd (helse x k ha)).1 hx)
  | @free v x k u y hvx hx hu hlifts ih =>
    obtain ⟨⟨a, ha⟩, _⟩ := id hv
    cases (h.originOf_old ha).symm.trans hvx
    obtain ⟨d, hd⟩ := op?_of_result hs.consistent.linked ha
    have hrank := hv.rank_le ha
    rcases h.free_cases hs.toFramed hclone hlive hspine hseated hd hrank hu
      with ⟨hu', hne⟩ | ⟨j, hj⟩
    · refine .free ha ((h.outside_iff hd (helse x k ha)).1 hx) hu' (ih ?_ ?_)
      · exact hu'.low hs.consistent.grounded hs.ranks hrank
      · rintro x' j hj rfl
        exact hne j hj
    · exact absurd hlifts (hs.not_lifts_copy h hp hj)

/-- What could be lifted still can, unless it was a result of the original. -/
theorem Staged.liftable_old (hout : Outside s o) (hreads : ¬ MayWrite s o)
    (hv : Low top rank s v) (helse : DefinedElsewhere (· = o) s v)
    (hlift : Liftable anchor s v) : Liftable anchor t v := by
  obtain ⟨hspine, _⟩ := hs.place hp
  induction hlift with
  | @ready a v ha hoffered => exact .ready ha (hs.offered_anchor h hout ha hoffered)
  | @moved v x k hvx hx hmovable hfree hall hunshared ih =>
    obtain ⟨⟨d, hd, hconst, happly⟩, hwrite⟩ := hmovable
    have hrank := hv.rank_le hvx
    have hxo : x ≠ o := helse x k hvx
    have hcases : ∀ {u}, Free t x u → (Free s x u ∧ ∀ k, s.originOf u ≠ some (.result o k)) ∨
        ∃ k, t.originOf u = some (.result c k) := fun hu =>
      h.free_cases hs.toFramed hclone hlive hspine hseated hd hrank hu
    refine .moved (h.originOf_old hvx) ((h.outside_iff hd hxo).2 hx) ⟨?_, ?_⟩ ?_ ?_ ?_
    · obtain ⟨e, he, _⟩ := h.op? hd
      have hname := h.name_eq he (h.placed.cloned.copied.op? x d hd)
      exact ⟨e, he, hname ▸ hconst, hname ▸ happly⟩
    · rwa [h.mayWrite_iff hclone hreads]
    · obtain ⟨u, hu⟩ := hfree
      exact h.free_of hs.toFramed hclone hlive hspine hseated hd hrank hu
    · intro u hu
      rcases hcases hu with ⟨hu', hne⟩ | ⟨j, hj⟩
      · refine ih u hu' (hu'.low hs.consistent.grounded hs.ranks hrank) ?_
        rintro x' j hj rfl
        exact hne j hj
      · obtain ⟨a, ha, hoffered⟩ := hs.offered_copy h hp hout hj
        exact .ready ha hoffered
    · intro u w y j hu hw huw hwy hlifts
      rcases hcases hu with ⟨hu', hne⟩ | ⟨i, hi⟩
      · have hlow := hu'.low hs.consistent.grounded hs.ranks hrank
        have hold := hs.lifts_old h hlive hclone hp hseated hlow
          (fun x' j hj heq => hne j (heq ▸ hj))
          hlifts
        rcases hcases hw with ⟨hw', _⟩ | ⟨i, hi⟩
        · obtain ⟨⟨a, ha⟩, _⟩ := hw'.low hs.consistent.grounded hs.ranks hrank
          cases (h.originOf_old ha).symm.trans hwy
          exact hunshared u w y j hu' hw' huw ha hold
        · -- the copy is where it has to be
          cases hi.symm.trans hwy
          exact hs.not_outside_copy h hp hlifts.outside
      · exact hs.not_lifts_copy h hp hi hlifts

end Hoist

/-! ## Later states -/

/-- What is left when only some operations were moved in front of anchors: everything is in place
for more of that, and all that they do not define can be lifted as before. -/
structure Later (spine : BlockRef → Prop) (anchor : OpRef → Prop) (top : Nat)
    (moved : OpRef → Prop) (rank rank' : OpRef → Nat) (s t : Store) : Prop where
  staged : Staged spine anchor top rank' t
  carried : Carried spine rank rank' s t
  outside : ∀ x, Outside s x → ¬ moved x → Outside t x
  reads : ∀ x, ¬ MayWrite s x → ¬ MayWrite t x
  place : ∀ p, AtAnchor anchor s p → AtAnchor anchor t p
  liftable : ∀ v, Low top rank s v → DefinedElsewhere moved s v → Liftable anchor s v →
    Liftable anchor t v
  lifts : ∀ v y, Low top rank s v → DefinedElsewhere moved s v → Lifts t v y → Lifts s v y

namespace Later

variable {moved moved' : OpRef → Prop} {s₁ : Store}

theorem refl (hs : Staged spine anchor top rank s) :
    Later spine anchor top moved rank rank s s :=
  ⟨hs, .refl spine rank s, fun _ h _ => h, fun _ h => h, fun _ h => h, fun _ _ _ h => h,
    fun _ _ _ _ h => h⟩

theorem mono (h : Later spine anchor top moved rank rank' s t) (hm : ∀ x, moved x → moved' x) :
    Later spine anchor top moved' rank rank' s t := by
  have helse : ∀ {v}, DefinedElsewhere moved' s v → DefinedElsewhere moved s v :=
    fun hv x k hk hx => hv x k hk (hm x hx)
  exact { h with
    outside := fun x hx hnot => h.outside x hx fun hx' => hnot (hm x hx')
    liftable := fun v hv hv' => h.liftable v hv (helse hv')
    lifts := fun v y hv hv' => h.lifts v y hv (helse hv') }

theorem definedElsewhere (h : Later spine anchor top moved rank rank' s t)
    (hlow : Low top rank s v) (hv : DefinedElsewhere moved' s v) :
    DefinedElsewhere moved' t v := by
  intro x k hk
  obtain ⟨⟨a, ha⟩, _⟩ := hlow
  cases (h.carried.originOf v a ha).symm.trans hk
  exact hv x k ha

theorem trans (hl : Linked s) (h : Later spine anchor top moved rank rank' s s₁)
    (h' : Later spine anchor top moved rank' rank'' s₁ t) :
    Later spine anchor top moved rank rank'' s t where
  staged := h'.staged
  carried := h.carried.trans h'.carried
  outside x hx hnot := h'.outside x (h.outside x hx hnot) hnot
  reads x hx := h'.reads x (h.reads x hx)
  place p hp := h'.place p (h.place p hp)
  liftable v hv helse hlift :=
    h'.liftable v (hv.carried hl h.carried) (h.definedElsewhere hv helse)
      (h.liftable v hv helse hlift)
  lifts v y hv helse hlifts :=
    h.lifts v y hv helse
      (h'.lifts v y (hv.carried hl h.carried) (h.definedElsewhere hv helse) hlifts)

end Later

/-- What stands outside the bodies of functions and does not write can be moved to a place in front
of an anchor.  Then its results are offered to an anchor, and nothing else changes for what can be
lifted. -/
theorem Staged.hoist (hs : Staged spine anchor top rank s) {o : OpRef} {p : Point}
    (hp : AtAnchor anchor s p) (hseated : Seated spine s o) (hrank : rank o ≤ top)
    (hout : Outside s o) (hreads : ¬ MayWrite s o) (J : Journal) :
    ∃ c J' t rank', Raise.hoist o p J s = .ok ((some c, J'), t) ∧
      Later spine anchor top (· = o) rank rank' s t ∧
      (t.resultsOf c).length = (s.resultsOf o).length ∧
      ∀ w ∈ t.resultsOf c, ∃ a, anchor a ∧ Offered t w a := by
  have hg := hs.consistent.grounded
  obtain ⟨gone, hk, hlive⟩ := hs.kept
  obtain ⟨hspine, _⟩ := hs.place hp
  obtain ⟨d, b, hd, hparent, _⟩ := id hout
  obtain ⟨c, J', t, hrun⟩ : ∃ c J' t, Raise.hoist o p J s = .ok ((some c, J'), t) := by
    obtain ⟨_, bd, q, _, hbd, hq, hmem, _⟩ := hp
    refine hoist_total hk hg hs.acyclic hd hparent hbd fun q' hq' => ?_
    cases hq.symm.trans hq'
    exact hmem
  obtain ⟨_, before, sc, si, sr, m, h, hclone, _⟩ := hoist_hoisted hk hg hrun
  obtain ⟨rank', hf', hcarried, _⟩ := hs.toFramed.hoist hspine hseated hrank hrun
  have hne : ∀ a, anchor a → a ≠ o := by
    rintro a ha rfl
    exact absurd (hs.higher a ha) (Nat.not_lt.2 hrank)
  have hstaged : Staged spine anchor top rank' t := by
    refine { hf' with kept := ⟨gone, h.kept_after, fun x hx hgone => ?_⟩
                      stands := fun a ha => ?_, higher := fun a ha => ?_
                      chain := fun a a' ha ha' => ?_ }
    · obtain ⟨dx, hdx⟩ : ∃ dx, s.op? x = some dx :=
        ⟨_, Array.getElem?_eq_getElem (hk.created x hgone)⟩
      exact hlive x (hcarried.rank x dx hdx ▸ hx) hgone
    · obtain ⟨da, ba, hda, hba, hspine, hin⟩ := hs.stands a ha
      obtain ⟨e, he, _, _, heq⟩ := h.op? hda
      obtain ⟨bd, hbd⟩ := hs.blocks ba hspine
      rw [if_neg (hne a ha)] at heq
      exact ⟨e, ba, he, heq.trans hba, hspine, (h.inFunction_iff hbd).2 hin⟩
    · obtain ⟨da, _, hda, _⟩ := hs.stands a ha
      rw [hcarried.rank a da hda]
      exact hs.higher a ha
    · -- what encloses an anchor is of a higher rank than the original
      have hkeep : ∀ {a a'}, anchor a' → Within s a a' → Within t a a' := by
        intro a a' ha' hw
        refine h.within_of hw ?_
        rintro y _ hya' rfl
        have hle := hs.ranks.within_le hrank hya'
        have hlt := hs.higher a' ha'
        omega
      exact (hs.chain a a' ha ha').imp (hkeep ha') (hkeep ha)
  refine ⟨c, J', t, rank', hrun, ⟨hstaged, hcarried, fun x hx hxo => ?_, fun x hx => ?_,
    fun q hq => hs.atAnchor h hout hq, fun v hv helse hlift => ?_, fun v y hv helse hlifts => ?_⟩,
    h.length_results hclone hs.sized, fun w hw => ?_⟩
  · obtain ⟨dx, _, hdx, _⟩ := id hx
    exact (h.outside_iff hdx hxo).2 hx
  · rwa [h.mayWrite_iff hclone hreads]
  · exact hs.liftable_old h hlive hclone hp hseated hout hreads hv helse hlift
  · exact hs.lifts_old h hlive hclone hp hseated hv helse hlifts
  · obtain ⟨k, hk⟩ := originOf_of_mem_results h.kept_after.linked hw
    exact hs.offered_copy h hp hout hk

end AffineRaising.Raise
