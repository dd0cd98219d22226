/-
# AffineRaising.Proofs.Raise.SavedPlace — places that are taken before moves and used after them.

A place behind a definition is written down as the operation in front of which it is.  A hoist to
such a place goes through as long as that operation is still there (`hoist_total`), and faults once
it is not (`hoist_lost`).  Hoists take exactly their originals out of their blocks and never bring
one back, so the operation is still there if it was not moved itself: `Hoists.mem_ops_iff`.
-/
import AffineRaising.Proofs.Raise.Commit
import AffineRaising.Proofs.Raise.Placement
import AffineRaising.Proofs.Store.Total

namespace AffineRaising.Raise

open AffineRaising.IR AffineRaising.IR.Store AffineRaising.Ops AffineRaising.Analysis

variable {α β : Type} {gone : OpRef → Prop} {J J' : Journal} {s t : Store}

/-! ## Runs of drafts -/

namespace Draft

theorem bind_eq {x : Draft α} {a : α} (h : x J s = .ok ((a, J'), t)) {f : α → Draft β} :
    (x >>= f) J s = f a J' t := by
  show (x J s >>= fun r => f r.1.1 r.1.2 r.2) = f a J' t
  rw [h]
  rfl

theorem lift_eq {e : Edit α} {a : α} (h : e s = .ok (a, t)) {f : α → Draft β} :
    (Draft.lift e >>= f) J s = f a J t := by
  show ((e s >>= fun r => .ok ((r.1, J), r.2)) >>= fun r => f r.1.1 r.1.2 r.2) = f a J t
  rw [h]
  rfl

theorem lift_error {e : Edit α} {fault : Fault} (h : e s = .error fault) {f : α → Draft β} :
    (Draft.lift e >>= f) J s = .error fault := by
  show ((e s >>= fun r => .ok ((r.1, J), r.2)) >>= fun r => f r.1.1 r.1.2 r.2) = .error fault
  rw [h]
  rfl

theorem ask_eq (q : Store → Except Fault α) {a : α} (h : q s = .ok a) {f : α → Draft β} :
    (Draft.ask q >>= f) J s = f a J s :=
  lift_eq (Edit.query_ok.2 ⟨h, rfl⟩)

end Draft

/-! ## Hoisting -/

theorem next?_total (hl : Linked s) {o : OpRef} {d : OpData} (hd : s.op? o = some d) :
    ∃ before, s.next? o = .ok before := by
  cases hp : d.parent with
  | none =>
    refine ⟨none, ?_⟩
    simp only [Store.next?, except_bind_ok, op_ok]
    exact ⟨d, hd, by rw [hp]; rfl⟩
  | some b =>
    obtain ⟨bd, hbd, ho⟩ := hl.mem_of_parent hd hp
    obtain ⟨i, hi⟩ : ∃ i, bd.ops.idxOf? o = some i := by
      refine Option.ne_none_iff_exists'.1 fun hnone => ?_
      exact List.idxOf?_eq_none_iff.1 hnone ho
    refine ⟨bd.ops[i + 1]?, ?_⟩
    simp only [Store.next?, except_bind_ok, op_ok]
    refine ⟨d, hd, ?_⟩
    simp only [hp, except_bind_ok, block_ok]
    exact ⟨bd, hbd, by rw [hi]; rfl⟩

theorem redirectResults_total (hk : Kept s gone) (o c : OpRef) :
    ∃ t, Journal.redirectResults o c s = .ok ((), t) := by
  rw [Journal.redirectResults, Edit.get_bind]
  generalize (s.resultsOf o).zip (s.resultsOf c) = pairs
  induction pairs generalizing s with
  | nil => exact ⟨s, rfl⟩
  | cons q pairs ih =>
    obtain ⟨s₁, hfirst⟩ := hk.uses.replaceAllUses_total q.1 q.2
    obtain ⟨t, hrest⟩ := ih (hk.replaceAllUses hfirst)
    refine ⟨t, ?_⟩
    rw [List.forM_eq_forM, List.forM_cons, Edit.bind_ok]
    exact ⟨(), s₁, hfirst, by rwa [← List.forM_eq_forM]⟩

section Hoist

variable (hk : Kept s gone) (hg : Grounded s) (hac : Acyclic s) {o : OpRef} {d : OpData}
  {b : BlockRef} (hd : s.op? o = some d) (hparent : d.parent = some b) {p : Point} {bd : BlockData}
  (hblock : s.block? p.block = some bd)

include hk hg hac hd hparent hblock

/-- An operation that is in a block can be hoisted to a place whose operation is in its block. -/
theorem hoist_total (hbefore : ∀ q, p.before = some q → q ∈ bd.ops) :
    ∃ c J' t, hoist o p J s = .ok ((some c, J'), t) := by
  obtain ⟨before, hnext⟩ := next?_total hk.linked hd
  obtain ⟨c, m, sc, hclone⟩ := cloneOp_total hk hac hd
  obtain ⟨hcloned, hunder⟩ := cloneOp_ok hk hclone
  obtain ⟨cd, hcd, hdetached⟩ := hcloned.detached
  obtain ⟨si, hinsert⟩ : ∃ si, p.insert c sc = .ok ((), si) :=
    insertOp_total hcd hdetached (hcloned.copied.block? p.block bd hblock) hbefore
  have hplaced : Placed gone s c p.block p.before sc si := ⟨hk, hg, hcloned, hunder, hinsert⟩
  obtain ⟨sr, hredirect⟩ := redirectResults_total hplaced.kept_after o c
  obtain ⟨hr, hkr, _⟩ := redirectResults_ok hplaced.kept_after hplaced.grounded_after
    (hplaced.old_ne hd) hredirect
  obtain ⟨t, hdetach⟩ := detach_total hkr.linked (by rw [hr.op?, hplaced.op? hd]; rfl)
  refine ⟨c, J ++ [.hoisted o b before c], t, ?_⟩
  rw [hoist, Draft.ask_eq (·.op o) (op_ok.2 hd)]
  simp only [hparent]
  rw [Draft.ask_eq (·.next? o) hnext, Draft.lift_eq hclone]
  simp only
  rw [Draft.lift_eq hinsert, Draft.lift_eq hredirect, Draft.lift_eq hdetach]
  rfl

omit hg in
/-- An operation that is in a block cannot be hoisted to a place whose operation has left its
block. -/
theorem hoist_lost {q : OpRef} (hq : p.before = some q) (hlost : q ∉ bd.ops) :
    hoist o p J s = .error (.opNotInBlock q) := by
  obtain ⟨before, hnext⟩ := next?_total hk.linked hd
  obtain ⟨c, m, sc, hclone⟩ := cloneOp_total hk hac hd
  obtain ⟨hcloned, _⟩ := cloneOp_ok hk hclone
  obtain ⟨cd, hcd, hdetached⟩ := hcloned.detached
  have hinsert : p.insert c sc = .error (.opNotInBlock q) := by
    rw [Point.insert, hq]
    exact insertOp_missing hcd hdetached (hcloned.copied.block? p.block bd hblock) hlost
  rw [hoist, Draft.ask_eq (·.op o) (op_ok.2 hd)]
  simp only [hparent]
  rw [Draft.ask_eq (·.next? o) hnext, Draft.lift_eq hclone]
  simp only
  rw [Draft.lift_error hinsert]

end Hoist

/-! ## Nesting -/

namespace Hoisted

variable {o c : OpRef} {p : Point} {b : BlockRef} {before : Option OpRef} {sc si sr : Store}
  {m : Renaming} (h : Hoisted gone s o p b before c sc si sr t)

include h

/-- What is nested in something old after a hoist is the copy, or is old and was nested there. -/
theorem child_old {x z : OpRef} {d : OpData} (hd : s.op? x = some d) (hc : Child t x z) :
    z = c ∨ z ≠ o ∧ Child s x z := by
  rcases h.child_cases hc with rfl | ⟨hzo, hc⟩
  · exact .inl rfl
  · exact .inr ⟨hzo, (h.placed.cloned.copied.child_iff h.placed.kept.linked hd).1 hc⟩

theorem copy_block {b' : BlockRef} {be : BlockData} (hbe : t.block? b' = some be)
    (hmem : c ∈ be.ops) : b' = p.block := by
  have hparent := (h.kept_after.linked.ops.mem_iff (a := b') (by simp [opsIn, hbe]) c).1 hmem
  obtain ⟨_, e, _, _, _, he, _, ht⟩ := h.detached
  obtain ⟨hr, _, _⟩ := h.redirected
  obtain ⟨d, _, _, _, hd, _, _, _, _, _, hsi⟩ := insertOp_ok h.placed.insert
  have hc : si.op? c = some { d with parent := some p.block } := by
    rw [hsi, op?_attach hd, if_pos rfl]
  rw [opParent, ht, op?_unlink he, if_neg h.source_ne.symm, hr.op?, hc] at hparent
  exact (Option.some.inj (Option.some.inj hparent)).symm

/-- A block that was there is held by what held it. -/
theorem holds_old {x : OpRef} {b' : BlockRef} {bd : BlockData} (hb : s.block? b' = some bd)
    (hx : Holds t x b') : Holds s x b' := by
  have hs := h.placed.kept.linked
  have hsc := h.placed.cloned.kept.linked
  have hcopied := h.placed.cloned.copied
  obtain ⟨e, he, r, hr, re, hre, hmem⟩ := hx
  obtain ⟨e', he', hfixed⟩ := h.op?_of_fixed he
  have hregions : e.regions = e'.regions := congrArg (·.regions) hfixed
  rw [hregions] at hr
  rw [h.region?_eq] at hre
  obtain ⟨_, hbd, hbparent⟩ := block?_of_region hsc hre hmem
  cases (hcopied.block? b' bd hb).symm.trans hbd
  obtain ⟨l, hl⟩ := hs.blocks.holder (b := b') (a := r) (by simp [blockParent, hb, hbparent])
  obtain ⟨rd, hrd, _⟩ := Option.map_eq_some_iff.1 hl
  cases (hcopied.region? r rd hrd).symm.trans hre
  obtain ⟨_, hrd', hrparent⟩ := region?_of_op hsc he' hr
  cases hre.symm.trans hrd'
  obtain ⟨l', hl'⟩ := hs.regions.holder (b := r) (a := x) (by simp [regionParent, hrd, hrparent])
  obtain ⟨d, hd, _⟩ := Option.map_eq_some_iff.1 hl'
  cases (hcopied.op? x d hd).symm.trans he'
  exact ⟨e', hd, r, hr, re, hrd, hmem⟩

/-- What the copy is nested in held its block before. -/
theorem holds_of_child (hp : ∃ bd, s.block? p.block = some bd) {x : OpRef} (hc : Child t x c) :
    Holds s x p.block := by
  obtain ⟨bd, hbd⟩ := hp
  obtain ⟨b', be, hx, hbe, hmem⟩ := child_iff.1 hc
  cases h.copy_block hbe hmem
  exact h.holds_old hbd hx

/-- A hoist nests nothing in itself. -/
theorem acyclic (hp : ∃ bd, s.block? p.block = some bd)
    (hclone : cloneOp [] o s = .ok ((c, m), sc)) (hac : Acyclic s) : Acyclic t := by
  obtain ⟨src, hmirrors, _⟩ := h.mirrors hclone
  have hcopied := h.placed.cloned.copied
  have hlinked := h.placed.kept.linked
  have hnew : ∀ {x z}, s.op? x = none → Child t x z →
      s.op? z = none ∧ Child s (src.op x) (src.op z) := by
    intro x z hx hchild
    rcases h.child_cases hchild with rfl | ⟨_, hchild'⟩
    · obtain ⟨d, hd, _⟩ := h.holds_of_child hp hchild
      rw [hx] at hd
      cases hd
    · exact hmirrors.child hcopied hlinked h.placed.cloned.kept.linked hx hchild'
  intro x hcycle
  cases hx : s.op? x with
  | none =>
    -- a cycle through something new is a cycle of sources
    have hsource : ∀ z, Relation.TransGen (Child t) x z →
        s.op? z = none ∧ Relation.TransGen (Child s) (src.op x) (src.op z) := by
      intro z hz
      induction hz with
      | single hchild =>
        obtain ⟨hz, hchild⟩ := hnew hx hchild
        exact ⟨hz, .single hchild⟩
      | tail _ hchild ih =>
        obtain ⟨hz, hchild⟩ := hnew ih.1 hchild
        exact ⟨hz, ih.2.tail hchild⟩
    exact hac _ (hsource x hcycle).2
  | some d =>
    have hold : ∀ z, Relation.TransGen (Child t) x z →
        s.op? z = none ∨ Relation.TransGen (Child s) x z := by
      intro z hz
      induction hz with
      | single hchild =>
        rcases h.child_old hx hchild with rfl | ⟨_, hchild⟩
        · exact .inl h.placed.cloned.new
        · exact .inr (.single hchild)
      | tail _ hchild ih =>
        rcases ih with hy | hy
        · exact .inl (hnew hy hchild).1
        · obtain ⟨dy, hdy⟩ := hlinked.op?_of_within ⟨d, hx⟩ hy.to_reflTransGen
          rcases h.child_old hdy hchild with rfl | ⟨_, hchild⟩
          · exact .inl h.placed.cloned.new
          · exact .inr (hy.tail hchild)
    rcases hold x hcycle with hnone | hcycle
    · rw [hx] at hnone
      cases hnone
    · exact hac x hcycle

/-- A hoist takes the original out of its block, and nothing else that was there. -/
theorem mem_ops {x : BlockRef} {bd : BlockData} {q : OpRef} {d : OpData}
    (hbd : s.block? x = some bd) (hd : s.op? q = some d) :
    ∃ be, t.block? x = some be ∧ (q ∈ be.ops ↔ q ≠ o ∧ q ∈ bd.ops) := by
  have hfilter := h.opsIn_eq x
  rw [opsIn, opsIn, h.placed.cloned.copied.block? x bd hbd, Option.map_some, Option.map_some]
    at hfilter
  obtain ⟨l, hl, hlist⟩ := Option.map_eq_some_iff.1 hfilter
  obtain ⟨be, hbe, rfl⟩ := Option.map_eq_some_iff.1 hl
  refine ⟨be, hbe, ?_⟩
  have hqc : q ≠ c := h.placed.old_ne hd
  by_cases hqo : q = o
  · subst hqo
    have hparent := h.detached_parent
    refine iff_of_false (fun hmem => ?_) fun hmem => hmem.1 rfl
    rw [(h.kept_after.linked.ops.mem_iff (a := x) (by simp [opsIn, hbe]) q).1 hmem] at hparent
    cases hparent
  · have hmem : q ∈ be.ops.filter (fun y => y != c && y != o) ↔
        q ∈ bd.ops.filter (fun y => y != c && y != o) := by rw [hlist]
    simpa [hqc, hqo] using hmem

end Hoisted

/-! ## Moves -/

theorem HoistStep.acyclic {x y : Journal × Store} (h : HoistStep x y) (hx : Consistent x.2)
    (hac : Acyclic x.2) : Acyclic y.2 := by
  obtain ⟨o, p, c, hp, h⟩ := h
  obtain ⟨⟨gone, hk⟩, hg⟩ := hx
  obtain ⟨_, _, _, _, _, _, hhoisted, hclone, _⟩ := hoist_hoisted hk hg h
  exact hhoisted.acyclic hp hclone hac

theorem Hoists.acyclic {x y : Journal × Store} (h : Hoists x y) (hx : Consistent x.2)
    (hac : Acyclic x.2) : Acyclic y.2 := by
  induction h with
  | refl => exact hac
  | tail h hstep ih => exact hstep.acyclic (Hoists.rests h hx ⟨0⟩).1 ih

/-- Moves take their originals out of their blocks, and nothing else that was there. -/
theorem Hoists.mem_ops_iff {x y : Journal × Store} (h : Hoists x y) (hx : Consistent x.2)
    {b : BlockRef} {bd : BlockData} {q : OpRef} (hbd : x.2.block? b = some bd) (hq : q ∈ bd.ops) :
    ∃ moved be, y.1 = x.1 ++ moved ∧ y.2.block? b = some be ∧
      (q ∈ be.ops ↔ q ∉ Journal.originals moved) := by
  induction h with
  | refl => exact ⟨[], bd, (List.append_nil _).symm, hbd, by simpa [Journal.originals] using hq⟩
  | @tail y z h hstep ih =>
    obtain ⟨moved, be, hJ, hbe, hiff⟩ := ih
    obtain ⟨dq, hdq, _⟩ := hx.linked.op?_of_mem hbd hq
    obtain ⟨⟨⟨gone, hk⟩, hg⟩, hrests⟩ := Hoists.rests h hx q
    obtain ⟨eq, heq, _⟩ := hrests dq hdq
    obtain ⟨o, p, c, _, hhoist⟩ := hstep
    obtain ⟨b', before, _, _, _, _, hhoisted, _, hJ'⟩ := hoist_hoisted hk hg hhoist
    obtain ⟨be', hbe', hiff'⟩ := hhoisted.mem_ops hbe heq
    refine ⟨moved ++ [.hoisted o b' before c], be', by rw [hJ', hJ, List.append_assoc], hbe', ?_⟩
    rw [hiff', hiff, Journal.originals_hoisted, List.mem_append, List.mem_singleton]
    tauto

/-! ## Places -/

/-- The place is in a block that holds the operation in front of which it is. -/
def Standing (s : Store) (p : Point) : Prop :=
  ∃ bd, s.block? p.block = some bd ∧ ∀ q, p.before = some q → q ∈ bd.ops

theorem afterDefinition?_standing (hl : Linked s) {v : ValueRef} {p : Point}
    (h : Point.afterDefinition? s v = .ok (some p)) : Standing s p := by
  simp only [Point.afterDefinition?, except_bind_ok, value_ok] at h
  obtain ⟨d, _, h⟩ := h
  cases horigin : d.origin with
  | argument b i =>
    simp only [horigin, Point.start, bind_pure_comp, except_map_ok, block_ok] at h
    obtain ⟨_, ⟨bd, hbd, rfl⟩, hp⟩ := h
    cases hp
    exact ⟨bd, hbd, fun q hq => List.mem_of_head? hq⟩
  | result o k =>
    simp only [horigin, Point.after?, except_bind_ok, op_ok] at h
    obtain ⟨od, hod, h⟩ := h
    cases hparent : od.parent with
    | none => simp [hparent] at h
    | some b =>
      simp only [hparent, except_bind_ok] at h
      obtain ⟨next, hnext, hp⟩ := h
      cases hp
      obtain ⟨bd, hbd, ho⟩ := hl.mem_of_parent hod hparent
      obtain ⟨front, back, hops, hhead⟩ := next?_ok hod hparent hbd ho hnext
      refine ⟨bd, hbd, fun q hq => ?_⟩
      rw [hops]
      exact List.mem_append_right front
        (List.mem_cons_of_mem o (List.mem_of_head? (hhead.trans hq)))

/-- After moves, a hoist to a place that was there before them comes to an end unless they took away
the operation in front of which it is. -/
theorem Hoists.hoist_cases (h : Hoists (J, s) (J', t)) (hs : Consistent s) (hac : Acyclic s)
    {p : Point} (hp : Standing s p) {o : OpRef} {d : OpData} (hd : t.op? o = some d) :
    (∃ r J'' t', hoist o p J' t = .ok ((r, J''), t')) ∨
      ∃ moved q, J' = J ++ moved ∧ q ∈ Journal.originals moved ∧
        hoist o p J' t = .error (.opNotInBlock q) := by
  obtain ⟨⟨gone, hk⟩, hg⟩ := (h.rests hs o).1
  have hact := h.acyclic hs hac
  obtain ⟨bd, hbd, hbefore⟩ := hp
  cases hparent : d.parent with
  | none =>
    refine .inl ⟨none, J', t, ?_⟩
    rw [hoist, Draft.ask_eq (·.op o) (op_ok.2 hd)]
    simp only [hparent]
    rfl
  | some b =>
    cases hq : p.before with
    | none =>
      obtain ⟨be, hbe⟩ := h.block? hbd
      obtain ⟨c, J'', t', hrun⟩ := hoist_total hk hg hact hd hparent hbe
        (fun q hq' => by rw [hq] at hq'; cases hq') (J := J')
      exact .inl ⟨_, _, _, hrun⟩
    | some q =>
      obtain ⟨moved, be, hJ, hbe, hiff⟩ := h.mem_ops_iff hs hbd (hbefore q hq)
      by_cases hmoved : q ∈ Journal.originals moved
      · refine .inr ⟨moved, q, hJ, hmoved, ?_⟩
        exact hoist_lost hk hact hd hparent hbe hq fun hmem => hiff.1 hmem hmoved
      · obtain ⟨c, J'', t', hrun⟩ := hoist_total hk hg hact hd hparent hbe
          (fun q' hq' => by
            cases hq.symm.trans hq'
            exact hiff.2 hmoved) (J := J')
        exact .inl ⟨_, _, _, hrun⟩

end AffineRaising.Raise
