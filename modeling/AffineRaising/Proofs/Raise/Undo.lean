/-
# AffineRaising.Proofs.Raise.Undo — a journal that is rolled back leaves no trace.

Every step that a journal knows can be undone: in a store that restores the one after the step, the
undoing restores the one before it (`Undoes`).  This is shown for hoists and for casts.  A journal
is undone from its last step to its first, so by induction on the steps a rollback restores the
store in which the journal was empty: `rollback_restores`.
-/
import AffineRaising.Proofs.Raise.Cast
import AffineRaising.Proofs.Store.Restore

namespace AffineRaising.Raise

open AffineRaising.IR AffineRaising.IR.Store AffineRaising.Ops AffineRaising.Analysis

variable {J J' : Journal} {s s₁ t t' : Store}

/-! ## Consistent stores -/

/-- Parent links and recorded uses are consistent, and operands are values of the store. -/
structure Consistent (s : Store) : Prop where
  kept : ∃ gone, Kept s gone
  grounded : Grounded s

theorem Consistent.linked (hs : Consistent s) : Linked s := by
  obtain ⟨⟨_, hk⟩, _⟩ := hs
  exact hk.linked

/-- Undoing the entry leads from stores that restore `s₁` to stores that restore `s`. -/
def Undoes (e : Entry) (s s₁ : Store) : Prop :=
  ∀ {t t' u}, Restores s₁ t → Consistent t → Journal.undo e t = .ok (u, t') →
    Restores s t' ∧ Consistent t'

/-- A step that is written down and can be undone. -/
def UndoableStep (x y : Journal × Store) : Prop :=
  ∃ e, y.1 = x.1 ++ [e] ∧ (Consistent x.2 → Consistent y.2 ∧ Undoes e x.2 y.2)

/-! ## Putting an operation back into its block -/

/-- Take an operation out of a list to which new members were added, and put it back in front of the
member that followed it: without the new members the list is what it was. -/
theorem filter_reinsert {l l' front back f g : List OpRef} {o : OpRef} {out : List OpRef}
    (hnd : l.Nodup) (hl : l = front ++ o :: back) (hnew : l'.filter (· ∉ out) = l)
    (hsplit : l'.filter (· != o) = f ++ g) (hhead : g.head? = back.head?) :
    (f ++ o :: g).filter (· ∉ out) = l := by
  have hmem : ∀ x ∈ l, x ∉ out := by
    intro x hx
    rw [← hnew] at hx
    simpa using (List.mem_filter.1 hx).2
  have hofront : o ∉ front := by
    rw [hl] at hnd
    exact fun h => (List.nodup_append.1 hnd).2.2 o h o (by simp) rfl
  have hoback : o ∉ back := by
    rw [hl] at hnd
    exact (List.nodup_cons.1 (List.nodup_append.1 hnd).2.1).1
  have hkeep : ∀ k : List OpRef, o ∉ k → k.filter (· != o) = k := by
    intro k hk
    refine List.filter_eq_self.2 fun x hx => ?_
    simpa using fun h : x = o => hk (h ▸ hx)
  -- without the new members and the operation
  have hrest : f.filter (· ∉ out) ++ g.filter (· ∉ out) = front ++ back := by
    rw [← List.filter_append, ← hsplit, List.filter_comm, hnew, hl, List.filter_append,
      hkeep front hofront, List.filter_cons_of_neg (by simp), hkeep back hoback]
  have ho : o ∉ out := hmem o (by simp [hl])
  rw [List.filter_append, List.filter_cons_of_pos (by simpa using ho), hl]
  cases back with
  | nil =>
    have hg : g = [] := List.head?_eq_none_iff.1 hhead
    subst hg
    simpa using hrest
  | cons y back =>
    obtain ⟨g', rfl⟩ : ∃ g', g = y :: g' := List.head?_eq_some_iff.1 hhead
    have hy : y ∉ out := hmem y (by simp [hl])
    rw [List.filter_cons_of_pos (by simpa using hy)] at hrest ⊢
    rw [hl] at hnd
    have hyfront : y ∉ front := fun h => (List.nodup_append.1 hnd).2.2 y h y (by simp) rfl
    have hyback : y ∉ back :=
      (List.nodup_cons.1 (List.nodup_cons.1 (List.nodup_append.1 hnd).2.1).2).1
    obtain ⟨hf, _, hg⟩ := (List.append_cons_inj_of_notMem hyfront hyback).1 hrest.symm
    rw [hf, hg]

/-! ## Results -/

theorem results_nodup (hl : Linked s) (o : OpRef) : (s.resultsOf o).Nodup := by
  cases hd : s.op? o with
  | none =>
    unfold Store.op? at hd
    simp [Store.resultsOf, hd]
  | some d =>
    rw [resultsOf_eq hd, List.nodup_iff_injective_getElem]
    intro i j heq
    have horigin := fun k (hk : k < d.results.length) =>
      (hl.results.mem_iff (a := o) (by simp [resultsIn, hd]) k d.results[k]).1
        (List.getElem?_eq_getElem hk)
    have hi := horigin i i.2
    have hj := horigin j j.2
    simp only at heq
    rw [heq] at hi
    have hsame := Option.some.inj (hi.symm.trans hj)
    exact Fin.ext (Origin.result.inj hsame).2

theorem value?_of_mem_resultsOf (hl : Linked s) {o : OpRef} {v : ValueRef}
    (hv : v ∈ s.resultsOf o) : ∃ d, s.value? v = some d := by
  obtain ⟨k, hk⟩ := originOf_of_mem_results hl hv
  obtain ⟨d, hd, _⟩ := Option.map_eq_some_iff.1 hk
  exact ⟨d, hd⟩

/-- The results of two operations, pair by pair. -/
def resultPairs (s : Store) (o c : OpRef) : List (ValueRef × ValueRef) :=
  (s.resultsOf o).zip (s.resultsOf c)

theorem resultPairs_apart (hl : Linked s) {o c : OpRef} (hne : o ≠ c) :
    Apart (resultPairs s o c) := by
  refine .zip (results_nodup hl o) (results_nodup hl c) fun v hv hv' => hne ?_
  obtain ⟨k, hk⟩ := originOf_of_mem_results hl hv
  obtain ⟨j, hj⟩ := originOf_of_mem_results hl hv'
  exact (Origin.result.inj (Option.some.inj (hk.symm.trans hj))).1

theorem resultPairs_values (hl : Linked s) {o c : OpRef} {q : ValueRef × ValueRef}
    (hq : q ∈ resultPairs s o c) :
    (∃ d, s.value? q.1 = some d) ∧ ∃ d, s.value? q.2 = some d :=
  ⟨value?_of_mem_resultsOf hl (List.of_mem_zip hq).1,
    value?_of_mem_resultsOf hl (List.of_mem_zip hq).2⟩

theorem redirectResults_ok {gone : OpRef → Prop} {o c : OpRef} {u : Unit} (hk : Kept s gone)
    (hg : Grounded s) (hne : o ≠ c) (h : Journal.redirectResults o c s = .ok (u, t)) :
    RedirectedAll s (resultPairs s o c) t ∧ Kept t gone ∧ Grounded t := by
  rw [Journal.redirectResults, Edit.get_bind] at h
  obtain ⟨hr, hkept⟩ := forM_replaceAllUses_ok (resultPairs_apart hk.linked hne) hk h
  exact ⟨hr, hkept, hr.grounded hg fun q hq => (resultPairs_values hk.linked hq).2⟩

/-! ## New operations in a block -/

/-- Operation `c` is new, stands apart in `sc`, and was put into block `b` in front of `before`. -/
structure Placed (gone : OpRef → Prop) (s : Store) (c : OpRef) (b : BlockRef)
    (before : Option OpRef) (sc si : Store) : Prop where
  kept : Kept s gone
  grounded : Grounded s
  cloned : Cloned gone s c sc
  under : NewUnder s sc (· = c)
  insert : insertOp b before c sc = .ok ((), si)

namespace Placed

variable {gone : OpRef → Prop} {c : OpRef} {b : BlockRef} {before : Option OpRef} {sc si : Store}
  (h : Placed gone s c b before sc si)

include h

theorem old_ne {x : OpRef} {d : OpData} (hd : s.op? x = some d) : x ≠ c := by
  rintro rfl
  rw [h.cloned.new] at hd
  cases hd

theorem kept_after : Kept si gone := h.cloned.kept.insertOp h.insert

theorem grounded_after : Grounded si := (h.cloned.grounded h.grounded).insertOp h.insert

theorem op? {x : OpRef} {d : OpData} (hd : s.op? x = some d) : si.op? x = some d := by
  obtain ⟨e, bd, front, back, he, _, _, _, _, _, hsi⟩ := insertOp_ok h.insert
  rw [hsi, op?_attach he, if_neg (h.old_ne hd)]
  exact h.cloned.copied.op? x d hd

theorem op?_new : ∃ e, si.op? c = some e ∧ sc.resultsOf c = e.results := by
  obtain ⟨e, bd, front, back, he, _, _, _, _, _, hsi⟩ := insertOp_ok h.insert
  refine ⟨{ e with parent := some b }, ?_, by rw [resultsOf_eq he]⟩
  rw [hsi, op?_attach he, if_pos rfl]

theorem region? {r : RegionRef} {d : RegionData} (hd : s.region? r = some d) :
    si.region? r = some d := by
  obtain ⟨e, bd, front, back, _, _, _, _, _, _, hsi⟩ := insertOp_ok h.insert
  rw [hsi]
  exact h.cloned.copied.region? r d hd

theorem value? {v : ValueRef} {d : ValueData} (hd : s.value? v = some d) :
    si.value? v = some d := by
  obtain ⟨e, bd, front, back, _, _, _, _, _, _, hsi⟩ := insertOp_ok h.insert
  rw [hsi]
  exact h.cloned.copied.value? v d hd

theorem usesOf (v : ValueRef) : si.usesOf v = sc.usesOf v := by
  obtain ⟨e, bd, front, back, _, _, _, _, _, _, hsi⟩ := insertOp_ok h.insert
  rw [hsi]
  rfl

/-- Old blocks hold what they held, but for the new operation. -/
theorem block? {x : BlockRef} {d : BlockData} (hd : s.block? x = some d) :
    ∃ ops, si.block? x = some { d with ops := ops } ∧ ∀ out : List OpRef, c ∈ out →
      (∀ y ∈ out, s.op? y = none) → ops.filter (· ∉ out) = d.ops := by
  have hsc := h.cloned.copied.block? x d hd
  -- the members of an old block are old
  have hold : ∀ out : List OpRef, (∀ y ∈ out, s.op? y = none) → ∀ l : List OpRef,
      (∀ y ∈ l, y ∈ d.ops) → l.filter (· ∉ out) = l := by
    intro out hout l hl
    refine List.filter_eq_self.2 fun y hy => ?_
    have hparent := (h.kept.linked.ops.mem_iff (a := x) (by simp [opsIn, hd]) y).1 (hl y hy)
    obtain ⟨e, he, _⟩ := Option.map_eq_some_iff.1 hparent
    have hnot : y ∉ out := fun hmem => by
      rw [hout y hmem] at he
      cases he
    simpa using hnot
  obtain ⟨e, bd, front, back, _, _, hbd, hsplit, _, _, hsi⟩ := insertOp_ok h.insert
  rw [hsi, block?_attach hbd]
  by_cases hx : x = b
  · subst hx
    cases hsc.symm.trans hbd
    refine ⟨front ++ c :: back, if_pos rfl, fun out hc hout => ?_⟩
    rw [List.filter_append, List.filter_cons_of_neg (by simpa using hc),
      hold out hout front (fun y hy => by simp [hsplit, hy]),
      hold out hout back (fun y hy => by simp [hsplit, hy]), hsplit]
  · exact ⟨d.ops, by rw [if_neg hx, hsc], fun out _ hout => hold out hout d.ops fun _ hy => hy⟩

/-- Where everything old is as it was, but for the new operation and its uses, what is nested in the
new operation is all that is left to erase. -/
theorem restoredBut {t₂ : Store} (hop : ∀ x d, s.op? x = some d → t₂.op? x = some d)
    (hregion : ∀ r d, s.region? r = some d → t₂.region? r = some d)
    (hvalue : ∀ v d, s.value? v = some d → t₂.value? v = some d)
    (huses : ∀ v d, s.value? v = some d → t₂.usesOf v = si.usesOf v)
    (hblock : ∀ x d, s.block? x = some d → ∃ ops, t₂.block? x = some { d with ops := ops } ∧
      ∀ out : List OpRef, c ∈ out → (∀ y ∈ out, s.op? y = none) → ops.filter (· ∉ out) = d.ops)
    (hnests : Nests si t₂) (hl : Linked t₂) {out : List OpRef}
    (hout : ∀ x, x ∈ out ↔ Within t₂ c x) : RestoredBut s out t₂ := by
  have hnew : ∀ x, Within t₂ c x → s.op? x = none := by
    intro x hx
    induction hx with
    | refl => exact h.cloned.new
    | tail _ hchild ih =>
      refine op?_none_of_child h.kept.linked hl (fun y d hd => ⟨d, hop y d hd, rfl⟩)
        (fun y d hd => ?_) hregion hchild ih
      obtain ⟨ops, hops, _⟩ := hblock y d hd
      exact ⟨_, hops, rfl⟩
  have hc : c ∈ out := (hout c).2 .refl
  have hgone : ∀ x ∈ out, s.op? x = none := fun x hx => hnew x ((hout x).1 hx)
  refine ⟨hop, fun x d hd => ?_, hregion, hvalue, fun v d hd => ?_, hgone⟩
  · obtain ⟨ops, hops, hfilter⟩ := hblock x d hd
    exact ⟨ops, hops, hfilter out hc hgone⟩
  · rw [huses v d hd, h.usesOf]
    obtain ⟨added, heq, haddednew⟩ := h.cloned.copied.usesOf v
    have hfirst : (s.usesOf v).filter (·.user ∉ out) = s.usesOf v := by
      refine List.filter_eq_self.2 fun u hu => ?_
      obtain ⟨e, he, _⟩ := Option.bind_eq_some_iff.1 (h.kept.uses.pointsBack v u hu)
      have hnot : u.user ∉ out := fun hmem => by
        rw [hgone u.user hmem] at he
        cases he
      simpa using hnot
    -- uses that were added are by operations nested in the new one
    have hlast : added.filter (·.user ∉ out) = [] := by
      refine List.filter_eq_nil_iff.2 fun u hu => ?_
      have hmem : u ∈ sc.usesOf v := by
        rw [heq]
        exact List.mem_append_right _ hu
      obtain ⟨e, he, _⟩ := Option.bind_eq_some_iff.1 (h.cloned.kept.uses.pointsBack v u hmem)
      obtain ⟨y, rfl, hw⟩ := h.under u.user e he (haddednew u hu)
      have hw' := hnests.within ((Grows.insertOp h.insert).nests.within hw)
      simpa using (hout u.user).2 hw'
    rw [heq, List.filter_append, hfirst, hlast, List.append_nil]

end Placed

/-! ## The parts of a hoist -/

/-- A hoist went through: a copy `c` of `o` was put to a place and given the uses of `o`, and `o`
was taken out of block `b`, where `before` had followed it. -/
structure Hoisted (gone : OpRef → Prop) (s : Store) (o : OpRef) (p : Point) (b : BlockRef)
    (before : Option OpRef) (c : OpRef) (sc si sr t : Store) : Prop where
  entry : ∃ d, s.op? o = some d ∧ d.parent = some b
  next : s.next? o = .ok before
  placed : Placed gone s c p.block p.before sc si
  redirect : Journal.redirectResults o c si = .ok ((), sr)
  detach : detach o sr = .ok ((), t)

namespace Hoisted

variable {gone : OpRef → Prop} {o c : OpRef} {p : Point} {b : BlockRef} {before : Option OpRef}
  {sc si sr : Store} (h : Hoisted gone s o p b before c sc si sr t)

include h

theorem source_ne : o ≠ c := by
  obtain ⟨d, hd, _⟩ := h.entry
  exact h.placed.old_ne hd

theorem redirected : RedirectedAll si (resultPairs si o c) sr ∧ Kept sr gone ∧ Grounded sr :=
  redirectResults_ok h.placed.kept_after h.placed.grounded_after h.source_ne h.redirect

theorem unused {q : ValueRef × ValueRef} (hq : q ∈ resultPairs si o c) : si.usesOf q.2 = [] := by
  have hmem := (List.of_mem_zip hq).2
  obtain ⟨e, he, hresults⟩ := h.placed.op?_new
  rw [resultsOf_eq he, ← hresults] at hmem
  rw [h.placed.usesOf]
  exact h.placed.cloned.unused h.placed.grounded q.2 hmem

/-- The last part of a hoist, as a change of the store after the redirection. -/
theorem detached : ∃ d e bd, s.op? o = some d ∧ d.parent = some b ∧ sr.op? o = some e ∧
    si.block? b = some bd ∧ t = sr.unlink o e b bd := by
  obtain ⟨d, hd, hparent⟩ := h.entry
  obtain ⟨hr, _, _⟩ := h.redirected
  obtain ⟨e, he, hcases⟩ := detach_ok h.detach
  have heparent : e.parent = some b := by
    rw [hr.op?, h.placed.op? hd] at he
    cases he
    exact hparent
  obtain ⟨hnone, _⟩ | ⟨b', bd, hb', hbd, ht⟩ := hcases
  · rw [heparent] at hnone
    cases hnone
  · cases heparent.symm.trans hb'
    refine ⟨d, e, bd, hd, hparent, he, ?_, ht⟩
    rw [Store.block?, ← hr.blocks]
    exact hbd

theorem kept_after : Kept t gone := by
  obtain ⟨_, hkept, _⟩ := h.redirected
  exact hkept.detach h.detach

theorem consistent : Consistent t := by
  obtain ⟨_, _, hgrounded⟩ := h.redirected
  refine ⟨⟨gone, h.kept_after⟩, ?_⟩
  obtain ⟨_, e, bd, _, _, he, _, rfl⟩ := h.detached
  have hsame : (sr.setBlock b { bd with ops := bd.ops.filter (· != o) }).op? o = some e := he
  exact Grounded.setOp (e := { e with parent := none }) hgrounded hsame fun v hv =>
    hgrounded o e v he hv

/-- Moving keeps the results of operations. -/
theorem results {x : OpRef} {e : OpData} (he : si.op? x = some e) :
    ∃ e', t.op? x = some e' ∧ e'.results = e.results := by
  obtain ⟨_, e', bd, _, _, he', _, rfl⟩ := h.detached
  obtain ⟨hr, _, _⟩ := h.redirected
  have hsr : sr.op? x =
      some { e with operands := redirectedOperands si (resultPairs si o c) x e.operands } := by
    rw [hr.op?, he]
    rfl
  rw [op?_unlink he']
  by_cases hx : x = o
  · subst hx
    cases hsr.symm.trans he'
    exact ⟨_, if_pos rfl, rfl⟩
  · exact ⟨_, (if_neg hx).trans hsr, rfl⟩

/-- The redirection seen from the store in which the operation has left its block already. -/
theorem redirected_detached : ∃ d bd, s.op? o = some d ∧ d.parent = some b ∧
    si.block? b = some bd ∧ PointsBack (si.unlink o d b bd) ∧
    RedirectedAll (si.unlink o d b bd) (resultPairs si o c) t := by
  obtain ⟨d, e, bd, hd, hparent, he, hbd, rfl⟩ := h.detached
  obtain ⟨hr, _, _⟩ := h.redirected
  have hsi := h.placed.op? hd
  refine ⟨d, bd, hd, hparent, hbd, ?_, hr.unlink hsi he hbd⟩
  have huses := h.placed.kept_after.uses.setBlock b { bd with ops := bd.ops.filter (· != o) }
  exact (huses.setOp (e := { d with parent := none }) hsi rfl).pointsBack

end Hoisted

/-! ## Undoing a hoist -/

section UndoHoist

variable {gone gone' : OpRef → Prop} {o c : OpRef} {p : Point} {b : BlockRef}
  {before : Option OpRef} {sc si sr t₁ t₂ : Store}

/-- After the uses have gone back, and the operation has gone back into its block, only the copy is
left to erase. -/
structure Reinserted (si : Store) (o : OpRef) (b : BlockRef) (before : Option OpRef)
    (t₂ : Store) : Prop where
  op? : ∀ x d, si.op? x = some d → t₂.op? x = some d
  region? : ∀ r d, si.region? r = some d → t₂.region? r = some d
  value? : ∀ v d, si.value? v = some d → t₂.value? v = some d
  usesOf : ∀ v d, si.value? v = some d → t₂.usesOf v = si.usesOf v
  other : ∀ x d, x ≠ b → si.block? x = some d → t₂.block? x = some d
  home : ∀ d, si.block? b = some d → ∃ f g, t₂.block? b = some { d with ops := f ++ o :: g } ∧
    d.ops.filter (· != o) = f ++ g ∧ g.head? = before

theorem Hoisted.reinserted (h : Hoisted gone s o p b before c sc si sr s₁) (ht : Restores s₁ t)
    (hback : RedirectedAll t ((resultPairs si o c).map Prod.swap) t₁)
    (hinsert : insertOp b before o t₁ = .ok ((), t₂)) : Reinserted si o b before t₂ := by
  obtain ⟨d, bd, hd, hparent, hbd, hpoints, hfwd⟩ := h.redirected_detached
  have hsi := h.placed.op? hd
  have hlinked := h.placed.kept_after.linked
  have hrestores : Restores (si.unlink o d b bd) t₁ :=
    hfwd.undo (resultPairs_apart hlinked h.source_ne) hpoints (fun q hq => h.unused hq)
      (fun q hq => resultPairs_values hlinked hq) ht hback
  obtain ⟨d₁, bd₁, f, g, hd₁, _, hbd₁, hsplit, hhead, _, rfl⟩ := insertOp_ok hinsert
  have hentry : d₁ = { d with parent := none } := by
    have hold := hrestores.op? o _ ((op?_unlink hsi o).trans (if_pos rfl))
    exact Option.some.inj (hd₁.symm.trans hold)
  have hblock : bd₁ = { bd with ops := bd.ops.filter (· != o) } := by
    have hold := hrestores.block? b _ ((block?_unlink hbd b).trans (if_pos rfl))
    exact Option.some.inj (hbd₁.symm.trans hold)
  subst hblock
  refine ⟨fun x e he => ?_, fun r e he => hrestores.region? r e he,
    fun v e he => hrestores.value? v e he, fun v e he => hrestores.usesOf v e he,
    fun x e hx he => ?_, fun e he => ?_⟩
  · rw [op?_attach hd₁]
    by_cases hx : x = o
    · subst hx
      cases hsi.symm.trans he
      rw [if_pos rfl, hentry, ← hparent]
    · rw [if_neg hx]
      exact hrestores.op? x e ((op?_unlink hsi x).trans ((if_neg hx).trans he))
  · rw [block?_attach hbd₁, if_neg hx]
    exact hrestores.block? x e ((block?_unlink hbd x).trans ((if_neg hx).trans he))
  · cases hbd.symm.trans he
    exact ⟨f, g, (block?_attach hbd₁ _ b).trans (if_pos rfl), hsplit, hhead⟩

/-- Everything that the copy is made of is nested in it still. -/
theorem Reinserted.nests (hr : Reinserted si o b before t₂) : Nests si t₂ := by
  refine ⟨fun x d hd => ⟨d, hr.op? x d hd, rfl⟩, fun r d hd => ⟨d, hr.region? r d hd, rfl⟩,
    fun x d hd => ?_⟩
  by_cases hx : x = b
  · subst hx
    obtain ⟨f, g, hb, hsplit, _⟩ := hr.home d hd
    refine ⟨_, hb, fun y hy => ?_⟩
    by_cases hyo : y = o
    · simp [hyo]
    · have hmem : y ∈ f ++ g := by
        rw [← hsplit]
        exact List.mem_filter.2 ⟨hy, by simpa using hyo⟩
      simp only [List.mem_append, List.mem_cons] at hmem ⊢
      tauto
  · exact ⟨d, hr.other x d hx hd, fun _ hy => hy⟩

theorem Hoisted.restoredBut (h : Hoisted gone s o p b before c sc si sr s₁)
    (hr : Reinserted si o b before t₂) (hl : Linked t₂) {out : List OpRef}
    (hout : ∀ x, x ∈ out ↔ Within t₂ c x) : RestoredBut s out t₂ := by
  refine h.placed.restoredBut (fun x d hd => hr.op? x d (h.placed.op? hd))
    (fun r d hd => hr.region? r d (h.placed.region? hd))
    (fun v d hd => hr.value? v d (h.placed.value? hd))
    (fun v d hd => hr.usesOf v d (h.placed.value? hd)) (fun x d hx => ?_) hr.nests hl hout
  obtain ⟨ops, hops, hfilter⟩ := h.placed.block? hx
  by_cases hxb : x = b
  · subst hxb
    obtain ⟨f, g, hb, hsplit, hhead⟩ := hr.home _ hops
    refine ⟨f ++ o :: g, hb, fun out hc hnew => ?_⟩
    obtain ⟨e, he, hparent⟩ := h.entry
    have hin : s.opsIn x = some d.ops := by simp [opsIn, hx]
    have hmem : o ∈ d.ops :=
      (h.placed.kept.linked.ops.mem_iff hin o).2 (by simp [opParent, he, hparent])
    obtain ⟨front, back, hlist, hnext⟩ := next?_ok he hparent hx hmem h.next
    exact filter_reinsert (h.placed.kept.linked.ops.nodup hin) hlist (hfilter out hc hnew) hsplit
      (hhead.trans hnext.symm)
  · exact ⟨ops, hr.other x _ hxb hops, hfilter⟩

/-- Undoing a hoist gives the uses of the copy back to the original, puts the original back into its
block, and erases the copy. -/
theorem Hoisted.undo_ok (h : Hoisted gone s o p b before c sc si sr s₁) (ht : Restores s₁ t)
    (hkept : Kept t gone') (hgrounded : Grounded t) {u : Unit}
    (hundo : Journal.undo (.hoisted o b before c) t = .ok (u, t')) :
    ∃ t₁ t₂, RedirectedAll t ((resultPairs si o c).map Prod.swap) t₁ ∧ Kept t₁ gone' ∧
      Grounded t₁ ∧ insertOp b before o t₁ = .ok ((), t₂) ∧ eraseOp c t₂ = .ok ((), t') := by
  simp only [Journal.undo, Edit.bind_ok] at hundo
  obtain ⟨_, t₁, hredirect, _, t₂, hinsert, herase⟩ := hundo
  obtain ⟨hback, hkept₁, hgrounded₁⟩ :=
    redirectResults_ok hkept hgrounded h.source_ne.symm hredirect
  -- the same pairs as before, the other way round
  have hpairs : resultPairs t c o = (resultPairs si o c).map Prod.swap := by
    have hsame : ∀ {x e}, si.op? x = some e → t.resultsOf x = si.resultsOf x := by
      intro x e he
      obtain ⟨e', he', hresults⟩ := h.results he
      rw [resultsOf_eq (ht.op? x e' he'), resultsOf_eq he, hresults]
    obtain ⟨d, hd, _⟩ := h.entry
    obtain ⟨e, he, _⟩ := h.placed.op?_new
    rw [resultPairs, resultPairs, hsame (h.placed.op? hd), hsame he, List.zip_swap]
  rw [hpairs] at hback
  exact ⟨t₁, t₂, hback, hkept₁, hgrounded₁, hinsert, herase⟩

theorem Hoisted.undoes (h : Hoisted gone s o p b before c sc si sr s₁) :
    Undoes (.hoisted o b before c) s s₁ := by
  intro t t' u ht hconsistent hundo
  obtain ⟨⟨gone', hkept⟩, hgrounded⟩ := hconsistent
  obtain ⟨t₁, t₂, hback, hkept₁, hgrounded₁, hinsert, herase⟩ :=
    h.undo_ok ht hkept hgrounded hundo
  have hr := h.reinserted ht hback hinsert
  have hkept₂ := hkept₁.insertOp hinsert
  obtain ⟨out, he, hout⟩ := eraseOp_ok hkept₂.linked hkept₂.uses.pointsBack herase
  refine ⟨(h.restoredBut hr hkept₂.linked hout).erase he, ⟨_, hkept₂.eraseOp herase⟩, ?_⟩
  exact he.grounded (hgrounded₁.insertOp hinsert)

end UndoHoist

theorem hoist_hoisted {gone : OpRef → Prop} {o c : OpRef} {p : Point} (hk : Kept s gone)
    (hg : Grounded s) (h : hoist o p J s = .ok ((some c, J'), t)) :
    ∃ b before sc si sr m, Hoisted gone s o p b before c sc si sr t ∧
      cloneOp [] o s = .ok ((c, m), sc) ∧ J' = J ++ [.hoisted o b before c] := by
  obtain ⟨d, hd, ⟨_, hr, _⟩ | ⟨b, before, c', m, sc, si, sr, hparent, hnext, hclone, hinsert,
    hredirect, hdetach, hr, hJ⟩⟩ := hoist_ok h
  · cases hr
  · cases hr
    obtain ⟨hcloned, hunder⟩ := cloneOp_ok hk hclone
    exact ⟨b, before, sc, si, sr, m, ⟨⟨d, hd, hparent⟩, hnext,
      ⟨hk, hg, hcloned, hunder, hinsert⟩, hredirect, hdetach⟩, hclone, hJ⟩

/-- A hoist can be undone. -/
theorem HoistStep.undoable {x y : Journal × Store} (h : HoistStep x y) : UndoableStep x y := by
  obtain ⟨o, p, c, _, h⟩ := h
  obtain ⟨d, _, ⟨_, hr, _⟩ | ⟨b, before, _, _, _, _, _, _, _, _, _, _, _, _, hJ⟩⟩ := hoist_ok h
  · cases hr
  · refine ⟨_, hJ, fun hconsistent => ?_⟩
    obtain ⟨⟨gone, hk⟩, hg⟩ := hconsistent
    obtain ⟨_, _, _, _, _, _, hhoisted, _, hJ'⟩ := hoist_hoisted hk hg h
    cases List.append_cancel_left (hJ.symm.trans hJ')
    exact ⟨hhoisted.consistent, hhoisted.undoes⟩

/-! ## Undoing a cast -/

/-- A cast can be undone. -/
theorem CastStep.undoable {x y : Journal × Store} (h : CastStep x y) : UndoableStep x y := by
  obtain ⟨v, p, c, sc, hv, hcreate, hinsert, hJ⟩ := h
  refine ⟨_, hJ, fun hconsistent => ?_⟩
  obtain ⟨⟨gone, hk⟩, hg⟩ := hconsistent
  have hcloned : Cloned gone x.2 c sc := by
    refine Created.cloned (.refl x.2) hk id (fun _ w hw => ?_) (fun r hr => ?_) hcreate
    · rw [List.mem_singleton.1 hw]
      exact afterDefinition?_value hv
    · cases hr
  have hunder : NewUnder x.2 sc (· = c) := by
    intro o d hd hnone
    rw [(createOp_ok hcreate).op?] at hd
    by_cases hoc : o = c
    · exact ⟨c, rfl, hoc ▸ .refl⟩
    · rw [if_neg hoc, hnone] at hd
      cases hd
  have h : Placed gone x.2 c p.block p.before sc y.2 := ⟨hk, hg, hcloned, hunder, hinsert⟩
  refine ⟨⟨⟨gone, h.kept_after⟩, h.grounded_after⟩, ?_⟩
  intro t t' u ht hconsistent hundo
  obtain ⟨⟨gone', hk'⟩, hg'⟩ := hconsistent
  obtain ⟨out, he, hout⟩ := eraseOp_ok hk'.linked hk'.uses.pointsBack hundo
  have hnests : Nests y.2 t := ⟨fun o d hd => ⟨d, ht.op? o d hd, rfl⟩,
    fun r d hd => ⟨d, ht.region? r d hd, rfl⟩, fun b d hd => ⟨d, ht.block? b d hd, fun _ ho => ho⟩⟩
  have hbut := h.restoredBut (fun o d hd => ht.op? o d (h.op? hd))
    (fun r d hd => ht.region? r d (h.region? hd)) (fun w d hd => ht.value? w d (h.value? hd))
    (fun w d hd => ht.usesOf w d (h.value? hd)) (fun b d hd => ?_) hnests hk'.linked hout
  · exact ⟨hbut.erase he, ⟨_, hk'.eraseOp hundo⟩, he.grounded hg'⟩
  · obtain ⟨ops, hops, hfilter⟩ := h.block? hd
    exact ⟨ops, ht.block? b _ hops, hfilter⟩

/-! ## Undoing a journal -/

/-- Steps of a journal that began empty keep the store consistent, and undoing them in any store
that restores the last one restores the first one. -/
theorem undoable_run {x : Journal × Store} (hs : Consistent s)
    (h : Relation.ReflTransGen UndoableStep ([], s) x) : Consistent x.2 ∧
      ∀ {t t' u}, Restores x.2 t → Consistent t → Journal.rollback x.1 t = .ok (u, t') →
        Restores s t' ∧ Consistent t' := by
  induction h with
  | refl =>
    refine ⟨hs, fun ht hconsistent hrun => ?_⟩
    cases hrun
    exact ⟨ht, hconsistent⟩
  | tail _ hstep ih =>
    obtain ⟨hconsistent, hundo⟩ := ih
    obtain ⟨e, hJ, hstep⟩ := hstep
    obtain ⟨hafter, hundoes⟩ := hstep hconsistent
    refine ⟨hafter, fun ht hct hrun => ?_⟩
    -- the last entry is undone first
    rw [hJ, Journal.rollback, List.reverse_append, List.forM_eq_forM] at hrun
    simp only [List.reverse_cons, List.reverse_nil, List.nil_append, List.cons_append,
      List.forM_cons, Edit.bind_ok] at hrun
    obtain ⟨_, t₁, hfirst, hrest⟩ := hrun
    obtain ⟨hrestores, hct₁⟩ := hundoes ht hct hfirst
    rw [← List.forM_eq_forM] at hrest
    exact hundo hrestores hct₁ hrest

/-- A rollback restores the store in which the journal was empty. -/
theorem rollback_restores {u : Unit} (hs : Consistent s)
    (h : Relation.ReflTransGen UndoableStep ([], s) (J, t))
    (hrun : Journal.rollback J t = .ok (u, t')) : Restores s t' ∧ Consistent t' := by
  obtain ⟨hconsistent, hundo⟩ := undoable_run hs h
  exact hundo (.refl t) hconsistent hrun

end AffineRaising.Raise
