/-
# AffineRaising.Proofs.Raise.SoundChange — carrying out what a pattern asks for.

A pattern leaves a sound module in which the operation it looked at still stands, apart from what it
asks for (`Asked`): an operation that is to take its place is on its way and uses what is seen from
that place, and values that are to take over its results are seen there.  Carrying the change out
leaves a module that is sound with nothing on its way (`applyChange_settled`).
-/
import AffineRaising.Proofs.Raise.SoundEdits
import AffineRaising.Proofs.Raise.Visit

namespace AffineRaising.IR

open AffineRaising.IR.Store

variable {s t t' : Store} {c q : OpRef} {d : OpData} {b : BlockRef} {bd : BlockData}
  {front back : List OpRef} {before : Option OpRef}

/-- What an insertion comes to, given where it goes. -/
theorem insertOp_eq (hd : s.op? c = some d) (hparent : d.parent = none) (hb : s.block? b = some bd)
    (hsplit : bd.ops = front ++ back) (hhead : back.head? = before)
    (hfront : ∀ x, before = some x → x ∉ front) :
    insertOp b before c s = .ok ((), s.attach c d b bd (front ++ c :: back)) := by
  cases before with
  | none =>
    obtain rfl := List.head?_eq_none_iff.1 hhead
    simp only [insertOp, pushOp, Edit.op_eq hd, hparent, Option.isSome_none, Bool.false_eq_true,
      if_false, Edit.block_eq hb, Edit.modify_run, hsplit, List.append_nil]
    rfl
  | some x =>
    obtain ⟨back, rfl⟩ := List.head?_eq_some_iff.1 hhead
    have hidx : bd.ops.idxOf? x = some front.length := by
      refine List.idxOf?_eq_some_iff.2 ⟨by simp [hsplit], by simp [hsplit], fun j hj heq => ?_⟩
      refine hfront x rfl ?_
      have hj' : j < bd.ops.length := by simp [hsplit]; omega
      have hget : bd.ops[j] = front[j] := by simp [hsplit, List.getElem_append_left hj]
      exact heq ▸ hget ▸ List.getElem_mem hj
    simp only [insertOp, insertBefore, Edit.op_eq hd, hparent, Option.isSome_none,
      Bool.false_eq_true, if_false, Edit.block_eq hb, hidx, Edit.modify_run]
    rw [hsplit, List.take_left, List.drop_left]
    rfl

/-- Redirecting and putting an operation into a block do not meet. -/
theorem RedirectedAll.insertOp {ps : List (ValueRef × ValueRef)} (h : RedirectedAll s ps t)
    {u : Unit} (hrun : insertOp b before c t = .ok (u, t')) :
    ∃ s', IR.insertOp b before c s = .ok ((), s') ∧ RedirectedAll s' ps t' := by
  obtain ⟨e, bd, front, back, he, hparent, hb, hsplit, hhead, hfront, rfl⟩ := insertOp_ok hrun
  have hentry := he
  rw [h.op?] at hentry
  obtain ⟨d, hd, rfl⟩ := Option.map_eq_some_iff.1 hentry
  have hb' : s.block? b = some bd := by
    rw [Store.block?, ← h.blocks]
    exact hb
  refine ⟨_, insertOp_eq hd hparent hb' hsplit hhead hfront, h.values, ?_, h.regions, fun x => ?_,
    h.usesOf_old, h.usesOf_new, h.usesOf_other⟩
  · show t.blocks.setIfInBounds _ _ = s.blocks.setIfInBounds _ _
    rw [h.blocks]
  · rw [op?_attach he, op?_attach hd]
    by_cases hx : x = c
    · subst hx
      rw [if_pos rfl, if_pos rfl]
      rfl
    · rw [if_neg hx, if_neg hx, h.op?]
      rfl

end AffineRaising.IR

namespace AffineRaising.Raise

open AffineRaising.IR AffineRaising.IR.Store AffineRaising.Ops AffineRaising.Analysis
open AffineRaising.Transform

variable {sided : Prop} {gone : OpRef → Prop} {s t : Store} {v w : ValueRef} {root c op x : OpRef}

/-! ## What is asked for -/

/-- The module is sound, and nothing is on its way. -/
def Settled (sided : Prop) (root : OpRef) (s : Store) : Prop :=
  ∃ gone, Sound sided root gone (fun _ => False) s

/-- An operation other than the module can go where another one stands. -/
structure Arriving (root : OpRef) (gone : OpRef → Prop) (op c : OpRef) (s : Store) : Prop where
  live : ¬ gone c
  ne_root : c ≠ root
  ne : c ≠ op
  sees : ∀ x d w, Within s c x → s.op? x = some d → w ∈ d.operands →
    Sees s w op ∨ SeenInside s c x w

/-- What a pattern leaves that asks for a change of `op`. -/
def Asked (sided : Prop) (root op : OpRef) : Change → Store → Prop
  | .none, s => Settled sided root s ∧ Nested s root op
  | .inPlace, s => Settled sided root s ∧ Nested s root op
  | .replaceBy c, s => ∃ gone, Sound sided root gone (· = c) s ∧ Nested s root op ∧
      Arriving root gone op c s
  | .eraseFor vs, s => Settled sided root s ∧ Nested s root op ∧ vs.Nodup ∧ ∀ v ∈ vs, Sees s v op

/-! ## Changes -/

/-- Values that take over the results of an operation are seen wherever the results were, if the
operation saw them. -/
theorem sees_of_replaced (hl : Linked s) (hv : w ∈ s.resultsOf op) (hw : Sees s v op)
    (hx : Sees s w x) : Sees s v x := by
  obtain ⟨k, hk⟩ := originOf_of_mem_results hl hv
  exact hw.of_definition hl hx hk

/-- After a change that was asked for the module is sound, with nothing on its way. -/
theorem applyChange_settled {change : Change} {u : Unit} (h : Asked sided root op change s)
    (hrun : applyChange op change s = .ok (u, t)) : Settled sided root t := by
  cases change with
  | none =>
    cases hrun
    exact h.1
  | inPlace =>
    cases hrun
    exact h.1
  | eraseFor vs =>
    obtain ⟨⟨gone, hs⟩, hop, hnodup, hsees⟩ := h
    have hl := hs.linked
    obtain ⟨_, s₁, hreplace, herase⟩ := Edit.bind_ok.1 hrun
    rw [replaceResults, Edit.get_bind] at hreplace
    split at hreplace
    · cases hreplace
    rw [← forM_replaceAllUses_eq] at hreplace
    have happart : Apart ((s.resultsOf op).zip vs) := by
      refine .zip (results_nodup hl op) hnodup fun v hv hv' => ?_
      obtain ⟨k, hk⟩ := originOf_of_mem_results hl hv
      exact ne_result_of_reaches hl hs.acyclic (hsees v hv') ⟨op, .refl, .inl rfl⟩ k hk
    obtain ⟨hr, hk⟩ := forM_replaceAllUses_ok happart hs.tidy.kept hreplace
    have hs₁ := hs.redirected hr hk
      (fun p hp => value?_of_sees (hsees _ (List.of_mem_zip hp).2))
      fun p hp x _ => sees_of_replaced hl (List.of_mem_zip hp).1 (hsees _ (List.of_mem_zip hp).2)
    have hne : op ≠ root := hop.ne_root hl hs.top
    exact ⟨_, (hs₁.erased hne herase).mono fun o ho => ho.1⟩
  | replaceBy c =>
    obtain ⟨gone, hs, hop, harrives⟩ := h
    have hl := hs.linked
    rw [applyChange, Edit.query_bind] at hrun
    obtain ⟨d, hd, hrun⟩ := hrun
    rw [Edit.get_bind] at hrun
    obtain ⟨_, s₁, hreplace, hrun⟩ := Edit.bind_ok.1 hrun
    obtain ⟨b, hb⟩ := hop.attached hl
    obtain ⟨d', hd', hparent⟩ := opParent_eq_some.1 hb
    cases (op_ok.1 hd).symm.trans hd'
    simp only [hparent] at hrun
    obtain ⟨_, s₂, hinsert, herase⟩ := Edit.bind_ok.1 hrun
    rw [replaceResults, Edit.get_bind] at hreplace
    split at hreplace
    · cases hreplace
    rw [← forM_replaceAllUses_eq] at hreplace
    obtain ⟨hr, hk⟩ := forM_replaceAllUses_ok (resultPairs_apart hl harrives.ne.symm)
      hs.tidy.kept hreplace
    -- the new operation could have been put in place first
    obtain ⟨si, hi, hri⟩ := hr.insertOp (insertBefore_eq_insertOp b op c ▸ hinsert)
    have hsi := hs.inserted harrives.live harrives.ne_root hi hop harrives.sees
    have hbefore := insertedBefore_of_ok hi
    have hs₂ := hsi.redirected hri (hk.insertOp (insertBefore_eq_insertOp b op c ▸ hinsert))
      (fun p hp => ?_) fun p hp x _ hx => ?_
    · have hne : op ≠ root := hop.ne_root hl hs.top
      exact ⟨_, (hs₂.erased hne herase).mono fun o ho => ho.1.2 ho.1.1⟩
    · rw [Store.value?, hbefore.values]
      exact (resultPairs_values hl hp).2
    · obtain ⟨hold, hnew⟩ := List.of_mem_zip hp
      obtain ⟨k, hk⟩ := originOf_of_mem_results hl hold
      obtain ⟨k', hk'⟩ := originOf_of_mem_results hl hnew
      rw [← hbefore.originOf_eq] at hk hk'
      have hahead : StandsAhead si c op := by
        obtain ⟨a, ha, hca⟩ := hbefore.precedes_new hl ⟨op, .refl, .inl rfl⟩
        exact ⟨a, hbefore.grows.nests.within ha, hca⟩
      exact (hahead.trans hsi.linked (hx.reaches hk)).sees hk'

end AffineRaising.Raise
