/-
# AffineRaising.Proofs.Raise.Held — stores that hold a module.

What raising takes out of a module stays behind in the tables, with the operands that it had.  So a
store holds a module next to the remains of others: whatever was created and not removed is in the
module, what was removed stands in no block, and the tables are consistent (`HoldsModule`).  A
program that was just read is held so, with nothing removed (`HoldsModule.of_built`), and raising
leaves such a store behind, with more removed.

If the module passes the check of visibility, everything that was not removed sees its operands
(`HoldsModule.seesOperands`).  Nothing of the kind is known of what was removed, whose operands may
even be its own results; the ranks that come from the order of the module leave it out.
-/
import AffineRaising.Proofs.Raise.Commit
import AffineRaising.Proofs.Raise.Termination
import AffineRaising.Proofs.Store.Sized

namespace AffineRaising.Raise

open AffineRaising.IR AffineRaising.IR.Store AffineRaising.Analysis

variable {gone : OpRef → Prop} {s : Store} {root x y z : OpRef} {d : OpData}

/-! ## The body of a module -/

/-- The body is all there is in a module with one region. -/
theorem inBody_of_nested (hd : s.op? root = some d) (hregions : d.regions.length ≤ 1)
    (hx : Relation.TransGen (Child s) root x) : InBody s root x := by
  obtain ⟨y, ⟨d', hd', r, hr, hin⟩, hw⟩ := Relation.TransGen.head'_iff.1 hx
  cases hd.symm.trans hd'
  refine ⟨d, hd, r, ?_, y, ⟨r, List.mem_singleton_self r, hin⟩, hw⟩
  obtain ⟨r', hr'⟩ : ∃ r', d.regions = [r'] :=
    List.length_eq_one_iff.1 (hregions.antisymm (List.length_pos_of_mem hr))
  rw [hr'] at hr ⊢
  exact congrArg some (List.mem_singleton.1 hr).symm

/-! ## Modules among what was removed -/

/-- The store holds a module, and nothing else but what was removed. -/
structure HoldsModule (root : OpRef) (gone : OpRef → Prop) (s : Store) : Prop where
  tidy : Tidy gone s
  sized : Sized s
  acyclic : Acyclic s
  top : s.opParent root = some none
  all : ∀ x d, s.op? x = some d → ¬ gone x → Within s root x
  bare : ∀ d, s.op? root = some d → d.operands = []

namespace HoldsModule

/-- A program that was just read is held, and nothing was removed from it. -/
theorem of_built {tree : Surface.Op} {scope : Scope}
    (h : buildOp Scope.empty tree Store.empty = .ok (.ok (root, scope), s)) :
    HoldsModule root (fun _ => False) s where
  tidy := .of_built h
  sized := sized_of_built h
  acyclic := acyclic_of_read h
  top := by
    obtain ⟨d, hd, hparent⟩ := detached_of_read h
    exact opParent_eq_some.2 ⟨d, hd, hparent⟩
  all x d hd _ := by
    obtain ⟨_, rfl, hw⟩ := (buildOp_built tree h).1.ops x d hd (op?_empty x)
    exact hw
  bare d hd := by
    obtain ⟨head, regions⟩ := tree
    obtain ⟨spec, s₁, _, hoperands, hcreate, _⟩ := buildOp_ok h
    have hentry := ((createOp_ok hcreate).op? root).trans (if_pos rfl)
    cases hd.symm.trans hentry
    exact List.eq_nil_iff_forall_not_mem.2 fun v hv => Scope.not_binds_empty (hoperands v hv)

variable (h : HoldsModule root gone s)

include h

theorem consistent : Consistent s := ⟨⟨gone, h.tidy.kept⟩, h.tidy.grounded⟩

/-- What was not removed stands in a block, the module itself apart. -/
theorem attached (hd : s.op? x = some d) (hlive : ¬ gone x) (hne : x ≠ root) :
    ∃ b, d.parent = some b := by
  rcases Relation.ReflTransGen.cases_tail (h.all x d hd hlive) with heq | ⟨q, _, hq⟩
  · exact absurd heq hne
  · obtain ⟨b, bd, _, hbd, hmem⟩ := child_iff.1 hq
    obtain ⟨d', hd', hparent⟩ := h.tidy.kept.linked.op?_of_mem hbd hmem
    cases hd.symm.trans hd'
    exact ⟨b, hparent⟩

/-- In a module with one region that passes the check of visibility, everything that was not removed
sees its operands. -/
theorem seesOperands (hvisible : visibilityFlaws s root = .ok [])
    (hregions : ∀ d, s.op? root = some d → d.regions.length ≤ 1) : SeesOperands gone s where
  detached x d hx hd := h.tidy.removed x d hx hd
  sees x d v hx hd hv := by
    rcases Relation.reflTransGen_iff_eq_or_transGen.1 (h.all x d hd hx) with rfl | hnested
    · rw [h.bare d hd] at hv
      cases hv
    · obtain ⟨rd, hrd, _⟩ := opParent_eq_some.1 h.top
      exact sees_of_visibilityFlaws h.tidy.kept.linked h.acyclic hvisible
        (inBody_of_nested hrd (hregions rd hrd) hnested) hd hv

end HoldsModule

end AffineRaising.Raise
