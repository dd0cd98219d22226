/-
# AffineRaising.Proofs.Raise.Spared — trees that an edit leaves alone.

What a hoist takes out of a module stands in no block, with everything that is nested in it, until
it is erased.  Edits of the module meanwhile do not reach it: the same operations are nested in it,
in the same order, and what they define is the same (`SameTree`).  There is one lemma for each kind
of edit, as in `VisibleEdits`.

Operands are another matter.  When uses go over to another value they do so in what was taken out
as well, so nothing is said of them here.  What is said of uses is that nobody comes to use what is
defined in the tree (`Spares`); that holds of every edit whose new operands the module can see.
-/
import AffineRaising.Proofs.Raise.VisibleEdits

namespace AffineRaising.Raise

open AffineRaising.IR AffineRaising.IR.Store AffineRaising.Analysis

variable {s s₁ t : Store} {u v w : ValueRef} {a c o q x y z : OpRef} {b : BlockRef}

/-! ## Same trees -/

/-- What is nested in the operation, what is offered to it there, and what it defines is the same in
both stores. -/
structure SameTree (s t : Store) (o : OpRef) : Prop where
  child_iff : ∀ y z, Within s o y → (Child t y z ↔ Child s y z)
  offered : ∀ y v, Relation.TransGen (Child s) o y → Offered s v y → Offered t v y
  results : ∀ y v k, Within s o y →
    (t.originOf v = some (.result y k) ↔ s.originOf v = some (.result y k))

namespace SameTree

theorem refl : SameTree s s o := ⟨fun _ _ _ => .rfl, fun _ _ _ hv => hv, fun _ _ _ _ => .rfl⟩

section Same

variable (h : SameTree s t o)

include h

/-- What is nested in something of the tree still is. -/
theorem within_of (hoa : Within s o a) (hw : Within s a x) : Within t a x := by
  induction hw with
  | refl => exact .refl
  | tail hab hc ih => exact ih.tail ((h.child_iff _ _ (hoa.trans hab)).2 hc)

theorem within_iff : Within t o x ↔ Within s o x := by
  refine ⟨fun hw => ?_, h.within_of .refl⟩
  induction hw with
  | refl => exact .refl
  | tail _ hc ih => exact ih.tail ((h.child_iff _ _ ih).1 hc)

theorem nested_iff : Relation.TransGen (Child t) o x ↔ Relation.TransGen (Child s) o x := by
  rw [Relation.TransGen.tail'_iff, Relation.TransGen.tail'_iff]
  refine exists_congr fun y => ⟨fun hy => ?_, fun hy => ?_⟩
  · have hoy : Within s o y := h.within_iff.1 hy.1
    exact ⟨hoy, (h.child_iff y x hoy).1 hy.2⟩
  · exact ⟨h.within_iff.2 hy.1, (h.child_iff y x hy.1).2 hy.2⟩

/-- What is seen inside of the tree stays seen there. -/
theorem seenInside (hv : SeenInside s o x v) : SeenInside t o x v := by
  obtain ⟨a, hoa, hax, hoffered⟩ := hv
  exact ⟨a, h.nested_iff.2 hoa, h.within_of hoa.to_reflTransGen hax, h.offered a v hoa hoffered⟩

end Same

theorem trans (h : SameTree s s₁ o) (h' : SameTree s₁ t o) : SameTree s t o where
  child_iff y z hy := (h'.child_iff y z (h.within_iff.2 hy)).trans (h.child_iff y z hy)
  offered y v hy hv := h'.offered y v (h.nested_iff.2 hy) (h.offered y v hy hv)
  results y v k hy := (h'.results y v k (h.within_iff.2 hy)).trans (h.results y v k hy)

/-! ### Edits -/

/-- Operations that keep the list of their results keep their results. -/
theorem results_iff (hs : Linked s) (ht : Linked t) {d e : OpData} (hd : s.op? y = some d)
    (he : t.op? y = some e) (heq : e.results = d.results) (k : Nat) :
    t.originOf v = some (.result y k) ↔ s.originOf v = some (.result y k) := by
  rw [← hs.results.mem_iff (a := y) (l := d.results) (by simp [resultsIn, hd]),
    ← ht.results.mem_iff (a := y) (l := d.results) (by simp [resultsIn, he, heq])]

/-- Something new that stands apart. -/
theorem copied (h : Copied s t) (hs : Linked s) (ht : Linked t) {d : OpData}
    (hd : s.op? o = some d) : SameTree s t o where
  child_iff y z hy := by
    obtain ⟨e, he⟩ := hs.op?_of_within ⟨d, hd⟩ hy
    exact h.child_iff hs he
  offered _ _ _ hv := h.grows.offered hv
  results y v k hy := by
    obtain ⟨e, he⟩ := hs.op?_of_within ⟨d, hd⟩ hy
    exact results_iff hs ht he (h.op? y e he) rfl k

/-- An operation that is put in front of another one, outside of the tree. -/
theorem inserted (h : InsertedBefore s c q b t) (hplace : ∀ p, Holds s p b → ¬ Within s o p) :
    SameTree s t o where
  child_iff y z hy := by
    refine ⟨fun hc => (h.child_cases hc).resolve_left fun hnew => ?_, h.grows.nests.child⟩
    exact hplace y hnew.2 hy
  offered _ _ _ hv := h.grows.offered hv
  results y v k _ := by rw [h.originOf_eq]

/-- Operands, attributes and uses that change. -/
theorem same (h : SameNesting s t) : SameTree s t o where
  child_iff _ _ _ := ⟨h.symm.grows.nests.child, h.grows.nests.child⟩
  offered _ _ _ hv := h.grows.offered hv
  results _ _ _ _ := by rw [originOf, originOf, value?, value?, h.values]

/-- Operations that leave their blocks, none of them inside of the tree. -/
theorem left {out : List OpRef} (h : LeftBlocks s out t) (hs : Linked s)
    (hout : ∀ y ∈ out, ¬ Relation.TransGen (Child s) o y) : SameTree s t o where
  child_iff y z hy := by
    rw [h.child_iff]
    exact and_iff_left_of_imp fun hc hz => hout z hz (.tail' hy hc)
  offered y v hy hv := by
    refine h.thinned.offered hv (fun hyo => hout y hyo hy) fun p k hvp hp => ?_
    rcases hv with ⟨_, _, _, hvb, _⟩ | ⟨p', _, hvp', hpy⟩
    · cases hvb.symm.trans hvp
    · cases hvp'.symm.trans hvp
      -- what offers its result there stands where the other one stands
      obtain ⟨z, hoz, hzy⟩ := Relation.TransGen.tail'_iff.1 hy
      exact hout p hp (.tail' hoz ((hpy.child_iff hs).2 hzy))
  results y v k _ := by rw [h.originOf_eq]

end SameTree

/-! ## Spared trees -/

/-- The tree is the same, and nobody has come to use what is defined in it. -/
structure Spares (s t : Store) (o : OpRef) : Prop extends SameTree s t o where
  users : ∀ y v k, Within s o y → s.originOf v = some (.result y k) →
    ∀ u ∈ t.usesOf v, u ∈ s.usesOf v

namespace Spares

theorem refl : Spares s s o := ⟨.refl, fun _ _ _ _ _ _ hu => hu⟩

theorem trans (h : Spares s s₁ o) (h' : Spares s₁ t o) : Spares s t o where
  toSameTree := h.toSameTree.trans h'.toSameTree
  users y v k hy hv u hu := h.users y v k hy hv u
    (h'.users y v k (h.within_iff.2 hy) ((h.results y v k hy).2 hv) u hu)

end Spares

end AffineRaising.Raise
