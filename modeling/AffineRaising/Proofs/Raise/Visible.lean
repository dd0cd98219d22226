/-
# AffineRaising.Proofs.Raise.Visible — modules in which every operation sees its operands.

A module is an operation in no block, and `Visible` says that whatever is nested in it sees its
operands.  Then whatever sees a value also sees what the value is computed from, and so does whoever
still looks at values whose definitions have left the module.
-/
import AffineRaising.Proofs.Raise.Traced
import AffineRaising.Proofs.Store.Inserted

namespace AffineRaising.Raise

open AffineRaising.IR AffineRaising.IR.Store AffineRaising.Analysis

variable {s t : Store} {away : OpRef → Prop} {u v w : ValueRef} {root a o x y z : OpRef}
  {b : BlockRef}

/-! ## What is nested in a module -/

/-- Operation `x` is nested in `root`. -/
def Nested (s : Store) (root x : OpRef) : Prop := Relation.TransGen (Child s) root x

theorem Nested.within (h : Nested s root x) : Within s root x := h.to_reflTransGen

theorem nested_of_within (h : Within s root x) (hne : x ≠ root) : Nested s root x :=
  (Relation.reflTransGen_iff_eq_or_transGen.1 h).resolve_left hne

theorem Nested.trans_within (h : Nested s root x) (hxy : Within s x y) : Nested s root y :=
  Relation.TransGen.trans_left h hxy

theorem Nested.attached (hl : Linked s) (h : Nested s root x) :
    ∃ b, s.opParent x = some (some b) := by
  obtain ⟨p, _, hc⟩ := Relation.TransGen.tail'_iff.1 h
  obtain ⟨b, bd, _, hbd, hmem⟩ := child_iff.1 hc
  exact ⟨b, opParent_of_mem hl hbd hmem⟩

section Module

variable (hl : Linked s) (htop : s.opParent root = some none)

include hl

theorem Precedes.nested_iff (h : Precedes s y x) : Nested s root y ↔ Nested s root x :=
  precedes_transGen_iff hl h

include htop

/-- What encloses something in a module is the module or nested in it. -/
theorem Nested.enclosing (hx : Nested s root x) (ha : Within s a x) : Within s root a := by
  rcases within_or_within hl hx.within ha with h | h
  · exact h
  · rw [eq_of_within_detached hl htop h]
    exact .refl

theorem Nested.enclosing_attached (hx : Nested s root x) (ha : Within s a x)
    (hab : s.opParent a = some (some b)) : Nested s root a := by
  refine nested_of_within (hx.enclosing hl htop ha) ?_
  rintro rfl
  rw [htop] at hab
  cases hab

/-- Something that stands in no block shares nothing with a module. -/
theorem Nested.not_within_detached (hx : Nested s root x) (hz : s.opParent z = some none)
    (hne : z ≠ root) : ¬ Within s z x := fun hw =>
  hne (eq_of_within_detached hl hz (hx.enclosing hl htop hw)).symm

theorem Nested.of_reaches (hx : Nested s root x) (h : Reaches s y x)
    (hy : s.opParent y = some (some b)) : Nested s root y := by
  obtain ⟨a, hax, rfl | hya⟩ := h
  · exact hx.enclosing_attached hl htop hax hy
  · obtain ⟨b', bd, hbd, hpair⟩ := id hya
    exact (Precedes.nested_iff hl hya).2
      (hx.enclosing_attached hl htop hax (opParent_of_mem hl hbd (right_mem_of_pair hpair)))

/-- The definition of what is seen in a module is in the module. -/
theorem Nested.definition (hx : Nested s root x) (hv : Sees s v x) {k : Nat}
    (horigin : s.originOf v = some (.result o k)) : Nested s root o := by
  obtain ⟨a, hax, hoa⟩ := hv.reaches horigin
  obtain ⟨b, bd, hbd, hpair⟩ := id hoa
  exact (Precedes.nested_iff hl hoa).2
    (hx.enclosing_attached hl htop hax (opParent_of_mem hl hbd (right_mem_of_pair hpair)))

end Module

/-! ## Modules in which everything sees its operands -/

/-- Whatever is nested in the operation sees its operands. -/
def Visible (s : Store) (root : OpRef) : Prop :=
  ∀ x d v, Nested s root x → s.op? x = some d → v ∈ d.operands → Sees s v x

section Visible

variable (hl : Linked s)

include hl

/-- A value from outside an operation that is seen inside is seen by the operation. -/
theorem sees_of_inside (hx : Sees s v x) (hox : Within s o x) (hout : ¬ Inside s o v) :
    Sees s v o := by
  obtain ⟨a, hax, hoffered⟩ := hx
  rcases within_or_within hl hax hox with h | h
  · exact ⟨a, h, hoffered⟩
  rcases Relation.reflTransGen_iff_eq_or_transGen.1 h with rfl | h
  · exact hoffered.sees
  · obtain ⟨b, bd, hlives, hbd, hmem⟩ := lives_of_offered hl hoffered
    obtain ⟨q, hq, hc⟩ := Relation.TransGen.tail'_iff.1 h
    exact absurd ⟨b, q, hlives, (child_iff_holds hl hbd hmem).1 hc, hq⟩ hout

namespace Visible

variable (h : Visible s root)

include h

theorem free_seen (ho : Nested s root o) (hu : Free s o u) : Sees s u o := by
  obtain ⟨z, d, hz, hd, hmem, hout⟩ := hu
  exact sees_of_inside hl (h z d u (ho.trans_within hz) hd hmem) hz hout

variable (htop : s.opParent root = some none)

include htop

/-- Whatever sees a value sees what it is computed from. -/
theorem computedFrom_seen (hx : Nested s root x) (hv : Sees s v x) (hw : ComputedFrom s v w) :
    Sees s w x := by
  obtain ⟨o, k, z, d, horigin, hz, hd, hmem, hout⟩ := hw
  have ho := hx.definition hl htop hv horigin
  have hwz := h z d w (ho.trans_within hz) hd hmem
  refine Sees.of_definition hl ?_ hv horigin
  rcases hout with rfl | hout
  · exact hwz
  · exact sees_of_inside hl hwz hz hout

/-- Whatever can look at a value can look at what it is computed from. -/
theorem computedFrom_inReach (hx : Nested s root x) (hv : InReach away s x v)
    (hw : ComputedFrom s v w) : InReach away s x w := by
  by_cases hadrift : Adrift s v
  · exact hv.computedFrom hadrift hw
  · exact .of_sees hl (h.computedFrom_seen hl htop hx (hv.sees hadrift) hw)

end Visible

end Visible

end AffineRaising.Raise
