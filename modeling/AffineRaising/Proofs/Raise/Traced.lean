/-
# AffineRaising.Proofs.Raise.Traced — values whose definitions may have left the program.

While a pattern moves computations it holds values whose definitions have been taken out of their
blocks, and what such a definition uses is looked at as if it were still there.  A value is traced
if it has a property, mostly that an operation sees it, or its definition is one of those that went
away, and if the same is true of all that the definitions that went away are computed from.  This is
what later edits keep: `Traced.later`.
-/
import AffineRaising.Proofs.Raise.Upstream

namespace AffineRaising.IR

open Store

variable {s : Store} {u v : ValueRef} {o x y : OpRef}

/-! ## What is seen from behind -/

section Order

variable (hl : Linked s)

include hl

/-- What the first of two neighbours sees the second one sees. -/
theorem Sees.of_precedes (h : Sees s v y) (hyx : Precedes s y x) : Sees s v x := by
  obtain ⟨a, hay, hoffered⟩ := h
  by_cases hne : a = y
  · subst hne
    refine ⟨x, .refl, ?_⟩
    obtain ⟨b, bd, hbd, hpair⟩ := id hyx
    rcases hoffered with ⟨b', k, bd', hv, hbd', hmem⟩ | ⟨o, k, hv, ho⟩
    · cases hl.block_unique hbd (left_mem_of_pair hpair) hbd' hmem
      exact .inl ⟨b, k, bd, hv, hbd, right_mem_of_pair hpair⟩
    · exact .inr ⟨o, k, hv, ho.trans hl hyx⟩
  · exact ⟨a, hyx.within hl hay hne, hoffered⟩

/-- What an operation sees is seen from wherever it is reached. -/
theorem Sees.of_reaches (h : Sees s v y) (hyx : Reaches s y x) : Sees s v x := by
  obtain ⟨a, hax, rfl | hya⟩ := hyx
  · exact h.within hax
  · exact (h.of_precedes hl hya).within hax

/-- What the definition of a value sees is seen by whatever sees the value. -/
theorem Sees.of_definition (h : Sees s u o) (hv : Sees s v x) {k : Nat}
    (horigin : s.originOf v = some (.result o k)) : Sees s u x := by
  obtain ⟨a, hax, hoa⟩ := hv.reaches horigin
  exact (h.of_precedes hl hoa).within hax

end Order

end AffineRaising.IR

namespace AffineRaising.Raise

open AffineRaising.IR AffineRaising.IR.Store AffineRaising.Analysis

variable {s t : Store} {away away' : OpRef → Prop} {P Q : ValueRef → Prop} {u v w : ValueRef}
  {o x y : OpRef}

/-! ## Order -/

theorem endsBefore_of_sees (hv : Sees s v x) {k : Nat}
    (horigin : s.originOf v = some (.result o k)) : EndsBefore s o x := by
  obtain ⟨a, hax, hoa⟩ := hv.reaches horigin
  exact .inr ⟨a, o, hax, hoa, .refl⟩

section Order

variable (hl : Linked s)

include hl

theorem not_adrift_of_sees (h : Sees s v x) : ¬ Adrift s v := by
  rintro ⟨o, k, hv, hnone⟩
  obtain ⟨a, _, b, bd, hbd, hpair⟩ := h.reaches hv
  obtain ⟨d, hd, hparent⟩ := hl.op?_of_mem hbd (left_mem_of_pair hpair)
  rw [opParent, hd, Option.map_some, hparent] at hnone
  cases hnone

theorem EndsBefore.not_within (hac : Acyclic s) (h : EndsBefore s o x) : ¬ Within s o x := by
  intro hw
  rcases Relation.reflTransGen_iff_eq_or_transGen.1 hw with rfl | hw
  · exact h.irrefl hl hac
  · exact (h.trans hl (.inl hw)).irrefl hl hac

/-- What is seen from a place in front of an operation is no result of it. -/
theorem ne_result_of_reaches (hac : Acyclic s) (h : Sees s v y) (hyo : Reaches s y o) (k : Nat) :
    s.originOf v ≠ some (.result o k) := fun horigin =>
  (endsBefore_of_sees (h.of_reaches hl hyo) horigin).irrefl hl hac

end Order

/-! ## Values that are away -/

/-- The value is a result of one of the given operations, which stands in no block. -/
def AdriftOf (away : OpRef → Prop) (s : Store) (v : ValueRef) : Prop :=
  ∃ o k, s.originOf v = some (.result o k) ∧ s.opParent o = some none ∧ away o

theorem AdriftOf.adrift (h : AdriftOf away s v) : Adrift s v := by
  obtain ⟨o, k, hv, hnone, _⟩ := h
  exact ⟨o, k, hv, hnone⟩

theorem AdriftOf.mono (h : AdriftOf away s v) (haway : ∀ o, away o → away' o) :
    AdriftOf away' s v := by
  obtain ⟨o, k, hv, hnone, ho⟩ := h
  exact ⟨o, k, hv, hnone, haway o ho⟩

/-- The operation that defines the first value uses the second one: as an operand, or in something
nested in it as a value from outside. -/
def ComputedFrom (s : Store) (v w : ValueRef) : Prop :=
  ∃ o k z d, s.originOf v = some (.result o k) ∧ Within s o z ∧ s.op? z = some d ∧
    w ∈ d.operands ∧ (z = o ∨ ¬ Inside s o w)

/-- The value has the property or is away, and so is everything that those that are away are
computed from. -/
def Traced (away : OpRef → Prop) (s : Store) (P : ValueRef → Prop) (v : ValueRef) : Prop :=
  ∀ w, Relation.ReflTransGen (fun a b => Adrift s a ∧ ComputedFrom s a b) v w →
    P w ∨ AdriftOf away s w

namespace Traced

theorem holds (h : Traced away s P v) : P v ∨ AdriftOf away s v := h v .refl

theorem computedFrom (h : Traced away s P v) (hv : Adrift s v) (hw : ComputedFrom s v w) :
    Traced away s P w := fun u hu => h u (.head ⟨hv, hw⟩ hu)

theorem of_holds (hv : P v) (hadrift : ¬ Adrift s v) : Traced away s P v := by
  intro w hw
  rcases Relation.ReflTransGen.cases_head hw with rfl | ⟨u, ⟨hv', _⟩, _⟩
  · exact .inl hv
  · exact absurd hv' hadrift

theorem mono (h : Traced away s P v) (hP : ∀ w, P w → Q w) (haway : ∀ o, away o → away' o) :
    Traced away' s Q v := fun w hw => (h w hw).imp (hP w) fun h => h.mono haway

/-- A traced value stays traced if what has the property keeps it or goes away, what is away stays
away, and whatever those that are away are computed from afterwards was traced before or has the
property. -/
theorem later (h : Traced away s P v) (hP : ∀ w, P w → Q w ∨ AdriftOf away' t w)
    (haway : ∀ w, AdriftOf away s w → AdriftOf away' t w) (hQ : ∀ w, Q w → ¬ Adrift t w)
    (hfrom : ∀ w u, Traced away s P w → Adrift t w → ComputedFrom t w u →
      Q u ∨ Traced away s P u) : Traced away' t Q v := by
  intro w hw
  have hreach : Q w ∨ Traced away s P w := by
    induction hw with
    | refl => exact .inr h
    | tail _ hstep ih =>
      obtain ⟨hadrift, hcomputed⟩ := hstep
      rcases ih with hQw | htraced
      · exact absurd hadrift (hQ _ hQw)
      · exact hfrom _ _ htraced hadrift hcomputed
  rcases hreach with hQw | htraced
  · exact .inl hQw
  · exact htraced.holds.elim (hP w) fun h => .inr (haway w h)

end Traced

/-! ## Values that an operation can look at -/

/-- Whatever the operation can still look at: values that it sees, and values that are away. -/
abbrev InReach (away : OpRef → Prop) (s : Store) (x : OpRef) (v : ValueRef) : Prop :=
  Traced away s (fun w => Sees s w x) v

namespace InReach

variable (hl : Linked s)

include hl

theorem of_sees (h : Sees s v x) : InReach away s x v := .of_holds h (not_adrift_of_sees hl h)

omit hl in
theorem within (h : InReach away s y v) (hw : Within s y x) : InReach away s x v :=
  h.mono (fun _ hv => hv.within hw) fun _ ho => ho

/-- What the definition of a value can look at, whatever sees the value can look at. -/
theorem of_definition (h : InReach away s o u) (hv : Sees s v x) {k : Nat}
    (horigin : s.originOf v = some (.result o k)) : InReach away s x u :=
  h.mono (fun _ hw => hw.of_definition hl hv horigin) fun _ ho => ho

omit hl in
/-- What can be looked at and stands in a block is seen. -/
theorem sees (h : InReach away s x v) (hv : ¬ Adrift s v) : Sees s v x :=
  h.holds.resolve_right fun haway => hv haway.adrift

end InReach

end AffineRaising.Raise
