/-
# AffineRaising.Proofs.Ops.Effect — what tests of effects say.

A test of effects goes through an operation and everything nested in it, and stops at the first
operation that fails.  It accepts exactly if no operation of the tree fails, and it has an answer
wherever nothing is nested in itself.  For the operations that can go once their results are unused
this reads: they have results, and all of their tree is pure (`isRemovable_ok`).

The faults of such a test are references without entry, which a linked store does not have, and
nesting deeper than there are operations, which an acyclic store does not have; so the three lemmas
about `effectsWithin` are all that later modules need of it.
-/
import AffineRaising.Ops.Effect
import AffineRaising.Proofs.Analysis.Nesting

namespace AffineRaising.Ops

open AffineRaising.IR AffineRaising.IR.Store AffineRaising.Analysis

variable {s : Store} {accepts : Effect → Bool}

/-! ## Tests of a list -/

section Lists

/-- A test of a list that accepts has accepted each member. -/
theorem allInOrder_true {α : Type} {test : α → Except Fault Bool} {as : List α}
    (h : allInOrder test as = .ok true) : ∀ a ∈ as, test a = .ok true := by
  induction as with
  | nil => simp
  | cons a as ih =>
    simp only [allInOrder, except_bind_ok] at h
    obtain ⟨b, hb, h⟩ := h
    cases b with
    | false => simp at h
    | true =>
      intro x hx
      rcases List.mem_cons.1 hx with rfl | hx
      · exact hb
      · exact ih h x hx

theorem allInOrder_eq_true {α : Type} {test : α → Except Fault Bool} {l : List α} {r : Bool}
    (h : allInOrder test l = .ok r) (htest : ∀ a ∈ l, ∀ b, test a = .ok b → b = true) :
    r = true := by
  induction l with
  | nil => cases h; rfl
  | cons a l ih =>
    simp only [allInOrder, except_bind_ok] at h
    obtain ⟨b, hb, h⟩ := h
    rw [htest a List.mem_cons_self b hb, if_pos rfl] at h
    exact ih h fun a' ha' => htest a' (List.mem_cons_of_mem a ha')

/-- A test of a list has an answer if it has one for each member. -/
theorem allInOrder_total {α : Type} {test : α → Except Fault Bool} {l : List α}
    (h : ∀ a ∈ l, ∃ b, test a = .ok b) : ∃ b, allInOrder test l = .ok b := by
  induction l with
  | nil => exact ⟨true, rfl⟩
  | cons a l ih =>
    obtain ⟨b, hb⟩ := h a List.mem_cons_self
    obtain ⟨c, hc⟩ := ih fun x hx => h x (List.mem_cons_of_mem a hx)
    simp only [allInOrder, except_bind_ok]
    cases b with
    | false => exact ⟨false, false, hb, rfl⟩
    | true => exact ⟨c, true, hb, hc⟩

end Lists

/-! ## Tests of a tree -/

/-- A test of a tree that accepts has accepted everything in the tree. -/
theorem effectsWithin_sound (n : Nat) :
    ∀ {o x : OpRef} {d : OpData}, effectsWithin s accepts n o = .ok true → Within s o x →
      s.op? x = some d → accepts (Effect.ofName d.name) = true := by
  induction n with
  | zero =>
    intro o x d h
    cases h
  | succ n ih =>
    intro o x d h hw hx
    simp only [effectsWithin, effectOf, Store.nameOf, bind_pure_comp, except_bind_ok, except_map_ok,
      op_ok] at h
    obtain ⟨_, ⟨_, ⟨e, he, rfl⟩, rfl⟩, h⟩ := h
    split at h
    · rename_i haccepts
      simp only [except_bind_ok] at h
      obtain ⟨os, hos, hall⟩ := h
      rcases Relation.ReflTransGen.cases_head hw with rfl | ⟨y, hy, hw⟩
      · cases he.symm.trans hx
        exact haccepts
      · exact ih (allInOrder_true hall y ((mem_childOps hos).2 hy)) hw hx
    · cases h

/-- A test of a tree that has an answer accepts if it accepts everything in the tree. -/
theorem effectsWithin_eq_true (n : Nat) : ∀ {o : OpRef} {r : Bool},
    effectsWithin s accepts n o = .ok r →
    (∀ z d, Within s o z → s.op? z = some d → accepts (Effect.ofName d.name) = true) →
    r = true := by
  induction n with
  | zero => intro o r h; cases h
  | succ n ih =>
    intro o r h haccepts
    simp only [effectsWithin, effectOf, except_bind_ok, bind_pure_comp, except_map_ok,
      nameOf_ok] at h
    obtain ⟨_, ⟨_, ⟨d, hd, rfl⟩, rfl⟩, h⟩ := h
    rw [if_pos (haccepts o d .refl hd)] at h
    simp only [except_bind_ok] at h
    obtain ⟨os, hos, hall⟩ := h
    refine allInOrder_eq_true hall fun z hz b hb => ih hb fun z' d' hw hd' => ?_
    exact haccepts z' d' (.head ((mem_childOps hos).1 hz) hw) hd'

/-- With as much fuel as there is to meet, a test of a tree has an answer. -/
theorem effectsWithin_total (hl : Linked s) (hac : Acyclic s) (accepts : Effect → Bool) (n : Nat) :
    ∀ {o : OpRef} {d : OpData}, s.op? o = some d → (metFrom s (Child s) o).card ≤ n →
      ∃ w, effectsWithin s accepts n o = .ok w := by
  induction n with
  | zero =>
    intro o d hd hn
    have hpos := Finset.card_pos.2 ⟨o.index, index_mem_metFrom (R := Child s) hd⟩
    omega
  | succ n ih =>
    intro o d hd hn
    obtain ⟨os, hos, hchild⟩ := childOps_ok hl hd
    obtain ⟨w, hw⟩ : ∃ w, allInOrder (effectsWithin s accepts n) os = .ok w :=
      allInOrder_total fun c hc => by
        have hoc : Child s o c := (hchild c).1 hc
        obtain ⟨e, he⟩ := hl.op?_of_within ⟨d, hd⟩ (.single hoc)
        have hlt := card_metFrom_lt hd hoc (hac o)
        exact ih he (by omega)
    simp only [effectsWithin, effectOf, except_bind_ok, bind_pure_comp, except_map_ok, nameOf_ok]
    by_cases haccepts : accepts (Effect.ofName d.name) = true
    · exact ⟨w, _, ⟨_, ⟨d, hd, rfl⟩, rfl⟩, by rw [if_pos haccepts, hos]; exact hw⟩
    · exact ⟨false, _, ⟨_, ⟨d, hd, rfl⟩, rfl⟩, by rw [if_neg haccepts]; rfl⟩

/-! ## What can go -/

/-- The operation has results, and it and everything nested in it is pure. -/
def Removable (s : Store) (o : OpRef) : Prop :=
  s.resultsOf o ≠ [] ∧ ∀ x d, Within s o x → s.op? x = some d → Effect.ofName d.name = .pure

/-- It can be told of every operation whether it can go. -/
theorem isRemovable_ok (hl : Linked s) (hac : Acyclic s) {o : OpRef} {d : OpData}
    (hd : s.op? o = some d) :
    ∃ w, isRemovable s o = .ok w ∧ (w = true ↔ Removable s o) := by
  unfold isRemovable Removable
  by_cases hempty : s.resultsOf o = []
  · exact ⟨false, by simp [hempty], by simp [hempty]⟩
  · obtain ⟨w, hw⟩ := effectsWithin_total hl hac (· == .pure) s.depthBound hd
      ((card_metFrom_le s _ o).trans (Nat.le_succ _))
    refine ⟨w, ?_, ?_⟩
    · rw [if_neg (by simpa using hempty)]
      exact hw
    constructor
    · rintro rfl
      exact ⟨hempty, fun x e hox hx => by simpa using effectsWithin_sound _ hw hox hx⟩
    · rintro ⟨-, hpure⟩
      exact effectsWithin_eq_true _ hw fun x e hox hx => by simpa using hpure x e hox hx

end AffineRaising.Ops
