/-
# AffineRaising.Proofs.Raise.SoundCommit — commits keep a module sound.

A commit erases the originals, which stand in no block, so in the module everything stays where it
was and sees what it saw (`Committed`).  It comes to an end only if nothing outside the originals
uses a result of one: an operation that was built from values that the anchor could look at, or the
anchor itself if its operands were set to such values, then has only operands that the anchor sees.
-/
import AffineRaising.Proofs.Raise.SoundComposition

namespace AffineRaising.Raise

open AffineRaising.IR AffineRaising.IR.Store AffineRaising.Ops AffineRaising.Analysis

variable {sided : Prop} {gone gone' out : OpRef → Prop} {J : Journal} {s s₁ t t' : Store}
  {u v w : ValueRef} {root c o x y z : OpRef}

/-! ## Leaving in turn -/

namespace LeftBlocks

variable {tree tree' : List OpRef} {s s₁ t : Store}

theorem refl : LeftBlocks s [] s := .of_erased (.refl s)

theorem trans (h : LeftBlocks s tree s₁) (h' : LeftBlocks s₁ tree' t) :
    LeftBlocks s (tree ++ tree') t := by
  refine ⟨fun x => ?_, fun b => ?_, h'.regions.trans h.regions, h'.values.trans h.values⟩
  · rw [h'.op?, h.op?, Option.map_map]
    congr 1
    funext d
    by_cases hx : x ∈ tree <;> by_cases hx' : x ∈ tree' <;> simp [hx, hx']
  · rw [h'.block?, h.block?, Option.map_map]
    congr 1
    funext d
    simp only [Function.comp_apply, List.filter_filter, BlockData.mk.injEq, true_and, and_true]
    refine List.filter_congr fun x _ => ?_
    simp [Bool.and_comm]

end LeftBlocks

/-! ## Commits -/

/-- The originals were erased from a module that holds none of them, and it is sound. -/
structure Committed (sided : Prop) (root : OpRef) (J : Journal) (gone out : OpRef → Prop)
    (s : Store)
    (gone' : OpRef → Prop) (t : Store) : Prop where
  sound : Sound sided root gone' (fun y => out y ∧ y ∉ J.originals) t
  leaves : ∃ tree, LeftBlocks s tree t ∧ ∀ y ∈ tree, ∃ o ∈ J.originals, Within s o y
  gone : ∀ x, gone' x → gone x ∨ ∃ o ∈ J.originals, Within s o x

/-- A commit of originals other than the module keeps the module sound. -/
theorem commit_committed (hs : Sound sided root gone out s) (hroot : root ∉ J.originals) {u : Unit}
    (h : Journal.commit J s = .ok (u, t)) : ∃ gone', Committed sided root J gone out s gone' t := by
  induction J generalizing s gone out with
  | nil =>
    cases h
    exact ⟨gone, hs.mono fun o ho => ⟨ho, List.not_mem_nil⟩,
      ⟨[], .refl, fun y hy => absurd hy List.not_mem_nil⟩, fun x hx => .inl hx⟩
  | cons e J ih =>
    cases e with
    | inserted c =>
      have horiginals : Journal.originals (.inserted c :: J) = Journal.originals J := rfl
      obtain ⟨gone', hsound, hleaves, hgone⟩ := ih hs (horiginals ▸ hroot) h
      exact ⟨gone', by rwa [horiginals], by rwa [horiginals], by rwa [horiginals]⟩
    | hoisted source b before c =>
      rw [Journal.commit, Edit.bind_ok] at h
      obtain ⟨_, s₁, herase, hrest⟩ := h
      have horiginals : Journal.originals (.hoisted source b before c :: J) =
          source :: Journal.originals J := rfl
      rw [horiginals] at hroot
      obtain ⟨hne, hroot⟩ := List.ne_and_not_mem_of_not_mem_cons hroot
      obtain ⟨tree, he, htree⟩ := eraseOp_ok hs.linked hs.tidy.kept.uses.pointsBack herase
      have hleft := LeftBlocks.of_erased he
      obtain ⟨gone', hsound, ⟨tree', hleft', htree'⟩, hgone⟩ :=
        ih (hs.erased (Ne.symm hne) herase) hroot hrest
      refine ⟨gone', ?_, ⟨tree ++ tree', hleft.trans hleft', fun y hy => ?_⟩, fun x hx => ?_⟩
      · refine hsound.mono fun y hy => ⟨hy.1.1, ?_⟩
        rw [horiginals]
        exact List.not_mem_cons_of_ne_of_not_mem hy.1.2 hy.2
      · rcases List.mem_append.1 hy with hy | hy
        · exact ⟨source, List.mem_cons_self, (htree y).1 hy⟩
        · obtain ⟨o, ho, hw⟩ := htree' y hy
          exact ⟨o, List.mem_cons_of_mem _ ho, hleft.within_of hw⟩
      · rcases hgone x hx with (hx | hx) | ⟨o, ho, hw⟩
        · exact .inl hx
        · exact .inr ⟨source, List.mem_cons_self, hx⟩
        · exact .inr ⟨o, List.mem_cons_of_mem _ ho, hleft.within_of hw⟩

namespace Committed

variable (h : Committed sided root J gone out s gone' t) (hs : Linked s)
  (hout : ∀ o ∈ J.originals, s.opParent o = some none)

include hs hout

omit h in
/-- What stands in no block and is no original shares nothing with an original. -/
theorem apart_of_detached (hx : s.opParent x = some none) (hxJ : x ∉ J.originals)
    (hxy : Within s x y) {o : OpRef} (ho : o ∈ J.originals) : ¬ Within s o y := by
  intro hoy
  rcases within_or_within hs hxy hoy with hw | hw
  · exact hxJ (eq_of_within_detached hs (hout o ho) hw ▸ ho)
  · exact hxJ (eq_of_within_detached hs hx hw ▸ ho)

include h

/-- What stands in no block and is no original stays, with all that it holds. -/
theorem keeps_of_detached (hx : s.opParent x = some none) (hxJ : x ∉ J.originals)
    (hxy : Within s x y) : Within t x y ∧ t.op? y = s.op? y ∧ (gone' y → gone y) := by
  obtain ⟨tree, hleft, htree⟩ := h.leaves
  have hstays : ∀ z, Within s x z → z ∉ tree := fun z hxz hz => by
    obtain ⟨o, ho, hoz⟩ := htree z hz
    exact apart_of_detached hs hout hx hxJ hxz ho hoz
  refine ⟨?_, ?_, fun hgone => (h.gone y hgone).resolve_right fun ⟨o, ho, hoy⟩ =>
    apart_of_detached hs hout hx hxJ hxy ho hoy⟩
  · induction hxy with
    | refl => exact .refl
    | tail hxz hc ih => exact ih.tail (hleft.child_iff.2 ⟨hc, hstays _ (hxz.tail hc)⟩)
  · rw [hleft.op?]
    simp [hstays y hxy]

/-- What is seen inside of it stays so. -/
theorem seenInside (hx : s.opParent x = some none) (hxJ : x ∉ J.originals)
    (hv : SeenInside s x y v) : SeenInside t x y v := by
  obtain ⟨tree, hleft, htree⟩ := h.leaves
  obtain ⟨a, hxa, hay, hoffered⟩ := hv
  have hstays : ∀ z z', Within s x z → Within s z' z → z' ∉ tree := fun z z' hxz hzz hz => by
    obtain ⟨o, ho, hoz⟩ := htree z' hz
    exact apart_of_detached hs hout hx hxJ hxz ho (hoz.trans hzz)
  obtain ⟨p, hxp, hpa⟩ := Relation.TransGen.tail'_iff.1 hxa
  refine ⟨a, .tail' (h.keeps_of_detached hs hout hx hxJ hxp).1 ?_, ?_, ?_⟩
  · exact hleft.child_iff.2 ⟨hpa, hstays a a hxa.to_reflTransGen .refl⟩
  · exact hleft.thinned.within hay fun z hz =>
      hstays y z (hxa.to_reflTransGen.trans hay) hz
  · refine hleft.thinned.offered hoffered (hstays a a hxa.to_reflTransGen .refl) fun o k hvo => ?_
    rcases hoffered with ⟨_, _, _, hvb, _⟩ | ⟨_, _, hvo', hoa⟩
    · cases hvo.symm.trans hvb
    · cases hvo.symm.trans hvo'
      exact hstays o o (hxp.tail ((hoa.child_iff hs).2 hpa)) .refl

variable (htop : s.opParent root = some none) (hroot : root ∉ J.originals)

include htop hroot

omit h in
/-- Nothing in the module is nested in an original. -/
theorem stays (hx : Nested s root x) {o : OpRef} (ho : o ∈ J.originals) : ¬ Within s o x :=
  hx.not_within_detached hs htop (hout o ho) fun heq => hroot (heq ▸ ho)

theorem nested (hx : Nested s root x) : Nested t root x := by
  obtain ⟨tree, hleft, htree⟩ := h.leaves
  refine hleft.nested_of hx fun y hy hyt => ?_
  obtain ⟨o, ho, hoy⟩ := htree y hyt
  exact stays hs hout htop hroot hx ho (hoy.trans hy)

/-- What is seen in the module is still seen. -/
theorem sees (hx : Nested s root x) (hv : Sees s v x) : Sees t v x := by
  obtain ⟨tree, hleft, htree⟩ := h.leaves
  refine hleft.thinned.sees hv (fun y hy hyt => ?_) fun o k hvo hot => ?_
  · obtain ⟨o, ho, hoy⟩ := htree y hyt
    exact stays hs hout htop hroot hx ho (hoy.trans hy)
  · obtain ⟨o', ho', hoo⟩ := htree o hot
    exact stays hs hout htop hroot (hx.definition hs htop hv hvo) ho' hoo

end Committed

/-! ## Operands that survive a commit -/

/-- If a commit comes to an end, then an operand of something outside the originals that the anchor
could look at is seen by the anchor. -/
theorem sees_of_commit (htidy : Tidy gone s) {e : OpData} (hz : s.op? z = some e) (hlive : ¬ gone z)
    (hw : w ∈ e.operands) (hapart : ∀ o ∈ J.originals, ¬ Within s o z) {u : Unit}
    (hcommit : Journal.commit J s = .ok (u, t))
    (hlooks : Sees s₁ w x ∨ AdriftOf (· ∈ J.originals) s₁ w)
    (horigin : ∀ k, s₁.originOf w = some k → s.originOf w = some k) : Sees s₁ w x := by
  refine hlooks.resolve_right fun ⟨o, k, hwo, _, ho⟩ => ?_
  obtain ⟨i, hi⟩ := List.mem_iff_getElem?.1 hw
  have huse : (⟨z, i⟩ : Use) ∈ s.usesOf w :=
    (htidy.kept.uses.mem_iff w ⟨z, i⟩).2 ⟨hlive, (slot?_eq hz).trans hi⟩
  have hl : Linked s := htidy.kept.linked
  have hresult : w ∈ s.resultsOf o := List.mem_of_getElem? (getElem?_resultsOf hl (horigin _ hwo))
  obtain ⟨o', ho', hw'⟩ := commit_users hl htidy.kept.uses.pointsBack hcommit o ho w hresult _ huse
  exact hapart o' ho' hw'

end AffineRaising.Raise
