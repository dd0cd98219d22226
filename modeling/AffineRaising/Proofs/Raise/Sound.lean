/-
# AffineRaising.Proofs.Raise.Sound — what raising keeps of a module.

A store is sound for a module if its tables are tidy, everything in the module sees its operands and
binds as many as its map, bounds or set takes, and whatever was created and not removed is in the
module or in one of the operations that are on their way out of it (`Accounted`).  A hoist that
keeps the module visible keeps it sound.

Soundness comes in two strengths, told apart by the proposition `sided`: if it holds, loops bind
operands to one of their bounds at most (`OneSided`), and raising keeps that as well.  Whether a
store is sound in the weaker sense does not depend on its loops.

A store in which raising is under way is not a module only: a pattern has created operations that
stand nowhere yet, a hoist has taken the original out, and what was erased is still in the table.
`Sound` therefore has three sets of operations as parameters: the module below `root`, what was
removed (`gone`), and what is on its way (`out`).  Between two patterns nothing is on its way.
-/
import AffineRaising.Proofs.Analysis.Arity
import AffineRaising.Proofs.Raise.Drawn

namespace AffineRaising.Raise

open AffineRaising.IR AffineRaising.IR.Store AffineRaising.Ops AffineRaising.Analysis

variable {sided : Prop} {gone out out' : OpRef → Prop} {s t : Store} {u v w : ValueRef}
  {root a c o q x y z : OpRef} {b : BlockRef}

/-! ## Everything is accounted for -/

/-- What was created and not removed is in the module or in one of the operations `out`. -/
def Accounted (root : OpRef) (gone out : OpRef → Prop) (s : Store) : Prop :=
  ∀ x d, s.op? x = some d → ¬ gone x → Within s root x ∨ ∃ o, out o ∧ Within s o x

namespace Accounted

/-- More may be on its way. -/
theorem mono (h : Accounted root gone out s) (hout : ∀ o, out o → out' o) :
    Accounted root gone out' s := fun x d hd hx =>
  (h x d hd hx).imp_right fun ⟨o, ho, hw⟩ => ⟨o, hout o ho, hw⟩

theorem copied (h : Accounted root gone out s) (hcopied : Copied s t)
    (hnew : NewUnder s t (· = c)) : Accounted root gone (fun y => out y ∨ y = c) t := by
  intro x e he hx
  by_cases hd : s.op? x = none
  · obtain ⟨y, rfl, hw⟩ := hnew x e he hd
    exact .inr ⟨y, .inr rfl, hw⟩
  · obtain ⟨d, hd⟩ := Option.ne_none_iff_exists'.1 hd
    have hnests := hcopied.grows.nests
    rcases h x d hd hx with hw | ⟨o, ho, hw⟩
    · exact .inl (hnests.within hw)
    · exact .inr ⟨o, .inl ho, hnests.within hw⟩

/-- An operation that is put into the module is no longer on its way. -/
theorem inserted (h : Accounted root gone out s) (hs : Linked s) (hi : InsertedBefore s c q b t)
    (hq : Nested s root q) : Accounted root gone (fun y => out y ∧ y ≠ c) t := by
  intro x e he hx
  obtain ⟨d, hd, _⟩ := hi.op?_cases he
  have hnests := hi.grows.nests
  rcases h x d hd hx with hw | ⟨o, ho, hw⟩
  · exact .inl (hnests.within hw)
  · by_cases hoc : o = c
    · exact .inl ((nested_new hi hs hq).within.trans (hnests.within (hoc ▸ hw)))
    · exact .inr ⟨o, ⟨ho, hoc⟩, hnests.within hw⟩

/-- Where only operands and attributes change, everything stays accounted for. -/
theorem same (h : Accounted root gone out s) (hsame : SameNesting s t) :
    Accounted root gone out t := by
  intro x e he hx
  have hentry := hsame.op? x
  rw [he] at hentry
  obtain ⟨d, hd, _⟩ := Option.map_eq_some_iff.1 hentry.symm
  have hnests := hsame.grows.nests
  exact (h x d hd hx).imp hnests.within fun ⟨o, ho, hw⟩ => ⟨o, ho, hnests.within hw⟩

/-- An operation that leaves its block is on its way out. -/
theorem detached (h : Accounted root gone out s) (hleft : LeftBlocks s [o] t) :
    Accounted root gone (fun y => out y ∨ y = o) t := by
  have hpath : ∀ {y x}, Within s y x → Within t y x ∨ Within t o x := by
    intro y x hw
    induction hw with
    | refl => exact .inl .refl
    | @tail p z _ hc ih =>
      by_cases hz : z = o
      · exact .inr (hz ▸ .refl)
      · have hc' := hleft.child_iff.2 ⟨hc, by simpa using hz⟩
        exact ih.imp (·.tail hc') (·.tail hc')
  intro x e he hx
  obtain ⟨d, hd, _⟩ := hleft.op?_cases he
  rcases h x d hd hx with hw | ⟨y, hy, hw⟩ <;> rcases hpath hw with hw | hw
  · exact .inl hw
  · exact .inr ⟨o, .inr rfl, hw⟩
  · exact .inr ⟨y, .inl hy, hw⟩
  · exact .inr ⟨o, .inr rfl, hw⟩

/-- When an operation is erased with what is nested in it, all that is gone too. -/
theorem erased (h : Accounted root gone out s) {tree : List OpRef} (hleft : LeftBlocks s tree t)
    (htree : ∀ x, x ∈ tree ↔ Within s o x) :
    Accounted root (fun x => gone x ∨ Within s o x) (fun y => out y ∧ y ≠ o) t := by
  intro x e he hx
  obtain ⟨d, hd, _⟩ := hleft.op?_cases he
  have hstays : ∀ y, Within s y x → y ∉ tree := fun y hy hyt =>
    hx (.inr (((htree y).1 hyt).trans hy))
  rcases h x d hd (fun hgone => hx (.inl hgone)) with hw | ⟨y, hy, hw⟩
  · exact .inl (hleft.thinned.within hw hstays)
  · refine .inr ⟨y, ⟨hy, ?_⟩, hleft.thinned.within hw hstays⟩
    rintro rfl
    exact hx (.inr hw)

end Accounted

/-! ## Every operation binds what it takes -/

/-- A loop does not bind operands to both of its bounds. -/
def OneSided (d : OpData) : Prop :=
  d.name = forName → ∀ lower upper, mapAt d BoundSide.lower.key = some lower →
    mapAt d BoundSide.upper.key = some upper → lower.numInputs = 0 ∨ upper.numInputs = 0

theorem OneSided.of_name {d : OpData} (h : d.name ≠ forName) : OneSided d := fun hn => absurd hn h

theorem OneSided.congr {d e : OpData} (h : OneSided d) (hname : e.name = d.name)
    (hattrs : e.attrs = d.attrs) : OneSided e := by
  intro hn lower upper hlower hupper
  rw [mapAt, hattrs] at hlower hupper
  exact h (hname ▸ hn) lower upper hlower hupper

/-- The operation binds as many operands as it takes, and is one-sided if that is asked for. -/
structure Fitted (sided : Prop) (d : OpData) : Prop where
  suits : Suits d
  oneSided : sided → OneSided d

theorem Fitted.of_name {d : OpData} (hd : Suits d) (hname : d.name ≠ forName) : Fitted sided d :=
  ⟨hd, fun _ => .of_name hname⟩

theorem Fitted.weaken {d : OpData} (hd : Fitted True d) : Fitted sided d :=
  ⟨hd.suits, fun _ => hd.oneSided trivial⟩

/-- What was not removed fits, the module itself apart. -/
def Fitting (sided : Prop) (root : OpRef) (gone : OpRef → Prop) (s : Store) : Prop :=
  ∀ x d, x ≠ root → ¬ gone x → s.op? x = some d → Fitted sided d

/-- The entries agree in what the number of operands depends on. -/
structure SameShape (d e : OpData) : Prop where
  name : e.name = d.name
  attrs : e.attrs = d.attrs
  operands : e.operands.length = d.operands.length
  results : e.results.length = d.results.length
  regions : e.regions.length = d.regions.length

/-- Whether an operation fits depends on its shape. -/
theorem SameShape.fits {d e : OpData} (h : SameShape d e) (hd : Fitted sided d) :
    Fitted sided e where
  suits := hd.suits.congr h.name h.attrs h.operands h.results h.regions
  oneSided hsided := (hd.oneSided hsided).congr h.name h.attrs

theorem SameShape.bare {d e : OpData} (h : SameShape d e) (hd : d.operands = []) :
    e.operands = [] := by
  have hlength := h.operands
  rw [hd] at hlength
  exact List.length_eq_zero_iff.1 hlength

/-- Entries fit that fit by themselves or have the shape of one that fitted. -/
theorem Fitting.of_entries (h : Fitting sided root gone s) {gone' : OpRef → Prop}
    (hentries : ∀ x e, x ≠ root → ¬ gone' x → t.op? x = some e → Fitted sided e ∨
      ∃ y d, y ≠ root ∧ ¬ gone y ∧ s.op? y = some d ∧ SameShape d e) :
    Fitting sided root gone' t := by
  intro x e hx hlive he
  rcases hentries x e hx hlive he with hfits | ⟨y, d, hy, hylive, hd, hshape⟩
  · exact hfits
  · exact hshape.fits (h y d hy hylive hd)

/-! ## Sound stores -/

/-- What raising keeps of a store that holds a module; `out` are the operations on their way. -/
structure Sound (sided : Prop) (root : OpRef) (gone out : OpRef → Prop) (s : Store) : Prop where
  tidy : Tidy gone s
  sized : Sized s
  acyclic : Acyclic s
  top : s.opParent root = some none
  visible : Visible s root
  accounted : Accounted root gone out s
  fitting : Fitting sided root gone s
  bare : ∀ d, s.op? root = some d → d.operands = []

/-- The root stands in no block, so it is not nested in itself. -/
theorem Nested.ne_root (hl : Linked s) (htop : s.opParent root = some none)
    (hx : Nested s root x) : x ≠ root := by
  rintro rfl
  obtain ⟨b, hb⟩ := hx.attached hl
  rw [htop] at hb
  cases hb

/-- What was removed stands in no block, so it is not nested in the module. -/
theorem Tidy.not_gone (h : Tidy gone s) (hx : Nested s root x) : ¬ gone x := by
  obtain ⟨b, hb⟩ := hx.attached h.kept.linked
  obtain ⟨d, hd, hparent⟩ := opParent_eq_some.1 hb
  exact h.attached_of_within hd hparent .refl

theorem Sound.linked (h : Sound sided root gone out s) : Linked s := h.tidy.kept.linked

theorem Sound.consistent (h : Sound sided root gone out s) : Consistent s :=
  ⟨⟨gone, h.tidy.kept⟩, h.tidy.grounded⟩

/-- More may be on its way. -/
theorem Sound.mono (h : Sound sided root gone out s) (hout : ∀ o, out o → out' o) :
    Sound sided root gone out' s :=
  { h with accounted := h.accounted.mono hout }

namespace Drawing

variable {p : Point} {before : Option OpRef} {sc si sr : Store} {m : Renaming}
  (h : Drawing root gone s o q c p b before sc si sr t m)

include h

/-- After a hoist the original is on its way out, and the copy is in the module. -/
theorem accounted_after (hacc : Accounted root gone out s) :
    Accounted root gone (fun y => out y ∨ y = o) t := by
  have hinserted := (hacc.copied h.copied h.hoisted.placed.under).inserted h.linked_copied
    h.inserted h.place_nested_copied
  refine ((hinserted.same h.same).detached h.leaves).mono fun y hy => hy.imp_left ?_
  rintro ⟨hy | hy, hne⟩
  · exact hy
  · exact absurd hy hne

/-- The entry of an operation has the shape of that of its source, which was in the original. -/
theorem shape_after {e : OpData} (he : t.op? x = some e) :
    ∃ y d, s.op? y = some d ∧ SameShape d e ∧ (y = x ∨ s.op? x = none ∧ Within s o y) := by
  obtain ⟨src, hcopy⟩ := h.copyOf
  obtain ⟨er, her, her'⟩ := h.leaves.op?_cases he
  rw [h.redirected.op?] at her
  obtain ⟨ei, hei, rfl⟩ := Option.map_eq_some_iff.1 her
  obtain ⟨ec, hec, hec'⟩ := h.inserted.op?_cases hei
  have hshape : SameShape ec e := by
    rw [her', hec']
    exact ⟨rfl, rfl, by simp [redirectedOperands], rfl, rfl⟩
  by_cases hnew : s.op? x = none
  · obtain ⟨d, hd, halike⟩ := hcopy.mirrors.ops x ec hnew hec
    have hw := (hcopy.within hcopy.new (hcopy.within_new hec hnew)).2
    rw [hcopy.root] at hw
    have hsized := Sized.copyStepsKeep.cloneOp _ _ _ _ _ h.sized h.clone
    refine ⟨src.op x, d, hd, ?_, .inr ⟨hnew, hw⟩⟩
    refine ⟨hshape.name.trans halike.name, hshape.attrs.trans halike.attrs,
      hshape.operands.trans halike.operands.length_eq.symm, hshape.results.trans ?_,
      hshape.regions.trans ?_⟩
    · rw [hsized.results x ec hec, halike.resultTypes, h.sized.results _ d hd]
    · rw [← halike.regions, List.length_map]
  · obtain ⟨d, hd⟩ := Option.ne_none_iff_exists'.1 hnew
    rw [h.copied.op? x d hd] at hec
    exact ⟨x, d, hd, Option.some.inj hec ▸ hshape, .inl rfl⟩

/-- A hoist that keeps the module visible keeps it sound. -/
theorem sound_after (hs : Sound sided root gone out s) :
    Sound sided root gone (fun y => out y ∨ y = o) t where
  tidy := h.tidy_after
  sized := h.hoisted.sized h.sized h.clone
  acyclic := h.acyclic_redirected.mono fun _ _ hc => (h.leaves.child_iff.1 hc).1
  top := by rw [h.leaves.opParent_other h.root_stays, h.top_after]
  visible := h.visible_after
  accounted := h.accounted_after hs.accounted
  fitting := by
    refine hs.fitting.of_entries fun x e hx hlive he => .inr ?_
    obtain ⟨y, d, hd, hshape, hy⟩ := h.shape_after he
    rcases hy with rfl | ⟨_, hy⟩
    · exact ⟨y, d, hx, hlive, hd, hshape⟩
    · have hnested := h.nested.trans_within hy
      exact ⟨y, d, hnested.ne_root h.linked h.top, h.tidy.not_gone hnested, hd, hshape⟩
  bare e he := by
    obtain ⟨y, d, hd, hshape, rfl | ⟨hnew, _⟩⟩ := h.shape_after he
    · exact hshape.bare (hs.bare d hd)
    · obtain ⟨d, hd, _⟩ := opParent_eq_some.1 h.top
      cases hnew.symm.trans hd

end Drawing

end AffineRaising.Raise
