/-
# AffineRaising.Proofs.Raise.SetAside — what a composition sets aside can be erased.

A hoist takes the original out of its block, and a commit erases the originals with all that is
nested in them.  An erasure comes to an end if nobody outside of the tree uses a result of its root,
and whoever uses a result inside of the tree sees it there.  A composition sees to the first by
redirecting uses (`Abandoned`).  The second is an invariant of the operands in the trees: each is
seen inside of its tree, or the anchor can look at it (`Stocked`), and what the anchor can look at
is not defined inside of a tree.

So whether a commit comes to an end depends on what the body of the transaction does after its
composition, and on that only through the uses that it adds (`Built`).  The commit comes to an end
exactly if no result of an original is among what it uses (`Built.commit_iff`).
-/
import AffineRaising.Proofs.Raise.SoundComposition
import AffineRaising.Proofs.Raise.Spared

namespace AffineRaising.Raise

open AffineRaising.IR AffineRaising.IR.Store AffineRaising.Ops AffineRaising.Analysis

variable {sided : Prop} {gone : OpRef → Prop} {a b : Journal × Store} {J : Journal} {s t : Store}
  {P Q : ValueRef → Prop} {u v w : ValueRef} {root c o x y z : OpRef}

/-! ## Operands of trees -/

/-- Each operand in the tree has the property or is seen inside. -/
def Stocked (P : ValueRef → Prop) (s : Store) (o : OpRef) : Prop :=
  ∀ z d w, Within s o z → s.op? z = some d → w ∈ d.operands → P w ∨ SeenInside s o z w

/-- A tree stays stocked if operands change to what has the property only. -/
theorem Stocked.later (h : Stocked P s o) (hsame : SameTree s t o) (hP : ∀ w, P w → Q w)
    (hoperands : ∀ z e w, Within s o z → t.op? z = some e → w ∈ e.operands →
      Q w ∨ ∃ d, s.op? z = some d ∧ w ∈ d.operands) : Stocked Q t o := by
  intro z e w hz he hw
  have hz := hsame.within_iff.1 hz
  rcases hoperands z e w hz he hw with hQ | ⟨d, hd, hw⟩
  · exact .inl hQ
  · exact (h z d w hz hd hw).imp (hP w) hsame.seenInside

/-! ## Hoists and casts -/

namespace Drawing

variable {q : OpRef} {p : Point} {blk : BlockRef} {before : Option OpRef} {sc si sr : Store}
  {m : Renaming} (h : Drawing root gone s o q c p blk before sc si sr t m)

include h

/-- A hoist leaves a tree alone that holds neither the place nor, below its root, the original. -/
theorem sameTree {d : OpData} (hd : s.op? y = some d)
    (hplace : ∀ p', Holds sc p' p.block → ¬ Within sc y p')
    (ho : ¬ Relation.TransGen (Child s) y o) : SameTree s t y := by
  have hsr : SameTree s sr y := (.trans (.trans (.copied h.copied h.linked h.linked_copied hd)
    (.inserted h.inserted hplace)) (.same h.same))
  refine hsr.trans (.left h.leaves h.hoisted.redirected.2.1.linked fun z hz hyz => ?_)
  rw [List.mem_singleton.1 hz] at hyz
  exact ho (hsr.nested_iff.1 hyz)

/-- What stands in no block is left alone. -/
theorem sameTree_detached (hy : s.opParent y = some none) (hne : y ≠ root) : SameTree s t y := by
  obtain ⟨d, hd, hparent⟩ := opParent_eq_some.1 hy
  refine h.sameTree hd (fun p' hp' => ?_) fun hw =>
    h.nested.not_within_detached h.linked h.top hy hne hw.to_reflTransGen
  exact apart_of_nested h.inserted h.linked_copied h.top_copied h.place_nested_copied
    (opParent_eq_some.2 ⟨d, h.copied.op? y d hd, hparent⟩) hne hp'

/-- So is what is nested in the original. -/
theorem sameTree_original : SameTree s t o := by
  obtain ⟨d, hd, _⟩ := h.hoisted.entry
  exact h.sameTree hd (fun _ => h.place_apart) (h.acyclic o)

/-- Operands of what was there stay, but for results of the copy; whatever the original stands ahead
of sees those. -/
theorem operand_after (hx : StandsAhead s o x) {d e : OpData} (hd : s.op? z = some d)
    (he : t.op? z = some e) (hw : w ∈ e.operands) : Sees t w x ∨ w ∈ d.operands := by
  obtain ⟨e', he', hw' | ⟨⟨v, k, hv, hvo⟩, k', hk'⟩⟩ := h.hoisted.operand_cases he hw
  · cases (h.copied.op? z d hd).symm.trans he'
    exact .inr hw'
  · cases (h.copied.op? z d hd).symm.trans he'
    obtain ⟨a, ha⟩ := h.tidy.grounded z d v hd hv
    have hvo : s.originOf v = some (.result o k) := by
      have hs : s.originOf v = some a.origin := congrArg _ ha
      rw [hs, ← h.copied.grows.originOf v _ hs, hvo]
    rw [← h.hoisted.originOf_eq] at hk'
    exact .inl (h.copy_seen (hx.not_within h.linked h.acyclic) (hx.sees hvo) hvo hk')

end Drawing

/-- Nobody uses a result of an original, and what is nested in one uses what it sees inside of it,
or what the anchor can look at. -/
structure SetAside (x : OpRef) (a : Journal × Store) : Prop where
  abandoned : Abandoned a.1 a.2
  stocked : ∀ o ∈ a.1.originals, Stocked (Looks x a) a.2 o

theorem SetAside.start : SetAside x ([], s) where
  abandoned _ ho := absurd ho List.not_mem_nil
  stocked _ ho := absurd ho List.not_mem_nil

theorem Underway.original_ne_root (ha : Underway sided root gone a) (ho : o ∈ a.1.originals) :
    o ≠ root := fun heq => ha.stays (heq ▸ ho)

section Steps

variable (ha : Underway sided root gone a) (hset : SetAside x a)

include ha hset

/-- A hoist adds the original to what is set aside: before, all that was nested in it saw its
operands. -/
theorem DrawStep.setAside (h : DrawStep root gone x a b) : SetAside x b := by
  have hlooks : ∀ w, Looks x a w → Looks x b w := fun w hw => h.inReach ha hw
  have hlb := (h.underway ha).sound.linked
  obtain ⟨o, q, c, p, blk, before, sc, si, sr, m, hd, hahead, hJ⟩ := h
  have hl := hd.linked
  have hreach : Reaches a.2 o x := by
    obtain ⟨a', ha', hoa⟩ := hahead
    exact ⟨a', ha', .inr hoa⟩
  have hlater : ∀ {y}, (∃ d, a.2.op? y = some d) → Stocked (Looks x a) a.2 y →
      SameTree a.2 b.2 y → Stocked (Looks x b) b.2 y := fun hy hstocked hsame =>
    hstocked.later hsame hlooks fun z e w hz he hw => by
      obtain ⟨d, hdz⟩ := hl.op?_of_within hy hz
      exact (hd.operand_after hahead hdz he hw).imp (.of_sees hlb) fun hw => ⟨d, hdz, hw⟩
  refine ⟨fun y hy => ?_, fun y hy => ?_⟩
  all_goals
    rw [hJ, Journal.originals_hoisted, List.mem_append, List.mem_singleton] at hy
    rcases hy with hy | rfl
  · obtain ⟨d, hdy, hparent, hunused⟩ := hset.abandoned y hy
    exact hd.hoisted.abandoned_other hd.tidy hd.clone hdy hparent hunused
  · exact hd.hoisted.abandoned_source hd.tidy hd.clone
  · obtain ⟨d, hdy, _⟩ := hset.abandoned y hy
    exact hlater ⟨d, hdy⟩ (hset.stocked y hy)
      (hd.sameTree_detached (ha.out y hy) (ha.original_ne_root hy))
  · obtain ⟨d, hdy, _⟩ := hd.hoisted.entry
    refine hlater ⟨d, hdy⟩ (fun z e w hz he hw => ?_) hd.sameTree_original
    refine (free_or_seenInside hl hd.visible hd.nested hz he hw).imp_left fun hfree => ?_
    -- what the original saw the anchor sees, since the original stands ahead of it
    exact .of_sees hl ((hd.visible.free_seen hl hd.nested hfree).of_reaches hl hreach)

/-- A cast touches nothing that is set aside. -/
theorem CastAhead.setAside (hx : Nested a.2 root x) (h : CastAhead x a b) : SetAside x b := by
  have hlooks : ∀ w, Looks x a w → Looks x b w := fun w hw => h.looks ha hx hw
  have hl := ha.sound.linked
  have habandoned : Abandoned b.1 b.2 := by
    obtain ⟨v, p, cast, s₁, _, hp, hcreate, hinsert, hJ⟩ := h
    exact (CastStep.abandoned ⟨v, p, cast, s₁, hp, hcreate, hinsert, hJ⟩ ha.sound.tidy
      hset.abandoned).2
  refine ⟨habandoned, fun y hy => ?_⟩
  obtain ⟨v, p, q, cast, s₁, hcreate, hinsert, hJ, hq, _⟩ := h.parts ha hx
  rw [hJ, Journal.originals_inserted] at hy
  have hc := createOp_ok hcreate
  have hcopied := hc.copied_self rfl
  have hi := insertedBefore_of_ok hinsert
  have hl₁ := ((Kept.copyStepsKeep gone).createOp _ _ _ _ ha.sound.tidy.kept hcreate).linked
  have hkeeps : ∀ {z}, a.2.opParent z = some none → s₁.opParent z = some none := fun hz => by
    obtain ⟨d, hd, hparent⟩ := opParent_eq_some.1 hz
    exact opParent_eq_some.2 ⟨d, hcopied.op? _ d hd, hparent⟩
  obtain ⟨d, hd, _⟩ := hset.abandoned y hy
  have hsame : SameTree a.2 b.2 y := .trans (.copied hcopied hl hl₁ hd)
    (.inserted hi fun p' hp' => apart_of_nested hi hl₁ (hkeeps ha.sound.top)
      (hq.grows hcopied.grows) (hkeeps (ha.out y hy)) (ha.original_ne_root hy) hp')
  refine (hset.stocked y hy).later hsame hlooks fun z e w hz he hw => .inr ?_
  obtain ⟨dz, hdz⟩ := hl.op?_of_within ⟨d, hd⟩ hz
  have hne : z ≠ cast := by
    rintro rfl
    cases hc.new.symm.trans hdz
  rw [hi.op?_other hne, hcopied.op? z dz hdz] at he
  cases he
  exact ⟨_, hdz, hw⟩

end Steps

/-- A composition sets aside what it hoists. -/
theorem Prepares.setAside (h : Prepares root gone x a b) (ha : Underway sided root gone a)
    (hx : Nested a.2 root x) (hset : SetAside x a) : SetAside x b := by
  induction h with
  | refl => exact hset
  | tail hab hstep ih =>
    obtain ⟨hb, hxb⟩ := Prepares.sound hab ha hx
    exact hstep.elim (·.setAside hb ih) (·.setAside hb ih hxb)

/-! ## What is defined inside of an original -/

section Inside

variable (ha : Underway sided root gone a) (hx : Nested a.2 root x) (hset : SetAside x a)
  (ho : o ∈ a.1.originals)

include ha ho

theorem not_nested_of_original (hy : Within a.2 o y) : ¬ Nested a.2 root y := fun h =>
  h.not_within_detached ha.sound.linked ha.sound.top (ha.out o ho) (ha.original_ne_root ho) hy

variable (hy : Relation.TransGen (Child a.2) o y) {k : Nat}
  (hv : a.2.originOf v = some (.result y k))

include hx hy hv

/-- The anchor cannot look at what is defined inside of an original. -/
theorem not_looks_inside : ¬ Looks x a v := by
  intro h
  have hl := ha.sound.linked
  rcases h.holds with hsees | ⟨y', k', hv', hnone, _⟩
  · exact not_nested_of_original ha ho hy.to_reflTransGen
      (hx.definition hl ha.sound.top hsees hv)
  · cases hv.symm.trans hv'
    obtain ⟨z, _, hc⟩ := Relation.TransGen.tail'_iff.1 hy
    exact not_child_of_opParent hl hnone hc

include hset

/-- Whoever uses what is defined inside of an original sees it inside of one. -/
theorem users_inside {u : Use} (hu : u ∈ a.2.usesOf v) :
    ∃ o' ∈ a.1.originals, SeenInside a.2 o' u.user v := by
  have hs := ha.sound
  have hl := hs.linked
  obtain ⟨hlive, hslot⟩ := (hs.tidy.kept.uses.mem_iff v u).1 hu
  obtain ⟨d, hd, hoperand⟩ := Option.bind_eq_some_iff.1 hslot
  have hmem := List.mem_of_getElem? hoperand
  rcases hs.accounted u.user d hd hlive with hroot | ⟨o', ho', hw⟩
  · exfalso
    rcases Relation.reflTransGen_iff_eq_or_transGen.1 hroot with heq | hnested
    · rw [heq] at hd
      rw [hs.bare d hd] at hmem
      cases hmem
    · exact not_nested_of_original ha ho hy.to_reflTransGen
        (Nested.definition hl hs.top hnested (hs.visible u.user d v hnested hd hmem) hv)
  · refine ⟨o', ho', (hset.stocked o' ho' u.user d v hw hd hmem).resolve_left ?_⟩
    exact not_looks_inside ha hx ho hy hv

end Inside

/-! ## Commits -/

/-- The originals can be erased in turn if nobody uses their results, and whoever uses a result
inside of one sees it. -/
theorem commit_total_of_seen (hl : Linked s) (hp : PointsBack s) (hac : Acyclic s) {J : Journal} :
    ∀ {gone' : OpRef → Prop} {s' : Store}, Clears s gone' s' →
      (∀ o ∈ J.originals, (∃ d, s.op? o = some d) ∧ (∀ v ∈ s.resultsOf o, s.usesOf v = []) ∧
        ∀ y, Relation.TransGen (Child s) o y → ResultsSeen s y) →
      ∃ t, Journal.commit J s' = .ok ((), t) := by
  induction J with
  | nil => exact fun {_ s'} _ _ => ⟨s', rfl⟩
  | cons e J ih =>
    intro gone' s' hs h
    cases e with
    | inserted c => exact ih hs h
    | hoisted source b before c =>
      obtain ⟨⟨d, hd⟩, hunused, hseen⟩ := h source List.mem_cons_self
      have hbound : (metFrom s (Child s) source).card ≤ s'.depthBound := by
        obtain ⟨_, he, _⟩ := id hs
        rw [Store.depthBound, he.ops_size]
        exact (card_metFrom_le s _ source).trans (Nat.le_succ _)
      obtain ⟨s₁, herase⟩ := eraseWithin_total hl hp hac s'.depthBound hd hbound hseen hs
        fun v hv u hu => by
          rw [hunused v hv] at hu
          cases hu
      have hs₁ := hs.trans (eraseWithin_ok _ (hs.linked hl) (hs.pointsBack hp) herase)
      obtain ⟨t, hrest⟩ := ih hs₁ fun o ho => h o (List.mem_cons_of_mem _ ho)
      refine ⟨t, ?_⟩
      rw [Journal.commit, Edit.bind_ok]
      exact ⟨(), s₁, herase, hrest⟩

/-- What was done after a composition has left the originals as they were, and is the doing of one
operation outside of them: whoever has come to use something defined in an original is that
operation, and it uses what the anchor can look at. -/
structure Built (x c : OpRef) (a : Journal × Store) (t : Store) : Prop where
  kept : ∃ gone, Kept t gone
  acyclic : Acyclic t
  sameTree : ∀ o ∈ a.1.originals, SameTree a.2 t o
  there : ∀ o ∈ a.1.originals, ∃ d, t.op? o = some d
  users : ∀ o ∈ a.1.originals, ∀ y v k, Within a.2 o y → a.2.originOf v = some (.result y k) →
    ∀ u ∈ t.usesOf v, u ∈ a.2.usesOf v ∨ u.user = c ∧ Looks x a v
  apart : ∀ o ∈ a.1.originals, ¬ Within t o c

theorem Looks.value? (hv : Looks x a v) : ∃ e, a.2.value? v = some e := by
  rcases hv.holds with hsees | ⟨o, k, horigin, _⟩
  · exact value?_of_sees hsees
  · obtain ⟨e, he, _⟩ := Option.map_eq_some_iff.1 horigin
    exact ⟨e, he⟩

section Built

variable (ha : Underway sided root gone a)

include ha

/-- A new operation without regions is built from what the anchor can look at. -/
theorem Built.created {spec : OpSpec} (hregions : spec.regions = [])
    (hlooks : ∀ v ∈ spec.operands, Looks x a v) (hcreate : createOp spec a.2 = .ok (c, t)) :
    Built x c a t := by
  have hl := ha.sound.linked
  have hc := createOp_ok hcreate
  have hcopied := hc.copied_self hregions
  have hkept := (Kept.copyStepsKeep gone).createOp _ _ _ _ ha.sound.tidy.kept hcreate
  have hthere : ∀ o ∈ a.1.originals, ∃ d, a.2.op? o = some d := fun o ho => by
    obtain ⟨d, hd, _⟩ := opParent_eq_some.1 (ha.out o ho)
    exact ⟨d, hd⟩
  have hsame : ∀ o ∈ a.1.originals, SameTree a.2 t o := fun o ho => by
    obtain ⟨d, hd⟩ := hthere o ho
    exact .copied hcopied hl hkept.linked hd
  refine ⟨⟨gone, hkept⟩, hc.acyclic hl hregions ha.sound.acyclic, hsame, fun o ho => ?_,
    fun o ho y v k _ _ u hu => ?_, fun o ho hw => ?_⟩
  · obtain ⟨d, hd⟩ := hthere o ho
    exact ⟨d, hcopied.op? o d hd⟩
  · rw [hc.usesOf, List.mem_append, mem_operandUses] at hu
    exact hu.imp_right fun hu => ⟨hu.1, hlooks v (List.mem_of_getElem? hu.2)⟩
  · obtain ⟨d, hd⟩ := hl.op?_of_within (hthere o ho) ((hsame o ho).within_iff.1 hw)
    cases hc.new.symm.trans hd

/-- The anchor itself gets operands that it can look at. -/
theorem Built.respecified (hx : Nested a.2 root x) {d : OpData} {key : String} {attr : Attr}
    {operands : List ValueRef} {u : Unit} (hd : a.2.op? x = some d)
    (hlooks : ∀ v ∈ operands, Looks x a v)
    (hrun : respecify x key attr operands a.2 = .ok (u, t)) : Built x x a t := by
  have hs := ha.sound
  have hr := respecified_of_ok hd hrun
  have hnesting := hr.sameNesting hd rfl rfl
  have hkept := (hs.tidy.respecified hd hrun (hs.tidy.not_gone hx)
    fun v hv => (hlooks v hv).value?).kept
  refine ⟨⟨gone, hkept⟩, fun y hy => hs.acyclic y (Nested.grows hnesting.symm.grows hy),
    fun o ho => .same hnesting, fun o ho => ?_, fun o ho y v k _ _ u hu => ?_, fun o ho hw => ?_⟩
  · have hparent := ha.out o ho
    rw [← hnesting.opParent_eq, opParent_eq_some] at hparent
    obtain ⟨d, hd, _⟩ := hparent
    exact ⟨d, hd⟩
  · obtain ⟨hlive, hslot⟩ := (hkept.uses.mem_iff v u).1 hu
    by_cases huser : u.user = x
    · rw [slot?_eq ((hr.op? u.user).trans (if_pos huser))] at hslot
      exact .inr ⟨huser, hlooks v (List.mem_of_getElem? hslot)⟩
    · refine .inl ((hs.tidy.kept.uses.mem_iff v u).2 ⟨hlive, ?_⟩)
      rw [← hslot, slot?, slot?, hr.op?, if_neg huser]
  · exact not_nested_of_original ha ho ((SameTree.same hnesting).within_iff.1 hw) hx

end Built

/-- After a composition only what is built then uses a result of an original; and the commit comes
to an end exactly if it uses none. -/
theorem Built.commit_iff (h : Built x c a t) (ha : Underway sided root gone a)
    (hx : Nested a.2 root x) (hset : SetAside x a) :
    (∀ o ∈ a.1.originals, ∀ v ∈ t.resultsOf o, ∀ u ∈ t.usesOf v, u.user = c) ∧
    ((∃ t', Journal.commit a.1 t = .ok ((), t')) ↔
      ∀ o ∈ a.1.originals, ∀ v ∈ t.resultsOf o, t.usesOf v = []) := by
  obtain ⟨gone', hkept⟩ := h.kept
  have hl := hkept.linked
  have hp := hkept.uses.pointsBack
  have husers : ∀ o ∈ a.1.originals, ∀ v ∈ t.resultsOf o, ∀ u ∈ t.usesOf v, u.user = c := by
    intro o ho v hv u hu
    obtain ⟨k, hk⟩ := originOf_of_mem_results hl hv
    have hk' := ((h.sameTree o ho).results o v k .refl).1 hk
    have hmem : v ∈ a.2.resultsOf o := by
      obtain ⟨d, hd, _⟩ := hset.abandoned o ho
      rw [resultsOf_eq hd]
      exact List.mem_of_getElem? ((ha.sound.linked.results.mem_iff (a := o)
        (by simp [resultsIn, hd]) k v).2 hk')
    rcases h.users o ho o v k .refl hk' u hu with hold | ⟨huser, _⟩
    · rw [hset.abandoned.usesOf ho hmem] at hold
      cases hold
    · exact huser
  refine ⟨husers, fun hcommit => ?_, fun hunused => ?_⟩
  · obtain ⟨t', hcommit⟩ := hcommit
    intro o ho v hv
    refine List.eq_nil_iff_forall_not_mem.2 fun u hu => ?_
    -- the commit would have met the use
    obtain ⟨o', ho', hw⟩ := commit_users hl hp hcommit o ho v hv u hu
    exact h.apart o' ho' (husers o ho v hv u hu ▸ hw)
  · refine commit_total_of_seen hl hp h.acyclic (Clears.refl t) fun o ho =>
      ⟨h.there o ho, hunused o ho, fun y hy v hv u hu => ?_⟩
    have hsame := h.sameTree o ho
    have hy := hsame.nested_iff.1 hy
    obtain ⟨k, hk⟩ := originOf_of_mem_results hl hv
    have hk := (hsame.results y v k hy.to_reflTransGen).1 hk
    rcases h.users o ho y v k hy.to_reflTransGen hk u hu with hold | ⟨_, hlooks⟩
    · obtain ⟨o', ho', hinside⟩ := users_inside ha hx hset ho hy hk hold
      obtain ⟨z, _, hzu, hoffered⟩ := (h.sameTree o' ho').seenInside hinside
      exact ⟨z, hzu, hoffered⟩
    · exact absurd hlooks (not_looks_inside ha hx ho hy hk)

end AffineRaising.Raise
