/-
# AffineRaising.Proofs.Raise.Drawn — hoists that keep a module visible.

A hoist puts a copy of an operation in front of something from which the operation is reached and
which sees all that the operation uses from outside (`Draws`).  Then whoever saw a result of the
operation sees that of the copy, and the copy sees what it uses: the module stays visible, and what
is not nested in the operation can look at what it could look at before.
-/
import AffineRaising.Proofs.Raise.VisibleEdits

namespace AffineRaising.Raise

open AffineRaising.IR AffineRaising.IR.Store AffineRaising.Analysis

variable {gone away : OpRef → Prop} {s t : Store} {u v w : ValueRef}
  {root a c o q x y z : OpRef} {b : BlockRef}

/-! ## In front of an operation -/

/-- The first operation stands in front of something that is or encloses the second one. -/
def StandsAhead (s : Store) (c x : OpRef) : Prop := ∃ a, Within s a x ∧ Precedes s c a

namespace StandsAhead

/-- An operation sees the results of what stands ahead of it. -/
theorem sees (h : StandsAhead s c x) {k : Nat} (hv : s.originOf v = some (.result c k)) :
    Sees s v x := by
  obtain ⟨a, hax, hca⟩ := h
  exact ⟨a, hax, .inr ⟨c, k, hv, hca⟩⟩

/-- What stands ahead of an operation stands ahead of all that comes after the operation. -/
theorem trans (hl : Linked s) (h : StandsAhead s c o) (h' : StandsAhead s o x) :
    StandsAhead s c x := by
  obtain ⟨a, hao, hca⟩ := h
  obtain ⟨a', ha'x, hoa'⟩ := h'
  by_cases hne : a = o
  · subst hne
    exact ⟨a', ha'x, hca.trans hl hoa'⟩
  · exact ⟨a, (hoa'.within hl hao hne).trans ha'x, hca⟩

end StandsAhead

/-- What the way out of an operation crosses does not stand in the operation. -/
theorem not_within_holder (hl : Linked s) (hac : Acyclic s) (h : Reaches s q o)
    {p : OpRef} (hp : Child s p q) : ¬ Within s o p := by
  intro hw
  obtain ⟨a, hao, rfl | hqa⟩ := h
  · exact hac o (Relation.TransGen.trans_right hw (.head' hp hao))
  · exact hac o (Relation.TransGen.trans_right hw (.head' ((hqa.child_iff hl).1 hp) hao))

/-! ## What an operation uses -/

section Ready

variable (hl : Linked s) (hvisible : Visible s root) (ho : Nested s root o)

include hl hvisible ho

/-- Each operand of something in an operation comes from outside or is offered inside. -/
theorem free_or_seenInside {d : OpData} (hx : Within s o x) (hd : s.op? x = some d)
    (hv : v ∈ d.operands) : Free s o v ∨ SeenInside s o x v := by
  by_cases hinside : Inside s o v
  · refine .inr ?_
    obtain ⟨b, p, hlives, hp, hop⟩ := hinside
    obtain ⟨a, hax, hoffered⟩ := hvisible x d v (ho.trans_within hx) hd hv
    obtain ⟨b', bd, hlives', hbd, hmem⟩ := lives_of_offered hl hoffered
    cases (hlives.home hl).1.symm.trans (hlives'.home hl).1
    exact ⟨a, .tail' hop ((child_iff_holds hl hbd hmem).2 hp), hax, hoffered⟩
  · exact .inl ⟨x, d, hx, hd, hv, hinside⟩

/-- So the operation is ready to be copied. -/
theorem ready_free : Ready s (Free s o) [] o := fun _ _ _ hx hd hv =>
  (free_or_seenInside hl hvisible ho hx hd hv).imp_right .inr

end Ready

/-! ## Hoists -/

/-- A hoist of an operation of a visible module, in front of an operation from which the original is
reached and which sees all that the original uses from outside. -/
structure Drawing (root : OpRef) (gone : OpRef → Prop) (s : Store) (o q c : OpRef) (p : Point)
    (b : BlockRef) (before : Option OpRef) (sc si sr t : Store) (m : Renaming) : Prop where
  hoisted : Hoisted gone s o p b before c sc si sr t
  clone : cloneOp [] o s = .ok ((c, m), sc)
  tidy : Tidy gone s
  sized : Sized s
  acyclic : Acyclic s
  top : s.opParent root = some none
  visible : Visible s root
  nested : Nested s root o
  place : p.before = some q
  reach : Reaches s q o
  free : ∀ u, Free s o u → Sees s u q

namespace Drawing

variable {p : Point} {before : Option OpRef} {sc si sr : Store} {m : Renaming}
  (h : Drawing root gone s o q c p b before sc si sr t m)

include h

theorem linked : Linked s := h.tidy.kept.linked

theorem linked_copied : Linked sc := h.hoisted.placed.cloned.kept.linked

theorem copied : Copied s sc := h.hoisted.placed.cloned.copied

theorem inserted : InsertedBefore sc c q p.block si := by
  have hinsert := h.hoisted.placed.insert
  rw [h.place] at hinsert
  exact insertedBefore_of_ok hinsert

theorem redirected : RedirectedAll si (resultPairs si o c) sr := h.hoisted.redirected.1

theorem same : SameNesting si sr := .redirectedAll h.redirected

theorem leaves : LeftBlocks sr [o] t := by
  obtain ⟨d, e, bd, hd, hparent, he, hbd, rfl⟩ := h.hoisted.detached
  have hentry := h.redirected.op? o
  rw [he] at hentry
  obtain ⟨d', hd', rfl⟩ := Option.map_eq_some_iff.1 hentry.symm
  cases (h.hoisted.placed.op? hd).symm.trans hd'
  exact .of_unlink h.hoisted.redirected.2.1.linked he hparent
    (by rw [block?, h.redirected.blocks]; exact hbd)

theorem root_entry : ∃ d, s.op? root = some d := by
  obtain ⟨d, hd, _⟩ := opParent_eq_some.1 h.top
  exact ⟨d, hd⟩

theorem top_copied : sc.opParent root = some none := by
  obtain ⟨d, hd, hparent⟩ := opParent_eq_some.1 h.top
  exact opParent_eq_some.2 ⟨d, h.copied.op? root d hd, hparent⟩

theorem root_ne : root ≠ c := by
  rintro rfl
  obtain ⟨d, hd⟩ := h.root_entry
  rw [h.hoisted.placed.cloned.new] at hd
  cases hd

theorem top_after : sr.opParent root = some none := by
  rw [h.same.opParent_eq, h.inserted.opParent_other h.root_ne, h.top_copied]

/-- The place is in the module, as the original is reached from it. -/
theorem place_nested : Nested s root q := by
  obtain ⟨bd, front, back, hbd, hsplit, _⟩ := h.inserted.block
  obtain ⟨e, he, hparent⟩ := h.linked_copied.op?_of_mem hbd (by simp [hsplit] : q ∈ bd.ops)
  have hq : ∃ d, s.op? q = some d := by
    obtain ⟨a, hao, rfl | hqa⟩ := h.reach
    · obtain ⟨d, hd⟩ := h.root_entry
      exact h.linked.op?_of_within ⟨d, hd⟩ (h.nested.enclosing h.linked h.top hao)
    · obtain ⟨b', bd', hbd', hpair⟩ := hqa
      obtain ⟨d, hd, _⟩ := h.linked.op?_of_mem hbd' (left_mem_of_pair hpair)
      exact ⟨d, hd⟩
  obtain ⟨d, hd⟩ := hq
  have hd' := h.copied.op? q d hd
  rw [he] at hd'
  exact h.nested.of_reaches h.linked h.top h.reach
    (opParent_eq_some.2 ⟨d, hd, (Option.some.inj hd') ▸ hparent⟩)

theorem place_nested_copied : Nested sc root q := h.place_nested.grows h.copied.grows

/-! ### The copy -/

/-- The copy is an image of the original, over the same operands from outside. -/
theorem copyOf : ∃ src, CopyOf (Free s o) s o c sc src m := by
  obtain ⟨d, hd, _⟩ := h.hoisted.entry
  exact cloneOp_copyOf h.tidy.kept (h.tidy.grounded.groundedIn hd) h.acyclic h.sized
    (ready_free h.linked h.visible h.nested) h.clone

/-- A new value stands for nothing that comes from outside. -/
theorem not_free_of_stands {src : Source} (hcopy : CopyOf (Free s o) s o c sc src m)
    (hw : s.value? w = none) (hstands : IR.Stands s src sc u w) : ¬ Free s o u := by
  intro hfree
  obtain ⟨a, ha, hua⟩ := hstands
  obtain ⟨hresult, hargument⟩ := hcopy.origin_new hw
  have hsource : ∀ {q}, Within sc c q → Within s o (src.op q) := by
    intro q hq
    have hwithin := (hcopy.within hcopy.new hq).2
    rwa [hcopy.root] at hwithin
  have hseen := h.visible.free_seen h.linked h.nested hfree
  obtain ⟨_, _, _, _, _, hout⟩ := hfree
  cases a with
  | result y k =>
    obtain ⟨e, he⟩ := op?_of_result hcopy.linked_after ha
    rcases Relation.ReflTransGen.cases_tail (hcopy.within_new he (hresult y k ha)) with
      rfl | ⟨p, hp, hc⟩
    · rw [Source.origin, hcopy.root] at hua
      exact ne_result_of_reaches h.linked h.acyclic hseen ⟨o, .refl, .inl rfl⟩ k hua
    · obtain ⟨hpnew, _⟩ := hcopy.within hcopy.new hp
      obtain ⟨b', bd, hholds, hbd, hmem⟩ := child_iff.1 (hcopy.child hpnew hc).2
      obtain ⟨d, hd, hparent⟩ := h.linked.op?_of_mem hbd hmem
      exact hout ⟨b', src.op p, .inr ⟨_, k, d, hua, hd, hparent⟩, hholds, hsource hp⟩
  | argument b' k =>
    obtain ⟨be, hbe⟩ := block?_of_argument hcopy.linked_after ha
    obtain ⟨p, hpnew, hholds⟩ := hcopy.holder hbe (hargument b' k ha)
    obtain ⟨e, he, _⟩ := id hholds
    exact hout ⟨src.block b', src.op p, .inl ⟨k, hua⟩, (hcopy.holds hpnew hholds).2,
      hsource (hcopy.within_new he hpnew)⟩

/-- The operands in the copy are visible at its place or offered in the copy. -/
theorem copy_ready {d : OpData} (hx : Within sc c x) (hd : sc.op? x = some d)
    (hw : w ∈ d.operands) : Sees sc w q ∨ SeenInside sc c x w := by
  obtain ⟨src, hcopy⟩ := h.copyOf
  obtain ⟨hnew, hsource⟩ := hcopy.within hcopy.new hx
  rw [hcopy.root] at hsource
  rcases hcopy.built.operands x d w hd hnew hw with hfree | ⟨hwnew, _⟩
  · exact .inl (h.copied.grows.sees (h.free w hfree))
  · obtain ⟨e, he, halike⟩ := hcopy.mirrors.ops x d hnew hd
    obtain ⟨u, hu, hstands⟩ := halike.operand_source hw
    rcases free_or_seenInside h.linked h.visible h.nested hsource he hu with hfree | hseen
    · exact absurd hfree (h.not_free_of_stands hcopy hwnew hstands)
    · exact .inr (hcopy.seenInside hx hwnew hstands hseen)

/-- The module is visible with the copy at its place. -/
theorem visible_inserted : Visible si root := by
  obtain ⟨d, hd⟩ := h.root_entry
  exact (h.visible.copied h.copied h.linked hd).inserted h.inserted h.linked_copied
    fun x d w hx hd hw => h.copy_ready hx hd hw

/-! ### Results -/

/-- The copy stands ahead of the original. -/
theorem ahead : StandsAhead si c o := by
  obtain ⟨a, hao, hca⟩ :=
    h.inserted.precedes_new h.linked_copied (h.copied.grows.reaches h.reach)
  exact ⟨a, h.inserted.grows.nests.within hao, hca⟩

/-- Whoever sees a result of the original sees the result of the copy that replaces it. -/
theorem result_seen {pair : ValueRef × ValueRef} (hpair : pair ∈ resultPairs si o c)
    (hx : Sees si pair.1 x) : Sees si pair.2 x := by
  have hl := h.hoisted.placed.kept_after.linked
  obtain ⟨hold, hnew⟩ := List.of_mem_zip hpair
  obtain ⟨k, hk⟩ := originOf_of_mem_results hl hold
  obtain ⟨k', hk'⟩ := originOf_of_mem_results hl hnew
  exact (h.ahead.trans hl (hx.reaches hk)).sees hk'

/-- The module is visible when the uses of the original went over to the copy. -/
theorem visible_redirected : Visible sr root :=
  h.visible_inserted.redirected h.redirected fun _ hpair _ _ hx => h.result_seen hpair hx

/-- A hoist keeps the store tidy. -/
theorem tidy_after : Tidy gone t := h.hoisted.tidy h.tidy h.clone

theorem not_gone_of_parent {e : OpData} {b : BlockRef} (he : t.op? x = some e)
    (hb : e.parent = some b) :
    ¬ gone x := by
  intro hgone
  rw [h.tidy_after.removed x e hgone he] at hb
  cases hb

/-- The root is not hoisted. -/
theorem root_stays : root ∉ [o] := by
  intro hroot
  obtain ⟨b', hb'⟩ := h.nested.attached h.linked
  rw [← List.mem_singleton.1 hroot, h.top] at hb'
  cases hb'

/-- Nothing in the module has a result of the original for an operand. -/
theorem unused {d : OpData} {k : Nat} (hx : Nested t root x) (hd : t.op? x = some d)
    (hv : v ∈ d.operands) : t.originOf v ≠ some (.result o k) := by
  intro hvo
  have ht := h.tidy_after
  obtain ⟨e, he, _, hnone⟩ := h.hoisted.abandoned_source h.tidy h.clone
  have hresult : v ∈ e.results :=
    List.mem_of_getElem? ((ht.kept.linked.results.mem_iff (a := o) (by rw [resultsIn, he]; rfl)
      k v).2 hvo)
  obtain ⟨b', hb'⟩ := hx.attached ht.kept.linked
  obtain ⟨d', hd', hparent⟩ := opParent_eq_some.1 hb'
  obtain ⟨i, hi⟩ := List.mem_iff_getElem?.1 hv
  have huse := (ht.kept.uses.mem_iff v ⟨x, i⟩).2
    ⟨h.not_gone_of_parent hd' hparent, by rw [slot?_eq hd, hi]⟩
  rw [hnone v hresult] at huse
  cases huse

/-- The module is visible after the hoist. -/
theorem visible_after : Visible t root := by
  refine h.leaves.visible h.hoisted.redirected.2.1.linked h.top_after h.root_stays
    h.visible_redirected fun x d v o' k hx hd hv hvo ho' => ?_
  obtain ⟨e, he, hoperands⟩ : ∃ e, t.op? x = some e ∧ e.operands = d.operands := by
    refine ⟨_, (h.leaves.op? x).trans (congrArg _ hd), ?_⟩
    split <;> rfl
  refine h.unused hx he (hoperands ▸ hv) (k := k) ?_
  rw [h.leaves.originOf_eq, hvo, List.mem_singleton.1 ho']

/-! ### What stays -/

theorem grows : Grows s sr := (h.copied.grows.trans h.inserted.grows).trans h.same.grows

/-- Nothing is nested in itself before the original leaves. -/
theorem acyclic_redirected : Acyclic sr := by
  obtain ⟨src, hcopy⟩ := h.copyOf
  have hcopied : Acyclic sc := by
    intro x hx
    by_cases hnew : s.op? x = none
    · obtain ⟨y, hxy, hyx⟩ := Relation.TransGen.head'_iff.1 hx
      obtain ⟨hy, hc⟩ := hcopy.child hnew hxy
      exact h.acyclic _ (.head' hc (hcopy.within hy hyx).2)
    · obtain ⟨d, hd⟩ := Option.ne_none_iff_exists'.1 hnew
      exact h.acyclic x (nested_of_copied h.copied h.linked hd hx)
  have hinserted := h.inserted.acyclic hcopied fun p' hp' => apart_of_nested h.inserted
    h.linked_copied h.top_copied h.place_nested_copied h.inserted.detached h.root_ne.symm hp'
  exact fun x hx => hinserted x (Nested.grows h.same.symm.grows hx)

/-- The block in which the copy is put is not in the original. -/
theorem place_apart {p' : OpRef} (hp' : Holds sc p' p.block) : ¬ Within sc o p' := by
  intro hw
  obtain ⟨d, hd, _⟩ := h.hoisted.entry
  obtain ⟨p₁, _, hc₁⟩ := Relation.TransGen.tail'_iff.1 h.place_nested
  obtain ⟨bd, front, back, hbd, hsplit, _⟩ := h.inserted.block
  have hc' := (child_iff_holds h.linked_copied hbd (by simp [hsplit] : q ∈ bd.ops)).2 hp'
  cases hc'.unique h.linked_copied (h.copied.grows.nests.child hc₁)
  exact not_within_holder h.linked h.acyclic h.reach hc₁
    (within_of_copied h.copied h.linked hd hw)

/-- What is not nested in the original is not nested in it when it leaves. -/
theorem not_within (hx : ¬ Within s o x) : ¬ Within sr o x := by
  intro hw
  obtain ⟨d, hd, _⟩ := h.hoisted.entry
  exact hx (within_of_copied h.copied h.linked hd (h.inserted.within_old
    (fun _ => h.place_apart) (h.same.symm.grows.nests.within hw)))

section Stays

variable (hx : ¬ Within s o x)

include hx

/-- What is not nested in the original is still there. -/
theorem stays : ∀ y, Within sr y x → y ∉ [o] := fun _ hy hyo =>
  h.not_within hx (List.mem_singleton.1 hyo ▸ hy)

/-- What is not nested in the original is still in the module. -/
theorem nested_after (hnested : Nested s root x) : Nested t root x :=
  h.leaves.nested_of (hnested.grows h.grows) (h.stays hx)

/-- What is not nested in the original is nested in what it was nested in. -/
theorem within_after (hyx : Within s y x) : Within t y x :=
  h.leaves.thinned.within (h.grows.nests.within hyx) (h.stays hx)

/-- What is not nested in the original sees what it saw, results of the original apart. -/
theorem sees_after (hv : Sees s v x) (hresult : ∀ k, s.originOf v ≠ some (.result o k)) :
    Sees t v x := by
  refine h.leaves.thinned.sees (h.grows.sees hv) (h.stays hx) fun y k hy hyo => ?_
  obtain ⟨a, ha⟩ : ∃ a, s.originOf v = some a := by
    obtain ⟨_, _, ⟨_, _, _, hv', _⟩ | ⟨_, _, hv', _⟩⟩ := hv <;> exact ⟨_, hv'⟩
  cases (h.grows.originOf v a ha).symm.trans hy
  exact hresult k (List.mem_singleton.1 hyo ▸ ha)

/-- What saw a result of the original sees the results of the copy. -/
theorem copy_seen (hv : Sees s v x) {k k' : Nat} (hvo : s.originOf v = some (.result o k))
    (hw : t.originOf w = some (.result c k')) : Sees t w x := by
  have hx' := h.stays hx
  obtain ⟨a, hax, hca⟩ := h.ahead.trans h.hoisted.placed.kept_after.linked
    ((h.copied.grows.trans h.inserted.grows).sees hv |>.reaches
      ((h.copied.grows.trans h.inserted.grows).originOf v _ hvo))
  have hw' : sr.originOf w = some (.result c k') := by rw [← h.leaves.originOf_eq, hw]
  refine h.leaves.thinned.sees ⟨a, h.same.grows.nests.within hax, .inr ⟨c, k', hw',
    h.same.grows.precedes hca⟩⟩ hx' fun y j hy hyo => ?_
  cases hw'.symm.trans hy
  exact h.hoisted.source_ne (List.mem_singleton.1 hyo).symm

/-- Order in a block is kept, the original apart. -/
theorem precedes_after (hyx : Precedes s y x) (hyo : y ≠ o) : Precedes t y x := by
  refine h.leaves.thinned.precedes (h.grows.precedes hyx) (by simpa using hyo) ?_
  exact h.stays hx x .refl

/-- What was reached is still reached, from other operations than the original. -/
theorem reaches_after (hyx : Reaches s y x) (hyo : y ≠ o) : Reaches t y x := by
  obtain ⟨a, hax, hya⟩ := hyx
  refine ⟨a, h.within_after hx hax, hya.imp_right fun hya => ?_⟩
  exact h.precedes_after (fun hoa => hx (hoa.trans hax)) hya hyo

/-- What could be looked at still can, with the original among what went away. -/
theorem inReach_after (hroot : ¬ away root) (haway : ∀ y, away y → ∃ d, s.op? y = some d)
    (hv : InReach away s x v) : InReach (fun y => away y ∨ y = o) t x v := by
  have hl := h.hoisted.placed.kept_after.linked
  have hlr := h.hoisted.redirected.2.1.linked
  have hc : ¬ away c := by
    intro hc
    obtain ⟨d, hd⟩ := haway c hc
    rw [h.hoisted.placed.cloned.new] at hd
    cases hd
  have hinserted := (hv.copied h.copied h.linked h.linked_copied).inserted h.inserted
    h.linked_copied h.top_copied h.place_nested_copied hl hroot hc
  have hredirected := hinserted.redirected h.redirected hl hlr
    (by rw [h.inserted.opParent_other h.root_ne, h.top_copied]) (fun pair hpair => ?_)
    (fun pair hpair hx => h.result_seen hpair hx) hroot
  · refine hredirected.detached h.leaves hlr h.tidy_after.kept.linked ?_ h.top_after
      h.visible_redirected (h.nested.grows h.grows) (h.not_within hx) hroot
    exact h.acyclic_redirected
  · obtain ⟨hold, _⟩ := List.of_mem_zip hpair
    obtain ⟨k, hk⟩ := originOf_of_mem_results hl hold
    exact ⟨o, k, hk, h.nested.grows (h.copied.grows.trans h.inserted.grows)⟩

end Stays

end Drawing

end AffineRaising.Raise
