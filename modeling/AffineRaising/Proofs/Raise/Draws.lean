/-
# AffineRaising.Proofs.Raise.Draws — runs of hoists in front of an anchor.

A promotion for an anchor hoists what stands ahead of the anchor (`DrawStep`), one operation after
the other.  Such a run keeps the module sound, and the anchor keeps what it can look at.  It also
keeps what is known about the places that were collected so far (`Supplied`): each is in front of
something from which the anchor is reached, unless that was taken out of its block since, and every
value that the anchor uses from outside is seen from one of them or still to come.
-/
import AffineRaising.Proofs.Analysis.PointOrder
import AffineRaising.Proofs.Raise.Sound

namespace AffineRaising.Raise

open AffineRaising.IR AffineRaising.IR.Store AffineRaising.Analysis

variable {sided : Prop} {gone : OpRef → Prop} {s t : Store} {u v w : ValueRef}
  {root a c o q x y z : OpRef}
  {p : Point} {b : BlockRef}

/-! ## Order -/

namespace StandsAhead

theorem of_sees (hv : Sees s v x) {k : Nat} (horigin : s.originOf v = some (.result o k)) :
    StandsAhead s o x :=
  hv.reaches horigin

theorem within (h : StandsAhead s c x) (hxz : Within s x z) : StandsAhead s c z := by
  obtain ⟨a, hax, hca⟩ := h
  exact ⟨a, hax.trans hxz, hca⟩

theorem grows (h : StandsAhead s c x) (hg : Grows s t) : StandsAhead t c x := by
  obtain ⟨a, hax, hca⟩ := h
  exact ⟨a, hg.nests.within hax, hg.precedes hca⟩

variable (hl : Linked s) (hac : Acyclic s)

include hl hac

theorem not_within (h : StandsAhead s c x) : ¬ Within s c x := by
  intro hw
  obtain ⟨a, hax, hca⟩ := h
  rcases within_or_within hl hw hax with hca' | hac'
  · exact hca.not_within hl (hac c) hca'
  · exact hca.not_within_left hl (hac a) hac'

/-- What stands ahead of an operation is not nested in it. -/
theorem not_within_left (h : StandsAhead s c x) : ¬ Within s x c := by
  intro hw
  obtain ⟨a, hax, hca⟩ := h
  exact hca.not_within_left hl (hac a) (hax.trans hw)

end StandsAhead

/-- What holds an operation encloses whatever is reached from there. -/
theorem within_of_reaches (hl : Linked s) (h : Reaches s q x) (hp : Child s y q) :
    Within s y x := by
  obtain ⟨a, hax, rfl | hqa⟩ := h
  · exact .head hp hax
  · exact .head ((hqa.child_iff hl).1 hp) hax

/-- A place from which the way out of an operation leads behind another place is where the operation
of that place is reached from. -/
theorem reaches_of_dominates (hl : Linked s) (hac : Acyclic s) {p' : Point}
    (hp : p.before = some y) (hp' : p'.before = some x) (hx : s.opParent x = some (some p'.block))
    (h : Dominates s p p') : s.opParent y = some (some p.block) ∧ Reaches s y x := by
  have hf := forest_of_linked hl hac
  obtain ⟨_, j, _, _, hstands⟩ := hf.standsAt hx
  obtain ⟨n, _, _, hn, _⟩ := id h
  obtain ⟨b, before⟩ := p
  obtain ⟨b', before'⟩ := p'
  cases hp
  cases hp'
  obtain ⟨a, k, hxa, ha, hnk⟩ := (dominates_before_iff hf hn hstands).1 h
  obtain ⟨bd, k', hbd, hk', ha'⟩ := hf.standsAt ha.parent
  obtain ⟨_, rfl⟩ := ha.unique ha'
  obtain ⟨hlt, hget, _⟩ := List.idxOf?_eq_some_iff.1 hk'
  -- the number of a place whose operation is not in the block would be greater
  have hindex : bd.ops.idxOf? y = some n := by
    simp only [Point.index, except_bind_ok, block_ok] at hn
    obtain ⟨bd', hbd', hn⟩ := hn
    cases hbd.symm.trans hbd'
    cases hy : bd.ops.idxOf? y with
    | none =>
      rw [hy] at hn
      cases hn
      exact absurd hlt (Nat.not_lt.2 hnk)
    | some m =>
      rw [hy] at hn
      cases hn
      rfl
  obtain ⟨hltn, hgetn, _⟩ := List.idxOf?_eq_some_iff.1 hindex
  refine ⟨opParent_of_mem hl hbd (hgetn ▸ List.getElem_mem hltn), a,
    (stepsOut_iff_within hl).1 hxa, ?_⟩
  rcases Nat.lt_or_eq_of_le hnk with hlt' | rfl
  · exact .inr ⟨b, bd, hbd, (idxOf?_lt_iff (hl.ops_nodup hbd) hindex hk').1 hlt'⟩
  · exact .inl (hget.symm.trans hgetn)

/-! ## What a hoist leaves -/

namespace Drawing

variable {before : Option OpRef} {sc si sr : Store} {m : Renaming}
  (h : Drawing root gone s o q c p b before sc si sr t m)

include h

theorem originOf_after {k : Origin} (hv : s.originOf v = some k) : t.originOf v = some k :=
  (h.leaves.originOf_eq v).trans (h.grows.originOf v k hv)

/-- What stands in no block stays there. -/
theorem detached_after (hy : s.opParent y = some none) : t.opParent y = some none := by
  obtain ⟨d, hd, hparent⟩ := Option.map_eq_some_iff.1 hy
  have hyc : y ≠ c := by
    rintro rfl
    rw [h.hoisted.placed.cloned.new] at hd
    cases hd
  have hsr : sr.opParent y = some none := by
    rw [h.same.opParent_eq, h.inserted.opParent_other hyc, opParent, h.copied.op? y d hd,
      Option.map_some, hparent]
  by_cases hyo : y ∈ [o]
  · rw [List.mem_singleton.1 hyo]
    exact h.hoisted.detached_parent
  · rw [h.leaves.opParent_other hyo, hsr]

theorem adrift_after (hv : Adrift s v) : Adrift t v := by
  obtain ⟨y, k, horigin, hy⟩ := hv
  exact ⟨y, k, h.originOf_after horigin, h.detached_after hy⟩

/-- The results of the original have no definition in the program any more. -/
theorem adrift_result {k : Nat} (hv : s.originOf v = some (.result o k)) : Adrift t v :=
  ⟨o, k, h.originOf_after hv, h.hoisted.detached_parent⟩

section Ahead

variable (hx : StandsAhead s o x)

include hx

/-- The original is not nested in an anchor that it stands ahead of. -/
theorem not_nested_in : ¬ Within sr x o :=
  (hx.grows h.grows).not_within_left h.hoisted.redirected.2.1.linked h.acyclic_redirected

theorem standsAhead_after (hyx : StandsAhead s y x) (hyo : y ≠ o) : StandsAhead t y x := by
  have hox := hx.not_within h.linked h.acyclic
  obtain ⟨a, hax, hya⟩ := hyx
  exact ⟨a, h.within_after hox hax, h.precedes_after (fun hoa => hox (hoa.trans hax)) hya hyo⟩

/-- What is nested in the anchor was nested there. -/
theorem within_before {d : OpData} (hd : s.op? x = some d) (hxz : Within t x z) : Within s x z := by
  have hsi : Within si x z := h.same.symm.grows.nests.within (h.leaves.within_of hxz)
  refine within_of_copied h.copied h.linked hd (h.inserted.within_old (fun y hy hxy => ?_) hsi)
  -- the block in which the copy was put is not in the anchor
  obtain ⟨p₁, _, hc₁⟩ := Relation.TransGen.tail'_iff.1 h.place_nested
  obtain ⟨bd, front, back, hbd, hsplit, _⟩ := h.inserted.block
  have hc' := (child_iff_holds h.linked_copied hbd (by simp [hsplit] : q ∈ bd.ops)).2 hy
  cases hc'.unique h.linked_copied (h.copied.grows.nests.child hc₁)
  have hxp := within_of_copied h.copied h.linked hd hxy
  exact hx.not_within_left h.linked h.acyclic
    (hxp.trans (within_of_reaches h.linked h.reach hc₁))

/-- What the anchor uses from outside it used before, or it is a result of the copy and stands for
one of the original. -/
theorem free_before (hnested : Nested s root x) (hfree : Free t x u) :
    ∃ u₀, Free s x u₀ ∧ (u = u₀ ∧ (∀ k, s.originOf u ≠ some (.result o k)) ∨
      ∃ k k', s.originOf u₀ = some (.result o k) ∧ t.originOf u = some (.result c k')) := by
  have hl := h.linked
  obtain ⟨bx, hbx⟩ := hnested.attached hl
  obtain ⟨dx, hdx, _⟩ := opParent_eq_some.1 hbx
  obtain ⟨z, d, hxz, hd, hu, hout⟩ := hfree
  have hxz' := h.within_before hx hdx hxz
  obtain ⟨dz, hdz⟩ := hl.op?_of_within ⟨dx, hdx⟩ hxz'
  obtain ⟨e, he, hde⟩ := h.leaves.op?_cases hd
  have hmem : u ∈ redirectedOperands si (resultPairs si o c) z dz.operands := by
    obtain ⟨e', he', heq⟩ := Option.map_eq_some_iff.1 ((h.redirected.op? z).symm.trans he)
    obtain ⟨e'', he'', heq'⟩ := h.inserted.op?_cases he'
    cases (h.copied.op? z dz hdz).symm.trans he''
    rw [hde, ← heq, heq'] at hu
    exact hu
  have hzt : Nested t root z :=
    (h.nested_after (hx.not_within hl h.acyclic) hnested).trans_within hxz
  obtain ⟨u₀, hu₀, hcases⟩ := mem_redirectedOperands hmem
  obtain ⟨k₀, hk₀⟩ : ∃ k, s.originOf u₀ = some k := by
    obtain ⟨e₀, he₀⟩ := h.tidy.grounded z dz u₀ hdz hu₀
    exact ⟨e₀.origin, by rw [originOf, he₀]; rfl⟩
  rcases hcases with rfl | hpair
  · have hresult : ∀ k, s.originOf u ≠ some (.result o k) := fun k hk =>
      h.unused hzt hd hu (h.originOf_after hk)
    refine ⟨u, ⟨z, dz, hxz', hdz, hu₀, fun hin => hout ?_⟩, .inl ⟨rfl, hresult⟩⟩
    refine h.leaves.inside h.hoisted.redirected.2.1.linked (fun y hy hyo => ?_)
      (Inside.grows h.grows hl h.hoisted.redirected.2.1.linked hin)
    cases List.mem_singleton.1 hyo
    exact h.not_nested_in hx hy.to_reflTransGen
  · obtain ⟨hold, hnew⟩ := List.of_mem_zip hpair
    have hli := h.hoisted.placed.kept_after.linked
    obtain ⟨k, hk⟩ := originOf_of_mem_results hli hold
    obtain ⟨k', hk'⟩ := originOf_of_mem_results hli hnew
    have hold : s.originOf u₀ = some (.result o k) := by
      rw [hk₀, ← (h.copied.grows.trans h.inserted.grows).originOf u₀ k₀ hk₀, hk]
    refine ⟨u₀, ⟨z, dz, hxz', hdz, hu₀, ?_⟩, .inr ⟨k, k', hold, ?_⟩⟩
    · rintro ⟨b', y, ⟨k'', hb'⟩ | ⟨o', k'', d', ho', hd', hparent⟩, hholds, hxy⟩
      · cases hold.symm.trans hb'
      · cases hold.symm.trans ho'
        obtain ⟨bd, hbd, hmem'⟩ := hl.mem_of_parent hd' hparent
        exact hx.not_within_left hl h.acyclic
          (hxy.tail ((child_iff_holds hl hbd hmem').2 hholds))
    · rw [h.leaves.originOf_eq, h.same.grows.originOf u _ hk']

end Ahead

end Drawing

/-! ## Places -/

/-- The place is in front of an operation from which the anchor is reached and which sees the value,
or of one that stands in no block any more. -/
def Covers (s : Store) (x : OpRef) (p : Point) (u : ValueRef) : Prop :=
  ∃ q, p.before = some q ∧ (Reaches s q x ∧ Sees s u q ∨ s.opParent q = some none)

/-- The places are ahead of the anchor, and whatever the anchor uses from outside is covered by one
of them or in the list of what is still to come, unless something in the list is out of reach. -/
structure Supplied (s : Store) (x : OpRef) (vs : List ValueRef) (ps : List Point) : Prop where
  ahead : ∀ p ∈ ps, Ahead x s p
  covered : (∃ v ∈ vs, Adrift s v) ∨ ∀ u, Free s x u → u ∈ vs ∨ ∃ p ∈ ps, Covers s x p u

/-- The operation of the place behind a definition is offered all that the definition defines. -/
theorem offered_of_afterDefinition? (hl : Linked s)
    (hp : Point.afterDefinition? s v = .ok (some p)) (hq : p.before = some q)
    (hu : u = v ∨ ∃ o k k', s.originOf v = some (.result o k) ∧
      s.originOf u = some (.result o k')) : Offered s u q := by
  simp only [Point.afterDefinition?, except_bind_ok, value_ok] at hp
  obtain ⟨e, he, hp⟩ := hp
  have hv : s.originOf v = some e.origin := by rw [originOf, he]; rfl
  cases horigin : e.origin with
  | argument b i =>
    rw [horigin] at hv
    have huv : u = v := by
      rcases hu with rfl | ⟨_, _, _, hv', _⟩
      · rfl
      · cases hv.symm.trans hv'
    simp only [horigin, Point.start, bind_pure_comp, except_map_ok, block_ok] at hp
    obtain ⟨_, ⟨bd, hbd, rfl⟩, hp⟩ := hp
    cases hp
    exact .inl ⟨b, i, bd, huv ▸ hv, hbd, List.mem_of_head? hq⟩
  | result o k =>
    rw [horigin] at hv
    obtain ⟨k', hk'⟩ : ∃ k', s.originOf u = some (.result o k') := by
      rcases hu with rfl | ⟨_, _, k', hv', hk'⟩
      · exact ⟨k, hv⟩
      · cases hv.symm.trans hv'
        exact ⟨k', hk'⟩
    simp only [horigin, Point.after?, except_bind_ok, op_ok] at hp
    obtain ⟨d, hd, hp⟩ := hp
    cases hparent : d.parent with
    | none => simp [hparent] at hp
    | some b =>
      simp only [hparent, except_bind_ok] at hp
      obtain ⟨next, hnext, hp⟩ := hp
      cases hp
      obtain ⟨bd, hbd, hmem⟩ := hl.mem_of_parent hd hparent
      obtain ⟨front, back, hops, hhead⟩ := next?_ok hd hparent hbd hmem hnext
      refine .inr ⟨o, k', hk', b, bd, hbd, ?_⟩
      rw [hops]
      refine (List.cons_sublist_cons.2 (List.singleton_sublist.2 ?_)).trans
        (List.sublist_append_right front _)
      exact List.mem_of_head? (hhead.trans hq)

/-- The place behind what the anchor sees covers it, with all else that its definition defines. -/
theorem covers_of_afterDefinition? (hl : Linked s) (hv : Sees s v x)
    (hp : Point.afterDefinition? s v = .ok (some p))
    (hu : u = v ∨ ∃ o k k', s.originOf v = some (.result o k) ∧
      s.originOf u = some (.result o k')) : Covers s x p u := by
  obtain ⟨q, hq, hreach⟩ := reaches_of_afterDefinition? hl hv hp
  exact ⟨q, hq, .inl ⟨hreach, (offered_of_afterDefinition? hl hp hq hu).sees⟩⟩

theorem ahead_of_afterDefinition? (hl : Linked s) (hv : Sees s v x)
    (hp : Point.afterDefinition? s v = .ok (some p)) : Ahead x s p := by
  obtain ⟨q, hq, hreach⟩ := reaches_of_afterDefinition? hl hv hp
  exact ⟨q, hq, .inl hreach⟩

/-- A value that stays put is supplied by the place behind its definition. -/
theorem Supplied.next {vs : List ValueRef} {ps : List Point} (h : Supplied s x (v :: vs) ps)
    (hl : Linked s) (hv : Sees s v x) (hp : Point.afterDefinition? s v = .ok (some p)) :
    Supplied s x vs (ps ++ [p]) where
  ahead p' hp' := by
    rcases List.mem_append.1 hp' with hp' | hp'
    · exact h.ahead p' hp'
    · exact List.mem_singleton.1 hp' ▸ ahead_of_afterDefinition? hl hv hp
  covered := by
    rcases h.covered with ⟨w, hw, hadrift⟩ | hcovered
    · rcases List.mem_cons.1 hw with rfl | hw
      · exact absurd hadrift (not_adrift_of_afterDefinition? hp)
      · exact .inl ⟨w, hw, hadrift⟩
    · refine .inr fun u hu => ?_
      rcases hcovered u hu with hmem | ⟨p', hp', hcovers⟩
      · rcases List.mem_cons.1 hmem with rfl | hmem
        · exact .inr ⟨p, by simp, covers_of_afterDefinition? hl hv hp (.inl rfl)⟩
        · exact .inl hmem
      · exact .inr ⟨p', List.mem_append_left _ hp', hcovers⟩

namespace Drawing

variable {before : Option OpRef} {sc si sr : Store} {m : Renaming} {p' : Point}
  (h : Drawing root gone s o q c p b before sc si sr t m) (hx : StandsAhead s o x)

include h hx

/-- Places ahead of an anchor stay there, unless the original leaves them. -/
theorem ahead_after (hp : Ahead x s p') : Ahead x t p' := by
  obtain ⟨y, hy, hcases⟩ := hp
  refine ⟨y, hy, ?_⟩
  by_cases hyo : y = o
  · exact .inr (hyo ▸ h.hoisted.detached_parent)
  · exact hcases.imp (fun hreach => h.reaches_after (hx.not_within h.linked h.acyclic) hreach hyo)
      h.detached_after

/-- A place that covers a value covers it afterwards, or what replaces it. -/
theorem covers_after (hp : Covers s x p' u) (hw : w = u ∧ (∀ k, s.originOf u ≠ some (.result o k)) ∨
    ∃ k k', s.originOf u = some (.result o k) ∧ t.originOf w = some (.result c k')) :
    Covers t x p' w := by
  have hox := hx.not_within h.linked h.acyclic
  obtain ⟨y, hy, ⟨hreach, hsees⟩ | hlost⟩ := hp
  · refine ⟨y, hy, ?_⟩
    by_cases hyo : y = o
    · exact .inr (hyo ▸ h.hoisted.detached_parent)
    · -- the original does not enclose the operation of the place, for then it would the anchor
      have hoy : ¬ Within s o y := by
        intro hw
        rcases hw.cases_tail with rfl | ⟨p₁, hop, hc⟩
        · exact hyo rfl
        · exact hox (hop.trans (within_of_reaches h.linked hreach hc))
      refine .inl ⟨h.reaches_after hox hreach hyo, ?_⟩
      rcases hw with ⟨rfl, hresult⟩ | ⟨k, k', hk, hk'⟩
      · exact h.sees_after hoy hsees hresult
      · exact h.copy_seen hoy hsees hk hk'
  · exact ⟨y, hy, .inr (h.detached_after hlost)⟩

theorem supplied_after {vs : List ValueRef} {ps : List Point} (hnested : Nested s root x)
    (hs : Supplied s x vs ps) : Supplied t x vs ps where
  ahead p' hp' := h.ahead_after hx (hs.ahead p' hp')
  covered := by
    rcases hs.covered with ⟨v, hv, hadrift⟩ | hcovered
    · exact .inl ⟨v, hv, h.adrift_after hadrift⟩
    · by_cases hlost : ∃ v ∈ vs, ∃ k, s.originOf v = some (.result o k)
      · obtain ⟨v, hv, k, hk⟩ := hlost
        exact .inl ⟨v, hv, h.adrift_result hk⟩
      · refine .inr fun u hu => ?_
        obtain ⟨u₀, hu₀, hcases⟩ := h.free_before hx hnested hu
        rcases hcovered u₀ hu₀ with hmem | ⟨p', hp', hcovers⟩
        · rcases hcases with ⟨rfl, _⟩ | ⟨k, _, hk, _⟩
          · exact .inl hmem
          · exact absurd ⟨u₀, hmem, k, hk⟩ hlost
        · refine .inr ⟨p', hp', h.covers_after hx hcovers (hcases.imp_left ?_)⟩
          rintro ⟨rfl, hresult⟩
          exact ⟨rfl, hresult⟩

/-- When the definition of the next value is hoisted, the place behind the copy supplies it. -/
theorem supplied_next {vs : List ValueRef} {ps : List Point} (hnested : Nested s root x)
    (hs : Supplied s x (v :: vs) ps) {k k' : Nat} (hv : Sees s v x)
    (hvo : s.originOf v = some (.result o k)) (hw : t.originOf w = some (.result c k'))
    (hp : Point.afterDefinition? t w = .ok (some p')) : Supplied t x vs (ps ++ [p']) := by
  have hl := h.tidy_after.kept.linked
  have hseen : Sees t w x := h.copy_seen (hx.not_within h.linked h.acyclic) hv hvo hw
  refine ⟨fun p₁ hp₁ => ?_, ?_⟩
  · rcases List.mem_append.1 hp₁ with hp₁ | hp₁
    · exact h.ahead_after hx (hs.ahead p₁ hp₁)
    · exact List.mem_singleton.1 hp₁ ▸ ahead_of_afterDefinition? hl hseen hp
  · rcases hs.covered with ⟨v', hv', hadrift⟩ | hcovered
    · rcases List.mem_cons.1 hv' with rfl | hv'
      · exact absurd hadrift (not_adrift_of_sees h.linked hv)
      · exact .inl ⟨v', hv', h.adrift_after hadrift⟩
    · by_cases hlost : ∃ v' ∈ vs, ∃ j, s.originOf v' = some (.result o j)
      · obtain ⟨v', hv', j, hj⟩ := hlost
        exact .inl ⟨v', hv', h.adrift_result hj⟩
      · refine .inr fun u hu => ?_
        obtain ⟨u₀, hu₀, ⟨rfl, hresult⟩ | ⟨j, j', hj, hj'⟩⟩ := h.free_before hx hnested hu
        · rcases hcovered u hu₀ with hmem | ⟨p₁, hp₁, hcovers⟩
          · rcases List.mem_cons.1 hmem with rfl | hmem
            · exact absurd hvo (hresult k)
            · exact .inl hmem
          · exact .inr ⟨p₁, List.mem_append_left _ hp₁,
              h.covers_after hx hcovers (.inl ⟨rfl, hresult⟩)⟩
        · exact .inr ⟨p', by simp, covers_of_afterDefinition? hl hseen hp
            (.inr ⟨c, k', j', hw, hj'⟩)⟩

end Drawing

/-! ## Runs -/

/-- A sound module between two hoists: what was taken out stands in no block. -/
structure Underway (sided : Prop) (root : OpRef) (gone : OpRef → Prop) (a : Journal × Store) :
    Prop where
  sound : Sound sided root gone (· ∈ a.1.originals) a.2
  out : ∀ o ∈ a.1.originals, a.2.opParent o = some none
  stays : root ∉ a.1.originals

/-- One hoist of something ahead of the anchor that keeps the module visible. -/
def DrawStep (root : OpRef) (gone : OpRef → Prop) (x : OpRef) (a b : Journal × Store) : Prop :=
  ∃ o q c p blk before sc si sr m, Drawing root gone a.2 o q c p blk before sc si sr b.2 m ∧
    StandsAhead a.2 o x ∧ b.1 = a.1 ++ [.hoisted o blk before c]

/-- Any number of such hoists. -/
def Draws (root : OpRef) (gone : OpRef → Prop) (x : OpRef) :
    Journal × Store → Journal × Store → Prop :=
  Relation.ReflTransGen (DrawStep root gone x)

namespace DrawStep

variable {a b : Journal × Store} (h : DrawStep root gone x a b)

include h

theorem underway (ha : Underway sided root gone a) : Underway sided root gone b := by
  obtain ⟨o, q, c, p, blk, before, sc, si, sr, m, hd, _, hJ⟩ := h
  have hmem : ∀ y, y ∈ b.1.originals ↔ y ∈ a.1.originals ∨ y = o := by
    intro y
    rw [hJ, Journal.originals_hoisted, List.mem_append, List.mem_singleton]
  refine ⟨(hd.sound_after ha.sound).mono fun y hy => (hmem y).2 hy, fun y hy => ?_, fun hr => ?_⟩
  · rcases (hmem y).1 hy with hy | rfl
    · exact hd.detached_after (ha.out y hy)
    · exact hd.hoisted.detached_parent
  · rcases (hmem root).1 hr with hr | rfl
    · exact ha.stays hr
    · exact hd.root_stays (List.mem_singleton.2 rfl)

theorem nested (hx : Nested a.2 root x) : Nested b.2 root x := by
  obtain ⟨o, q, c, p, blk, before, sc, si, sr, m, hd, hahead, _⟩ := h
  exact hd.nested_after (hahead.not_within hd.linked hd.acyclic) hx

theorem inReach (ha : Underway sided root gone a) (hv : InReach (· ∈ a.1.originals) a.2 x v) :
    InReach (· ∈ b.1.originals) b.2 x v := by
  obtain ⟨o, q, c, p, blk, before, sc, si, sr, m, hd, hahead, hJ⟩ := h
  refine Traced.mono (hd.inReach_after (hahead.not_within hd.linked hd.acyclic) ha.stays
    (fun y hy => ?_) hv) (fun _ h => h) fun y hy => ?_
  · obtain ⟨d, hd, _⟩ := Option.map_eq_some_iff.1 (ha.out y hy)
    exact ⟨d, hd⟩
  · rwa [hJ, Journal.originals_hoisted, List.mem_append, List.mem_singleton]

/-- What stands ahead of an anchor stands ahead of whatever that stands ahead of. -/
theorem behind (hxz : StandsAhead a.2 x z) :
    DrawStep root gone z a b ∧ StandsAhead b.2 x z := by
  obtain ⟨o, q, c, p, blk, before, sc, si, sr, m, hd, hahead, hJ⟩ := h
  have hoz := hahead.trans hd.linked hxz
  refine ⟨⟨o, q, c, p, blk, before, sc, si, sr, m, hd, hoz, hJ⟩,
    hd.standsAhead_after hoz hxz ?_⟩
  rintro rfl
  exact hahead.not_within hd.linked hd.acyclic .refl

theorem supplied {vs : List ValueRef} {ps : List Point} (hx : Nested a.2 root x)
    (hs : Supplied a.2 x vs ps) : Supplied b.2 x vs ps := by
  obtain ⟨o, q, c, p, blk, before, sc, si, sr, m, hd, hahead, _⟩ := h
  exact hd.supplied_after hahead hx hs

theorem detached (hy : a.2.opParent y = some none) : b.2.opParent y = some none := by
  obtain ⟨o, q, c, p, blk, before, sc, si, sr, m, hd, _⟩ := h
  exact hd.detached_after hy

theorem originOf {k : Origin} (hv : a.2.originOf v = some k) : b.2.originOf v = some k := by
  obtain ⟨o, q, c, p, blk, before, sc, si, sr, m, hd, _⟩ := h
  exact hd.originOf_after hv

end DrawStep

namespace Draws

variable {a b : Journal × Store} (h : Draws root gone x a b)

include h

theorem underway (ha : Underway sided root gone a) : Underway sided root gone b := by
  induction h with
  | refl => exact ha
  | tail _ hstep ih => exact hstep.underway ih

theorem nested (hx : Nested a.2 root x) : Nested b.2 root x := by
  induction h with
  | refl => exact hx
  | tail _ hstep ih => exact hstep.nested ih

theorem inReach (ha : Underway sided root gone a) (hv : InReach (· ∈ a.1.originals) a.2 x v) :
    InReach (· ∈ b.1.originals) b.2 x v := by
  induction h with
  | refl => exact hv
  | tail hrun hstep ih => exact hstep.inReach (Draws.underway hrun ha) ih

theorem behind (hxz : StandsAhead a.2 x z) : Draws root gone z a b ∧ StandsAhead b.2 x z := by
  induction h with
  | refl => exact ⟨.refl, hxz⟩
  | tail _ hstep ih =>
    obtain ⟨hrun, hahead⟩ := ih
    obtain ⟨hstep, hahead⟩ := hstep.behind hahead
    exact ⟨hrun.tail hstep, hahead⟩

theorem supplied {vs : List ValueRef} {ps : List Point} (hx : Nested a.2 root x)
    (hs : Supplied a.2 x vs ps) : Supplied b.2 x vs ps := by
  induction h with
  | refl => exact hs
  | tail hrun hstep ih => exact hstep.supplied (Draws.nested hrun hx) ih

theorem detached (hy : a.2.opParent y = some none) : b.2.opParent y = some none := by
  induction h with
  | refl => exact hy
  | tail _ hstep ih => exact hstep.detached ih

theorem originOf {k : Origin} (hv : a.2.originOf v = some k) : b.2.originOf v = some k := by
  induction h with
  | refl => exact hv
  | tail _ hstep ih => exact hstep.originOf ih

end Draws

/-! ## The latest place -/

/-- What is there and reached from an operation, the operation is there. -/
theorem op?_of_reaches (hl : Linked s) {d : OpData} (hx : s.op? x = some d) (h : Reaches s q x) :
    ∃ e, s.op? q = some e := by
  obtain ⟨a, hax, rfl | ⟨b, bd, hbd, hpair⟩⟩ := h
  · rcases hax.cases_head with rfl | ⟨y, hc, _⟩
    · exact ⟨d, hx⟩
    · exact op?_of_child hc
  · obtain ⟨e, he, _⟩ := hl.op?_of_mem hbd (left_mem_of_pair hpair)
    exact ⟨e, he⟩

/-- A hoist to the latest of the places that supply all that an operation uses from outside keeps
the module visible. -/
theorem drawing_of_latest {J J' : Journal} {ps : List Point} (ha : Underway sided root gone (J, s))
    (ho : Nested s root o) (hs : Supplied s o [] ps)
    (hblocks : ∀ p ∈ ps, ∃ bd, s.block? p.block = some bd) (hp : latest? s ps = .ok (some p))
    (hrun : hoist o p J s = .ok ((some c, J'), t)) :
    ∃ q blk before sc si sr m, Drawing root gone s o q c p blk before sc si sr t m ∧
      J' = J ++ [.hoisted o blk before c] := by
  have hsound := ha.sound
  have hl : Linked s := hsound.linked
  obtain ⟨blk, before, sc, si, sr, m, hh, hclone, hJ⟩ :=
    hoist_hoisted hsound.tidy.kept hsound.tidy.grounded hrun
  have hne : ps ≠ [] := by
    rintro rfl
    cases hp
  obtain ⟨r?, hr?, _, hlatest⟩ := latest?_ok (forest_of_linked hl hsound.acyclic) hne hblocks
  cases hp.symm.trans hr?
  have hlatest := hlatest p rfl
  obtain ⟨q, hq, hcases⟩ := hs.ahead p hlatest.mem
  -- the operation of the place is in the block, for otherwise the copy could not be put there
  obtain ⟨bd, front, back, hbd, hsplit, _⟩ :=
    (insertedBefore_of_ok (hq ▸ hh.placed.insert)).block
  have hqsc : sc.opParent q = some (some p.block) :=
    opParent_of_mem hh.placed.cloned.kept.linked hbd (by simp [hsplit])
  have hcopied : ∀ {d}, s.op? q = some d → s.opParent q = some (some p.block) := fun hd => by
    rw [← hqsc, opParent, opParent, hh.placed.cloned.copied.op? q _ hd, hd]
  have hreach : Reaches s q o := by
    refine hcases.resolve_right fun hlost => ?_
    obtain ⟨d, hd, _⟩ := Option.map_eq_some_iff.1 hlost
    cases hlost.symm.trans (hcopied hd)
  obtain ⟨d, hd, _⟩ := hh.entry
  obtain ⟨e, he⟩ := op?_of_reaches hl hd hreach
  refine ⟨q, blk, before, sc, si, sr, m, ⟨hh, hclone, hsound.tidy, hsound.sized, hsound.acyclic,
    hsound.top, hsound.visible, ho, hq, hreach, fun u hu => ?_⟩, hJ⟩
  obtain ⟨_, hnone, _⟩ | hcovered := hs.covered
  · cases hnone
  · rcases hcovered u hu with hnone | ⟨p', hp', q', hq', hcovers⟩
    · cases hnone
    · obtain ⟨hstands, hqq⟩ := reaches_of_dominates hl hsound.acyclic hq' hq (hcopied he)
        (hlatest.dominated p' hp')
      rcases hcovers with ⟨_, hsees⟩ | hlost
      · exact hsees.of_reaches hl hqq
      · cases hlost.symm.trans hstands

end AffineRaising.Raise
