/-
# AffineRaising.Proofs.Transform.Sweep — one sweep finds all dead operations.

Whoever sees a result of an operation is nested in an operation behind it in its block.  A sweep
visits what is nested before what holds it, and blocks from their ends; so when an operation is
visited, nothing that is taken later can free it (`Quiet.later`).  A sweep therefore leaves no
operation that could go, and it takes none that is needed: `sweepModule_sweeps`.
-/
import AffineRaising.Proofs.Ops.Effect
import AffineRaising.Proofs.Store.EraseOrder
import AffineRaising.Transform.DeadCode

namespace AffineRaising.Transform

open AffineRaising.IR AffineRaising.IR.Store AffineRaising.Ops AffineRaising.Analysis

variable {P Q D D₁ D₂ : OpRef → Prop} {s s' t : Store} {a o p x y z : OpRef} {b : BlockRef}
  {bd : BlockData} {n : Nat} {α : Type}

/-! ## What comes behind an operation -/

/-- The second operation stands behind the first one in its block, or is nested in one that does. -/
def Behind (s : Store) (x o : OpRef) : Prop :=
  ∃ a, Precedes s x a ∧ Within s a o

namespace Behind

/-- What encloses an operation properly encloses what comes behind it. -/
theorem enclosed (hl : Linked s) (h : Behind s x o) (hz : Relation.TransGen (Child s) z x) :
    Relation.TransGen (Child s) z o := by
  obtain ⟨a, hxa, hao⟩ := h
  obtain ⟨q, hzq, hqx⟩ := Relation.TransGen.tail'_iff.1 hz
  exact (Relation.TransGen.tail' hzq ((hxa.child_iff hl).1 hqx)).trans_left hao

theorem of_mem (hl : Linked s) (h : Behind s x o) (hb : s.block? b = some bd) (hx : x ∈ bd.ops) :
    ∃ a, [x, a].Sublist bd.ops ∧ Within s a o := by
  obtain ⟨a, ⟨b', bd', hb', hpair⟩, hao⟩ := h
  cases hl.block_unique hb' (left_mem_of_pair hpair) hb hx
  cases hb.symm.trans hb'
  exact ⟨a, hpair, hao⟩

theorem underBlock (hl : Linked s) (h : Behind s x o) (hx : UnderAny s (InBlocks s [b]) x) :
    UnderAny s (InBlocks s [b]) o := by
  obtain ⟨y, hy, hyx⟩ := hx
  rcases Relation.reflTransGen_iff_eq_or_transGen.1 hyx with rfl | hproper
  · obtain ⟨b', hb', bd, hbd, hmem⟩ := hy
    obtain ⟨a, hpair, hao⟩ := h.of_mem hl hbd hmem
    exact ⟨a, ⟨b', hb', bd, hbd, right_mem_of_pair hpair⟩, hao⟩
  · exact ⟨y, hy, (h.enclosed hl hproper).to_reflTransGen⟩

theorem underRegion (hl : Linked s) {r : RegionRef} (h : Behind s x o)
    (hx : UnderAny s (InRegions s [r]) x) : UnderAny s (InRegions s [r]) o := by
  obtain ⟨y, ⟨r', hr', rd, hrd, b, hb, bd, hbd, hy⟩, hyx⟩ := hx
  obtain ⟨z, ⟨b', hb', hz⟩, hzo⟩ :=
    h.underBlock hl ⟨y, ⟨b, List.mem_singleton_self b, bd, hbd, hy⟩, hyx⟩
  cases List.mem_singleton.1 hb'
  exact ⟨z, ⟨r', hr', rd, hrd, b, hb, hz⟩, hzo⟩

end Behind

/-- Members of one operation have nothing nested in common. -/
theorem eq_of_common (hl : Linked s) (hac : Acyclic s) (hy : Child s p y) (hz : Child s p z)
    (hyo : Within s y o) (hzo : Within s z o) : y = z := by
  rcases within_or_within hl hyo hzo with hyz | hzy
  · exact eq_of_siblings hl (hac p) hy hz hyz
  · exact (eq_of_siblings hl (hac p) hz hy hzy).symm

/-! ## States of a sweep -/

/-- The trees of some operations are gone; each of these could go, and its users are gone too. -/
structure Swept (s : Store) (P : OpRef → Prop) (t : Store) : Prop where
  clears : Clears s P t
  removable : ∀ p, P p → Removable s p
  users : ∀ p, P p → UsersUnder s P p

theorem Swept.refl (s : Store) : Swept s (fun _ => False) s :=
  ⟨.refl s, fun _ => False.elim, fun _ => False.elim⟩

/-- The operation can go now that some trees are gone. -/
def Doomed (s : Store) (P : OpRef → Prop) (x : OpRef) : Prop :=
  Removable s x ∧ UsersUnder s P x

/-- The operation is gone, or it cannot go yet. -/
def Quiet (s : Store) (P : OpRef → Prop) (x : OpRef) : Prop :=
  UnderAny s P x ∨ ¬ Doomed s P x

/-- What goes later frees an operation only if it comes behind it, or else takes it along. -/
theorem Quiet.later (hl : Linked s) (hseen : ResultsSeen s x) (h : Quiet s P x)
    (hmore : ∀ o, P o → Q o) (hapart : ∀ o, Q o → P o ∨ ¬ Behind s x o) : Quiet s Q x := by
  rcases h with hgone | hdoomed
  · exact .inl (hgone.mono hmore)
  by_cases hgone : UnderAny s Q x
  · exact .inl hgone
  refine .inr fun hx => hdoomed ⟨hx.1, fun v hv u hu => ?_⟩
  obtain ⟨o, ho, hou⟩ := hx.2 v hv u hu
  rcases hapart o ho with hbefore | hnot
  · exact ⟨o, hbefore, hou⟩
  obtain ⟨k, hk⟩ := originOf_of_mem_results hl hv
  obtain ⟨a, hau, hxa⟩ := (hseen v hv u hu).reaches hk
  rcases within_or_within hl hou hau with hoa | hao
  · rcases Relation.ReflTransGen.cases_tail hoa with rfl | ⟨q, hoq, hqa⟩
    · exact absurd ⟨a, hxa, .refl⟩ hnot
    · exact absurd ⟨o, ho, hoq.tail ((hxa.child_iff hl).2 hqa)⟩ hgone
  · exact absurd ⟨a, hxa, hao⟩ hnot

/-- A run takes further operations out of `D` and leaves none there that could go.  Where there was
none from the start, it takes none. -/
structure Takes (s : Store) (D P Q : OpRef → Prop) (n : Nat) (t : Store) : Prop where
  swept : Swept s Q t
  more : ∀ x, P x → Q x
  only : ∀ x, Q x → P x ∨ D x
  quiet : ∀ x, D x → Quiet s Q x
  idle : (∀ x, D x → ¬ Doomed s P x) → n = 0 ∧ Q = P

/-- Operations may be added to `D` that are gone already. -/
theorem Takes.widen (h : Takes s D₁ P Q n t) (hsub : ∀ x, D₁ x → D₂ x)
    (hgone : ∀ x, D₂ x → D₁ x ∨ UnderAny s P x) : Takes s D₂ P Q n t where
  swept := h.swept
  more := h.more
  only x hx := (h.only x hx).imp_right (hsub x)
  quiet x hx := by
    rcases hgone x hx with hx | hx
    · exact h.quiet x hx
    · exact .inl (hx.mono h.more)
  idle hidle := h.idle fun x hx => hidle x (hsub x hx)

/-- From every state of a sweep, the edit takes what it can out of `D`. -/
def Sweeps (s : Store) (D : OpRef → Prop) (e : Edit Nat) : Prop :=
  ∀ P s', Swept s P s' → ∃ n t Q, e s' = .ok (n, t) ∧ Takes s D P Q n t

namespace Sweeps

theorem congr {e : Edit Nat} (h : Sweeps s D₁ e) (hD : ∀ x, D₁ x ↔ D₂ x) : Sweeps s D₂ e :=
  funext (fun x => propext (hD x)) ▸ h

theorem zero (hD : ∀ x, ¬ D x) : Sweeps s D (pure 0) := fun P s' hs =>
  ⟨0, s', P, rfl, hs, fun _ => id, fun _ => .inl, fun x hx => absurd hx (hD x), fun _ => ⟨rfl, rfl⟩⟩

/-- Two runs one after the other, where nothing that the second one takes comes behind what the
first one has visited. -/
theorem seq (hl : Linked s) {e₁ e₂ : Edit Nat} (h₁ : Sweeps s D₁ e₁) (h₂ : Sweeps s D₂ e₂)
    (hseen : ∀ x, D₁ x → ResultsSeen s x) (hapart : ∀ x o, D₁ x → D₂ o → ¬ Behind s x o) :
    Sweeps s (fun x => D₁ x ∨ D₂ x) (do
      let n ← e₁
      let m ← e₂
      return n + m) := by
  intro P s' hs
  obtain ⟨n, s₁, P₁, hfirst, ht₁⟩ := h₁ P s' hs
  obtain ⟨m, t, Q, hsecond, ht⟩ := h₂ P₁ s₁ ht₁.swept
  refine ⟨n + m, t, Q, ?_, ht.swept, fun x hx => ht.more x (ht₁.more x hx), fun x hx => ?_,
    fun x hx => ?_, fun hidle => ?_⟩
  · simp only [Edit.bind_ok, Edit.pure_run]
    exact ⟨n, s₁, hfirst, m, t, hsecond, rfl⟩
  · rcases ht.only x hx with hx | hx
    · exact (ht₁.only x hx).imp_right .inl
    · exact .inr (.inr hx)
  · rcases hx with hx | hx
    · exact (ht₁.quiet x hx).later hl (hseen x hx) ht.more fun o ho =>
        (ht.only o ho).imp_right (hapart x o hx)
    · exact ht.quiet x hx
  · obtain ⟨rfl, rfl⟩ := ht₁.idle fun x hx => hidle x (.inl hx)
    obtain ⟨rfl, rfl⟩ := ht.idle fun x hx => hidle x (.inr hx)
    exact ⟨rfl, rfl⟩

/-- Runs over the members of a list. -/
theorem sumM (hl : Linked s) {f : α → Edit Nat} {D : α → OpRef → Prop} {l : List α}
    (hf : ∀ c ∈ l, Sweeps s (D c) (f c)) (hseen : ∀ c ∈ l, ∀ x, D c x → ResultsSeen s x)
    (hapart : l.Pairwise fun c c' => ∀ x o, D c x → D c' o → ¬ Behind s x o) :
    Sweeps s (fun x => ∃ c ∈ l, D c x) (Transform.sumM f l) := by
  induction l with
  | nil => exact .zero (by simp)
  | cons c l ih =>
    obtain ⟨hfirst, hrest⟩ := List.pairwise_cons.1 hapart
    have hmore := ih (fun c' hc' => hf c' (List.mem_cons_of_mem c hc'))
      (fun c' hc' => hseen c' (List.mem_cons_of_mem c hc')) hrest
    refine (seq hl (hf c List.mem_cons_self) hmore (hseen c List.mem_cons_self) ?_).congr ?_
    · rintro x o hx ⟨c', hc', ho⟩
      exact hfirst c' hc' x o hx ho
    · intro x
      simp

end Sweeps

/-! ## Dead operations -/

namespace Swept

variable (hl : Linked s) (hac : Acyclic s) (h : Swept s P t)

include h

theorem resultsOf (o : OpRef) : t.resultsOf o = s.resultsOf o := by
  obtain ⟨gone, he, _⟩ := h.clears
  exact he.resultsOf o

theorem usesOf_eq_nil {v : ValueRef} :
    t.usesOf v = [] ↔ ∀ u ∈ s.usesOf v, UnderAny s P u.user := by
  obtain ⟨⟨gone, he, hgone⟩, _, _⟩ := h
  rw [he.usesOf, List.filter_eq_nil_iff]
  refine forall₂_congr fun u _ => ?_
  have hmem : u.user ∈ gone ↔ UnderAny s P u.user := hgone u.user
  simp [hmem]

theorem within_or_gone (hw : Within s o x) : Within t o x ∨ UnderAny s P x := by
  obtain ⟨⟨gone, he, hgone⟩, _, _⟩ := h
  induction hw with
  | refl => exact .inl .refl
  | @tail y z _ hc ih =>
    rcases ih with hy | hy
    · by_cases hz : z ∈ gone
      · exact .inr ((hgone z).1 hz)
      · exact .inl (hy.tail (he.child_iff.2 ⟨hc, hz⟩))
    · exact .inr (hy.within (.single hc))

/-- What is left is removable if it was: only pure operations are gone. -/
theorem removable_iff : Removable t o ↔ Removable s o := by
  obtain ⟨gone, he, hgone⟩ := h.clears
  have hname : ∀ x e, t.op? x = some e → ∃ d, s.op? x = some d ∧ d.name = e.name := by
    intro x e hx
    rw [he.op?] at hx
    obtain ⟨d, hd, rfl⟩ := Option.map_eq_some_iff.1 hx
    exact ⟨d, hd, by split <;> rfl⟩
  unfold Removable
  rw [h.resultsOf]
  refine and_congr_right fun _ => ⟨fun hpure x d hw hx => ?_, fun hpure x e hw hx => ?_⟩
  · rcases h.within_or_gone hw with hw' | ⟨p, hpp, hpx⟩
    · have hx' := (he.op? x).trans (congrArg _ hx)
      have hname' := hpure x _ hw' hx'
      split at hname' <;> exact hname'
    · exact (h.removable p hpp).2 x d hpx hx
  · obtain ⟨d, hd, hname⟩ := hname x e hx
    rw [← hname]
    exact hpure x d (he.within_of_within hw) hd

include hac in
theorem acyclic : Acyclic t := by
  obtain ⟨gone, he, _⟩ := h.clears
  exact hac.mono fun _ _ hc => (he.child_iff.1 hc).1

include hl hac

/-- An operation is dead exactly if it can go now. -/
theorem isDead_ok {d : OpData} (hd : s.op? o = some d) :
    ∃ w, isDead t o = .ok w ∧ (w = true ↔ Doomed s P o) := by
  have hl' := h.clears.linked hl
  have hac' := h.acyclic hac
  obtain ⟨e, he⟩ : ∃ e, t.op? o = some e := by
    obtain ⟨gone, he, _⟩ := h.clears
    exact ⟨_, (he.op? o).trans (congrArg _ hd)⟩
  obtain ⟨w, hw, hiff⟩ := isRemovable_ok hl' hac' he
  have hunused : (t.resultsOf o).all (fun v => !t.hasUses v) = true ↔ UsersUnder s P o := by
    rw [h.resultsOf, List.all_eq_true]
    refine forall₂_congr fun v _ => ?_
    rw [← h.usesOf_eq_nil]
    simp [Store.hasUses]
  rw [h.removable_iff] at hiff
  refine ⟨w && (t.resultsOf o).all fun v => !t.hasUses v, ?_, ?_⟩
  · simp only [isDead, hw]
    cases w <;> rfl
  · rw [Bool.and_eq_true, hiff, hunused, Doomed]

end Swept

/-! ## Sweeps -/

/-- Erases an operation if it is dead, and says how many it erased. -/
def eraseIfDead (o : OpRef) : Edit Nat := do
  if ← query (isDead · o) then
    eraseOp o
    return 1
  else return 0

theorem eraseDead_eq_sumM (l : List OpRef) : eraseDead l = sumM eraseIfDead l := by
  induction l with
  | nil => rfl
  | cons o l ih =>
    rw [eraseDead, sumM, ih, eraseIfDead, bind_assoc]
    refine congrArg _ (funext fun dead => ?_)
    cases dead with
    | false => simp only [Bool.false_eq_true, if_false, pure_bind, Nat.zero_add, bind_pure]
    | true => simp only [if_true, bind_assoc, pure_bind, Nat.add_comm 1]

section Runs

variable (hl : Linked s) (hp : PointsBack s) (hac : Acyclic s)

include hl hp hac

/-- A single operation. -/
theorem eraseIfDead_sweeps {d : OpData} (hd : s.op? o = some d)
    (hseen : ∀ y, Within s o y → ResultsSeen s y) : Sweeps s (· = o) (eraseIfDead o) := by
  intro P s' hs
  obtain ⟨w, hw, hiff⟩ := hs.isDead_ok hl hac hd
  rw [eraseIfDead, Edit.query_eq (isDead · o) hw]
  cases w with
  | false =>
    refine ⟨0, s', P, rfl, hs, fun _ => id, fun _ => .inl, ?_, fun _ => ⟨rfl, rfl⟩⟩
    rintro x rfl
    exact .inr fun hdoomed => Bool.false_ne_true (hiff.2 hdoomed)
  | true =>
    have hdoomed := hiff.1 rfl
    have hbound : (metFrom s (Child s) o).card ≤ s'.depthBound := by
      obtain ⟨gone, he, _⟩ := hs.clears
      rw [Store.depthBound, he.ops_size]
      exact (card_metFrom_le s _ o).trans (Nat.le_succ _)
    obtain ⟨t, ht⟩ := eraseWithin_total hl hp hac s'.depthBound hd hbound
      (fun y hy => hseen y hy.to_reflTransGen) hs.clears hdoomed.2
    have hclears := hs.clears.trans
      (eraseWithin_ok _ (hs.clears.linked hl) (hs.clears.pointsBack hp) ht)
    refine ⟨1, t, fun x => P x ∨ x = o, ?_, ⟨hclears, fun p hpp => ?_, fun p hpp => ?_⟩,
      fun _ => .inl, fun _ => id, ?_, fun hidle => absurd hdoomed (hidle o rfl)⟩
    · simp only [if_true, Edit.bind_ok, Edit.pure_run, eraseOp, Edit.get_bind]
      exact ⟨(), t, ht, rfl⟩
    · rcases hpp with hpp | rfl
      · exact hs.removable p hpp
      · exact hdoomed.1
    · intro v hv u hu
      rcases hpp with hpp | rfl
      · exact (hs.users p hpp v hv u hu).mono fun _ => .inl
      · exact (hdoomed.2 v hv u hu).mono fun _ => .inl
    · rintro x rfl
      exact .inl ⟨x, .inr rfl, .refl⟩

/-- The operations of a block, from its end. -/
theorem eraseDead_sweeps (hb : s.block? b = some bd) (hchild : ∀ y ∈ bd.ops, Child s p y)
    (hseen : ∀ y ∈ bd.ops, ∀ z, Within s y z → ResultsSeen s z) :
    Sweeps s (· ∈ bd.ops) (do
      let ops := (← query (·.block b)).ops
      eraseDead ops.reverse) := by
  intro P s' hs
  obtain ⟨gone, he, hgone⟩ := hs.clears
  let left := bd.ops.filter (· ∉ gone)
  have hb' : s'.block? b = some { bd with ops := left } := (he.block? b).trans (congrArg _ hb)
  have hleft : ∀ {y}, y ∈ left → y ∈ bd.ops := fun hy => (List.mem_filter.1 hy).1
  have hnd := hl.ops_nodup hb
  have hsweep : Sweeps s (fun x => ∃ o ∈ left.reverse, x = o) (sumM eraseIfDead left.reverse) := by
    refine .sumM hl (fun o ho => ?_) (fun o ho x hx => ?_) ?_
    · have ho := hleft (List.mem_reverse.1 ho)
      obtain ⟨d, hd, _⟩ := hl.op?_of_mem hb ho
      exact eraseIfDead_sweeps hl hp hac hd (hseen o ho)
    · subst hx
      exact hseen x (hleft (List.mem_reverse.1 ho)) x .refl
    · -- what is visited later stands in front
      rw [List.pairwise_reverse]
      refine List.pairwise_of_forall_sublist fun {o x} hpair => ?_
      rintro _ _ rfl rfl hbehind
      have hox := hpair.trans List.filter_sublist
      obtain ⟨a, hxa, hao⟩ := hbehind.of_mem hl hb (right_mem_of_pair hox)
      cases eq_of_siblings hl (hac p) (hchild a (right_mem_of_pair hxa))
        (hchild _ (left_mem_of_pair hox)) hao
      exact ne_of_pair hnd (pair_sublist_trans hnd hxa hox) rfl
  obtain ⟨n, t, Q, hrun, htakes⟩ := hsweep P s' hs
  refine ⟨n, t, Q, ?_, htakes.widen ?_ fun x hx => ?_⟩
  · rw [Edit.block_eq hb', eraseDead_eq_sumM]
    exact hrun
  · rintro x ⟨o, ho, rfl⟩
    exact hleft (List.mem_reverse.1 ho)
  · by_cases hxg : x ∈ gone
    · exact .inr ((hgone x).1 hxg)
    · exact .inl ⟨x, List.mem_reverse.2 (List.mem_filter.2 ⟨hx, by simpa using hxg⟩), rfl⟩

omit hp in
/-- Everything nested in an operation, region by region. -/
theorem sweepNested_sweeps {sweep : RegionRef → Edit Nat} {d : OpData} (hd : s.op? o = some d)
    (hseen : ∀ x, Relation.TransGen (Child s) o x → ResultsSeen s x)
    (hsweep : ∀ r ∈ d.regions, Sweeps s (UnderAny s (InRegions s [r])) (sweep r)) :
    Sweeps s (Relation.TransGen (Child s) o) (do
      let od ← query (·.op o)
      sumM sweep od.regions) := by
  have hnested : ∀ x, (∃ r ∈ d.regions, UnderAny s (InRegions s [r]) x) ↔
      Relation.TransGen (Child s) o x := by
    intro x
    rw [Relation.TransGen.head'_iff]
    constructor
    · rintro ⟨r, hr, y, hy, hyx⟩
      exact ⟨y, hy.child hd hr, hyx⟩
    · rintro ⟨y, ⟨d', hd', r, hr, hin⟩, hyx⟩
      cases hd.symm.trans hd'
      exact ⟨r, hr, y, ⟨r, List.mem_singleton_self r, hin⟩, hyx⟩
  have hregions : Sweeps s (fun x => ∃ r ∈ d.regions, UnderAny s (InRegions s [r]) x)
      (sumM sweep d.regions) := by
    refine .sumM hl hsweep (fun r hr x hx => hseen x ((hnested x).1 ⟨r, hr, hx⟩)) ?_
    have hnd : d.regions.Nodup := hl.regions.nodup (a := o) (by simp [regionsIn, hd])
    refine hnd.imp_of_mem fun {r r'} hr hr' hne x z hx hz hbehind => hne ?_
    obtain ⟨y, hy, hyz⟩ := hbehind.underRegion hl hx
    obtain ⟨y', hy', hyz'⟩ := hz
    cases eq_of_common hl hac (hy.child hd hr) (hy'.child hd hr') hyz hyz'
    exact region_unique hl hy hy'
  intro P s' hs
  obtain ⟨gone, he, _⟩ := hs.clears
  obtain ⟨n, t, Q, hrun, htakes⟩ := (hregions.congr hnested) P s' hs
  refine ⟨n, t, Q, ?_, htakes⟩
  rw [Edit.op_eq ((he.op? o).trans (congrArg _ hd))]
  split <;> exact hrun

/-- A block: what is nested in its operations first, then the operations themselves. -/
theorem sweepBlock_sweeps {sweep : RegionRef → Edit Nat} (hb : s.block? b = some bd)
    (hchild : ∀ y ∈ bd.ops, Child s p y)
    (hseen : ∀ x, UnderAny s (InBlocks s [b]) x → ResultsSeen s x)
    (hsweep : ∀ o ∈ bd.ops, ∀ d, s.op? o = some d → ∀ r ∈ d.regions,
      Sweeps s (UnderAny s (InRegions s [r])) (sweep r)) :
    Sweeps s (UnderAny s (InBlocks s [b])) (do
      let nested ← do
        let ops := (← query (·.block b)).ops
        ops |> sumM fun o => do
          let od ← query (·.op o)
          sumM sweep od.regions
      let ops := (← query (·.block b)).ops
      let removed ← eraseDead ops.reverse
      return nested + removed) := by
  have hunder : ∀ x, UnderAny s (InBlocks s [b]) x ↔ ∃ y ∈ bd.ops, Within s y x := by
    intro x
    constructor
    · rintro ⟨y, ⟨b', hb', bd', hbd', hy⟩, hyx⟩
      cases List.mem_singleton.1 hb'
      cases hb.symm.trans hbd'
      exact ⟨y, hy, hyx⟩
    · rintro ⟨y, hy, hyx⟩
      exact ⟨y, ⟨b, List.mem_singleton_self b, bd, hb, hy⟩, hyx⟩
  have hnested : Sweeps s (fun x => ∃ y ∈ bd.ops, Relation.TransGen (Child s) y x) (do
      let ops := (← query (·.block b)).ops
      ops |> sumM fun o => do
        let od ← query (·.op o)
        sumM sweep od.regions) := by
    intro P s' hs
    obtain ⟨gone, he, hgone⟩ := hs.clears
    have hb' : s'.block? b = some { bd with ops := bd.ops.filter (· ∉ gone) } :=
      (he.block? b).trans (congrArg _ hb)
    have hleft : ∀ {y}, y ∈ bd.ops.filter (· ∉ gone) → y ∈ bd.ops :=
      fun hy => (List.mem_filter.1 hy).1
    have hops := Sweeps.sumM hl (D := fun y => Relation.TransGen (Child s) y) (fun y hy => by
        obtain ⟨d, hd, _⟩ := hl.op?_of_mem hb (hleft hy)
        exact sweepNested_sweeps hl hac hd
          (fun x hx => hseen x ((hunder x).2 ⟨y, hleft hy, hx.to_reflTransGen⟩))
          (hsweep y (hleft hy) d hd))
      (fun y hy x hx => hseen x ((hunder x).2 ⟨y, hleft hy, hx.to_reflTransGen⟩))
      (((hl.ops_nodup hb).filter _).imp_of_mem fun {y y'} hy hy' hne x z hx hz hbehind => by
        have hyz := hbehind.enclosed hl hx
        exact hne (eq_of_common hl hac (hchild y (hleft hy)) (hchild y' (hleft hy'))
          hyz.to_reflTransGen hz.to_reflTransGen))
    obtain ⟨n, t, Q, hrun, htakes⟩ := hops P s' hs
    refine ⟨n, t, Q, ?_, htakes.widen ?_ ?_⟩
    · rw [Edit.block_eq hb']
      exact hrun
    · rintro x ⟨y, hy, hyx⟩
      exact ⟨y, hleft hy, hyx⟩
    · rintro x ⟨y, hy, hyx⟩
      by_cases hyg : y ∈ gone
      · have hygone : UnderAny s P y := (hgone y).1 hyg
        exact .inr (hygone.within hyx.to_reflTransGen)
      · exact .inl ⟨y, List.mem_filter.2 ⟨hy, by simpa using hyg⟩, hyx⟩
  have hblock := eraseDead_sweeps hl hp hac hb hchild fun y hy z hyz =>
    hseen z ((hunder z).2 ⟨y, hy, hyz⟩)
  have hboth := Sweeps.seq hl hnested hblock
    (fun x ⟨y, hy, hyx⟩ => hseen x ((hunder x).2 ⟨y, hy, hyx.to_reflTransGen⟩)) (by
      -- nothing of the block comes behind what is nested in it
      rintro x o ⟨y, hy, hyx⟩ ho hbehind
      have hyo := hbehind.enclosed hl hyx
      have heq := eq_of_siblings hl (hac p) (hchild y hy) (hchild o ho) hyo.to_reflTransGen
      exact hac o (heq ▸ hyo))
  simp only [bind_assoc] at hboth ⊢
  refine hboth.congr fun x => ?_
  rw [hunder]
  constructor
  · rintro (⟨y, hy, hyx⟩ | hx)
    · exact ⟨y, hy, hyx.to_reflTransGen⟩
    · exact ⟨x, hx, .refl⟩
  · rintro ⟨y, hy, hyx⟩
    rcases Relation.reflTransGen_iff_eq_or_transGen.1 hyx with rfl | hproper
    · exact .inr hy
    · exact .inl ⟨y, hy, hproper⟩

/-- A region, with as much fuel as there is to meet. -/
theorem sweepWithin_sweeps (n : Nat) : ∀ {p d r}, s.op? p = some d → r ∈ d.regions →
    (metFrom s (Child s) p).card ≤ n →
    (∀ x, UnderAny s (InRegions s [r]) x → ResultsSeen s x) →
    Sweeps s (UnderAny s (InRegions s [r])) (sweepWithin true n r) := by
  induction n with
  | zero =>
    intro p d r hd _ hn
    have hpos := Finset.card_pos.2 ⟨p.index, index_mem_metFrom (R := Child s) hd⟩
    omega
  | succ n ih =>
    intro p d r hd hr hn hseen
    obtain ⟨rd, hrd, _⟩ := region?_of_op hl hd hr
    have hunder : ∀ x, (∃ b ∈ rd.blocks, UnderAny s (InBlocks s [b]) x) ↔
        UnderAny s (InRegions s [r]) x := by
      intro x
      constructor
      · rintro ⟨b, hb, y, ⟨b', hb', hin⟩, hyx⟩
        cases List.mem_singleton.1 hb'
        exact ⟨y, ⟨r, List.mem_singleton_self r, rd, hrd, b, hb, hin⟩, hyx⟩
      · rintro ⟨y, ⟨r', hr', rd', hrd', b, hb, hin⟩, hyx⟩
        cases List.mem_singleton.1 hr'
        cases hrd.symm.trans hrd'
        exact ⟨b, hb, y, ⟨b, List.mem_singleton_self b, hin⟩, hyx⟩
    have hchild : ∀ {b bd y}, b ∈ rd.blocks → s.block? b = some bd → y ∈ bd.ops → Child s p y :=
      fun hb hbd hy => ⟨d, hd, r, hr, rd, hrd, _, hb, _, hbd, hy⟩
    intro P s' hs
    have hrd' : s'.region r = .ok rd := by
      obtain ⟨gone, he, _⟩ := hs.clears
      rw [region_ok, he.region?, hrd]
    rw [sweepWithin, Edit.query_eq (·.region r) hrd']
    refine (Sweeps.congr (.sumM hl (D := fun b => UnderAny s (InBlocks s [b])) (fun b hb => ?_)
      (fun b hb x hx => hseen x ((hunder x).1 ⟨b, hb, hx⟩)) ?_) hunder) P s' hs
    · obtain ⟨bd, hbd, _⟩ := block?_of_region hl hrd hb
      refine sweepBlock_sweeps hl hp hac hbd (fun y => hchild hb hbd)
        (fun x hx => hseen x ((hunder x).1 ⟨b, hb, hx⟩)) fun o ho e he r' hr' => ?_
      have hpo := hchild hb hbd ho
      have hlt := card_metFrom_lt hd hpo (hac p)
      refine ih he hr' (by omega) fun x hx => hseen x ((hunder x).1 ⟨b, hb, o, ?_, ?_⟩)
      · exact ⟨b, List.mem_singleton_self b, bd, hbd, ho⟩
      · obtain ⟨y, ⟨r'', hr'', hin⟩, hyx⟩ := hx
        cases List.mem_singleton.1 hr''
        exact .head ⟨e, he, r', hr', hin⟩ hyx
    · have hnd : rd.blocks.Nodup := hl.blocks.nodup (a := r) (by simp [blocksIn, hrd])
      refine hnd.imp_of_mem fun {b b'} hb hb' hne x o hx ho hbehind => hne ?_
      obtain ⟨y, ⟨_, hyb, bd, hbd, hy⟩, hyo⟩ := hbehind.underBlock hl hx
      obtain ⟨y', ⟨_, hyb', bd', hbd', hy'⟩, hyo'⟩ := ho
      cases List.mem_singleton.1 hyb
      cases List.mem_singleton.1 hyb'
      cases eq_of_common hl hac (hchild hb hbd hy) (hchild hb' hbd' hy') hyo hyo'
      exact hl.block_unique hbd hy hbd' hy'

/-- A sweep of a module leaves nothing in it that could go. -/
theorem sweepModule_sweeps {root : OpRef} {d : OpData} (hd : s.op? root = some d)
    (hseen : ∀ x, InBody s root x → ResultsSeen s x) :
    ∃ n t Q, sweepModule true root s = .ok (n, t) ∧
      Takes s (InBody s root) (fun _ => False) Q n t := by
  rw [sweepModule, Edit.get_bind, Edit.op_eq hd]
  cases hregions : d.regions with
  | nil =>
    refine Sweeps.zero (fun x hx => ?_) _ s (.refl s)
    obtain ⟨d', hd', r, hr, _⟩ := hx
    cases hd.symm.trans hd'
    simp [hregions] at hr
  | cons r rs =>
    have hbody : ∀ x, UnderAny s (InRegions s [r]) x ↔ InBody s root x := by
      intro x
      constructor
      · rintro ⟨y, hy, hyx⟩
        exact ⟨d, hd, r, by simp [hregions], y, hy, hyx⟩
      · rintro ⟨d', hd', r', hr', y, hy, hyx⟩
        cases hd.symm.trans hd'
        simp only [hregions, List.head?_cons, Option.mem_some_iff] at hr'
        exact ⟨y, hr' ▸ hy, hyx⟩
    have hsweep := sweepWithin_sweeps hl hp hac s.depthBound hd (r := r) (by simp [hregions])
      ((card_metFrom_le s _ root).trans (Nat.le_succ _)) fun x hx => hseen x ((hbody x).1 hx)
    exact (hsweep.congr hbody) _ s (.refl s)

end Runs

/-! ## Repeated sweeps -/

section Repeated

variable {recursive : Bool} {root : OpRef} (left removed iterations : Nat)

/-- A sweep that removes nothing is the last one. -/
theorem sweepUntilClean_last (h : sweepModule recursive root s = .ok (0, t)) :
    sweepUntilClean recursive root (left + 1) removed iterations s =
      .ok (⟨removed, iterations + 1, true⟩, t) := by
  rw [sweepUntilClean, Edit.bind_eq h]
  rfl

theorem sweepUntilClean_next (h : sweepModule recursive root s = .ok (n, t)) (hn : n ≠ 0) :
    sweepUntilClean recursive root (left + 1) removed iterations s =
      sweepUntilClean recursive root left (removed + n) (iterations + 1) t := by
  rw [sweepUntilClean, Edit.bind_eq h, if_neg hn]

end Repeated

/-! ## Sweeps that remove nothing -/

theorem sumM_zero {f : α → Edit Nat} {a : α} {l : List α} :
    sumM f (a :: l) s = .ok (0, t) ↔ ∃ s₁, f a s = .ok (0, s₁) ∧ sumM f l s₁ = .ok (0, t) := by
  simp only [sumM, Edit.bind_ok, Edit.pure_run, Except.ok.injEq, Prod.mk.injEq]
  constructor
  · rintro ⟨n, s₁, hn, m, s₂, hm, hsum, rfl⟩
    obtain ⟨rfl, rfl⟩ : n = 0 ∧ m = 0 := by omega
    exact ⟨s₁, hn, hm⟩
  · rintro ⟨s₁, hn, hm⟩
    exact ⟨0, s₁, hn, 0, t, hm, rfl, rfl⟩

theorem eraseDead_zero {o : OpRef} {l : List OpRef} : eraseDead (o :: l) s = .ok (0, t) ↔
    isDead s o = .ok false ∧ eraseDead l s = .ok (0, t) := by
  rw [eraseDead, Edit.query_bind]
  constructor
  · rintro ⟨dead, hdead, hrest⟩
    cases dead with
    | false => exact ⟨hdead, hrest⟩
    | true =>
      obtain ⟨_, _, _, hrest⟩ := Edit.bind_ok.1 hrest
      obtain ⟨n, _, _, hrest⟩ := Edit.bind_ok.1 hrest
      simp at hrest
  · rintro ⟨hdead, hrest⟩
    exact ⟨false, hdead, hrest⟩

/-- The sweep of a block, with a way to sweep what is nested in it. -/
theorem sweepBlock_zero {nested : Edit Nat} {b : BlockRef} :
    (do
      let n ← nested
      let ops := (← query (·.block b)).ops
      let removed ← eraseDead ops.reverse
      return n + removed : Edit Nat) s = .ok (0, t) ↔ ∃ s₁ d, nested s = .ok (0, s₁) ∧
        s₁.block? b = some d ∧ eraseDead d.ops.reverse s₁ = .ok (0, t) := by
  simp only [Edit.bind_ok, Edit.query_ok, Edit.pure_run, block_ok, Except.ok.injEq, Prod.mk.injEq]
  constructor
  · rintro ⟨n, s₁, hnested, d, _, ⟨hd, rfl⟩, removed, s₂, hremoved, hsum, rfl⟩
    obtain ⟨rfl, rfl⟩ : n = 0 ∧ removed = 0 := by omega
    exact ⟨s₁, d, hnested, hd, hremoved⟩
  · rintro ⟨s₁, d, hnested, hd, hremoved⟩
    exact ⟨0, s₁, hnested, d, s₁, ⟨hd, rfl⟩, 0, t, hremoved, rfl, rfl⟩

theorem sumM_within {R : Store → Store → Prop} (hrefl : ∀ s, R s s)
    (htrans : ∀ {s s₁ t}, R s s₁ → R s₁ t → R s t) {f : α → Edit Nat}
    (hf : ∀ a s t, f a s = .ok (0, t) → R s t) (l : List α) :
    ∀ s t, sumM f l s = .ok (0, t) → R s t := by
  induction l with
  | nil =>
    intro s t h
    cases h
    exact hrefl s
  | cons a l ih =>
    intro s t h
    obtain ⟨s₁, hfirst, hrest⟩ := sumM_zero.1 h
    exact htrans (hf a s s₁ hfirst) (ih s₁ t hrest)

theorem eraseDead_same {l : List OpRef} (h : eraseDead l s = .ok (0, t)) : s = t := by
  induction l with
  | nil =>
    cases h
    rfl
  | cons o l ih => exact ih (eraseDead_zero.1 h).2

theorem sweepWithin_same (recursive : Bool) (depth : Nat) :
    ∀ r s t, sweepWithin recursive depth r s = .ok (0, t) → s = t := by
  induction depth with
  | zero =>
    intro r s t h
    cases h
  | succ depth ih =>
    intro r s t h
    obtain ⟨d, _, h⟩ := Edit.query_bind.1 h
    refine sumM_within (fun _ => rfl) Eq.trans (fun b s t hb => ?_) d.blocks s t h
    cases recursive with
    | false =>
      obtain ⟨s₁, bd, hnested, _, hdead⟩ := sweepBlock_zero.1 hb
      cases hnested
      exact eraseDead_same hdead
    | true =>
      obtain ⟨bd', _, hb⟩ := Edit.query_bind.1 hb
      obtain ⟨s₁, bd, hnested, _, hdead⟩ := sweepBlock_zero.1 hb
      refine Eq.trans ?_ (eraseDead_same hdead)
      refine sumM_within (fun _ => rfl) Eq.trans (fun o s t ho => ?_) bd'.ops s s₁ hnested
      obtain ⟨od, _, ho⟩ := Edit.query_bind.1 ho
      exact sumM_within (fun _ => rfl) Eq.trans ih od.regions s t ho

/-- A sweep that removes nothing does nothing. -/
theorem sweepModule_same {recursive : Bool} {root : OpRef}
    (h : sweepModule recursive root s = .ok (0, t)) : s = t := by
  rw [sweepModule, Edit.get_bind, Edit.query_bind] at h
  obtain ⟨d, _, h⟩ := h
  cases hregions : d.regions with
  | nil =>
    simp only [hregions] at h
    cases h
    rfl
  | cons r rs =>
    simp only [hregions] at h
    exact sweepWithin_same recursive s.depthBound r s t h

end AffineRaising.Transform
