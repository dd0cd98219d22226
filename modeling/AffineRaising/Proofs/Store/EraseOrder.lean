/-
# AffineRaising.Proofs.Store.EraseOrder — erasing does not trip over its own tree.

An erasure goes through blocks and operations from their ends, and requires of every operation that
its results are unused when its turn comes.  Where recorded uses are seen by their users, whoever
uses a result of a nested operation stands behind that operation in its block, or is nested in one
that does, so it is gone by then.  What is left are the uses of the root itself: an erasure comes to
an end exactly if none of them is outside of its tree, and then takes that tree and nothing else
(`erasing_removes_one_tree`).
-/
import AffineRaising.Proofs.Resolve.Module
import AffineRaising.Proofs.Store.Total

namespace AffineRaising.IR

open Store AffineRaising.Analysis

variable {gone P Q : OpRef → Prop} {s s' t : Store} {o p x y : OpRef} {d : OpData}

/-! ## Single steps -/

/-- An edit goes through a list if it goes through for each member and keeps a condition. -/
theorem forM_total_of_keeps {α : Type} {edit : α → Edit PUnit} (holds : Store → Prop) {l : List α}
    (hedit : ∀ a ∈ l, ∀ s, holds s → ∃ t, edit a s = .ok (⟨⟩, t) ∧ holds t) :
    ∀ {s : Store}, holds s → ∃ t, l.forM edit s = .ok (⟨⟩, t) ∧ holds t := by
  induction l with
  | nil => exact fun {s} h => ⟨s, rfl, h⟩
  | cons a l ih =>
    intro s h
    obtain ⟨s₁, hfirst, h₁⟩ := hedit a List.mem_cons_self s h
    obtain ⟨t, hrest, ht⟩ := ih (fun b hb => hedit b (List.mem_cons_of_mem a hb)) h₁
    refine ⟨t, ?_, ht⟩
    rw [List.forM_eq_forM, List.forM_cons, Edit.bind_ok]
    exact ⟨⟨⟩, s₁, hfirst, by rwa [← List.forM_eq_forM]⟩

theorem detach_total (hl : Linked s) (hd : s.op? o = some d) :
    ∃ t, detach o s = .ok ((), t) := by
  rw [detach, Edit.op_eq hd]
  cases hp : d.parent with
  | none => exact ⟨s, rfl⟩
  | some b =>
    obtain ⟨bd, hbd, _⟩ := hl.mem_of_parent hd hp
    simp only [Edit.block_eq hbd]
    exact ⟨_, rfl⟩

/-- An operation that is in no block and whose results are unused can be removed. -/
theorem removeOp_total (hd : s.op? o = some d) (hparent : d.parent = none)
    (hunused : ∀ v ∈ d.results, s.usesOf v = []) : ∃ t, removeOp o s = .ok ((), t) := by
  have hfind : d.results.find? s.hasUses = none := by
    refine List.find?_eq_none.2 fun v hv => ?_
    simp [Store.hasUses, hunused v hv]
  refine ⟨d.operands.zipIdx.foldl (fun s v => s.dropUses v.1 (· == ⟨o, v.2⟩)) s, ?_⟩
  rw [removeOp, Edit.op_eq hd]
  simp only [hparent, Option.isSome_none, Bool.false_eq_true, if_false, Edit.get_bind, hfind,
    Edit.modify_run]

/-- The last step of an erasure goes through once the results are unused. -/
theorem detach_removeOp_total (hl : Linked s) (hd : s.op? o = some d)
    (hunused : ∀ v ∈ d.results, s.usesOf v = []) :
    ∃ s' t, detach o s = .ok ((), s') ∧ removeOp o s' = .ok ((), t) := by
  obtain ⟨s', hdetach⟩ := detach_total hl hd
  suffices h : ∃ t, removeOp o s' = .ok ((), t) by
    obtain ⟨t, hremove⟩ := h
    exact ⟨s', t, hdetach, hremove⟩
  obtain ⟨d', hd', ⟨hnone, rfl⟩ | ⟨b, bd, _, hbd, rfl⟩⟩ := detach_ok hdetach
  · cases hd.symm.trans hd'
    exact removeOp_total hd hnone hunused
  · cases hd.symm.trans hd'
    exact removeOp_total (d := { d with parent := none })
      ((op?_unlink hd o).trans (if_pos rfl)) rfl hunused

/-! ## Who is gone by when -/

/-- The operation is one of the given ones or nested in one of them. -/
def UnderAny (s : Store) (P : OpRef → Prop) (x : OpRef) : Prop :=
  ∃ o, P o ∧ Within s o x

namespace UnderAny

theorem mono (h : UnderAny s P x) (hPQ : ∀ o, P o → Q o) : UnderAny s Q x := by
  obtain ⟨o, ho, hw⟩ := h
  exact ⟨o, hPQ o ho, hw⟩

theorem within (h : UnderAny s P x) (hw : Within s x y) : UnderAny s P y := by
  obtain ⟨o, ho, hox⟩ := h
  exact ⟨o, ho, hox.trans hw⟩

end UnderAny

/-- Whoever uses a result of the operation sees it. -/
def ResultsSeen (s : Store) (o : OpRef) : Prop :=
  ∀ v ∈ s.resultsOf o, ∀ u ∈ s.usesOf v, Sees s v u.user

/-- Whoever uses a result of the operation is one of the given ones or nested in one of them. -/
def UsersUnder (s : Store) (P : OpRef → Prop) (o : OpRef) : Prop :=
  ∀ v ∈ s.resultsOf o, ∀ u ∈ s.usesOf v, UnderAny s P u.user

/-- Where a block has gone from its end up to an operation, so have those who see the results of
that operation: each of them is nested in an operation behind it. -/
theorem ResultsSeen.usersUnder (hl : Linked s) {b : BlockRef} {bd : BlockData}
    (hb : s.block? b = some bd) {front : List OpRef} (hsub : (front ++ [o]).Sublist bd.ops)
    (hbehind : ∀ y ∈ bd.ops, y ∈ front ++ [o] ∨ UnderAny s P y) (hseen : ResultsSeen s o) :
    UsersUnder s P o := by
  intro v hv u hu
  obtain ⟨k, hk⟩ := originOf_of_mem_results hl hv
  obtain ⟨a, hau, b', bd', hb', hpair⟩ := (hseen v hv u hu).reaches hk
  have hob : o ∈ bd.ops := hsub.subset (by simp)
  cases hl.block_unique hb' (left_mem_of_pair hpair) hb hob
  cases hb.symm.trans hb'
  have hnd := hl.ops_nodup hb
  rcases hbehind a (right_mem_of_pair hpair) with hfront | hgone
  · rcases List.mem_append.1 hfront with hfront | hsame
    · -- it would stand on both sides
      have hback : [a, o].Sublist bd.ops :=
        (pair_sublist_of_mem hfront (List.mem_singleton_self o)).trans hsub
      exact absurd rfl (ne_of_pair hnd (pair_sublist_trans hnd hpair hback))
    · exact absurd (List.mem_singleton.1 hsame).symm (ne_of_pair hnd hpair)
  · exact hgone.within hau

/-! ## Runs -/

section Loops

-- the erasure of one operation: what it does, and where it goes through
variable {erase : OpRef → Edit Unit} {able : OpRef → Prop}
  (step : ∀ {o s t u}, Linked s → PointsBack s → erase o s = .ok (u, t) → Clears s (· = o) t)
  (htotal : ∀ {P o s'}, able o → Clears s P s' → UsersUnder s P o →
    ∃ t, erase o s' = .ok ((), t))
  (hl : Linked s) (hp : PointsBack s)

include step htotal hl hp

/-- The operations of a block can be erased from its end.  `rest` is what is left of the block, from
its end, and everything else in the block is gone. -/
theorem forM_erase_total {b : BlockRef} {bd : BlockData} (hb : s.block? b = some bd)
    (hable : ∀ y ∈ bd.ops, able y ∧ ResultsSeen s y) (rest : List OpRef) :
    ∀ {P s'}, rest.reverse.Sublist bd.ops → (∀ y ∈ bd.ops, y ∈ rest ∨ UnderAny s P y) →
      Clears s P s' → ∃ t, rest.forM erase s' = .ok ((), t) := by
  induction rest with
  | nil => exact fun {P s'} _ _ _ => ⟨s', rfl⟩
  | cons o rest ih =>
    intro P s' hsub hbehind hs
    rw [List.reverse_cons] at hsub
    obtain ⟨ho, hseen⟩ := hable o (hsub.subset (by simp))
    have husers : UsersUnder s P o := hseen.usersUnder hl hb hsub fun y hy => by
      simpa [or_comm] using hbehind y hy
    obtain ⟨s₁, hfirst⟩ := htotal ho hs husers
    have hs₁ := hs.trans (step (hs.linked hl) (hs.pointsBack hp) hfirst)
    obtain ⟨t, hrest⟩ := ih ((List.sublist_append_left _ _).trans hsub) (fun y hy => by
      rcases hbehind y hy with hmem | hgone
      · rcases List.mem_cons.1 hmem with rfl | hmem
        · exact .inr ⟨y, .inr rfl, .refl⟩
        · exact .inl hmem
      · exact .inr (hgone.mono fun _ => .inl)) hs₁
    refine ⟨t, ?_⟩
    rw [List.forM_eq_forM, List.forM_cons, Edit.bind_ok]
    exact ⟨(), s₁, hfirst, by rwa [← List.forM_eq_forM]⟩

/-- A block can be erased wherever some trees are gone already. -/
theorem eraseBlock_total {b : BlockRef} {bd : BlockData} (hb : s.block? b = some bd)
    (hable : ∀ y ∈ bd.ops, able y ∧ ResultsSeen s y) (h : ∃ P, Clears s P s') :
    ∃ t, (do
      let bd ← query (·.block b)
      bd.ops.reverse.forM erase : Edit PUnit) s' = .ok (⟨⟩, t) ∧ ∃ P, Clears s P t := by
  obtain ⟨P, hs⟩ := h
  obtain ⟨out, he, hout⟩ := id hs
  have hb' : s'.block? b = some { bd with ops := bd.ops.filter (· ∉ out) } := by
    rw [he.block?, hb]
    rfl
  rw [Edit.block_eq hb']
  obtain ⟨t, ht⟩ := forM_erase_total step htotal hl hp hb hable
      (bd.ops.filter (· ∉ out)).reverse (by
        rw [List.reverse_reverse]
        exact List.filter_sublist) (fun y hy => by
        by_cases hyo : y ∈ out
        · exact .inr ((hout y).1 hyo)
        · exact .inl (List.mem_reverse.2 (List.mem_filter.2 ⟨hy, by simpa using hyo⟩))) hs
  exact ⟨t, ht, _, hs.trans (forM_erase_ok step (hs.linked hl) (hs.pointsBack hp) ht)⟩

/-- Regions can be erased whose operations can be. -/
theorem forM_eraseRegion_total {rs : List RegionRef}
    (hrs : ∀ r ∈ rs, ∃ rd, s.region? r = some rd)
    (hable : ∀ y, InRegions s rs y → able y ∧ ResultsSeen s y) (h : ∃ P, Clears s P s') :
    ∃ t, (rs.forM fun r => (do
      let rd ← query (·.region r)
      rd.blocks.reverse.forM fun b => (do
        let bd ← query (·.block b)
        bd.ops.reverse.forM erase : Edit PUnit) : Edit PUnit)) s' = .ok (⟨⟩, t) := by
  suffices htotal : ∃ t, _ ∧ ∃ P, Clears s P t by
    obtain ⟨t, ht, _⟩ := htotal
    exact ⟨t, ht⟩
  refine forM_total_of_keeps (fun s' => ∃ P, Clears s P s') (fun r hr s₁ h₁ => ?_) h
  obtain ⟨rd, hrd⟩ := hrs r hr
  have hrd' : s₁.region r = .ok rd := by
    obtain ⟨P, out, he, _⟩ := h₁
    rw [region_ok, he.region?, hrd]
  rw [Edit.query_eq (·.region r) hrd']
  refine forM_total_of_keeps (fun s' => ∃ P, Clears s P s') (fun b hb s₂ h₂ => ?_) h₁
  have hb := List.mem_reverse.1 hb
  obtain ⟨bd, hbd, _⟩ := block?_of_region hl hrd hb
  exact eraseBlock_total step htotal hl hp hbd
    (fun y hy => hable y ⟨r, hr, rd, hrd, b, hb, bd, hbd, hy⟩) h₂

end Loops

/-- With as much fuel as there is to meet, an operation can be erased whose users are gone, if the
results of what is nested in it are seen by their users. -/
theorem eraseWithin_total (hl : Linked s) (hp : PointsBack s) (hac : Acyclic s) (n : Nat) :
    ∀ {P s' o d}, s.op? o = some d → (metFrom s (Child s) o).card ≤ n →
      (∀ y, Relation.TransGen (Child s) o y → ResultsSeen s y) → Clears s P s' →
      UsersUnder s P o → ∃ t, eraseWithin n o s' = .ok ((), t) := by
  induction n with
  | zero =>
    intro P s' o d hd hn
    have hpos := Finset.card_pos.2 ⟨o.index, index_mem_metFrom (R := Child s) hd⟩
    omega
  | succ n ih =>
    intro P s' o d hd hn hseen hs husers
    have hchild : ∀ y, InRegions s d.regions y → Child s o y := fun y hy => ⟨d, hd, hy⟩
    have hregions : ∀ r ∈ d.regions, ∃ rd, s.region? r = some rd := fun r hr => by
      obtain ⟨rd, hrd, _⟩ := region?_of_op hl hd hr
      exact ⟨rd, hrd⟩
    -- what is nested leads to fewer operations
    let able : OpRef → Prop := fun y => Child s o y
    have hbelow : ∀ {P y s'}, able y → Clears s P s' → UsersUnder s P y →
        ∃ t, eraseWithin n y s' = .ok ((), t) := fun {P y s'} hy => by
      obtain ⟨e, he⟩ := hl.op?_of_within ⟨d, hd⟩ (.single hy)
      have hlt := card_metFrom_lt hd hy (hac o)
      exact ih he (by omega) fun z hz => hseen z (.head hy hz)
    obtain ⟨s₁, hnested⟩ := forM_eraseRegion_total (eraseWithin_ok n) hbelow hl hp hregions
      (fun y hy => ⟨hchild y hy, hseen y (.single (hchild y hy))⟩) ⟨P, hs⟩
    have hs₁ := forM_eraseRegion_ok (eraseWithin_ok n) hl hp hs hnested
    obtain ⟨out, he, hout⟩ := id hs₁
    have hd₁ := he.op? o
    rw [hd, Option.map_some] at hd₁
    obtain ⟨s₂, t, hdetach, hremove⟩ := detach_removeOp_total (he.linked hl) hd₁ (fun v hv => by
      rw [← resultsOf_eq hd₁, he.resultsOf] at hv
      rw [he.usesOf]
      refine List.filter_eq_nil_iff.2 fun u hu => ?_
      have hmem : u.user ∈ out := (hout u.user).2 ((husers v hv u hu).mono fun _ => .inl)
      simpa using hmem)
    obtain ⟨e, he', hsame⟩ : ∃ e, s'.op? o = some e ∧ e.regions = d.regions := by
      obtain ⟨before, hbefore, _⟩ := hs
      exact ⟨_, by rw [hbefore.op?, hd]; rfl, by split <;> rfl⟩
    refine ⟨t, ?_⟩
    rw [eraseWithin, Edit.op_eq he', hsame, Edit.bind_ok]
    refine ⟨(), s₁, hnested, ?_⟩
    rw [Edit.bind_ok]
    exact ⟨(), s₂, hdetach, hremove⟩

/-- An operation can be erased if nobody outside of its tree uses its results, and whoever uses a
result inside of the tree sees it. -/
theorem eraseOp_total (hl : Linked s) (hp : PointsBack s) (hac : Acyclic s) (hd : s.op? o = some d)
    (hseen : ∀ y, Within s o y → ResultsSeen s y)
    (hinside : ∀ v ∈ d.results, ∀ u ∈ s.usesOf v, Within s o u.user) :
    ∃ t, eraseOp o s = .ok ((), t) := by
  rw [eraseOp, Edit.get_bind]
  refine eraseWithin_total hl hp hac s.depthBound hd ((card_metFrom_le s _ o).trans (Nat.le_succ _))
    (fun y hy => hseen y hy.to_reflTransGen) (Clears.refl s) fun v hv u hu => ?_
  -- who sees a result of the operation is not nested in it
  obtain ⟨k, hk⟩ := originOf_of_mem_results hl hv
  have houtside := (hseen o .refl v hv u hu).not_within hl hk fun y _ => hac y
  exact absurd (hinside v (by rwa [← resultsOf_eq hd]) u hu) houtside

/-! ## What an erasure leaves -/

/-- An erasure that comes to an end has met no use of a result outside of the tree. -/
theorem within_of_eraseOp (hl : Linked s) (hp : PointsBack s) (hd : s.op? o = some d)
    (h : eraseOp o s = .ok ((), t)) {v : ValueRef} (hv : v ∈ d.results) {u : Use}
    (hu : u ∈ s.usesOf v) : Within s o u.user := by
  obtain ⟨tree, he, htree⟩ := eraseOp_ok hl hp h
  have hv' : v ∈ t.resultsOf o := by
    rwa [he.resultsOf, resultsOf_eq hd]
  have hnil := eraseOp_unused h hv'
  rw [he.usesOf, List.filter_eq_nil_iff] at hnil
  exact (htree u.user).1 (by simpa using hnil u hu)

/-- In a block that is in none of the regions of a tree, only the root of the tree can stand. -/
theorem mem_of_within_iff (hl : Linked s) {b : BlockRef} {bd : BlockData}
    (hb : s.block? b = some bd) (houtside : ∀ y, Within s o y → ¬ Holds s y b)
    (hx : x ∈ bd.ops) : Within s o x ↔ x = o := by
  constructor
  · intro hw
    rcases Relation.ReflTransGen.cases_tail hw with heq | ⟨q, hoq, hq⟩
    · exact heq
    · exact absurd ((child_iff_holds hl hb hx).1 hq) (houtside q hoq)
  · rintro rfl
    exact .refl

/-- Where every operand is visible at its user, erasing an operation comes to an end exactly if
nobody outside of its tree uses one of its results.  It then takes that tree and nothing else: the
recorded uses of the tree are forgotten and the others keep their order, the operations of the tree
are in no block, and each block outside of the tree keeps its operations in their order, except for
the one that was erased. -/
theorem erasing_removes_one_tree (hk : Kept s gone) (hac : Acyclic s)
    (hvisible : ∀ x e v, ¬ gone x → s.op x = .ok e → v ∈ e.operands →
      valueDominates s v x = .ok true) (hd : s.op o = .ok d) :
    ((∃ t, eraseOp o s = .ok ((), t)) ↔
      ∀ v ∈ d.results, ∀ u ∈ s.usesOf v, Within s o u.user) ∧
    ∀ t, eraseOp o s = .ok ((), t) → ∃ tree : List OpRef, (∀ x, x ∈ tree ↔ Within s o x) ∧
      (∀ v, t.usesOf v = (s.usesOf v).filter (·.user ∉ tree)) ∧
      (∀ x e, s.op x = .ok e → t.op x = .ok (if x ∈ tree then { e with parent := none } else e)) ∧
      (∀ b bd, s.block b = .ok bd → (∀ x, Within s o x → ¬ Holds s x b) →
        t.block b = .ok { bd with ops := bd.ops.filter (· ≠ o) }) ∧
      t.regions = s.regions ∧ t.values = s.values := by
  have hl := hk.linked
  have hp := hk.uses.pointsBack
  rw [op_ok] at hd
  have hseen : ∀ y, Within s o y → ResultsSeen s y := fun y _ v _ u hu => by
    obtain ⟨hlive, hslot⟩ := (hk.uses.mem_iff v u).1 hu
    obtain ⟨e, he, hoperand⟩ := Option.bind_eq_some_iff.1 hslot
    exact (valueDominates_iff hl hac he).1
      (hvisible u.user e v hlive (op_ok.2 he) (List.mem_of_getElem? hoperand))
  refine ⟨⟨?_, eraseOp_total hl hp hac hd hseen⟩, fun t ht => ?_⟩
  · rintro ⟨t, ht⟩ v hv u hu
    exact within_of_eraseOp hl hp hd ht hv hu
  · obtain ⟨tree, he, htree⟩ := eraseOp_ok hl hp ht
    refine ⟨tree, htree, he.usesOf, fun x e hx => ?_, fun b bd hb houtside => ?_, he.regions,
      he.values⟩
    · rw [op_ok, he.op?, op_ok.1 hx]
      rfl
    · rw [block_ok] at hb ⊢
      rw [he.block?, hb, Option.map_some]
      congr 2
      refine List.filter_congr fun x hx => ?_
      rw [decide_eq_decide, htree, mem_of_within_iff hl hb houtside hx]

/-- A sum in front of a nested operation that uses it, and behind which it is used again. -/
theorem nested_sum_built :
    let sum := Surface.Op.plain Ops.ArithKind.add.opName ["x"] ["a", "a"] [.index] []
    let product := Surface.Op.plain Ops.ArithKind.mul.opName ["y"] ["x", "a"] [.index] []
    let inner := Surface.Op.plain ⟨"test", "inner"⟩ [] ["x"] [] [[product]]
    let last := Surface.Op.plain ⟨"test", "last"⟩ [] ["x"] [] []
    let outer := Surface.Op.plain ⟨"test", "outer"⟩ ["r"] ["a"] [.index] [[sum, inner, last]]
    let tree := Surface.Op.program [⟨"a", .index⟩]
      [outer, Surface.Op.plain ⟨"test", "use"⟩ [] ["a"] [] []]
    ∃ root scope s d, buildOp Scope.empty tree Store.empty = .ok (.ok (root, scope), s) ∧
      tree.oneBlock = true ∧ s.op ⟨4⟩ = .ok d ∧ d.regions.length = 1 ∧
      d.results.any s.hasUses = false :=
  ⟨⟨7⟩, _, _, _, by cbv, by cbv, by cbv, by cbv, by cbv⟩

theorem erasing_removes_one_tree_nested :
    ∃ tree root scope s d t, buildOp Scope.empty tree Store.empty = .ok (.ok (root, scope), s) ∧
      s.op ⟨4⟩ = .ok d ∧ d.regions.length = 1 ∧ eraseOp ⟨4⟩ s = .ok ((), t) ∧
      ∃ gone : List OpRef, (∀ x, x ∈ gone ↔ Within s ⟨4⟩ x) ∧
        ∀ v, t.usesOf v = (s.usesOf v).filter (·.user ∉ gone) := by
  obtain ⟨root, scope, s, d, hbuild, hone, hd, hregions, hunused⟩ := nested_sum_built
  have hac := acyclic_of_read hbuild
  have hk := kept_of_read hbuild
  have herase := erasing_removes_one_tree hk hac (fun x e v _ hx hv =>
    (valueDominates_iff hk.linked hac (op_ok.1 hx)).2
      (sees_of_read hbuild hone (op_ok.1 hx) hv)) hd
  obtain ⟨t, ht⟩ := herase.1.2 fun v hv u hu => by
    have hnil : s.usesOf v = [] := by simpa [Store.hasUses] using List.any_eq_false.1 hunused v hv
    rw [hnil] at hu
    cases hu
  obtain ⟨gone, hgone, huses, _⟩ := herase.2 t ht
  exact ⟨_, root, scope, s, d, t, hbuild, hd, hregions, ht, gone, hgone, huses⟩

end AffineRaising.IR
