/-
# AffineRaising.Proofs.Store.Isomorphic — a copy has the form of what was copied.

Every part of a copy has a source in the original, and no two parts have the same one: what is
nested in one operation is told apart by the lists in which it stands, which are nested as the
sources are.  So what encloses a source is the source of something that encloses the copy, and what
an operation sees inside the original its copy sees inside the copy: `CopyOf.seenInside`.
-/
import AffineRaising.Proofs.Store.Closed

namespace AffineRaising.IR

open Store AffineRaising.Analysis

variable {gone : OpRef → Prop} {outside : ValueRef → Prop} {s t : Store} {src : Source}
  {m : Renaming} {o c : OpRef}

/-- Store `t` is `s` with a copy `c` of `o`, in which everything has a source in `o`.  The renaming
takes what `o` defines to new values. -/
structure CopyOf (outside : ValueRef → Prop) (s : Store) (o c : OpRef) (t : Store) (src : Source)
    (m : Renaming) : Prop where
  linked : Linked s
  linked_after : Linked t
  acyclic : Acyclic s
  copied : Copied s t
  mirrors : Mirrors s src t m
  built : Built outside s t (· = c) [] []
  knows : ∀ v, DefinedIn s o v → m.Knows v
  gives : ∀ w, m.Gives w → Fresh s t w
  root : src.op c = o
  new : s.op? c = none
  loose : Loose s o t c

theorem cloneOp_copyOf (hk : Kept s gone) (hg : GroundedIn s o) (hac : Acyclic s)
    (hsized : Sized s) (hready : Ready s outside [] o)
    (hrun : cloneOp [] o s = .ok ((c, m), t)) : ∃ src, CopyOf outside s o c t src m := by
  obtain ⟨d, hd⟩ := hg.1
  obtain ⟨hcloned, _⟩ := cloneOp_ok hk hrun
  obtain ⟨src, hmirrors, hroot, hloose, _⟩ := cloneOp_mirrors hk hg hrun
  obtain ⟨hbuilt, hknows, hgives⟩ := cloneOp_built hk hac hsized hd hready hrun
  exact ⟨src, hk.linked, hcloned.kept.linked, hac, hcloned.copied, hmirrors, hbuilt, hknows,
    hgives, hroot, hcloned.new, hloose⟩

namespace CopyOf

variable (h : CopyOf outside s o c t src m)

include h

/-! ## What is new -/

theorem within_new {x : OpRef} {e : OpData} (hx : t.op? x = some e) (hnone : s.op? x = none) :
    Within t c x := by
  obtain ⟨y, rfl, hw⟩ := h.built.ops x e hx hnone
  exact hw

/-- The regions of something new are new. -/
theorem region_new {q : OpRef} {e : OpData} {r : RegionRef} (hq : s.op? q = none)
    (he : t.op? q = some e) (hr : r ∈ e.regions) : s.region? r = none := by
  obtain ⟨re, hre, hparent⟩ := region?_of_op h.linked_after he hr
  cases hsr : s.region? r with
  | none => rfl
  | some rd =>
    cases (h.copied.region? r rd hsr).symm.trans hre
    obtain ⟨l, hl⟩ := h.linked.regions.holder (b := r) (a := q)
      (by simp [regionParent, hsr, hparent])
    rw [regionsIn, hq] at hl
    cases hl

/-- The blocks of something new are new, and their sources are blocks of its source. -/
theorem holds {q : OpRef} {b : BlockRef} (hq : s.op? q = none) (hb : Holds t q b) :
    s.block? b = none ∧ Holds s (src.op q) (src.block b) := by
  obtain ⟨e, he, r, hr, re, hre, hmem⟩ := hb
  obtain ⟨be, hbe, hbparent⟩ := block?_of_region h.linked_after hre hmem
  have hrnew := h.region_new hq he hr
  have hbnew : s.block? b = none := by
    cases hsb : s.block? b with
    | none => rfl
    | some bd =>
      cases (h.copied.block? b bd hsb).symm.trans hbe
      obtain ⟨l, hl⟩ := h.linked.blocks.holder (b := b) (a := r)
        (by simp [blockParent, hsb, hbparent])
      rw [blocksIn, hrnew] at hl
      cases hl
  obtain ⟨d, hd, halike⟩ := h.mirrors.ops q e hq he
  obtain ⟨rd', hrd', hblocks⟩ := h.mirrors.regions r re hrnew hre
  refine ⟨hbnew, d, hd, src.region r, ?_, rd', hrd', ?_⟩
  · rw [← halike.regions]
    exact List.mem_map_of_mem hr
  · rw [← hblocks]
    exact List.mem_map_of_mem hmem

/-- A new block is held by something new. -/
theorem holder {b : BlockRef} {be : BlockData} (hbe : t.block? b = some be)
    (hb : s.block? b = none) : ∃ q, s.op? q = none ∧ Holds t q b := by
  have hbparent := (h.built.blocks b be hbe hb).resolve_left (by simp)
  obtain ⟨r, hr⟩ := Option.ne_none_iff_exists'.1 hbparent
  obtain ⟨l, hl⟩ := h.linked_after.blocks.holder (b := b) (a := r) (by simp [blockParent, hbe, hr])
  obtain ⟨re, hre, rfl⟩ := Option.map_eq_some_iff.1 hl
  have hmem : b ∈ re.blocks :=
    (h.linked_after.blocks.mem_iff hl b).2 (by simp [blockParent, hbe, hr])
  have hrnew : s.region? r = none := by
    cases hsr : s.region? r with
    | none => rfl
    | some rd =>
      cases (h.copied.region? r rd hsr).symm.trans hre
      obtain ⟨bd, hbd, _⟩ := block?_of_region h.linked hsr hmem
      rw [hb] at hbd
      cases hbd
  have hrparent := (h.built.regions r re hre hrnew).resolve_left (by simp)
  obtain ⟨q, hq⟩ := Option.ne_none_iff_exists'.1 hrparent
  obtain ⟨l', hl'⟩ := h.linked_after.regions.holder (b := r) (a := q)
    (by simp [regionParent, hre, hq])
  obtain ⟨e, he, rfl⟩ := Option.map_eq_some_iff.1 hl'
  have hmem' : r ∈ e.regions :=
    (h.linked_after.regions.mem_iff hl' r).2 (by simp [regionParent, hre, hq])
  refine ⟨q, ?_, e, he, r, hmem', re, hre, hmem⟩
  cases hsq : s.op? q with
  | none => rfl
  | some d =>
    cases (h.copied.op? q d hsq).symm.trans he
    obtain ⟨rd, hrd, _⟩ := region?_of_op h.linked hsq hmem'
    rw [hrnew] at hrd
    cases hrd

/-- A new block has the operations of its source, in order. -/
theorem ops_source {q : OpRef} {b : BlockRef} {be : BlockData} (hq : s.op? q = none)
    (hb : Holds t q b) (hbe : t.block? b = some be) :
    ∃ bd, s.block? (src.block b) = some bd ∧ be.ops.map src.op = bd.ops := by
  obtain ⟨hnew, _⟩ := h.holds hq hb
  obtain ⟨e, he, r, hr, re, hre, hmem⟩ := hb
  obtain ⟨be', hbe', hparent⟩ := block?_of_region h.linked_after hre hmem
  cases hbe.symm.trans hbe'
  obtain ⟨bd, hbd, _, hops⟩ := h.mirrors.blocks b be hnew hbe (by simp [hparent])
  exact ⟨bd, hbd, hops⟩

theorem child {x z : OpRef} (hx : s.op? x = none) (hc : Child t x z) :
    s.op? z = none ∧ Child s (src.op x) (src.op z) :=
  h.mirrors.child h.copied h.linked h.linked_after hx hc

theorem within {x z : OpRef} (hx : s.op? x = none) (hw : Within t x z) :
    s.op? z = none ∧ Within s (src.op x) (src.op z) :=
  h.mirrors.within h.copied h.linked h.linked_after hx hw

/-- What is properly inside the copy is not a copy of the whole. -/
theorem source_ne {q z : OpRef} (hq : Within t c q) (hz : Child t q z) : src.op z ≠ o := by
  intro heq
  obtain ⟨hqnew, hw⟩ := h.within h.new hq
  obtain ⟨_, hchild⟩ := h.child hqnew hz
  rw [h.root] at hw
  rw [heq] at hchild
  exact h.acyclic o (Relation.TransGen.tail' hw hchild)

/-! ## No two parts have the same source -/

theorem block_injOn {q : OpRef} {b b' : BlockRef} (hq : s.op? q = none) (hb : Holds t q b)
    (hb' : Holds t q b') (heq : src.block b = src.block b') : b = b' := by
  obtain ⟨e, he, r, hr, re, hre, hmem⟩ := hb
  obtain ⟨e', he', r', hr', re', hre', hmem'⟩ := hb'
  cases he.symm.trans he'
  obtain ⟨d, hd, halike⟩ := h.mirrors.ops q e hq he
  obtain ⟨rd, hrd, hblocks⟩ := h.mirrors.regions r re (h.region_new hq he hr) hre
  obtain ⟨rd', hrd', hblocks'⟩ := h.mirrors.regions r' re' (h.region_new hq he hr') hre'
  have hsource : src.region r = src.region r' := by
    refine region_of_block_unique h.linked hrd (b := src.block b) ?_ hrd' ?_
    · rw [← hblocks]
      exact List.mem_map_of_mem hmem
    · rw [← hblocks', heq]
      exact List.mem_map_of_mem hmem'
  have hregions : d.regions.Nodup :=
    h.linked.regions.nodup (a := src.op q) (by simp [regionsIn, hd])
  rw [← halike.regions] at hregions
  cases List.inj_on_of_nodup_map hregions hr hr' hsource
  cases hre.symm.trans hre'
  have hnodup : rd.blocks.Nodup :=
    h.linked.blocks.nodup (a := src.region r) (by simp [blocksIn, hrd])
  rw [← hblocks] at hnodup
  exact List.inj_on_of_nodup_map hnodup hmem hmem' heq

/-- No two new operations have the same source. -/
theorem op_injective {x y : OpRef} (hx : Within t c x) (hy : Within t c y)
    (heq : src.op x = src.op y) : x = y := by
  induction hx generalizing y with
  | refl =>
    rcases Relation.ReflTransGen.cases_tail hy with rfl | ⟨q, hq, hchild⟩
    · rfl
    · exact absurd (heq.symm.trans h.root) (h.source_ne hq hchild)
  | @tail p x hp hchild ih =>
    rcases Relation.ReflTransGen.cases_tail hy with rfl | ⟨q, hq, hchild'⟩
    · exact absurd (heq.trans h.root) (h.source_ne hp hchild)
    · obtain ⟨hpnew, _⟩ := h.within h.new hp
      obtain ⟨hqnew, _⟩ := h.within h.new hq
      have hsource := (h.child hpnew hchild).2
      rw [heq] at hsource
      cases ih hq (hsource.unique h.linked (h.child hqnew hchild').2)
      obtain ⟨b, be, hb, hbe, hmem⟩ := child_iff.1 hchild
      obtain ⟨b', be', hb', hbe', hmem'⟩ := child_iff.1 hchild'
      obtain ⟨bd, hbd, hops⟩ := h.ops_source hpnew hb hbe
      obtain ⟨bd', hbd', hops'⟩ := h.ops_source hpnew hb' hbe'
      have hsame : src.block b = src.block b' := by
        refine h.linked.block_unique hbd (o := src.op x) ?_ hbd' ?_
        · rw [← hops]
          exact List.mem_map_of_mem hmem
        · rw [← hops', heq]
          exact List.mem_map_of_mem hmem'
      cases h.block_injOn hpnew hb hb' hsame
      cases hbe.symm.trans hbe'
      have hnodup := h.linked.ops_nodup hbd
      rw [← hops] at hnodup
      exact List.inj_on_of_nodup_map hnodup hmem hmem' heq

/-- No two new blocks have the same source. -/
theorem block_injective {b b' : BlockRef} {be be' : BlockData} (hbe : t.block? b = some be)
    (hb : s.block? b = none) (hbe' : t.block? b' = some be') (hb' : s.block? b' = none)
    (heq : src.block b = src.block b') : b = b' := by
  obtain ⟨q, hq, hholds⟩ := h.holder hbe hb
  obtain ⟨q', hq', hholds'⟩ := h.holder hbe' hb'
  have hsource := (h.holds hq hholds).2
  rw [heq] at hsource
  have hwithin : ∀ {x : OpRef} {b : BlockRef}, s.op? x = none → Holds t x b → Within t c x := by
    rintro x _ hx ⟨e, he, _⟩
    exact h.within_new he hx
  cases h.op_injective (hwithin hq hholds) (hwithin hq' hholds')
    (hsource.unique h.linked (h.holds hq' hholds').2)
  exact h.block_injOn hq hholds hholds' heq

/-! ## What is seen inside -/

/-- What encloses a source inside the original is the source of something that encloses the
copy. -/
theorem lift_within {a z : OpRef} (hz : Within t c z) (hoa : Within s o a)
    (haz : Within s a (src.op z)) : ∃ a', Within t c a' ∧ Within t a' z ∧ src.op a' = a := by
  induction hz with
  | refl =>
    rw [h.root] at haz
    refine ⟨c, .refl, .refl, h.root.trans ?_⟩
    rcases Relation.reflTransGen_iff_eq_or_transGen.1 hoa with rfl | hoa
    · rfl
    · exact absurd (hoa.trans_left haz) (h.acyclic o)
  | @tail q z hq hchild ih =>
    rcases Relation.ReflTransGen.cases_tail haz with heq | ⟨p, hap, hp⟩
    · exact ⟨z, hq.tail hchild, .refl, heq⟩
    · obtain ⟨hqnew, _⟩ := h.within h.new hq
      cases hp.unique h.linked (h.child hqnew hchild).2
      obtain ⟨a', ha', hwithin, hsource⟩ := ih hap
      exact ⟨a', ha', hwithin.tail hchild, hsource⟩

/-- A new value has a new definition. -/
theorem origin_new {w : ValueRef} (hw : s.value? w = none) :
    (∀ y k, t.originOf w = some (.result y k) → s.op? y = none) ∧
      ∀ b k, t.originOf w = some (.argument b k) → s.block? b = none := by
  refine ⟨fun y k hy => ?_, fun b k hb => ?_⟩
  · cases hsy : s.op? y with
    | none => rfl
    | some d =>
      have hmem := (h.linked_after.results.mem_iff (a := y) (l := d.results)
        (by rw [resultsIn, h.copied.op? y d hsy]; rfl) k w).2 hy
      have horigin := (h.linked.results.mem_iff (a := y) (by rw [resultsIn, hsy]; rfl) k w).1 hmem
      rw [originOf, hw] at horigin
      cases horigin
  · cases hsb : s.block? b with
    | none => rfl
    | some d =>
      have hmem := (h.linked_after.args.mem_iff (a := b) (l := d.args)
        (by rw [argsIn, h.copied.block? b d hsb]; rfl) k w).2 hb
      have horigin := (h.linked.args.mem_iff (a := b) (by rw [argsIn, hsb]; rfl) k w).1 hmem
      rw [originOf, hw] at horigin
      cases horigin

/-- What is seen inside the original is seen by its copy inside the copy, if it has a copy. -/
theorem seenInside {z : OpRef} (hz : Within t c z) {u w : ValueRef} (hw : s.value? w = none)
    (hstands : Stands s src t u w) (hu : SeenInside s o (src.op z) u) : SeenInside t c z w := by
  obtain ⟨a, hoa, haz, hoffered⟩ := hu
  obtain ⟨a', hca', ha'z, rfl⟩ := h.lift_within hz hoa.to_reflTransGen haz
  obtain ⟨q, hq, hchild⟩ := (Relation.ReflTransGen.cases_tail hca').resolve_left (by
    rintro rfl
    rw [h.root] at hoa
    exact h.acyclic o hoa)
  refine ⟨a', Relation.TransGen.tail' hq hchild, ha'z, ?_⟩
  obtain ⟨hqnew, _⟩ := h.within h.new hq
  obtain ⟨b', be, hb', hbe, hmem⟩ := child_iff.1 hchild
  obtain ⟨hb'new, _⟩ := h.holds hqnew hb'
  obtain ⟨bd, hbd, hops⟩ := h.ops_source hqnew hb' hbe
  have hsource : src.op a' ∈ bd.ops := by
    rw [← hops]
    exact List.mem_map_of_mem hmem
  obtain ⟨origin, horigin, hu⟩ := hstands
  obtain ⟨hresult, hargument⟩ := h.origin_new hw
  rcases hoffered with ⟨b, k, bd', hu', hbd', hmem'⟩ | ⟨y, k, hu', b, bd', hbd', hpair⟩
  · cases h.linked.block_unique hbd hsource hbd' hmem'
    rw [hu'] at hu
    cases origin with
    | result y j => simp [Source.origin] at hu
    | argument b j =>
      simp only [Source.origin, Option.some.injEq, Origin.argument.injEq] at hu
      obtain ⟨hblock, rfl⟩ := hu
      obtain ⟨be', hbe'⟩ := block?_of_argument h.linked_after horigin
      cases h.block_injective hbe hb'new hbe' (hargument b k horigin) hblock
      exact .inl ⟨b', k, be, horigin, hbe, hmem⟩
  · cases h.linked.block_unique hbd hsource hbd' (right_mem_of_pair hpair)
    cases hbd.symm.trans hbd'
    rw [hu'] at hu
    cases origin with
    | argument b j => simp [Source.origin] at hu
    | result y' j =>
      simp only [Source.origin, Option.some.injEq, Origin.result.injEq] at hu
      obtain ⟨hy, rfl⟩ := hu
      rw [← hops] at hpair
      obtain ⟨l, hsub, hl⟩ := List.sublist_map_iff.1 hpair
      obtain ⟨y'', a'', rfl⟩ : ∃ y'' a'', l = [y'', a''] :=
        List.length_eq_two.1 (by simpa using (congrArg List.length hl).symm)
      simp only [List.map_cons, List.map_nil, List.cons.injEq, and_true] at hl
      have hin : ∀ x ∈ be.ops, Within t c x := fun x hx =>
        hq.tail ((child_iff_holds h.linked_after hbe hx).2 hb')
      have hy' : Within t c y' := by
        obtain ⟨e, he⟩ := op?_of_result h.linked_after horigin
        exact h.within_new he (hresult y' k horigin)
      cases h.op_injective (hin y'' (left_mem_of_pair hsub)) hy' (hl.1.symm.trans hy)
      cases h.op_injective (hin a'' (right_mem_of_pair hsub)) hca' hl.2.symm
      exact .inr ⟨y', k, horigin, b', be, hbe, hsub⟩

end CopyOf

end AffineRaising.IR
