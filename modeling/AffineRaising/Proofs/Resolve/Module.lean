/-
# AffineRaising.Proofs.Resolve.Module — what reading a module establishes.

A text that is read becomes one tree below its module: every operation, block and region stands in
its owner's list exactly once, and the owners lead up to the module.  The check of uses finds
nothing in it.  If every region has at most one block, names reach only backwards and outwards, so
the check of visibility finds nothing either: `read_module_well_formed`.
-/
import AffineRaising.Pipeline
import AffineRaising.Proofs.Analysis.Visibility
import AffineRaising.Proofs.Resolve.Built

namespace AffineRaising

namespace Surface

mutual

/-- Every region of the operation has at most one block, and so on downwards. -/
def Op.oneBlock : Op → Bool
  | .mk _ regions => oneBlockRegions regions
termination_by structural op => op

/-- Each of the regions has at most one block, and so on downwards. -/
def oneBlockRegions : List Region → Bool
  | [] => true
  | r :: rest => r.oneBlock && oneBlockRegions rest
termination_by structural rs => rs

/-- The region has at most one block, and so on downwards. -/
def Region.oneBlock : Region → Bool
  | .mk blocks => decide (blocks.length ≤ 1) && oneBlockBlocks blocks
termination_by structural r => r

/-- The regions in the blocks have at most one block. -/
def oneBlockBlocks : List Block → Bool
  | [] => true
  | b :: rest => b.oneBlock && oneBlockBlocks rest
termination_by structural bs => bs

/-- The regions in the block have at most one block. -/
def Block.oneBlock : Block → Bool
  | .mk _ _ ops => oneBlockOps ops
termination_by structural b => b

/-- The regions in the operations have at most one block. -/
def oneBlockOps : List Op → Bool
  | [] => true
  | o :: rest => o.oneBlock && oneBlockOps rest
termination_by structural os => os

end

open AffineRaising.IR (OpName Ty)
open AffineRaising.Ops (affineYieldName)

/-- A written operation without attributes; each body is a region of one block. -/
def Op.plain (name : OpName) (results operands : List String) (types : List Ty)
    (bodies : List (List Op)) : Op :=
  .mk ⟨results, name.dialect, name.name, none, [], operands, [], none, [], types⟩
    (bodies.map fun ops => .mk [.mk "body" [] ops])

/-- A written module with one function. -/
def Op.program (params : List TypedName) (body : List Op) : Op :=
  .plain ⟨"core", "module"⟩ [] [] [] [[.mk ⟨[], "func", "func", none, params, [], [], none, [], []⟩
    [.mk [.mk "body" [] body]]]]

/-- A written loop with the induction variable `i`. -/
def Op.loop (body : List Op) : Op :=
  .mk ⟨[], "affine", "for", none, [], [], [], none,
    [("lower_bound", .map ⟨0, 0, [.const 0]⟩), ("upper_bound", .map ⟨0, 0, [.const 16]⟩)], []⟩
    [.mk [.mk "body" [⟨"i", .index⟩] (body ++ [.plain affineYieldName [] [] [] []])]]

end Surface

namespace IR

open Store
open AffineRaising.Surface (TypedName)

variable {s s₁ t : Store} {scope scope' : Scope}

/-! ## Names reach backwards and outwards -/

/-- Every operand of a new operation is known or seen by it. -/
def Sighted (known : ValueRef → Prop) (s t : Store) : Prop :=
  ∀ x d v, t.op? x = some d → s.op? x = none → v ∈ d.operands → known v ∨ Sees t v x

namespace Sighted

variable {known known' : ValueRef → Prop} {roots : OpRef → Prop} {rs : List RegionRef}
  {bs : List BlockRef}

/-- What is seen after the first step is seen after both. -/
theorem trans (h : Sighted known s s₁) (h' : Sighted known s₁ t)
    (hb : Built known' s₁ t roots rs bs) : Sighted known s t := by
  intro x d v hx hnone hv
  cases hx₁ : s₁.op? x with
  | none => exact h' x d v hx hx₁ hv
  | some d₁ =>
    obtain ⟨e, he, hoperands, _⟩ := hb.settled.op? x d₁ hx₁
    cases hx.symm.trans he
    rw [hoperands] at hv
    exact (h x d₁ v hx₁ hnone hv).imp_right hb.grows.sees

/-- Where no operation is new, nothing has to be seen. -/
theorem of_bare (h : Built known' s t (fun _ => False) rs bs) : Sighted known s t := by
  intro x d v hx hnone _
  obtain ⟨_, hfalse, _⟩ := h.ops x d hx hnone
  exact hfalse.elim

end Sighted

/-- The value is an argument of the block or a result of an operation in it. -/
def Local (s : Store) (b : BlockRef) (v : ValueRef) : Prop :=
  (∃ k, s.originOf v = some (.argument b k)) ∨
    ∃ o k bd, s.originOf v = some (.result o k) ∧ s.block? b = some bd ∧ o ∈ bd.ops

variable {b : BlockRef} {v : ValueRef}

/-- What is local to a block stays so. -/
theorem Local.later (h : Local s b v) (hg : Grows s t) : Local t b v := by
  rcases h with ⟨k, hv⟩ | ⟨o, k, bd, hv, hb, ho⟩
  · exact .inl ⟨k, hg.originOf v _ hv⟩
  · obtain ⟨e, he, hsub⟩ := hg.block? b bd hb
    exact .inr ⟨o, k, e, hg.originOf v _ hv, he, hsub.subset ho⟩

/-- An operation at the end of a block is offered everything that is local to the block. -/
theorem Local.offered {o : OpRef} {u : Unit} (h : Local s b v) (hrun : pushOp b o s = .ok (u, t)) :
    Offered t v o := by
  have hgrows := Grows.insertOp (pushOp_eq_insertOp b o ▸ hrun)
  obtain ⟨_, bd, _, hbd, _, hlast⟩ := pushOp_ok hrun
  rcases h with ⟨k, hv⟩ | ⟨o', k, bd', hv, hb, ho⟩
  · exact .inl ⟨b, k, _, hgrows.originOf v _ hv, hlast, by simp⟩
  · cases hbd.symm.trans hb
    exact .inr ⟨o', k, hgrows.originOf v _ hv, b, _, hlast,
      pair_sublist_of_mem ho (List.mem_singleton_self o)⟩

/-- Arguments are local to their block. -/
theorem local_of_mem_args (hl : Linked s) (hv : v ∈ s.argsOf b) {bd : BlockData}
    (hb : s.block? b = some bd) : Local s b v := by
  rw [argsOf_eq hb] at hv
  obtain ⟨k, hk⟩ := List.mem_iff_getElem?.1 hv
  exact .inl ⟨k, (hl.args.mem_iff (by simp [argsIn, hb]) k v).1 hk⟩

/-- Results are local to the block in which their operation stands. -/
theorem local_of_mem_results (hl : Linked s) {o : OpRef} {bd : BlockData}
    (hb : s.block? b = some bd) (ho : o ∈ bd.ops) (hv : v ∈ s.resultsOf o) : Local s b v := by
  obtain ⟨d, hd, _⟩ := hl.op?_of_mem hb ho
  rw [resultsOf_eq hd] at hv
  obtain ⟨k, hk⟩ := List.mem_iff_getElem?.1 hv
  exact .inr ⟨o, k, bd, (hl.results.mem_iff (by simp [resultsIn, hd]) k v).1 hk, hb, ho⟩

/-- An operation adds the names of its results. -/
theorem buildOp_names {o : Surface.Op} {op : OpRef}
    (h : buildOp scope o s = .ok (.ok (op, scope'), t)) :
    ∀ v, scope'.Binds v → scope.Binds v ∨ v ∈ t.resultsOf op := by
  obtain ⟨head, regions⟩ := o
  obtain ⟨_, _, _, _, _, hnames⟩ := buildOp_ok h
  exact hnames

/-- The one block of a region binds its arguments, and nothing else. -/
theorem buildHeaders_single {entry : List TypedName} {block : Surface.Block} {bs : List BlockRef}
    (hl : Linked t) (h : buildHeaders entry [] scope [block] s = .ok (.ok (bs, scope'), t)) :
    ∃ b, bs = [b] ∧ ∀ v, scope'.Binds v → scope.Binds v ∨ Local t b v := by
  obtain ⟨label, args, ops⟩ := block
  obtain ⟨args', b, scope₁, s₁, bs₁, hheader, hrest, rfl⟩ := buildHeaders_cons_ok h
  obtain ⟨hpair, rfl⟩ := Build.pure_ok.1 hrest
  cases hpair
  obtain ⟨hcreate, hbinds⟩ := buildHeader_ok hheader
  have hblock := ((createBlock_ok hcreate).block? b).trans (if_pos rfl)
  exact ⟨b, rfl, fun v hv => (hbinds v hv).imp_right fun hv => local_of_mem_args hl hv hblock⟩

mutual

/-- In a tree with at most one block in each region, operands are names from outside or seen. -/
theorem buildOp_sighted : ∀ (o : Surface.Op) {scope scope' : Scope} {s t : Store} {op : OpRef},
    o.oneBlock = true → Linked s → buildOp scope o s = .ok (.ok (op, scope'), t) →
    Sighted scope.Binds s t
  | .mk head regions, scope, scope', s, t, op => by
    intro hone hl h
    rw [Surface.Op.oneBlock] at hone
    obtain ⟨spec, s₁, hregions, hoperands, hcreate, _⟩ := buildOp_ok h
    refine (buildRegions_sighted regions hone hl hregions).trans ?_
      (Built.createOp hoperands hcreate)
    intro x d v hx hnone hv
    rw [(createOp_ok hcreate).op?] at hx
    split at hx
    · cases hx
      exact .inl (hoperands v hv)
    · rw [hnone] at hx
      cases hx

theorem buildRegions_sighted : ∀ (regions : List Surface.Region) {scope : Scope}
    {entry : List TypedName} {s t : Store} {rs : List RegionRef},
    Surface.oneBlockRegions regions = true → Linked s →
    buildRegions scope entry regions s = .ok (.ok rs, t) → Sighted scope.Binds s t
  | [], scope, entry, s, t, rs => by
    intro _ _ h
    rw [buildRegions] at h
    obtain ⟨_, rfl⟩ := Build.pure_ok.1 h
    exact .of_bare (.refl scope.Binds s _)
  | r :: rest, scope, entry, s, t, rs => by
    intro hone hl h
    rw [Surface.oneBlockRegions, Bool.and_eq_true] at hone
    obtain ⟨r', s₁, rs₁, hregion, hrest, _⟩ := buildRegions_cons_ok h
    have hl₁ := Linked.copyStepsKeep.buildRegion r scope entry s r' s₁ hl hregion
    exact (buildRegion_sighted r hone.1 hl hregion).trans
      (buildRegions_sighted rest hone.2 hl₁ hrest) (buildRegions_built rest hrest)

theorem buildRegion_sighted : ∀ (region : Surface.Region) {scope : Scope}
    {entry : List TypedName} {s t : Store} {r : RegionRef}, region.oneBlock = true → Linked s →
    buildRegion scope entry region s = .ok (.ok r, t) → Sighted scope.Binds s t
  | .mk blocks, scope, entry, s, t, r => by
    intro hone hl h
    rw [Surface.Region.oneBlock, Bool.and_eq_true, decide_eq_true_eq] at hone
    obtain ⟨bs, scope₁, s₁, s₂, hheaders, hbodies, hcreate⟩ := buildRegion_ok h
    have hl₁ := Linked.copyStepsKeep.buildHeaders blocks entry [] scope s _ s₁ hl hheaders
    have hblocks := (buildHeaders_built scope.Binds hheaders).1
    have hregion := Built.createRegion scope.Binds hcreate
    have hbody : Sighted scope.Binds s₁ s₂ :=
      buildBodies_sighted blocks hone.1 hone.2 hl₁ hheaders hbodies
    exact ((Sighted.of_bare hblocks).trans hbody (buildBodies_built blocks hbodies)).trans
      (.of_bare hregion) hregion

/-- A single block is filled where its arguments and what is in front are seen. -/
theorem buildBodies_sighted : ∀ (blocks : List Surface.Block) {scope scope₁ : Scope}
    {entry : List TypedName} {s s₁ t : Store} {bs : List BlockRef} {u : Unit}, blocks.length ≤ 1 →
    Surface.oneBlockBlocks blocks = true → Linked s₁ →
    buildHeaders entry [] scope blocks s = .ok (.ok (bs, scope₁), s₁) →
    buildBodies scope₁ bs blocks s₁ = .ok (.ok u, t) → Sighted scope.Binds s₁ t
  | [], scope, scope₁, entry, s, s₁, t, bs, u => by
    intro _ _ _ _ h
    rw [buildBodies] at h
    obtain ⟨_, rfl⟩ := Build.pure_ok.1 h
    exact .of_bare (.refl scope.Binds s₁ _)
  | [block], scope, scope₁, entry, s, s₁, t, bs, u => by
    intro _ hone hl hheaders h
    rw [Surface.oneBlockBlocks, Bool.and_eq_true] at hone
    obtain ⟨b, rfl, hnames⟩ := buildHeaders_single hl hheaders
    obtain ⟨scope₂, s₂, hbody, hrest⟩ := buildBodies_cons_ok h
    rw [buildBodies] at hrest
    obtain ⟨_, rfl⟩ := Build.pure_ok.1 hrest
    exact buildBody_sighted block hone.1 hl hnames hbody
  | _ :: _ :: _, _, _, _, _, _, _, _, _ => by
    intro hlen
    simp at hlen

theorem buildBody_sighted : ∀ (block : Surface.Block) {known : ValueRef → Prop}
    {scope scope' : Scope} {b : BlockRef} {s t : Store}, block.oneBlock = true → Linked s →
    (∀ v, scope.Binds v → known v ∨ Local s b v) →
    buildBody scope b block s = .ok (.ok scope', t) → Sighted known s t
  | .mk _ _ ops, known, scope, scope', b, s, t => by
    intro hone hl hnames h
    rw [Surface.Block.oneBlock] at hone
    rw [buildBody] at h
    exact buildOps_sighted ops hone hl hnames h

/-- Each operation sees the results of those that were built in front of it. -/
theorem buildOps_sighted : ∀ (ops : List Surface.Op) {known : ValueRef → Prop}
    {scope scope' : Scope} {b : BlockRef} {s t : Store}, Surface.oneBlockOps ops = true →
    Linked s → (∀ v, scope.Binds v → known v ∨ Local s b v) →
    buildOps scope b ops s = .ok (.ok scope', t) → Sighted known s t
  | [], known, scope, scope', b, s, t => by
    intro _ _ _ h
    rw [buildOps] at h
    obtain ⟨_, rfl⟩ := Build.pure_ok.1 h
    exact .of_bare (.refl known s _)
  | o :: rest, known, scope, scope', b, s, t => by
    intro hone hl hnames h
    rw [Surface.oneBlockOps, Bool.and_eq_true] at hone
    obtain ⟨op, scope₁, s₁, s₂, hop, hpush, hrest⟩ := buildOps_cons_ok h
    have hl₁ := Linked.copyStepsKeep.buildOp o scope s _ s₁ hl hop
    have hl₂ := Linked.copyStepsKeep.pushOp b op s₁ () s₂ hl₁ hpush
    have hfirst := (buildOp_built o hop).1
    have hpushed := Built.pushOp scope.Binds hpush
    obtain ⟨d, bd, hd, _, _, hlast⟩ := pushOp_ok hpush
    -- names from before are known or local, and the results of the new operation are local
    have hnames₂ : ∀ v, scope₁.Binds v → known v ∨ Local s₂ b v := by
      intro v hv
      rcases buildOp_names hop v hv with hv | hv
      · exact (hnames v hv).imp_right fun hv =>
          (hv.later hfirst.grows).later hpushed.grows
      · obtain ⟨e, he, _, hresults⟩ := hpushed.settled.op? op d hd
        rw [resultsOf_eq hd, ← hresults, ← resultsOf_eq he] at hv
        exact .inr (local_of_mem_results hl₂ hlast (by simp) hv)
    have hop : Sighted known s s₂ := by
      intro x dx v hx hnone hv
      cases hx₁ : s₁.op? x with
      | none => exact Sighted.of_bare hpushed x dx v hx hx₁ hv
      | some d₁ =>
        obtain ⟨e, he, hoperands, _⟩ := hpushed.settled.op? x d₁ hx₁
        cases hx.symm.trans he
        rw [hoperands] at hv
        rcases buildOp_sighted o hone.1 hl hop x d₁ v hx₁ hnone hv with hv | hv
        · refine (hnames v hv).imp_right fun hv => ?_
          -- the new operation, which `x` is under, is behind everything that is local
          obtain ⟨y, rfl, hw⟩ := hfirst.ops x d₁ hx₁ hnone
          exact ((hv.later hfirst.grows).offered hpush).sees.within (hpushed.grows.nests.within hw)
        · exact .inr (hpushed.grows.sees hv)
    exact hop.trans (buildOps_sighted rest hone.2 hl₂ hnames₂ hrest) (buildOps_built rest hrest).1

end

/-! ## One tree -/

/-- The store is one tree: below the root everything stands in the list of its owner, once, and the
owners lead up to the root. -/
structure IsTree (s : Store) (root : OpRef) : Prop where
  top : ∃ d, s.op root = .ok d ∧ d.parent = none
  op : ∀ o d, s.op o = .ok d → o ≠ root →
    ∃ b bd, d.parent = some b ∧ s.block b = .ok bd ∧ bd.ops.count o = 1
  block : ∀ b bd, s.block b = .ok bd →
    ∃ r rd, bd.parent = some r ∧ s.region r = .ok rd ∧ rd.blocks.count b = 1
  region : ∀ r rd, s.region r = .ok rd →
    ∃ o d, rd.parent = some o ∧ s.op o = .ok d ∧ d.regions.count r = 1
  opListed : ∀ b bd o, s.block b = .ok bd → o ∈ bd.ops → ∃ d, s.op o = .ok d ∧ d.parent = some b
  blockListed : ∀ r rd b, s.region r = .ok rd → b ∈ rd.blocks →
    ∃ bd, s.block b = .ok bd ∧ bd.parent = some r
  regionListed : ∀ o d r, s.op o = .ok d → r ∈ d.regions →
    ∃ rd, s.region r = .ok rd ∧ rd.parent = some o
  leadsUp : ∀ o d, s.op o = .ok d → s.isWithin root o = .ok true

/-- A member that names a holder is in its list once. -/
theorem Links.count_eq_one {A B : Type} [DecidableEq B] {children : A → Option (List B)}
    {parent : B → Option (Option A)} (h : Links children parent) {a : A} {b : B}
    (hb : parent b = some (some a)) : ∃ l, children a = some l ∧ l.count b = 1 := by
  obtain ⟨l, hl⟩ := h.holder hb
  exact ⟨l, hl, List.count_eq_one_of_mem (h.nodup hl) ((h.mem_iff hl b).2 hb)⟩

open Analysis in
/-- Where everything is under an operation that stands in no block, nothing is nested in itself. -/
theorem acyclic_of_root (hl : Linked s) {root : OpRef} {d : OpData} (hd : s.op? root = some d)
    (hp : d.parent = none) (hall : ∀ x e, s.op? x = some e → Within s root x) : Acyclic s := by
  intro x hcycle
  obtain ⟨y, hchild, _⟩ := Relation.TransGen.head'_iff.1 hcycle
  obtain ⟨e, he⟩ := op?_of_child hchild
  exact acyclic_of_detached hl hd hp (hall x e he) hcycle

theorem op?_empty (x : OpRef) : Store.empty.op? x = none := by
  simp [Store.empty, Store.op?]

open Analysis in
/-- What is built from nothing is one tree. -/
theorem isTree_of_built {known : ValueRef → Prop} {root : OpRef} {d : OpData} (hl : Linked s)
    (hd : s.op? root = some d) (hp : d.parent = none)
    (hb : Built known Store.empty s (· = root) [] []) : IsTree s root := by
  have hall : ∀ x e, s.op? x = some e → Within s root x := by
    intro x e hx
    obtain ⟨y, rfl, hw⟩ := hb.ops x e hx (op?_empty x)
    exact hw
  have hac := acyclic_of_root hl hd hp hall
  refine ⟨⟨d, op_ok.2 hd, hp⟩, fun o e ho hne => ?_, fun b bd hbd => ?_, fun r rd hrd => ?_,
    fun b bd o hbd ho => ?_, fun r rd b hrd hbmem => ?_, fun o e r ho hr => ?_, fun o e ho => ?_⟩
  · rw [op_ok] at ho
    -- all but the root have an owner
    obtain ⟨q, _, hq⟩ := (Relation.ReflTransGen.cases_tail (hall o e ho)).resolve_left hne
    obtain ⟨b, bd, _, hbd, hmem⟩ := child_iff.1 hq
    obtain ⟨e', he', hparent⟩ := hl.op?_of_mem hbd hmem
    cases ho.symm.trans he'
    exact ⟨b, bd, hparent, block_ok.2 hbd, List.count_eq_one_of_mem (hl.ops_nodup hbd) hmem⟩
  · rw [block_ok] at hbd
    have hnone : Store.empty.block? b = none := by simp [Store.empty, Store.block?]
    have howner : bd.parent ≠ none := (hb.blocks b bd hbd hnone).resolve_left (by simp)
    obtain ⟨r, hr⟩ := Option.ne_none_iff_exists'.1 howner
    obtain ⟨l, hlist, hcount⟩ := hl.blocks.count_eq_one (a := r) (b := b)
      (by simp [blockParent, hbd, hr])
    obtain ⟨rd, hrd, rfl⟩ := Option.map_eq_some_iff.1 hlist
    exact ⟨r, rd, hr, region_ok.2 hrd, hcount⟩
  · rw [region_ok] at hrd
    have hnone : Store.empty.region? r = none := by simp [Store.empty, Store.region?]
    have howner : rd.parent ≠ none := (hb.regions r rd hrd hnone).resolve_left (by simp)
    obtain ⟨o, ho⟩ := Option.ne_none_iff_exists'.1 howner
    obtain ⟨l, hlist, hcount⟩ := hl.regions.count_eq_one (a := o) (b := r)
      (by simp [regionParent, hrd, ho])
    obtain ⟨od, hod, rfl⟩ := Option.map_eq_some_iff.1 hlist
    exact ⟨o, od, ho, op_ok.2 hod, hcount⟩
  · obtain ⟨e, he, hparent⟩ := hl.op?_of_mem (block_ok.1 hbd) ho
    exact ⟨e, op_ok.2 he, hparent⟩
  · obtain ⟨bd, hbd, hparent⟩ := block?_of_region hl (region_ok.1 hrd) hbmem
    exact ⟨bd, block_ok.2 hbd, hparent⟩
  · obtain ⟨rd, hrd, hparent⟩ := region?_of_op hl (op_ok.1 ho) hr
    exact ⟨rd, region_ok.2 hrd, hparent⟩
  · obtain ⟨w, hw, hiff⟩ := isWithin_ok hl hac root (op_ok.1 ho)
    rw [hw, hiff.2 (hall o e (op_ok.1 ho))]

/-! ## The body is closed -/

/-- Members of one operation do not enclose each other. -/
theorem eq_of_siblings (hl : Linked s) {p a c : OpRef}
    (hac : ¬ Relation.TransGen (Child s) p p) (ha : Child s p a) (hc : Child s p c)
    (hw : Within s a c) : a = c := by
  rcases Relation.ReflTransGen.cases_tail hw with heq | ⟨q, haq, hq⟩
  · exact heq.symm
  · cases hq.unique hl hc
    exact absurd (Relation.TransGen.head' ha haq) hac

/-- An operation is in one region of what holds it. -/
theorem region_unique (hl : Linked s) {r r' : RegionRef} {y : OpRef} (h : InRegions s [r] y)
    (h' : InRegions s [r'] y) : r = r' := by
  obtain ⟨_, hr, rd, hrd, b, hb, bd, hbd, hy⟩ := h
  obtain ⟨_, hr', rd', hrd', b', hb', bd', hbd', hy'⟩ := h'
  cases List.mem_singleton.1 hr
  cases List.mem_singleton.1 hr'
  cases hl.block_unique hbd hy hbd' hy'
  obtain ⟨e, he, hp⟩ := Analysis.block?_of_region hl hrd hb
  obtain ⟨e', he', hp'⟩ := Analysis.block?_of_region hl hrd' hb'
  cases he.symm.trans he'
  exact Option.some.inj (hp.symm.trans hp')

open Analysis in
/-- What an operation mentions was there when the operation was. -/
theorem value?_of_mentions (hl : Linked s) (hg : Grounded s) (hgrows : Grows s t)
    (hs : Settled s t) {x : OpRef} {d : OpData} (hx : s.op? x = some d) (h : Mentions t x v) :
    ∃ e, s.value? v = some e := by
  have hdefined : ∀ {origin}, s.originOf v = some origin → ∃ e, s.value? v = some e := by
    intro origin hv
    obtain ⟨e, he, _⟩ := Option.map_eq_some_iff.1 hv
    exact ⟨e, he⟩
  obtain ⟨d', hd', hoperands, hresults⟩ := hs.op? x d hx
  obtain ⟨e, he, hregions⟩ := hgrows.op? x d hx
  cases hd'.symm.trans he
  obtain ⟨e', he', hv | hv | ⟨b, bd, ⟨e'', he'', r, hr, rd, hrd, hb⟩, hbd, hv⟩⟩ := h
  · cases hd'.symm.trans he'
    rw [hoperands] at hv
    exact hg x d v hx hv
  · cases hd'.symm.trans he'
    rw [hresults] at hv
    obtain ⟨k, hk⟩ := List.mem_iff_getElem?.1 hv
    exact hdefined ((hl.results.mem_iff (a := x) (by simp [resultsIn, hx]) k v).1 hk)
  · -- the region and its blocks were there with the operation
    cases hd'.symm.trans he''
    rw [hregions] at hr
    obtain ⟨rd₀, hrd₀, _⟩ := region?_of_op hl hx hr
    obtain ⟨rd', hrd', hblocks⟩ := hgrows.region? r rd₀ hrd₀
    cases hrd.symm.trans hrd'
    rw [hblocks] at hb
    obtain ⟨bd₀, hbd₀, _⟩ := block?_of_region hl hrd₀ hb
    obtain ⟨bd', hbd', hargs, _⟩ := hs.block? b bd₀ hbd₀
    cases hbd.symm.trans hbd'
    rw [hargs] at hv
    obtain ⟨k, hk⟩ := List.mem_iff_getElem?.1 hv
    exact hdefined ((hl.args.mem_iff (a := b) (by simp [argsIn, hbd₀]) k v).1 hk)

/-- Operands that are known or new are values. -/
theorem Built.grounded {known : ValueRef → Prop} {roots : OpRef → Prop} {rs : List RegionRef}
    {bs : List BlockRef} (h : Built known s t roots rs bs) (hg : Grounded s)
    (hknown : ∀ v, known v → ∃ e, s.value? v = some e) : Grounded t := by
  intro x d v hx hv
  have hold : (∃ e, s.value? v = some e) ∨ Fresh s t v := by
    cases hx₀ : s.op? x with
    | none => exact (h.operands x d v hx hx₀ hv).imp_left (hknown v)
    | some d₀ =>
      obtain ⟨e, he, hoperands, _⟩ := h.settled.op? x d₀ hx₀
      cases hx.symm.trans he
      exact .inl (hg x d₀ v hx₀ (hoperands ▸ hv))
  rcases hold with ⟨e, he⟩ | ⟨_, hnew⟩
  · exact ⟨e, h.settled.value? v e he⟩
  · exact hnew

theorem grounded_empty : Grounded Store.empty := by
  intro x d v hx
  rw [op?_empty] at hx
  cases hx

section FirstRegion

open Analysis

-- the first region was built in `s₀`, the others in `s₁`, and the operation that owns them in `t`
variable {s₀ : Store} {spec : OpSpec} {root x : OpRef} {r : RegionRef} {rs : List RegionRef}
  (hfirst : Built Scope.empty.Binds Store.empty s₀ (InRegions s₀ [r]) [r] [])
  (hmore : Built Scope.empty.Binds s₀ s₁ (InRegions s₁ rs) rs [])
  (hoperands : ∀ v ∈ spec.operands, Scope.empty.Binds v) (hregions : spec.regions = r :: rs)
  (hcreate : createOp spec s₁ = .ok (root, t))

include hmore hoperands hregions hcreate

include hfirst in
/-- What was built first is in the body of the module. -/
theorem inBody_of_first {d : OpData} (hx : s₀.op? x = some d) : InBody t root x := by
  have hgrows := hmore.grows.trans (Built.createOp hoperands hcreate).grows
  have hentry := ((createOp_ok hcreate).op? root).trans (if_pos rfl)
  obtain ⟨y, hy, hw⟩ := hfirst.ops x d hx (op?_empty x)
  exact ⟨_, hentry, r, by simp [OpSpec.entry, hregions], y, hgrows.nests.inRegions hy,
    hgrows.nests.within hw⟩

/-- And the body has nothing else. -/
theorem first_of_inBody (hl : Linked t) (hac : Acyclic t) (hx : InBody t root x) :
    ∃ d, s₀.op? x = some d := by
  have hc := createOp_ok hcreate
  have hlast := Built.createOp hoperands hcreate
  have hentry := (hc.op? root).trans (if_pos rfl)
  obtain ⟨d, hd⟩ := op?_of_inBody hl hx
  obtain ⟨_, hroot, r', hr', y, hy, hw⟩ := hx
  cases hentry.symm.trans hroot
  have hr' : r = r' := by simpa [OpSpec.entry, hregions] using hr'
  subst hr'
  have hyroot : Child t root y := hy.child hentry (by simp [OpSpec.entry, hregions])
  cases hx₀ : s₀.op? x with
  | some d₀ => exact ⟨d₀, rfl⟩
  | none =>
    exfalso
    cases hx₁ : s₁.op? x with
    | none =>
      -- the only operation that came later is the owner, and it is not in its own body
      rw [hc.op?] at hd
      have hxroot : x = root := by
        by_contra hne
        rw [if_neg hne, hx₁] at hd
        cases hd
      subst hxroot
      exact hac x (Relation.TransGen.head' hyroot hw)
    | some d₁ =>
      -- it was built under another region, whose operations are not those of the first
      obtain ⟨z, ⟨r'', hr'', hin⟩, hw'⟩ := hmore.ops x d₁ hx₁ hx₀
      have hz : InRegions t [r''] z := hlast.grows.nests.inRegions ⟨r'', by simp, hin⟩
      have hzroot : Child t root z := hz.child hentry (by simp [OpSpec.entry, hregions, hr''])
      have hyz : y = z := by
        rcases within_or_within hl hw (hlast.grows.nests.within hw') with hyz | hzy
        · exact eq_of_siblings hl (hac root) hyroot hzroot hyz
        · exact (eq_of_siblings hl (hac root) hzroot hyroot hzy).symm
      subst hyz
      have hnodup := hc.nodup
      rw [hregions, List.nodup_cons, region_unique hl hy hz] at hnodup
      exact hnodup.1 hr''

include hfirst in
/-- What the body mentions is used only in the body. -/
theorem uses_in_body (hl : Linked t) (hac : Acyclic t) (hp : PointsBack t) (hl₀ : Linked s₀)
    {u : Use} (hx : InBody t root x) (hv : Mentions t x v) (hu : u ∈ t.usesOf v) :
    InBody t root u.user := by
  have hnone : ∀ v, ¬ Scope.empty.Binds v := fun v => Scope.not_binds_empty
  have hrest := hmore.trans (Built.createOp hoperands hcreate) fun v hv => .inl hv
  have hg₀ := hfirst.grounded grounded_empty fun v hv => absurd hv (hnone v)
  obtain ⟨d₀, hd₀⟩ := first_of_inBody hmore hoperands hregions hcreate hl hac hx
  obtain ⟨e, he⟩ := value?_of_mentions hl₀ hg₀ hrest.grows hrest.settled hd₀ hv
  obtain ⟨d, hd, hslot⟩ := Option.bind_eq_some_iff.1 (hp v u hu)
  cases hu₀ : s₀.op? u.user with
  | some d' => exact inBody_of_first hfirst hmore hoperands hregions hcreate hu₀
  | none =>
    -- later operations name nothing from outside their own region
    rcases hrest.operands u.user d v hd hu₀ (List.mem_of_getElem? hslot) with hbound | hnew
    · exact absurd hbound (hnone v)
    · rw [hnew.1] at he
      cases he

end FirstRegion

/-! ## Reading -/

section Read

open Analysis

variable {tree : Surface.Op} {root : OpRef}
  (h : buildOp Scope.empty tree Store.empty = .ok (.ok (root, scope), s))

include h

theorem kept_of_read : Kept s fun _ => False :=
  (Kept.copyStepsKeep fun _ => False).buildOp tree Scope.empty _ _ s .empty h

theorem grounded_of_read : Grounded s :=
  (buildOp_built tree h).1.grounded grounded_empty fun _ hv => absurd hv Scope.not_binds_empty

theorem detached_of_read : ∃ d, s.op? root = some d ∧ d.parent = none := by
  obtain ⟨head, regions⟩ := tree
  obtain ⟨spec, s₁, _, _, hcreate, _⟩ := buildOp_ok h
  exact ⟨_, ((createOp_ok hcreate).op? root).trans (if_pos rfl), rfl⟩

theorem isTree_of_read : IsTree s root := by
  obtain ⟨d, hd, hp⟩ := detached_of_read h
  exact isTree_of_built (kept_of_read h).linked hd hp (buildOp_built tree h).1

theorem acyclic_of_read : Acyclic s := by
  obtain ⟨d, hd, hp⟩ := detached_of_read h
  refine acyclic_of_root (kept_of_read h).linked hd hp fun x e hx => ?_
  obtain ⟨y, rfl, hw⟩ := (buildOp_built tree h).1.ops x e hx (op?_empty x)
  exact hw

theorem forest_of_read : Forest s :=
  forest_of_linked (kept_of_read h).linked (acyclic_of_read h)

/-- All uses of what the body mentions are in the body, so the check of uses finds nothing. -/
theorem useFlaws_of_read : useFlaws s root = .ok [] := by
  have hk := kept_of_read h
  have hac := acyclic_of_read h
  obtain ⟨d, hd, _⟩ := detached_of_read h
  obtain ⟨head, regions⟩ := tree
  obtain ⟨spec, s₁, hregions, hoperands, hcreate, _⟩ := buildOp_ok h
  refine useFlaws_eq_nil hk.linked hac hk.uses.pointsBack hd (fun x e i v _ hx hv => ?_)
    fun x v u hx hv hu => ?_
  · exact (hk.uses.mem_iff v ⟨x, i⟩).2 ⟨id, (slot?_eq hx).trans hv⟩
  cases regions with
  | nil =>
    -- without regions there is no body
    rw [buildRegions] at hregions
    obtain ⟨hnil, _⟩ := Build.pure_ok.1 hregions
    have hentry := ((createOp_ok hcreate).op? root).trans (if_pos rfl)
    obtain ⟨e, he, r, hr, _⟩ := hx
    cases hentry.symm.trans he
    simp [OpSpec.entry, ← hnil] at hr
  | cons r regions =>
    obtain ⟨r', s₀, rs, hregion, hrest, hspec⟩ := buildRegions_cons_ok hregions
    have hl₀ := Linked.copyStepsKeep.buildRegion r Scope.empty _ _ r' s₀ .empty hregion
    exact uses_in_body (buildRegion_built r hregion) (buildRegions_built regions hrest) hoperands
      hspec hcreate hk.linked hac hk.uses.pointsBack hl₀ hx hv hu

/-- There is no name from outside, so every operand is seen. -/
theorem sees_of_read (hone : tree.oneBlock = true) {x : OpRef} {d : OpData} {v : ValueRef}
    (hx : s.op? x = some d) (hv : v ∈ d.operands) : Sees s v x :=
  (buildOp_sighted tree hone .empty h x d v hx (op?_empty x) hv).resolve_left
    Scope.not_binds_empty

/-- What is seen is visible, so the check of visibility finds nothing. -/
theorem visibilityFlaws_of_read (hone : tree.oneBlock = true) :
    visibilityFlaws s root = .ok [] := by
  have hk := kept_of_read h
  obtain ⟨d, hd, _⟩ := detached_of_read h
  exact visibilityFlaws_eq_nil hk.linked (acyclic_of_read h) hd
    fun x d v _ hx hv => sees_of_read h hone hx hv

end Read

end IR

open IR Analysis

theorem readOp_ok {source : String} {op : OpRef} {s t : Store}
    (h : readOp source s = .ok (.ok op, t)) :
    ∃ tree scope, Surface.Op.ofText source = .ok tree ∧
      buildOp Scope.empty tree s = .ok (.ok (op, scope), t) := by
  unfold readOp at h
  generalize Surface.Op.ofText source = parsed at h ⊢
  cases parsed with
  | error e => cases h
  | ok tree =>
    obtain ⟨result, s₁, hbuild, h⟩ := Edit.bind_ok.1 h
    cases result with
    | error e => cases h
    | ok p =>
      cases h
      exact ⟨tree, p.2, rfl, hbuild⟩

theorem readModule_ok {source : String} {root : OpRef} {s t : Store}
    (h : readModule source s = .ok (.ok root, t)) : readOp source s = .ok (.ok root, t) := by
  rw [readModule, Build.bind_ok] at h
  obtain ⟨result, s₁, hread, h⟩ := h
  rw [Build.lift_ok] at hread
  cases result with
  | error e => exact absurd h Build.throw_ne_ok
  | ok op =>
    dsimp only at h
    rw [Build.bind_ok] at h
    obtain ⟨view, s₂, hview, h⟩ := h
    rw [Build.lift_ok, Edit.query_ok] at hview
    obtain ⟨_, rfl⟩ := hview
    cases view with
    | error e => exact absurd h Build.throw_ne_ok
    | ok d =>
      obtain ⟨rfl, rfl⟩ := Build.pure_ok.1 h
      exact hread

/-- A module that is read is one tree in which the check of uses finds nothing; and if every region
of the text has at most one block, each operand is a value defined in front of its user or around
it, and the check of visibility finds nothing. -/
theorem read_module_well_formed {source : String} {root : OpRef} {s : Store}
    (h : (readModule source).run.run Store.empty = .ok (.ok root, s)) :
    IsTree s root ∧ useFlaws s root = .ok [] ∧
      ∃ tree, Surface.Op.ofText source = .ok tree ∧ (tree.oneBlock = true →
        visibilityFlaws s root = .ok [] ∧
        ∀ o d v, s.op o = .ok d → v ∈ d.operands → Sees s v o) := by
  obtain ⟨tree, scope, htree, hbuild⟩ := readOp_ok (readModule_ok h)
  refine ⟨isTree_of_read hbuild, useFlaws_of_read hbuild, tree, htree, fun hone => ?_⟩
  refine ⟨visibilityFlaws_of_read hbuild hone, fun o d v ho hv => ?_⟩
  exact sees_of_read hbuild hone (Store.op_ok.1 ho) hv

/-- An inner block hides the argument around it, and the outer one is used again behind it. -/
theorem read_module_well_formed_shadowed :
    let source := "core.module \x7b ^a(%a: core.i1): test.f \x7b " ++
      "^b(%a: core.i1): test.g %a \x7d\ntest.g %a \x7d"
    ∃ root s, (readModule source).run.run Store.empty = .ok (.ok root, s) ∧ IsTree s root ∧
      useFlaws s root = .ok [] ∧ visibilityFlaws s root = .ok [] := by
  intro source
  have hread : ((readModule source).run.run Store.empty).toOption.any (·.1.isOk) = true := by
    decide +kernel
  have hone : (Surface.Op.ofText source).toOption.any (·.oneBlock) = true := by
    decide +kernel
  cases hrun : (readModule source).run.run Store.empty with
  | error e =>
    rw [hrun] at hread
    cases hread
  | ok p =>
    obtain ⟨result, s⟩ := p
    cases result with
    | error e =>
      rw [hrun] at hread
      cases hread
    | ok root =>
      obtain ⟨htree, huses, tree, hparsed, hvisible⟩ := read_module_well_formed hrun
      rw [hparsed] at hone
      exact ⟨root, s, rfl, htree, huses, (hvisible hone).1⟩

end AffineRaising
