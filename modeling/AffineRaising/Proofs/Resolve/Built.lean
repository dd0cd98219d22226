/-
# AffineRaising.Proofs.Resolve.Built — what building adds to a store.

Building changes no operand, argument or owner that is there; it adds operations, blocks, regions
and values.  `Built` says of what is new: where it hangs, and where its operands come from.  They
are values that were known, or values that are new themselves.  The statement is proved for the
parts of a tree by one mutual induction, and for a whole operation it is `buildOp_built`.
-/
import AffineRaising.Proofs.Resolve.Run
import AffineRaising.Proofs.Store.Visible

namespace AffineRaising.IR

open Store
open AffineRaising.Surface (TypedName)

variable {s s₁ t : Store} {scope scope' : Scope}

/-! ## What stays -/

/-- Operands, results and arguments stay, and so do owners once there is one. -/
structure Settled (s t : Store) : Prop where
  op? : ∀ x d, s.op? x = some d →
    ∃ e, t.op? x = some e ∧ e.operands = d.operands ∧ e.results = d.results
  block? : ∀ b d, s.block? b = some d →
    ∃ e, t.block? b = some e ∧ e.args = d.args ∧ (d.parent ≠ none → e.parent = d.parent)
  region? : ∀ r d, s.region? r = some d →
    ∃ e, t.region? r = some e ∧ (d.parent ≠ none → e.parent = d.parent)
  value? : ∀ v d, s.value? v = some d → t.value? v = some d

namespace Settled

theorem refl (s : Store) : Settled s s :=
  ⟨fun _ d h => ⟨d, h, rfl, rfl⟩, fun _ d h => ⟨d, h, rfl, fun _ => rfl⟩,
    fun _ d h => ⟨d, h, fun _ => rfl⟩, fun _ _ h => h⟩

/-- What stays in two steps stays. -/
theorem trans (h : Settled s s₁) (h' : Settled s₁ t) : Settled s t := by
  refine ⟨fun x d hd => ?_, fun b d hd => ?_, fun r d hd => ?_,
    fun v d hd => h'.value? v d (h.value? v d hd)⟩
  · obtain ⟨d₁, hd₁, hoperands, hresults⟩ := h.op? x d hd
    obtain ⟨e, he, hoperands', hresults'⟩ := h'.op? x d₁ hd₁
    exact ⟨e, he, hoperands'.trans hoperands, hresults'.trans hresults⟩
  · obtain ⟨d₁, hd₁, hargs, hp⟩ := h.block? b d hd
    obtain ⟨e, he, hargs', hp'⟩ := h'.block? b d₁ hd₁
    refine ⟨e, he, hargs'.trans hargs, fun hne => ?_⟩
    rw [hp' (by rwa [hp hne]), hp hne]
  · obtain ⟨d₁, hd₁, hp⟩ := h.region? r d hd
    obtain ⟨e, he, hp'⟩ := h'.region? r d₁ hd₁
    refine ⟨e, he, fun hne => ?_⟩
    rw [hp' (by rwa [hp hne]), hp hne]

theorem setOp {o : OpRef} {d e : OpData} (hd : s.op? o = some d)
    (hoperands : e.operands = d.operands) (hresults : e.results = d.results) :
    Settled s (s.setOp o e) := by
  refine ⟨fun x dx hx => ?_, (refl s).block?, (refl s).region?, (refl s).value?⟩
  rw [op?_setOp hd]
  by_cases hxo : x = o
  · subst hxo
    cases hd.symm.trans hx
    exact ⟨e, if_pos rfl, hoperands, hresults⟩
  · exact ⟨dx, (if_neg hxo).trans hx, rfl, rfl⟩

theorem setBlock {b : BlockRef} {d : BlockData} (hd : s.block? b = some d) (ops : List OpRef) :
    Settled s (s.setBlock b { d with ops := ops }) := by
  refine ⟨(refl s).op?, fun x dx hx => ?_, (refl s).region?, (refl s).value?⟩
  rw [block?_setBlock hd]
  by_cases hxb : x = b
  · subst hxb
    cases hd.symm.trans hx
    exact ⟨_, if_pos rfl, rfl, fun _ => rfl⟩
  · exact ⟨dx, (if_neg hxb).trans hx, rfl, fun _ => rfl⟩

/-- Creating an operation leaves the other entries alone. -/
theorem created {spec : OpSpec} {o : OpRef} (hc : Created s spec o t) : Settled s t := by
  have hnone : s.op? o = none := by rw [hc.eq_next, op?_next]
  refine ⟨fun x d hx => ?_, fun b d hb => ?_, fun r d hr => ?_,
    fun v d hv => value?_append hc.values hv⟩
  · have hne : x ≠ o := by
      rintro rfl
      rw [hnone] at hx
      cases hx
    exact ⟨d, by rw [hc.op?, if_neg hne, hx], rfl, rfl⟩
  · exact ⟨d, by rwa [Store.block?, hc.blocks], rfl, fun _ => rfl⟩
  · rw [hc.region?]
    split
    · rename_i hmem
      obtain ⟨d', hd', hp⟩ := hc.unowned r hmem
      cases hr.symm.trans hd'
      exact ⟨_, by rw [hr]; rfl, fun hne => absurd hp hne⟩
    · exact ⟨d, hr, fun _ => rfl⟩

theorem blockCreated {types : List Ty} {b : BlockRef} (hc : BlockCreated s types b t) :
    Settled s t := by
  have hnone : s.block? b = none := by rw [hc.eq_next, block?_next]
  refine ⟨fun x d hx => ⟨d, by rwa [Store.op?, hc.ops], rfl, rfl⟩, fun x d hx => ?_,
    fun r d hr => ⟨d, by rwa [Store.region?, hc.regions], fun _ => rfl⟩,
    fun v d hv => value?_append hc.values hv⟩
  have hne : x ≠ b := by
    rintro rfl
    rw [hnone] at hx
    cases hx
  exact ⟨d, by rw [hc.block?, if_neg hne, hx], rfl, fun _ => rfl⟩

theorem regionCreated {bs : List BlockRef} {r : RegionRef} (hc : RegionCreated s bs r t) :
    Settled s t := by
  have hnone : s.region? r = none := by rw [hc.eq_next, region?_next]
  refine ⟨fun x d hx => ⟨d, by rwa [Store.op?, hc.ops], rfl, rfl⟩, fun b d hb => ?_,
    fun x d hx => ?_, fun v d hv => by rwa [Store.value?, hc.values]⟩
  · rw [hc.block?]
    split
    · rename_i hmem
      obtain ⟨d', hd', hp⟩ := hc.unowned b hmem
      cases hb.symm.trans hd'
      exact ⟨{ d with parent := some r }, by rw [hb]; rfl, rfl, fun hne => absurd hp hne⟩
    · exact ⟨d, hb, rfl, fun _ => rfl⟩
  · have hne : x ≠ r := by
      rintro rfl
      rw [hnone] at hx
      cases hx
    exact ⟨d, by rw [hc.region?, if_neg hne, hx], fun _ => rfl⟩

/-- An insertion changes the parent of an operation that had none, and nothing else that is settled.
-/
theorem insertOp {b : BlockRef} {before : Option OpRef} {o : OpRef} {u : Unit}
    (hrun : insertOp b before o s = .ok (u, t)) : Settled s t := by
  obtain ⟨d, bd, front, back, hd, _, hbd, _, _, _, rfl⟩ := insertOp_ok hrun
  exact (setOp (e := { d with parent := some b }) hd rfl rfl).trans
    (setBlock (s := s.setOp o _) hbd _)

theorem value?_none (h : Settled s t) {v : ValueRef} (hv : t.value? v = none) :
    s.value? v = none := by
  cases hs : s.value? v with
  | none => rfl
  | some d =>
    rw [h.value? v d hs] at hv
    cases hv

end Settled

/-! ## What is new -/

/-- The value came into being. -/
def Fresh (s t : Store) (v : ValueRef) : Prop :=
  s.value? v = none ∧ ∃ d, t.value? v = some d

/-- What is new after one step is new after two. -/
theorem Fresh.later {v : ValueRef} (h : Fresh s s₁ v) (hs : Settled s₁ t) : Fresh s t v := by
  obtain ⟨hnone, d, hd⟩ := h
  exact ⟨hnone, d, hs.value? v d hd⟩

/-- What came into being in the second step was not there before the first one. -/
theorem Fresh.earlier {v : ValueRef} (h : Fresh s₁ t v) (hs : Settled s s₁) : Fresh s t v :=
  ⟨hs.value?_none h.1, h.2⟩

/-- Something was built.  New operations are under `roots` and their operands are known or new; new
regions and blocks have owners, those in `rs` and `bs` apart. -/
structure Built (known : ValueRef → Prop) (s t : Store) (roots : OpRef → Prop)
    (rs : List RegionRef) (bs : List BlockRef) : Prop where
  grows : Grows s t
  settled : Settled s t
  operands : ∀ x d v, t.op? x = some d → s.op? x = none → v ∈ d.operands → known v ∨ Fresh s t v
  ops : NewUnder s t roots
  regions : ∀ r d, t.region? r = some d → s.region? r = none → r ∈ rs ∨ d.parent ≠ none
  blocks : ∀ b d, t.block? b = some d → s.block? b = none → b ∈ bs ∨ d.parent ≠ none

namespace Built

variable {known known' : ValueRef → Prop} {roots roots' : OpRef → Prop} {rs rs' : List RegionRef}
  {bs bs' : List BlockRef}

theorem refl (known : ValueRef → Prop) (s : Store) (roots : OpRef → Prop) :
    Built known s s roots [] [] := by
  refine ⟨.refl s, .refl s, fun x d v hd hnone _ => ?_, .refl s roots, fun r d hd hnone => ?_,
    fun b d hd hnone => ?_⟩
  · rw [hd] at hnone
    cases hnone
  · rw [hd] at hnone
    cases hnone
  · rw [hd] at hnone
    cases hnone

/-- What hung loose may be taken in by something larger. -/
theorem collect (h : Built known s t roots rs bs)
    (hroots : ∀ y, roots y → ∃ z, roots' z ∧ Within t z y)
    (hrs : ∀ r ∈ rs, r ∈ rs' ∨ ∀ d, t.region? r = some d → d.parent ≠ none)
    (hbs : ∀ b ∈ bs, b ∈ bs' ∨ ∀ d, t.block? b = some d → d.parent ≠ none) :
    Built known s t roots' rs' bs' := by
  refine ⟨h.grows, h.settled, h.operands, fun x d hx hnone => ?_, fun r d hr hnone => ?_,
    fun b d hb hnone => ?_⟩
  · obtain ⟨y, hy, hw⟩ := h.ops x d hx hnone
    obtain ⟨z, hz, hw'⟩ := hroots y hy
    exact ⟨z, hz, hw'.trans hw⟩
  · rcases h.regions r d hr hnone with hmem | hp
    · exact (hrs r hmem).imp_right fun hp => hp d hr
    · exact .inr hp
  · rcases h.blocks b d hb hnone with hmem | hp
    · exact (hbs b hmem).imp_right fun hp => hp d hb
    · exact .inr hp

/-- Building goes on with more names, which are all of new values. -/
theorem trans (h : Built known s s₁ roots rs bs) (h' : Built known' s₁ t roots' rs' bs')
    (hknown : ∀ v, known' v → known v ∨ Fresh s s₁ v) :
    Built known s t (fun y => roots y ∨ roots' y) (rs ++ rs') (bs ++ bs') := by
  refine ⟨h.grows.trans h'.grows, h.settled.trans h'.settled, fun x d v hx hnone hv => ?_,
    h.ops.trans h'.ops h'.grows (fun _ => .inl) (fun _ => .inr), fun r d hr hnone => ?_,
    fun b d hb hnone => ?_⟩
  · cases hx₁ : s₁.op? x with
    | none =>
      rcases h'.operands x d v hx hx₁ hv with hv | hv
      · exact (hknown v hv).imp_right fun hv => hv.later h'.settled
      · exact .inr (hv.earlier h.settled)
    | some d₁ =>
      obtain ⟨e, he, hoperands, _⟩ := h'.settled.op? x d₁ hx₁
      cases hx.symm.trans he
      rw [hoperands] at hv
      exact (h.operands x d₁ v hx₁ hnone hv).imp_right fun hv => hv.later h'.settled
  · rw [List.mem_append]
    cases hr₁ : s₁.region? r with
    | none => exact (h'.regions r d hr hr₁).imp_left .inr
    | some d₁ =>
      obtain ⟨e, he, hp⟩ := h'.settled.region? r d₁ hr₁
      cases hr.symm.trans he
      rcases h.regions r d₁ hr₁ hnone with hmem | hne
      · exact .inl (.inl hmem)
      · exact .inr (by rwa [hp hne])
  · rw [List.mem_append]
    cases hb₁ : s₁.block? b with
    | none => exact (h'.blocks b d hb hb₁).imp_left .inr
    | some d₁ =>
      obtain ⟨e, he, _, hp⟩ := h'.settled.block? b d₁ hb₁
      cases hb.symm.trans he
      rcases h.blocks b d₁ hb₁ hnone with hmem | hne
      · exact .inl (.inl hmem)
      · exact .inr (by rwa [hp hne])

end Built

/-! ### Single steps -/

/-- An operation that is pushed into a block is its last one. -/
theorem pushOp_ok {b : BlockRef} {o : OpRef} {u : Unit} (h : pushOp b o s = .ok (u, t)) :
    ∃ d bd, s.op? o = some d ∧ s.block? b = some bd ∧
      t = s.attach o d b bd (bd.ops ++ [o]) ∧
      t.block? b = some { bd with ops := bd.ops ++ [o] } := by
  rw [pushOp_eq_insertOp] at h
  obtain ⟨d, bd, front, back, hd, _, hbd, hsplit, hback, _, rfl⟩ := insertOp_ok h
  rw [List.head?_eq_none_iff] at hback
  rw [hback, List.append_nil] at hsplit
  refine ⟨d, bd, hd, hbd, by rw [hback, hsplit], ?_⟩
  rw [block?_attach hbd, if_pos rfl, hback, hsplit]

namespace Built

variable {known : ValueRef → Prop}

/-- A new operation is a root, with its regions under it. -/
theorem createOp {spec : OpSpec} {o : OpRef} (hoperands : ∀ v ∈ spec.operands, known v)
    (hrun : createOp spec s = .ok (o, t)) : Built known s t (· = o) [] [] := by
  have hc := createOp_ok hrun
  refine ⟨(Grows.copyStepsKeep s).createOp _ _ _ _ (.refl s) hrun, .created hc,
    fun x d v hx hnone hv => ?_, fun x d hx hnone => ?_, fun r d hr hnone => ?_,
    fun b d hb hnone => ?_⟩
  · rw [hc.op?] at hx
    split at hx
    · cases hx
      exact .inl (hoperands v hv)
    · rw [hnone] at hx
      cases hx
  · rw [hc.op?] at hx
    split at hx
    · rename_i hxo
      exact ⟨o, rfl, hxo ▸ .refl⟩
    · rw [hnone] at hx
      cases hx
  · rw [hc.region?, hnone] at hr
    split at hr <;> cases hr
  · rw [Store.block?, hc.blocks] at hb
    rw [Store.block?, hb] at hnone
    cases hnone

/-- A new block hangs loose. -/
theorem createBlock {types : List Ty} {b : BlockRef} (known : ValueRef → Prop)
    (hrun : createBlock types s = .ok (b, t)) : Built known s t (fun _ => False) [] [b] := by
  have hc := createBlock_ok hrun
  have hop : t.op? = s.op? := funext fun x => by rw [Store.op?, hc.ops]; rfl
  have hregion : t.region? = s.region? := funext fun r => by rw [Store.region?, hc.regions]; rfl
  refine ⟨(Grows.copyStepsKeep s).createBlock _ _ _ _ (.refl s) hrun, .blockCreated hc,
    fun x d v hx hnone _ => ?_, fun x d hx hnone => ?_, fun r d hr hnone => ?_,
    fun x d hx hnone => ?_⟩
  · rw [hop, hnone] at hx
    cases hx
  · rw [hop, hnone] at hx
    cases hx
  · rw [hregion, hnone] at hr
    cases hr
  · rw [hc.block?] at hx
    split at hx
    · rename_i hxb
      exact .inl (by simp [hxb])
    · rw [hnone] at hx
      cases hx

/-- A new region hangs loose and takes in its blocks. -/
theorem createRegion {bs : List BlockRef} {r : RegionRef} (known : ValueRef → Prop)
    (hrun : createRegion bs s = .ok (r, t)) : Built known s t (fun _ => False) [r] [] := by
  have hc := createRegion_ok hrun
  have hop : t.op? = s.op? := funext fun x => by rw [Store.op?, hc.ops]; rfl
  refine ⟨(Grows.copyStepsKeep s).createRegion _ _ _ _ (.refl s) hrun, .regionCreated hc,
    fun x d v hx hnone _ => ?_, fun x d hx hnone => ?_, fun x d hx hnone => ?_,
    fun b d hb hnone => ?_⟩
  · rw [hop, hnone] at hx
    cases hx
  · rw [hop, hnone] at hx
    cases hx
  · rw [hc.region?] at hx
    split at hx
    · rename_i hxr
      exact .inl (by simp [hxr])
    · rw [hnone] at hx
      cases hx
  · rw [hc.block?, hnone] at hb
    split at hb <;> cases hb

/-- An operation that is pushed into a block adds nothing. -/
theorem pushOp {b : BlockRef} {o : OpRef} {u : Unit} (known : ValueRef → Prop)
    (hrun : pushOp b o s = .ok (u, t)) : Built known s t (fun _ => False) [] [] := by
  have hsettled := Settled.insertOp (pushOp_eq_insertOp b o ▸ hrun)
  have hgrows := Grows.insertOp (pushOp_eq_insertOp b o ▸ hrun)
  obtain ⟨d, bd, hd, hbd, rfl, _⟩ := pushOp_ok hrun
  -- both entries that are written were there
  have hop : ∀ x, s.op? x = none → (s.attach o d b bd (bd.ops ++ [o])).op? x = none := by
    intro x hx
    rw [op?_attach hd, if_neg (by rintro rfl; rw [hd] at hx; cases hx), hx]
  refine ⟨hgrows, hsettled, fun x dx v hx hnone _ => ?_, fun x dx hx hnone => ?_,
    fun r rd hr hnone => ?_, fun x dx hx hnone => ?_⟩
  · rw [hop x hnone] at hx
    cases hx
  · rw [hop x hnone] at hx
    cases hx
  · exact absurd (hnone.symm.trans hr) (by simp)
  · rw [block?_attach hbd, if_neg (by rintro rfl; rw [hbd] at hnone; cases hnone), hnone] at hx
    cases hx

end Built

/-! ## New values -/

theorem fresh_of_nextValues {es : List ValueData} (hvalues : t.values = s.values ++ es.toArray)
    {v : ValueRef} (hv : v ∈ s.nextValues es.length) : Fresh s t v := by
  obtain ⟨k, hk⟩ := List.mem_iff_getElem?.1 hv
  obtain ⟨hlt, hindex⟩ := (nextValues_getElem? s _ k v).1 hk
  refine ⟨by rw [Store.value?, Array.getElem?_eq_none (by omega)], ?_⟩
  have hsize : v.index < t.values.size := by
    have hsizes : t.values.size = s.values.size + es.length := by simp [hvalues]
    omega
  exact ⟨t.values[v.index], by rw [Store.value?, Array.getElem?_eq_getElem hsize]⟩

/-- The results of a new operation are new. -/
theorem Created.fresh_results {spec : OpSpec} {o : OpRef} (hc : Created s spec o t) {v : ValueRef}
    (hv : v ∈ t.resultsOf o) : Fresh s t v := by
  rw [resultsOf_eq ((hc.op? o).trans (if_pos rfl))] at hv
  exact fresh_of_nextValues hc.values (by simpa [resultEntries, OpSpec.entry] using hv)

/-- The arguments of a new block are new. -/
theorem BlockCreated.fresh_args {types : List Ty} {b : BlockRef} (hc : BlockCreated s types b t)
    {v : ValueRef} (hv : v ∈ t.argsOf b) : Fresh s t v := by
  rw [argsOf_eq ((hc.block? b).trans (if_pos rfl))] at hv
  exact fresh_of_nextValues hc.values (by simpa [argEntries] using hv)

/-- The names that were added are names of new values. -/
def NamesNew (s : Store) (scope : Scope) (t : Store) (scope' : Scope) : Prop :=
  ∀ v, scope'.Binds v → scope.Binds v ∨ Fresh s t v

/-- Names that were added in two steps are names of new values. -/
theorem NamesNew.trans {scope₁ : Scope} (h : NamesNew s scope s₁ scope₁)
    (h' : NamesNew s₁ scope₁ t scope') (hs : Settled s s₁) (hs' : Settled s₁ t) :
    NamesNew s scope t scope' := by
  intro v hv
  rcases h' v hv with hv | hv
  · exact (h v hv).imp_right fun hv => hv.later hs'
  · exact .inr (hv.earlier hs)

/-! ## The parts of a tree -/

/-- Headers add blocks that hang loose, and names of their arguments. -/
theorem buildHeaders_built (known : ValueRef → Prop) {blocks : List Surface.Block} :
    ∀ {entry : List TypedName} {seen : List String} {scope scope' : Scope} {s t : Store}
      {bs : List BlockRef},
      buildHeaders entry seen scope blocks s = .ok (.ok (bs, scope'), t) →
      Built known s t (fun _ => False) [] bs ∧ NamesNew s scope t scope' := by
  induction blocks with
  | nil =>
    intro entry seen scope scope' s t bs h
    obtain ⟨hpair, rfl⟩ := Build.pure_ok.1 h
    cases hpair
    exact ⟨.refl known s _, fun v hv => .inl hv⟩
  | cons block blocks ih =>
    intro entry seen scope scope' s t bs h
    obtain ⟨label, args, ops⟩ := block
    obtain ⟨args', b, scope₁, s₁, bs₁, hheader, hrest, rfl⟩ := buildHeaders_cons_ok h
    obtain ⟨hcreate, hbinds⟩ := buildHeader_ok hheader
    have hfirst := Built.createBlock known hcreate
    obtain ⟨hmore, hnames⟩ := ih hrest
    have hargs : NamesNew s scope s₁ scope₁ := fun v hv =>
      (hbinds v hv).imp_right (createBlock_ok hcreate).fresh_args
    refine ⟨?_, hargs.trans hnames hfirst.settled hmore.settled⟩
    refine (hfirst.trans hmore fun v hv => .inl hv).collect ?_ (by simp) (fun b hb => .inl hb)
    rintro y (hy | hy)
    · exact hy.elim
    · exact hy.elim

mutual

/-- Building an operation adds what is nested in it, and nothing else. -/
theorem buildOp_built : ∀ (o : Surface.Op) {scope scope' : Scope} {s t : Store} {op : OpRef},
    buildOp scope o s = .ok (.ok (op, scope'), t) →
    Built scope.Binds s t (· = op) [] [] ∧ NamesNew s scope t scope'
  | .mk head regions, scope, scope', s, t, op => by
    intro h
    obtain ⟨spec, s₁, hregions, hoperands, hcreate, hnames⟩ := buildOp_ok h
    have hnested := buildRegions_built regions hregions
    have hop := Built.createOp hoperands hcreate
    have hc := createOp_ok hcreate
    refine ⟨(hnested.trans hop fun v hv => .inl hv).collect ?_ ?_ (by simp), fun v hv =>
      (hnames v hv).imp_right fun hv => (hc.fresh_results hv).earlier hnested.settled⟩
    · -- the operation takes the regions in, with everything in them
      rintro y (hy | rfl)
      · exact ⟨op, rfl, .single ⟨_, (hc.op? op).trans (if_pos rfl), hop.grows.nests.inRegions hy⟩⟩
      · exact ⟨y, rfl, .refl⟩
    · intro r hr
      rw [List.append_nil] at hr
      refine .inr fun d hd => ?_
      rw [hc.region?, if_pos hr] at hd
      obtain ⟨_, _, rfl⟩ := Option.map_eq_some_iff.1 hd
      simp

/-- Regions add what is nested in them, and hang loose. -/
theorem buildRegions_built : ∀ (regions : List Surface.Region) {scope : Scope}
    {entry : List TypedName} {s t : Store} {rs : List RegionRef},
    buildRegions scope entry regions s = .ok (.ok rs, t) →
    Built scope.Binds s t (InRegions t rs) rs []
  | [], scope, entry, s, t, rs => by
    intro h
    rw [buildRegions] at h
    obtain ⟨rfl, rfl⟩ := Build.pure_ok.1 h
    exact .refl _ s _
  | r :: rest, scope, entry, s, t, rs => by
    intro h
    obtain ⟨r', s₁, rs₁, hregion, hrest, rfl⟩ := buildRegions_cons_ok h
    have hfirst := buildRegion_built r hregion
    have hmore := buildRegions_built rest hrest
    refine (hfirst.trans hmore fun v hv => .inl hv).collect ?_ (fun r hr => .inl hr) (by simp)
    rintro y (hy | hy)
    · exact ⟨y, (hmore.grows.nests.inRegions hy).head, .refl⟩
    · exact ⟨y, hy.tail, .refl⟩

theorem buildRegion_built : ∀ (region : Surface.Region) {scope : Scope} {entry : List TypedName}
    {s t : Store} {r : RegionRef}, buildRegion scope entry region s = .ok (.ok r, t) →
    Built scope.Binds s t (InRegions t [r]) [r] []
  | .mk blocks, scope, entry, s, t, r => by
    intro h
    obtain ⟨bs, scope₁, s₁, s₂, hheaders, hbodies, hcreate⟩ := buildRegion_ok h
    obtain ⟨hblocks, hnames⟩ := buildHeaders_built scope.Binds hheaders
    have hops := buildBodies_built blocks hbodies
    have hregion := Built.createRegion scope.Binds hcreate
    have hc := createRegion_ok hcreate
    refine ((hblocks.trans hops hnames).trans hregion fun v hv => .inl hv).collect ?_ ?_ ?_
    · rintro y ((hy | hy) | hy)
      · exact hy.elim
      · exact ⟨y, ⟨r, by simp, ⟨bs, none⟩, by rw [hc.region?, if_pos rfl],
          hregion.grows.nests.inBlocks hy⟩, .refl⟩
      · exact hy.elim
    · intro x hx
      exact .inl (by simpa using hx)
    · intro b hb
      have hb : b ∈ bs := by simpa using hb
      refine .inr fun d hd => ?_
      rw [hc.block?, if_pos hb] at hd
      obtain ⟨_, _, rfl⟩ := Option.map_eq_some_iff.1 hd
      simp

/-- Bodies add what is nested in their blocks. -/
theorem buildBodies_built : ∀ (blocks : List Surface.Block) {scope : Scope} {refs : List BlockRef}
    {s t : Store} {u : Unit}, buildBodies scope refs blocks s = .ok (.ok u, t) →
    Built scope.Binds s t (InBlocks t refs) [] []
  | [], scope, refs, s, t, u => by
    intro h
    rw [buildBodies] at h
    obtain ⟨_, rfl⟩ := Build.pure_ok.1 h
    exact .refl _ s _
  | b :: rest, scope, [], s, t, u => by
    intro h
    rw [buildBodies] at h
    obtain ⟨_, rfl⟩ := Build.pure_ok.1 h
    exact .refl _ s _
  | b :: rest, scope, ref :: refs, s, t, u => by
    intro h
    obtain ⟨scope₁, s₁, hbody, hrest⟩ := buildBodies_cons_ok h
    obtain ⟨hfirst, hnames⟩ := buildBody_built b hbody
    have hmore := buildBodies_built rest hrest
    refine (hfirst.trans hmore hnames).collect ?_ (by simp) (by simp)
    rintro y (hy | hy)
    · exact ⟨y, (hmore.grows.nests.inBlocks hy).head, .refl⟩
    · exact ⟨y, hy.tail, .refl⟩

theorem buildBody_built : ∀ (block : Surface.Block) {scope scope' : Scope} {b : BlockRef}
    {s t : Store}, buildBody scope b block s = .ok (.ok scope', t) →
    Built scope.Binds s t (InBlocks t [b]) [] [] ∧ NamesNew s scope t scope'
  | .mk _ _ ops, scope, scope', b, s, t => by
    intro h
    rw [buildBody] at h
    exact buildOps_built ops h

theorem buildOps_built : ∀ (ops : List Surface.Op) {scope scope' : Scope} {b : BlockRef}
    {s t : Store}, buildOps scope b ops s = .ok (.ok scope', t) →
    Built scope.Binds s t (InBlocks t [b]) [] [] ∧ NamesNew s scope t scope'
  | [], scope, scope', b, s, t => by
    intro h
    rw [buildOps] at h
    obtain ⟨rfl, rfl⟩ := Build.pure_ok.1 h
    exact ⟨.refl _ s _, fun v hv => .inl hv⟩
  | o :: rest, scope, scope', b, s, t => by
    intro h
    obtain ⟨op, scope₁, s₁, s₂, hop, hpush, hrest⟩ := buildOps_cons_ok h
    obtain ⟨hfirst, hnames⟩ := buildOp_built o hop
    have hpushed := Built.pushOp scope.Binds hpush
    obtain ⟨hmore, hnames'⟩ := buildOps_built rest hrest
    have hnames₂ : NamesNew s scope s₂ scope₁ := fun v hv =>
      (hnames v hv).imp_right fun hv => hv.later hpushed.settled
    have hput := hfirst.trans hpushed fun v hv => .inl hv
    refine ⟨(hput.trans hmore hnames₂).collect ?_ (by simp) (by simp),
      hnames₂.trans hnames' hput.settled hmore.settled⟩
    rintro y ((rfl | hy) | hy)
    · obtain ⟨_, bd, _, _, _, hlast⟩ := pushOp_ok hpush
      exact ⟨y, hmore.grows.nests.inBlocks ⟨b, by simp, _, hlast, by simp⟩, .refl⟩
    · exact hy.elim
    · exact ⟨y, hy, .refl⟩

end

end AffineRaising.IR
