/-
# AffineRaising.Proofs.Store.Image — a copy, read from the original.

The sources of a copy say where each part of it came from.  No two parts have the same source
(`CopyOf.op_injective`), and everything in the original is the source of something
(`CopyOf.exists_copy`), so sources can be turned around: each part of the original has an image, and
the entry of the image is the entry of the part with everything that it names replaced (`ImageOf`).
The renaming does this for values.  Where the operands in an operation are visible and nested
operations branch within their regions, copying goes through and yields such an image next to what
was there: `copied_tree_isomorphic`.
-/
import AffineRaising.Proofs.Analysis.Visibility
import AffineRaising.Proofs.Resolve.Module
import AffineRaising.Proofs.Store.Isomorphic
import AffineRaising.Proofs.Store.Total

namespace AffineRaising.IR

open Store AffineRaising.Analysis

variable {gone : OpRef → Prop} {outside : ValueRef → Prop} {s t : Store} {src : Source}
  {m : Renaming} {o c : OpRef}

/-! ## Images -/

/-- Where the operations, blocks and regions of an original are found in a copy. -/
structure Image where
  op : OpRef → OpRef
  block : BlockRef → BlockRef
  region : RegionRef → RegionRef

namespace Image

/-- The entry of an operation, with everything that it names replaced. -/
def opData (f : Image) (m : Renaming) (d : OpData) : OpData :=
  { d with
    operands := d.operands.map m.apply
    results := d.results.map m.apply
    regions := d.regions.map f.region
    successors := d.successors.map f.block
    parent := d.parent.map f.block }

/-- The entry of a block, with everything that it names replaced. -/
def blockData (f : Image) (m : Renaming) (d : BlockData) : BlockData :=
  { d with
    args := d.args.map m.apply
    ops := d.ops.map f.op
    parent := d.parent.map f.region }

/-- The entry of a region, with everything that it names replaced. -/
def regionData (f : Image) (d : RegionData) : RegionData :=
  ⟨d.blocks.map f.block, d.parent.map f.op⟩

end Image

/-- What `c` is made of in `t` is new since `s`, and is the image of what `o` is made of in `s`.
The root of the copy is in no block and branches to where the original does; everything else names
the images of what its original names.  The renaming knows the values that `o` defines and no
others. -/
structure ImageOf (s : Store) (o : OpRef) (t : Store) (c : OpRef) (f : Image) (m : Renaming) :
    Prop where
  root : f.op o = c
  copy : ∀ d, s.op o = .ok d →
    t.op c = .ok { f.opData m d with successors := d.successors, parent := none }
  ops : ∀ x d, Within s o x → x ≠ o → s.op x = .ok d → t.op (f.op x) = .ok (f.opData m d)
  regions : ∀ x d r rd, Within s o x → s.op x = .ok d → r ∈ d.regions → s.region r = .ok rd →
    t.region (f.region r) = .ok (f.regionData rd)
  blocks : ∀ x b bd, Within s o x → Holds s x b → s.block b = .ok bd →
    t.block (f.block b) = .ok (f.blockData m bd)
  within : ∀ z, Within t c z ↔ ∃ x, Within s o x ∧ f.op x = z
  injective : ∀ x y, Within s o x → Within s o y → f.op x = f.op y → x = y
  newOp : ∀ x, Within s o x → s.op? (f.op x) = none
  newBlock : ∀ x b, Within s o x → Holds s x b → s.block? (f.block b) = none
  newRegion : ∀ x d r, Within s o x → s.op x = .ok d → r ∈ d.regions →
    s.region? (f.region r) = none
  known : ∀ v, (∃ w, m.get? v = some w) ↔ DefinedIn s o v
  newValue : ∀ v, DefinedIn s o v → s.value? (m.apply v) = none
  values : ∀ v w, DefinedIn s o v → DefinedIn s o w → m.apply v = m.apply w → v = w

/-! ## Every part of the original is a source -/

namespace CopyOf

variable (h : CopyOf outside s o c t src m)

include h

theorem new_of_within {z : OpRef} (hz : Within t c z) : s.op? z = none :=
  (h.within h.new hz).1

theorem source_within {z : OpRef} (hz : Within t c z) : Within s o (src.op z) :=
  h.root ▸ (h.within h.new hz).2

/-- The entry of something new next to that of its source. -/
theorem entries {z : OpRef} (hz : Within t c z) {e : OpData} (he : t.op? z = some e) :
    ∃ d, s.op? (src.op z) = some d ∧ Alike s src t d e :=
  h.mirrors.ops z e (h.new_of_within hz) he

theorem entry_exists {z : OpRef} (hz : Within t c z) : ∃ e, t.op? z = some e := by
  obtain ⟨_, e, _, he, _⟩ := h.loose
  exact h.linked_after.op?_of_within ⟨e, he⟩ hz

/-- What a source owns are the sources of what the copy owns. -/
theorem exists_region {z : OpRef} (hz : Within t c z) {d : OpData} (hd : s.op? (src.op z) = some d)
    {r₀ : RegionRef} (hr₀ : r₀ ∈ d.regions) :
    ∃ e r, t.op? z = some e ∧ r ∈ e.regions ∧ src.region r = r₀ := by
  obtain ⟨e, he⟩ := h.entry_exists hz
  obtain ⟨d', hd', halike⟩ := h.entries hz he
  cases hd.symm.trans hd'
  rw [← halike.regions] at hr₀
  obtain ⟨r, hr, hsource⟩ := List.mem_map.1 hr₀
  exact ⟨e, r, he, hr, hsource⟩

theorem exists_holds {z : OpRef} (hz : Within t c z) {b₀ : BlockRef}
    (hb₀ : Holds s (src.op z) b₀) : ∃ b, Holds t z b ∧ src.block b = b₀ := by
  obtain ⟨d, hd, r₀, hr₀, rd, hrd, hmem⟩ := hb₀
  obtain ⟨e, r, he, hr, rfl⟩ := h.exists_region hz hd hr₀
  obtain ⟨re, hre, _⟩ := region?_of_op h.linked_after he hr
  obtain ⟨rd', hrd', hblocks⟩ := h.mirrors.regions r re (h.region_new (h.new_of_within hz)
    he hr) hre
  cases hrd.symm.trans hrd'
  rw [← hblocks] at hmem
  obtain ⟨b, hb, hsource⟩ := List.mem_map.1 hmem
  exact ⟨b, ⟨e, he, r, hr, re, hre, hb⟩, hsource⟩

theorem exists_child {z x : OpRef} (hz : Within t c z) (hx : Child s (src.op z) x) :
    ∃ y, Child t z y ∧ src.op y = x := by
  obtain ⟨b₀, bd, hb₀, hbd, hmem⟩ := child_iff.1 hx
  obtain ⟨b, hb, rfl⟩ := h.exists_holds hz hb₀
  obtain ⟨e, he, r, hr, re, hre, hb'⟩ := id hb
  obtain ⟨be, hbe, _⟩ := block?_of_region h.linked_after hre hb'
  obtain ⟨bd', hbd', hops⟩ := h.ops_source (h.new_of_within hz) hb hbe
  cases hbd.symm.trans hbd'
  rw [← hops] at hmem
  obtain ⟨y, hy, hsource⟩ := List.mem_map.1 hmem
  exact ⟨y, child_iff.2 ⟨b, be, hb, hbe, hy⟩, hsource⟩

/-- Everything in the original has a copy. -/
theorem exists_copy {x : OpRef} (hx : Within s o x) : ∃ z, Within t c z ∧ src.op z = x := by
  induction hx with
  | refl => exact ⟨c, .refl, h.root⟩
  | tail _ hchild ih =>
    obtain ⟨z, hz, rfl⟩ := ih
    obtain ⟨y, hy, hsource⟩ := h.exists_child hz hchild
    exact ⟨y, hz.tail hy, hsource⟩

/-! ## Parts and their images -/

theorem region_injective {q q' : OpRef} {e e' : OpData} {r r' : RegionRef} (hq : Within t c q)
    (he : t.op? q = some e) (hr : r ∈ e.regions) (hq' : Within t c q') (he' : t.op? q' = some e')
    (hr' : r' ∈ e'.regions) (heq : src.region r = src.region r') : r = r' := by
  obtain ⟨d, hd, halike⟩ := h.entries hq he
  obtain ⟨d', hd', halike'⟩ := h.entries hq' he'
  have hmem : src.region r ∈ d.regions := halike.regions ▸ List.mem_map_of_mem hr
  have hmem' : src.region r ∈ d'.regions := by
    rw [← halike'.regions, heq]
    exact List.mem_map_of_mem hr'
  obtain ⟨rd, hrd, hparent⟩ := region?_of_op h.linked hd hmem
  obtain ⟨rd', hrd', hparent'⟩ := region?_of_op h.linked hd' hmem'
  cases hrd.symm.trans hrd'
  -- the source has one owner, and that is the source of one operation
  cases h.op_injective hq hq' (Option.some.inj (hparent.symm.trans hparent'))
  cases he.symm.trans he'
  have hnodup : d.regions.Nodup :=
    h.linked.regions.nodup (a := src.op q) (by simp [regionsIn, hd])
  rw [← halike.regions] at hnodup
  exact List.inj_on_of_nodup_map hnodup hr hr' heq

end CopyOf

/-- Sources turned around: the parts of `c` that have a given source. -/
noncomputable def Source.image (src : Source) (t : Store) (c : OpRef) : Image :=
  haveI : Nonempty OpRef := ⟨c⟩
  haveI : Nonempty BlockRef := ⟨⟨0⟩⟩
  haveI : Nonempty RegionRef := ⟨⟨0⟩⟩
  { op := Function.invFunOn src.op {z | Within t c z}
    block := Function.invFunOn src.block {b | ∃ q, Within t c q ∧ Holds t q b}
    region := Function.invFunOn src.region
      {r | ∃ q e, Within t c q ∧ t.op? q = some e ∧ r ∈ e.regions} }

namespace CopyOf

variable (h : CopyOf outside s o c t src m)

include h

theorem image_op {z : OpRef} (hz : Within t c z) : (src.image t c).op (src.op z) = z :=
  have : Nonempty OpRef := ⟨c⟩
  Set.InjOn.leftInvOn_invFunOn (f := src.op) (s := {z | Within t c z})
    (fun _ hx _ hy heq => h.op_injective hx hy heq) hz

theorem image_block {q : OpRef} {b : BlockRef} (hq : Within t c q) (hb : Holds t q b) :
    (src.image t c).block (src.block b) = b := by
  have : Nonempty BlockRef := ⟨b⟩
  refine Set.InjOn.leftInvOn_invFunOn (f := src.block)
    (s := {b | ∃ q, Within t c q ∧ Holds t q b}) ?_ ⟨q, hq, hb⟩
  rintro b₁ ⟨q₁, hq₁, hb₁⟩ b₂ ⟨q₂, hq₂, hb₂⟩ heq
  obtain ⟨_, _, r₁, _, _, hr₁, hmem₁⟩ := id hb₁
  obtain ⟨_, _, r₂, _, _, hr₂, hmem₂⟩ := id hb₂
  obtain ⟨be₁, hbe₁, _⟩ := block?_of_region h.linked_after hr₁ hmem₁
  obtain ⟨be₂, hbe₂, _⟩ := block?_of_region h.linked_after hr₂ hmem₂
  exact h.block_injective hbe₁ (h.holds (h.new_of_within hq₁) hb₁).1 hbe₂
    (h.holds (h.new_of_within hq₂) hb₂).1 heq

theorem image_region {q : OpRef} {e : OpData} {r : RegionRef} (hq : Within t c q)
    (he : t.op? q = some e) (hr : r ∈ e.regions) : (src.image t c).region (src.region r) = r := by
  have : Nonempty RegionRef := ⟨r⟩
  refine Set.InjOn.leftInvOn_invFunOn (f := src.region)
    (s := {r | ∃ q e, Within t c q ∧ t.op? q = some e ∧ r ∈ e.regions}) ?_ ⟨q, e, hq, he, hr⟩
  rintro r₁ ⟨q₁, e₁, hq₁, he₁, hr₁⟩ r₂ ⟨q₂, e₂, hq₂, he₂, hr₂⟩ heq
  exact h.region_injective hq₁ he₁ hr₁ hq₂ he₂ hr₂ heq

/-- A new block is a block of the copy, so it is the image of its source. -/
theorem image_new_block {b : BlockRef} {be : BlockData} (hbe : t.block? b = some be)
    (hb : s.block? b = none) : (src.image t c).block (src.block b) = b := by
  obtain ⟨q, hq, hholds⟩ := h.holder hbe hb
  obtain ⟨e, he, _⟩ := id hholds
  exact h.image_block (h.within_new he hq) hholds

end CopyOf

/-! ## Values -/

namespace CopyOf

variable (h : CopyOf outside s o c t src m)

include h

/-- A value at a place that was not there is new. -/
theorem value_new {w : ValueRef} {a : Origin} (ha : t.originOf w = some a)
    (hplace : s.originOf w ≠ some a) : s.value? w = none := by
  cases hold : s.value? w with
  | none => rfl
  | some d =>
    rw [originOf, h.copied.value? w d hold, Option.map_some] at ha
    rw [originOf, hold, Option.map_some] at hplace
    exact absurd ha hplace

/-- New values with the same source are the same. -/
theorem origin_injective {w w' : ValueRef} {a a' : Origin} (hw : s.value? w = none)
    (hw' : s.value? w' = none) (ha : t.originOf w = some a) (ha' : t.originOf w' = some a')
    (heq : src.origin a = src.origin a') : w = w' := by
  obtain ⟨hresult, hargument⟩ := h.origin_new hw
  obtain ⟨hresult', hargument'⟩ := h.origin_new hw'
  refine eq_of_originOf h.linked_after ha ?_
  rw [ha']
  cases a with
  | result y k =>
    cases a' with
    | argument b j => cases heq
    | result y' j =>
      simp only [Source.origin, Origin.result.injEq] at heq
      obtain ⟨hy, rfl⟩ := heq
      obtain ⟨e, he⟩ := op?_of_result h.linked_after ha
      obtain ⟨e', he'⟩ := op?_of_result h.linked_after ha'
      rw [h.op_injective (h.within_new he (hresult y k ha)) (h.within_new he' (hresult' y' k ha'))
        hy]
  | argument b k =>
    cases a' with
    | result y j => cases heq
    | argument b' j =>
      simp only [Source.origin, Origin.argument.injEq] at heq
      obtain ⟨hb, rfl⟩ := heq
      obtain ⟨be, hbe⟩ := block?_of_argument h.linked_after ha
      obtain ⟨be', hbe'⟩ := block?_of_argument h.linked_after ha'
      rw [h.block_injective hbe (hargument b k ha) hbe' (hargument' b' k ha') hb]

/-- What a new value stands for is defined in the original. -/
theorem definedIn_of_stands {v w : ValueRef} (hw : s.value? w = none)
    (hstands : Stands s src t v w) : DefinedIn s o v := by
  obtain ⟨a, ha, hv⟩ := hstands
  obtain ⟨hresult, hargument⟩ := h.origin_new hw
  cases a with
  | result z k =>
    obtain ⟨e, he⟩ := op?_of_result h.linked_after ha
    have hz := h.within_new he (hresult z k ha)
    obtain ⟨d, hd⟩ := op?_of_result h.linked hv
    refine ⟨src.op z, h.source_within hz, .inl ⟨d, hd, ?_⟩⟩
    exact List.mem_of_getElem? ((h.linked.results.mem_iff (by rw [resultsIn, hd]; rfl) k v).2 hv)
  | argument b k =>
    obtain ⟨be, hbe⟩ := block?_of_argument h.linked_after ha
    obtain ⟨q, hq, hholds⟩ := h.holder hbe (hargument b k ha)
    obtain ⟨e, he, _⟩ := id hholds
    have hwithin := h.source_within (h.within_new he hq)
    obtain ⟨bd, hbd⟩ := block?_of_argument h.linked hv
    refine ⟨src.op q, hwithin, .inr ⟨src.block b, bd, (h.holds hq hholds).2, hbd, ?_⟩⟩
    exact List.mem_of_getElem? ((h.linked.args.mem_iff (by rw [argsIn, hbd]; rfl) k v).2 hv)

/-- The renaming takes what the original defines to new values that stand for it, and knows nothing
else. -/
theorem get?_iff {v w : ValueRef} :
    m.get? v = some w ↔ s.value? w = none ∧ Stands s src t v w := by
  have hof : ∀ {w}, m.get? v = some w → s.value? w = none ∧ Stands s src t v w := by
    intro w hget
    obtain ⟨p, hfind, rfl⟩ := Option.map_eq_some_iff.1 hget
    have hmem := List.mem_of_find?_eq_some hfind
    have hfst : p.1 = v := by simpa using List.find?_some hfind
    exact ⟨(h.gives p.2 ⟨p.1, hmem⟩).1, hfst ▸ h.mirrors.names p hmem⟩
  refine ⟨hof, fun ⟨hw, hstands⟩ => ?_⟩
  obtain ⟨w', hmem⟩ := h.knows v (h.definedIn_of_stands hw hstands)
  obtain ⟨w'', hget⟩ : ∃ w'', m.get? v = some w'' := by
    refine Option.ne_none_iff_exists'.1 fun hnone => ?_
    simpa using List.find?_eq_none.1 (Option.map_eq_none_iff.1 hnone) (v, w') hmem
  obtain ⟨hw'', hstands''⟩ := hof hget
  obtain ⟨a, ha, hv⟩ := hstands
  obtain ⟨a'', ha'', hv''⟩ := hstands''
  rw [hget, h.origin_injective hw'' hw ha'' ha (Option.some.inj (hv''.symm.trans hv))]

theorem get?_exists_iff (v : ValueRef) : (∃ w, m.get? v = some w) ↔ DefinedIn s o v := by
  constructor
  · rintro ⟨w, hget⟩
    obtain ⟨hw, hstands⟩ := h.get?_iff.1 hget
    exact h.definedIn_of_stands hw hstands
  · intro hv
    obtain ⟨w, hmem⟩ := h.knows v hv
    refine ⟨w, h.get?_iff.2 ⟨(h.gives w ⟨v, hmem⟩).1, h.mirrors.names (v, w) hmem⟩⟩

theorem apply_eq {v w : ValueRef} (hw : s.value? w = none) (hstands : Stands s src t v w) :
    m.apply v = w := by
  rw [Renaming.apply, h.get?_iff.2 ⟨hw, hstands⟩, Option.getD_some]

/-- What the original does not define is not renamed. -/
theorem apply_outside {v : ValueRef} (hv : ¬ DefinedIn s o v) : m.apply v = v := by
  rw [Renaming.apply, Option.eq_none_iff_forall_ne_some.2 fun w hget =>
    hv ((h.get?_exists_iff v).1 ⟨w, hget⟩), Option.getD_none]

theorem apply_inside {v : ValueRef} (hv : DefinedIn s o v) :
    s.value? (m.apply v) = none ∧ Stands s src t v (m.apply v) := by
  obtain ⟨w, hget⟩ := (h.get?_exists_iff v).2 hv
  rw [Renaming.apply, hget, Option.getD_some]
  exact h.get?_iff.1 hget

/-- Lists of values that stand for each other, the second one of new values, are the same up to the
renaming. -/
theorem map_apply_eq {vs ws : List ValueRef} (hlength : vs.length = ws.length)
    (hnew : ∀ w ∈ ws, s.value? w = none)
    (hstands : ∀ (k : Nat) v w, vs[k]? = some v → ws[k]? = some w → Stands s src t v w) :
    ws = vs.map m.apply := by
  refine List.ext_getElem (by simpa using hlength.symm) fun k hk hk' => ?_
  have hk'' : k < vs.length := by simpa using hk'
  rw [List.getElem_map]
  exact (h.apply_eq (hnew _ (List.getElem_mem hk))
    (hstands k _ _ (List.getElem?_eq_getElem hk'') (List.getElem?_eq_getElem hk))).symm

end CopyOf

/-! ## Entries -/

/-- A list is the image of its sources where the image of each source is the member it is from. -/
theorem map_back {α β : Type} {source : α → β} {image : β → α} {l : List α} {k : List β}
    (hk : l.map source = k) (h : ∀ a ∈ l, image (source a) = a) : l = k.map image := by
  rw [← hk, List.map_map]
  exact (List.map_id l).symm.trans (List.map_congr_left fun a ha => (h a ha).symm)

namespace CopyOf

variable (h : CopyOf outside s o c t src m) {z : OpRef} {d e : OpData} (hz : Within t c z)
  (he : t.op? z = some e) (hd : s.op? (src.op z) = some d)

include h hz he hd

theorem alike : Alike s src t d e := by
  obtain ⟨d', hd', halike⟩ := h.entries hz he
  cases hd.symm.trans hd'
  exact halike

theorem operands_eq (houtside : ∀ v, outside v → ¬ DefinedIn s o v) :
    e.operands = d.operands.map m.apply := by
  obtain ⟨hlength, hstands⟩ := List.forall₂_iff_zip.1 (h.alike hz he hd).operands
  have hall : List.Forall₂ (· = ·) (d.operands.map m.apply) e.operands := by
    refine List.forall₂_map_left_iff.2 (List.forall₂_iff_zip.2 ⟨hlength, fun {v w} hpair => ?_⟩)
    have hvw := hstands hpair
    cases hw : s.value? w with
    | none => exact h.apply_eq hw hvw
    | some a =>
      -- an old value stands for itself only
      obtain ⟨origin, horigin, hv⟩ := hvw
      have hold : s.originOf w = some a.origin := by rw [originOf, hw, Option.map_some]
      have hsame : origin = a.origin := by
        rw [originOf, h.copied.value? w a hw] at horigin
        exact (Option.some.inj horigin).symm
      have hself : src.origin a.origin = a.origin := by
        rw [h.mirrors.old.origin_eq h.linked hold]
        cases a.origin <;> rfl
      rw [hsame, hself] at hv
      cases eq_of_originOf h.linked hv hold
      rcases h.built.operands z e v he (h.new_of_within hz) (List.of_mem_zip hpair).2 with hv | hv
      · exact h.apply_outside (houtside v hv)
      · rw [hv.1] at hw
        cases hw
  rw [List.forall₂_eq_eq_eq] at hall
  exact hall.symm

theorem results_eq (hs : Sized s) (ht : Sized t) : e.results = d.results.map m.apply := by
  have horigins : ∀ (k : Nat) w, e.results[k]? = some w → t.originOf w = some (.result z k) :=
    fun k w => (h.linked_after.results.mem_iff (by rw [resultsIn, he]; rfl) k w).1
  refine h.map_apply_eq ?_ (fun w hw => ?_) fun k v w hv hw => ⟨_, horigins k w hw, ?_⟩
  · rw [hs.results _ d hd, ht.results z e he, (h.alike hz he hd).resultTypes]
  · obtain ⟨k, hk⟩ := List.mem_iff_getElem?.1 hw
    refine h.value_new (horigins k w hk) fun hold => ?_
    obtain ⟨dz, hdz⟩ := op?_of_result h.linked hold
    rw [h.new_of_within hz] at hdz
    cases hdz
  · exact (h.linked.results.mem_iff (by rw [resultsIn, hd]; rfl) k v).1 hv

theorem regions_eq : e.regions = d.regions.map (src.image t c).region :=
  map_back (h.alike hz he hd).regions fun _ hr => h.image_region hz he hr

/-- What is not the root of the copy is in the image of the block of its source. -/
theorem parent_eq (hzc : z ≠ c) :
    e.parent ≠ none ∧ e.parent = d.parent.map (src.image t c).block := by
  obtain ⟨q, hq, hchild⟩ := (Relation.ReflTransGen.cases_tail hz).resolve_left hzc
  obtain ⟨b, be, hb, hbe, hmem⟩ := child_iff.1 hchild
  obtain ⟨bd, hbd, hops⟩ := h.ops_source (h.new_of_within hq) hb hbe
  obtain ⟨e', he', hparent⟩ := h.linked_after.op?_of_mem hbe hmem
  cases he.symm.trans he'
  obtain ⟨d', hd', hparent'⟩ := h.linked.op?_of_mem hbd (hops ▸ List.mem_map_of_mem hmem)
  cases hd.symm.trans hd'
  rw [hparent, hparent', Option.map_some, h.image_block hq hb]
  exact ⟨Option.some_ne_none b, rfl⟩

theorem successors_eq (hzc : z ≠ c) (hlocal : BranchesLocally s (src.op z)) :
    e.successors = d.successors.map (src.image t c).block := by
  have hnew := h.new_of_within hz
  have hbranch := h.mirrors.branches z e hnew he (h.parent_eq hz he hd hzc).1 hlocal d hd
  refine map_back hbranch.sources fun b hb => ?_
  obtain ⟨be, hbe⟩ := hbranch.there b hb
  exact h.image_new_block hbe (hbranch.new b hb)

end CopyOf

namespace CopyOf

variable (h : CopyOf outside s o c t src m)

include h

theorem regionData_eq {z : OpRef} {e : OpData} {r : RegionRef} {re rd : RegionData}
    (hz : Within t c z) (he : t.op? z = some e) (hr : r ∈ e.regions) (hre : t.region? r = some re)
    (hrd : s.region? (src.region r) = some rd) : re = (src.image t c).regionData rd := by
  obtain ⟨d, hd, halike⟩ := h.entries hz he
  obtain ⟨re', hre', hparent⟩ := region?_of_op h.linked_after he hr
  cases hre.symm.trans hre'
  obtain ⟨rd', hrd', hparent'⟩ := region?_of_op h.linked hd
    (halike.regions ▸ List.mem_map_of_mem hr)
  cases hrd.symm.trans hrd'
  obtain ⟨rd', hrd', hblocks⟩ :=
    h.mirrors.regions r re (h.region_new (h.new_of_within hz) he hr) hre
  cases hrd.symm.trans hrd'
  have hsame : re.blocks = rd.blocks.map (src.image t c).block :=
    map_back hblocks fun b hb => h.image_block hz ⟨e, he, r, hr, re, hre, hb⟩
  show (⟨re.blocks, re.parent⟩ : RegionData) = ⟨_, _⟩
  rw [hsame, hparent, hparent', Option.map_some, h.image_op hz]

theorem blockData_eq {z : OpRef} {b : BlockRef} {be bd : BlockData} (hs : Sized s) (ht : Sized t)
    (hz : Within t c z) (hb : Holds t z b) (hbe : t.block? b = some be)
    (hbd : s.block? (src.block b) = some bd) : be = (src.image t c).blockData m bd := by
  have hnew := (h.holds (h.new_of_within hz) hb).1
  obtain ⟨e, he, r, hr, re, hre, hmem⟩ := id hb
  obtain ⟨be', hbe', hparent⟩ := block?_of_region h.linked_after hre hmem
  cases hbe.symm.trans hbe'
  obtain ⟨rd, hrd, hblocks⟩ :=
    h.mirrors.regions r re (h.region_new (h.new_of_within hz) he hr) hre
  obtain ⟨bd', hbd', hparent'⟩ := block?_of_region h.linked hrd
    (hblocks ▸ List.mem_map_of_mem hmem)
  cases hbd.symm.trans hbd'
  obtain ⟨bd', hbd', htypes, hops⟩ := h.mirrors.blocks b be hnew hbe (by simp [hparent])
  cases hbd.symm.trans hbd'
  have horigins : ∀ (k : Nat) w, be.args[k]? = some w → t.originOf w = some (.argument b k) :=
    fun k w => (h.linked_after.args.mem_iff (by rw [argsIn, hbe]; rfl) k w).1
  have hargs : be.args = bd.args.map m.apply := by
    refine h.map_apply_eq ?_ (fun w hw => ?_) fun k v w hv hw => ⟨_, horigins k w hw, ?_⟩
    · rw [hs.args _ bd hbd, ht.args b be hbe, htypes]
    · obtain ⟨k, hk⟩ := List.mem_iff_getElem?.1 hw
      refine h.value_new (horigins k w hk) fun hold => ?_
      obtain ⟨db, hdb⟩ := block?_of_argument h.linked hold
      rw [hnew] at hdb
      cases hdb
    · exact (h.linked.args.mem_iff (by rw [argsIn, hbd]; rfl) k v).1 hv
  have hsame : be.ops = bd.ops.map (src.image t c).op := by
    refine map_back hops fun x hx => h.image_op (hz.tail ?_)
    exact child_iff.2 ⟨b, be, hb, hbe, hx⟩
  show (⟨be.args, be.argTypes, be.ops, be.parent⟩ : BlockData) = ⟨_, _, _, _⟩
  rw [hargs, htypes, hsame, hparent, hparent', Option.map_some, h.image_region hz he hr]

/-- Read from the original, the copy is its image. -/
theorem imageOf (hs : Sized s) (ht : Sized t) (houtside : ∀ v, outside v → ¬ DefinedIn s o v)
    (hlocal : ∀ x, Within s o x → x ≠ o → BranchesLocally s x) :
    ImageOf s o t c (src.image t c) m where
  root := by
    rw [← h.root]
    exact h.image_op .refl
  copy d hd := by
    obtain ⟨d', e, hd', he, hparent, hsuccessors⟩ := h.loose
    cases (op_ok.1 hd).symm.trans hd'
    rw [← h.root] at hd'
    have halike := h.alike .refl he hd'
    rw [op_ok, he]
    show some (⟨e.name, e.operands, e.results, e.resultTypes, e.attrs, e.regions, e.successors,
      e.parent⟩ : OpData) = some ⟨_, _, _, _, _, _, _, _⟩
    rw [halike.name, h.operands_eq .refl he hd' houtside, h.results_eq .refl he hd' hs ht,
      halike.resultTypes, halike.attrs, h.regions_eq .refl he hd', hsuccessors, hparent]
    rfl
  ops x d hx hxo hd := by
    obtain ⟨z, hz, rfl⟩ := h.exists_copy hx
    have hzc : z ≠ c := fun heq => hxo (heq ▸ h.root)
    rw [op_ok] at hd ⊢
    obtain ⟨e, he⟩ := h.entry_exists hz
    have halike := h.alike hz he hd
    rw [h.image_op hz, he]
    show some (⟨e.name, e.operands, e.results, e.resultTypes, e.attrs, e.regions, e.successors,
      e.parent⟩ : OpData) = some ⟨_, _, _, _, _, _, _, _⟩
    rw [halike.name, h.operands_eq hz he hd houtside, h.results_eq hz he hd hs ht,
      halike.resultTypes, halike.attrs, h.regions_eq hz he hd,
      h.successors_eq hz he hd hzc (hlocal _ hx hxo), (h.parent_eq hz he hd hzc).2]
  regions x d r rd hx hd hr hrd := by
    obtain ⟨z, hz, rfl⟩ := h.exists_copy hx
    obtain ⟨e, r', he, hr', rfl⟩ := h.exists_region hz (op_ok.1 hd) hr
    obtain ⟨re, hre, _⟩ := region?_of_op h.linked_after he hr'
    rw [region_ok, h.image_region hz he hr', hre,
      h.regionData_eq hz he hr' hre (region_ok.1 hrd)]
  blocks x b bd hx hb hbd := by
    obtain ⟨z, hz, rfl⟩ := h.exists_copy hx
    obtain ⟨b', hb', rfl⟩ := h.exists_holds hz hb
    obtain ⟨_, _, r, _, re, hre, hmem⟩ := id hb'
    obtain ⟨be, hbe, _⟩ := block?_of_region h.linked_after hre hmem
    rw [block_ok, h.image_block hz hb', hbe, h.blockData_eq hs ht hz hb' hbe (block_ok.1 hbd)]
  within z := by
    refine ⟨fun hz => ⟨src.op z, h.source_within hz, h.image_op hz⟩, ?_⟩
    rintro ⟨x, hx, rfl⟩
    obtain ⟨z, hz, rfl⟩ := h.exists_copy hx
    rwa [h.image_op hz]
  injective x y hx hy heq := by
    obtain ⟨z, hz, rfl⟩ := h.exists_copy hx
    obtain ⟨z', hz', rfl⟩ := h.exists_copy hy
    rw [h.image_op hz, h.image_op hz'] at heq
    rw [heq]
  newOp x hx := by
    obtain ⟨z, hz, rfl⟩ := h.exists_copy hx
    rw [h.image_op hz]
    exact h.new_of_within hz
  newBlock x b hx hb := by
    obtain ⟨z, hz, rfl⟩ := h.exists_copy hx
    obtain ⟨b', hb', rfl⟩ := h.exists_holds hz hb
    rw [h.image_block hz hb']
    exact (h.holds (h.new_of_within hz) hb').1
  newRegion x d r hx hd hr := by
    obtain ⟨z, hz, rfl⟩ := h.exists_copy hx
    obtain ⟨e, r', he, hr', rfl⟩ := h.exists_region hz (op_ok.1 hd) hr
    rw [h.image_region hz he hr']
    exact h.region_new (h.new_of_within hz) he hr'
  known := h.get?_exists_iff
  newValue v hv := (h.apply_inside hv).1
  values v w hv hw heq := by
    obtain ⟨_, a, ha, hva⟩ := h.apply_inside hv
    obtain ⟨_, b, hb, hwb⟩ := h.apply_inside hw
    rw [heq] at ha
    cases ha.symm.trans hb
    exact eq_of_originOf h.linked hva hwb

end CopyOf

/-! ## Copying what can be seen -/

section Visible

variable (hl : Linked s) (hac : Acyclic s)

include hl hac

/-- What an operation or one around it is offered, the operation does not define. -/
theorem Offered.not_definedIn {v : ValueRef} {a : OpRef} (hv : Offered s v a) (ha : Within s a o) :
    ¬ DefinedIn s o v := by
  rintro ⟨x, hx, ⟨d, hd, hmem⟩ | ⟨b, bd, hb, hbd, hmem⟩⟩
  · obtain ⟨k, hk⟩ := List.mem_iff_getElem?.1 hmem
    have horigin := (hl.results.mem_iff (a := x) (by rw [resultsIn, hd]; rfl) k v).1 hk
    rcases hv with ⟨b, j, _, hv, _⟩ | ⟨y, j, hv, hya⟩
    · cases hv.symm.trans horigin
    · cases hv.symm.trans horigin
      exact hya.not_within_left hl (hac a) (ha.trans hx)
  · obtain ⟨k, hk⟩ := List.mem_iff_getElem?.1 hmem
    have horigin := (hl.args.mem_iff (a := b) (by rw [argsIn, hbd]; rfl) k v).1 hk
    rcases hv with ⟨b', j, bd', hv, hbd', ha'⟩ | ⟨y, j, hv, _⟩
    · cases hv.symm.trans horigin
      have hchild : Child s x a := (child_iff_holds hl hbd' ha').2 hb
      exact hac a (Relation.TransGen.tail' (ha.trans hx) hchild)
    · cases hv.symm.trans horigin

/-- An operation in which every operand is visible can be copied with nothing renamed before. -/
theorem ready_of_sees (hsees : ∀ x d v, Within s o x → s.op? x = some d → v ∈ d.operands →
    Sees s v x) : Ready s (¬ DefinedIn s o ·) [] o := by
  intro x d v hx hd hv
  obtain ⟨a, ha, hoffered⟩ := hsees x d v hx hd hv
  rcases within_or_within hl hx ha with hoa | hao
  · rcases Relation.reflTransGen_iff_eq_or_transGen.1 hoa with rfl | hoa
    · exact .inl (hoffered.not_definedIn hl hac .refl)
    · exact .inr (.inr ⟨a, hoa, ha, hoffered⟩)
  · exact .inl (hoffered.not_definedIn hl hac hao)

end Visible

/-- Copying an operation yields an independent image of it.  The operands of the operation and of
what is nested in it are visible where they are used, and what is nested in it branches only to
blocks of its own region.  Then there is a copy; it is the image of the operation, entry by entry;
what was there is as it was, with recorded uses of the copy behind the older ones; and the recorded
uses are the operand slots again. -/
theorem copied_tree_isomorphic (hk : Kept s gone) (hac : Acyclic s) (hsized : Sized s) {d : OpData}
    (hd : s.op o = .ok d)
    (hvisible : ∀ x e v, Within s o x → s.op x = .ok e → v ∈ e.operands →
      valueDominates s v x = .ok true)
    (hlocal : ∀ x, Within s o x → x ≠ o → BranchesLocally s x) :
    ∃ c m t f, cloneOp [] o s = .ok ((c, m), t) ∧ ImageOf s o t c f m ∧ Copied s t ∧
      Kept t gone := by
  have hl := hk.linked
  have hsees : ∀ x e v, Within s o x → s.op? x = some e → v ∈ e.operands → Sees s v x :=
    fun x e v hw he hv => (valueDominates_iff hl hac he).1 (hvisible x e v hw (op_ok.2 he) hv)
  have hground : GroundedIn s o := by
    refine ⟨⟨d, op_ok.1 hd⟩, fun x e v hw he hv => ?_⟩
    obtain ⟨a, _, ⟨_, _, _, horigin, _⟩ | ⟨_, _, horigin, _⟩⟩ := hsees x e v hw he hv
    · obtain ⟨a, ha, _⟩ := Option.map_eq_some_iff.1 horigin
      exact ⟨a, ha⟩
    · obtain ⟨a, ha, _⟩ := Option.map_eq_some_iff.1 horigin
      exact ⟨a, ha⟩
  obtain ⟨c, m, t, hrun⟩ := cloneOp_total hk hac (op_ok.1 hd)
  obtain ⟨src, hcopy⟩ :=
    cloneOp_copyOf hk hground hac hsized (ready_of_sees hl hac hsees) hrun
  have ht : Sized t := Sized.copyStepsKeep.cloneOp [] o s _ t hsized hrun
  exact ⟨c, m, t, src.image t c, hrun, hcopy.imageOf hsized ht (fun _ => id) hlocal, hcopy.copied,
    (cloneOp_ok hk hrun).1.kept⟩

/-- A body that uses its own argument and one from outside, and ends with a branch to itself. -/
theorem branching_body_built :
    let sum := Surface.Op.plain Ops.ArithKind.add.opName ["x"] ["i", "a"] [.index] []
    let branch := Surface.Op.mk ⟨[], "test", "branch", none, [], ["x"], ["body"], none, [], []⟩ []
    let outer := Surface.Op.mk ⟨["r"], "test", "outer", none, [], ["a"], [], none, [], [.index]⟩
      [.mk [.mk "body" [⟨"i", .index⟩] [sum, branch]]]
    let tree := Surface.Op.program [⟨"a", .index⟩] [outer]
    ∃ root scope s d, buildOp Scope.empty tree Store.empty = .ok (.ok (root, scope), s) ∧
      tree.oneBlock = true ∧ s.op ⟨2⟩ = .ok d ∧
      s.ops.toList.map (·.successors) = [[], [⟨2⟩], [], [], []] ∧
      s.region ⟨0⟩ = .ok ⟨[⟨2⟩], some ⟨2⟩⟩ ∧
      s.block ⟨2⟩ = .ok ⟨[⟨1⟩], [.index], [⟨0⟩, ⟨1⟩], some ⟨0⟩⟩ :=
  ⟨⟨4⟩, _, _, _, by cbv, by cbv, by cbv, by cbv, by cbv, by cbv⟩

theorem copied_tree_isomorphic_branching :
    ∃ tree root scope s c m t f,
      buildOp Scope.empty tree Store.empty = .ok (.ok (root, scope), s) ∧
      s.ops.toList.map (·.successors) = [[], [⟨2⟩], [], [], []] ∧
      cloneOp [] ⟨2⟩ s = .ok ((c, m), t) ∧ ImageOf s ⟨2⟩ t c f m ∧ Copied s t ∧
      Kept t fun _ => False := by
  obtain ⟨root, scope, s, d, hbuild, hone, hd, hsuccessors, hregion, hblock⟩ :=
    branching_body_built
  have hac := acyclic_of_read hbuild
  have hk := kept_of_read hbuild
  have hlocal : ∀ x, BranchesLocally s x := by
    intro x e b he hb
    have hx : (s.ops.toList.map (·.successors))[x.index]? = some e.successors := by
      rw [List.getElem?_map, Array.getElem?_toList]
      exact congrArg (Option.map _) he
    rw [hsuccessors] at hx
    -- only the second operation branches
    obtain ⟨rfl, rfl⟩ : x = ⟨1⟩ ∧ b = ⟨2⟩ := by
      obtain ⟨i⟩ := x
      rcases i with _ | _ | _ | _ | _ | i
      all_goals
        simp only [List.getElem?_cons_zero, List.getElem?_cons_succ, List.getElem?_nil,
          Option.some.injEq, reduceCtorEq] at hx
      all_goals
        simp only [← hx, List.mem_singleton, List.not_mem_nil] at hb
      exact ⟨rfl, hb⟩
    exact ⟨⟨0⟩, _, region_ok.1 hregion, by simp, ⟨2⟩, by simp, _, block_ok.1 hblock, by simp⟩
  obtain ⟨c, m, t, f, hrun, himage, hcopied, hkept⟩ := copied_tree_isomorphic hk hac
    (sized_of_built hbuild) hd (fun x e v _ hx hv =>
      (valueDominates_iff hk.linked hac (op_ok.1 hx)).2
        (sees_of_read hbuild hone (op_ok.1 hx) hv))
    fun x _ _ => hlocal x
  exact ⟨_, root, scope, s, c, m, t, f, hbuild, hsuccessors, hrun, himage, hcopied, hkept⟩

end AffineRaising.IR
