/-
# AffineRaising.Proofs.Store.Provenance — what a copy uses.

The operands of a copy are values that came into being with it, or operands of what was copied.  So
a value that is there already, and that nothing nested in an operation has as an operand, has the
same uses after the operation was copied: `cloneOp_usesOf`.

The proof follows the recursion of the copy.  What it keeps is `Spares`: so far the uses of the
value are as they were, and no name has been given to anything that would become the value.  As the
new names are new values, an operand that is not the value is never renamed to it.
-/
import AffineRaising.Proofs.Analysis.Nesting
import AffineRaising.Proofs.Resolve.Built

namespace AffineRaising.IR

open Store AffineRaising.Analysis
open Edit (Keeps)

variable {gone : OpRef → Prop} {base s t : Store} {m m' : Renaming} {v : ValueRef}

/-- The operation is there, and neither it nor anything nested in it has the value as an operand. -/
def Ignores (base : Store) (v : ValueRef) (o : OpRef) : Prop :=
  (∃ d, base.op? o = some d) ∧ ∀ y d, Within base o y → base.op? y = some d → v ∉ d.operands

/-- So far a copy has left the uses of a value alone, and has not renamed anything to it. -/
structure Spares (base : Store) (v : ValueRef) (s : Store) (m : Renaming) : Prop where
  uses : s.usesOf v = base.usesOf v
  names : ∀ p ∈ m, p.2 ≠ v

/-- A renaming takes nothing to a value that it does not give, unless it was that value before. -/
theorem Renaming.apply_ne {w : ValueRef} (hm : ∀ p ∈ m, p.2 ≠ v) (hw : w ≠ v) :
    m.apply w ≠ v := by
  unfold Renaming.apply Renaming.get?
  cases hfind : m.find? (fun p => p.1 == w) with
  | none => exact hw
  | some p => exact hm p (List.mem_of_find?_eq_some hfind)

namespace Spares

/-- New names for values do not touch a value that is there already. -/
theorem insertAll (h : Spares base v s m) (hv : ∃ a, base.value? v = some a)
    (hcopied : Copied base s) (huses : t.usesOf v = s.usesOf v) {olds news : List ValueRef}
    (hnews : ∀ w ∈ news, s.value? w = none) : Spares base v t (m.insertAll olds news) := by
  refine ⟨huses.trans h.uses, fun p hp heq => ?_⟩
  rcases Renaming.mem_insertAll hp with hp | hp
  · exact h.names p hp heq
  · obtain ⟨a, ha⟩ := hv
    have hold := hcopied.value? v a ha
    rw [← heq, hnews p.2 (List.of_mem_zip hp).2] at hold
    cases hold

theorem congr (h : Spares base v s m) (huses : t.usesOf v = s.usesOf v) : Spares base v t m :=
  ⟨huses.trans h.uses, h.names⟩

end Spares

/-- Copies of blocks without their operations use nothing. -/
theorem cloneBlockHeaders_spares (hv : ∃ a, base.value? v = some a) {bs : List BlockRef} :
    ∀ {s t : Store} {m m' : Renaming} {bs' : List BlockRef}, Copied base s → Spares base v s m →
      cloneBlockHeaders m bs s = .ok ((bs', m'), t) → Spares base v t m' := by
  induction bs with
  | nil =>
    intro s t m m' bs' _ h hrun
    cases hrun
    exact h
  | cons b bs ih =>
    intro s t m m' bs' hcopied h hrun
    simp only [cloneBlockHeaders, Edit.bind_ok] at hrun
    obtain ⟨⟨b', m₁⟩, s₁, hheader, ⟨bs₁, m₂⟩, s₂, hrest, hresult⟩ := hrun
    cases hresult
    obtain ⟨_, _, hcreate, rfl⟩ := cloneBlockHeader_ok hheader
    have hc := createBlock_ok hcreate
    have huses : s₁.usesOf v = s.usesOf v := by rw [Store.usesOf, hc.uses]; rfl
    exact ih (hc.copied hcopied) (h.insertAll hv hcopied huses fun w hw => (hc.fresh_args hw).1)
      hrest

section Nested

-- the copier of the level below
variable {clone : Renaming → OpRef → Edit (OpRef × Renaming)}
  (hgrows : ∀ s m o, Keeps (Grows s) (clone m o))
  (hclone : ∀ {s t m m' o c}, Copying gone base s m → clone m o s = .ok ((c, m'), t) →
    Copying gone base t m' ∧ base.op? c = none ∧ NewUnder s t (· = c))
  (hspares : ∀ {s t m m' o c}, Copying gone base s m → Spares base v s m → Ignores base v o →
    clone m o s = .ok ((c, m'), t) → Spares base v t m')

include hclone hspares

/-- Operations that ignore the value are copied into a new block without using it. -/
theorem cloneOpsWith_spares {pairs : List (BlockRef × BlockRef)} {target : BlockRef}
    (htarget : base.block? target = none) {os : List OpRef} :
    ∀ {s t : Store} {m m' : Renaming}, (∀ o ∈ os, Ignores base v o) → Copying gone base s m →
      Spares base v s m → cloneOpsWith clone pairs target m os s = .ok (m', t) →
      Spares base v t m' := by
  induction os with
  | nil =>
    intro s t m m' _ _ h hrun
    cases hrun
    exact h
  | cons o os ih =>
    intro s t m m' hos hcopying h hrun
    simp only [cloneOpsWith, Edit.bind_ok] at hrun
    obtain ⟨⟨c, m₁⟩, s₁, hfirst, _, s₂, hretarget, _, s₃, hpush, hrest⟩ := hrun
    obtain ⟨hcopying₁, hnew, _⟩ := hclone hcopying hfirst
    have h₁ := hspares hcopying h (hos o List.mem_cons_self) hfirst
    have hcopying₃ := (hcopying₁.retargetSuccessors hnew hretarget).pushOp hnew htarget hpush
    -- neither redirecting successors nor pushing touches a use
    have huses : s₃.usesOf v = s₁.usesOf v := by
      obtain ⟨_, _, _, rfl⟩ := retargetSuccessors_ok hretarget
      rw [pushOp_eq_insertOp] at hpush
      obtain ⟨_, _, _, _, _, _, _, _, _, _, rfl⟩ := insertOp_ok hpush
      rfl
    exact ih (fun o' ho' => hos o' (List.mem_cons_of_mem o ho')) hcopying₃ (h₁.congr huses) hrest

include hgrows

/-- Blocks whose operations ignore the value are filled without using it. -/
theorem cloneBodiesWith_spares {pairs rest : List (BlockRef × BlockRef)} :
    ∀ {s t : Store} {m m' : Renaming}, (∀ p ∈ rest, base.block? p.2 = none) →
      (∀ p ∈ rest, ∃ bd, base.block? p.1 = some bd ∧ ∀ o ∈ bd.ops, Ignores base v o) →
      Copying gone base s m → Spares base v s m →
      cloneBodiesWith clone pairs m rest s = .ok (m', t) → Spares base v t m' := by
  induction rest with
  | nil =>
    intro s t m m' _ _ _ h hrun
    cases hrun
    exact h
  | cons p rest ih =>
    intro s t m m' hnew hold hcopying h hrun
    obtain ⟨b, b'⟩ := p
    obtain ⟨d, m₁, s₁, hd, hfirst, hrun⟩ := cloneBodiesWith_parts hrun
    -- the block is an old one, so what is read is what it held
    obtain ⟨bd, hbd, hignores⟩ := hold (b, b') List.mem_cons_self
    cases (hcopying.copied.block? b bd hbd).symm.trans hd
    have htarget := hnew (b, b') List.mem_cons_self
    have hcopying₁ := (cloneOpsWith_ok hgrows hclone htarget hcopying hfirst).1
    have h₁ := cloneOpsWith_spares hclone hspares htarget hignores hcopying h hfirst
    exact ih (fun q hq => hnew q (List.mem_cons_of_mem _ hq))
      (fun q hq => hold q (List.mem_cons_of_mem _ hq)) hcopying₁ h₁ hrun

/-- Regions whose operations ignore the value are copied without using it. -/
theorem cloneRegionsWith_spares (hv : ∃ a, base.value? v = some a) (hl : Linked base)
    {rs : List RegionRef} : ∀ {s t : Store} {m m' : Renaming} {rs' : List RegionRef},
      (∀ r ∈ rs, ∃ rd, base.region? r = some rd) → (∀ o, InRegions base rs o → Ignores base v o) →
      Copying gone base s m → Spares base v s m →
      cloneRegionsWith clone m rs s = .ok ((rs', m'), t) → Spares base v t m' := by
  induction rs with
  | nil =>
    intro s t m m' rs' _ _ _ h hrun
    cases hrun
    exact h
  | cons r rs ih =>
    intro s t m m' rs' hold hignores hcopying h hrun
    simp only [cloneRegionsWith, Edit.bind_ok] at hrun
    obtain ⟨⟨r', m₁⟩, s₁, hregion, ⟨rs₁, m₂⟩, s₂, hrest, hresult⟩ := hrun
    cases hresult
    have hcopying₁ := (cloneRegionWith_ok hgrows hclone hcopying hregion).1
    refine ih (fun q hq => hold q (List.mem_cons_of_mem r hq)) (fun o ho => hignores o ?_)
      hcopying₁ ?_ hrest
    · obtain ⟨q, hq, hin⟩ := ho
      exact ⟨q, List.mem_cons_of_mem r hq, hin⟩
    · obtain ⟨rd, hrd⟩ := hold r List.mem_cons_self
      obtain ⟨d, bs', m₃, s₃, s₄, hd, hheaders, hbodies, hcreate⟩ := cloneRegionWith_parts hregion
      cases (hcopying.copied.region? r rd hrd).symm.trans hd
      obtain ⟨hcopying₃, _, hbs⟩ := cloneBlockHeaders_ok hcopying hheaders
      have h₃ := cloneBlockHeaders_spares hv hcopying.copied h hheaders
      have h₄ := cloneBodiesWith_spares hgrows hclone hspares
        (fun p hp => hbs p.2 (List.of_mem_zip hp).2) (fun p hp => ?_) hcopying₃ h₃ hbodies
      · refine h₄.congr ?_
        rw [Store.usesOf, (createRegion_ok hcreate).uses]
        rfl
      · have hb := (List.of_mem_zip hp).1
        obtain ⟨bd, hbd, _⟩ := block?_of_region hl hrd hb
        refine ⟨bd, hbd, fun o ho => hignores o ?_⟩
        exact ⟨r, List.mem_cons_self, rd, hrd, p.1, hb, bd, hbd, ho⟩

end Nested

/-- By induction on the depth, copying an operation that ignores the value spares it. -/
theorem cloneWithin_spares (hv : ∃ a, base.value? v = some a) (hl : Linked base) (n : Nat) :
    ∀ {s t : Store} {m m' : Renaming} {o c : OpRef}, Copying gone base s m → Spares base v s m →
      Ignores base v o → cloneWithin n m o s = .ok ((c, m'), t) → Spares base v t m' := by
  induction n with
  | zero =>
    intro s t m m' o c _ _ _ hrun
    cases hrun
  | succ n ih =>
    intro s t m m' o c hcopying h hignores hrun
    obtain ⟨⟨d, hd⟩, hnot⟩ := hignores
    obtain ⟨d', rs', m₁, s₁, hd', hregions, hcreate, rfl⟩ := cloneWithin_parts hrun
    cases (hcopying.copied.op? o d hd).symm.trans hd'
    have hbelow := fun {s t m m' o c} (h : Copying gone base s m)
      (hrun : cloneWithin n m o s = .ok ((c, m'), t)) => (cloneWithin_ok n h hrun).1
    have hcopying₁ := (cloneRegionsWith_ok (fun s => (Grows.copyStepsKeep s).cloneWithin n) hbelow
      hcopying hregions).1
    have h₁ := cloneRegionsWith_spares (fun s => (Grows.copyStepsKeep s).cloneWithin n) hbelow ih
      hv hl (fun r hr => ?_) (fun x hx => ?_) hcopying h hregions
    · have hc := createOp_ok hcreate
      refine h₁.insertAll hv hcopying₁.copied ?_ fun w hw => (hc.fresh_results hw).1
      -- the operands are renamed, but neither from the value nor to it
      have hnone : operandUses c (d.operands.map m.apply) v = [] := by
        refine List.eq_nil_iff_forall_not_mem.2 fun u hu => ?_
        obtain ⟨w, hw, heq⟩ := List.mem_map.1 (List.mem_of_getElem? (mem_operandUses.1 hu).2)
        refine Renaming.apply_ne h.names (fun hwv => ?_) heq
        exact hnot o d .refl hd (hwv ▸ hw)
      rw [hc.usesOf, hnone, List.append_nil]
    · obtain ⟨rd, hrd, _⟩ := region?_of_op hl hd hr
      exact ⟨rd, hrd⟩
    · have hchild : Child base o x := ⟨d, hd, hx⟩
      exact ⟨hl.op?_of_within ⟨d, hd⟩ (.single hchild),
        fun y e hy he => hnot y e (.head hchild hy) he⟩

/-- A copy leaves alone the uses of what nothing in the operation has as an operand. -/
theorem cloneOp_usesOf {o c : OpRef} (hk : Kept s gone) (hv : ∃ a, s.value? v = some a)
    (ho : Ignores s v o) (h : cloneOp [] o s = .ok ((c, m'), t)) : t.usesOf v = s.usesOf v := by
  rw [cloneOp, Edit.get_bind] at h
  have hcopying : Copying gone s s [] := ⟨.refl s, hk, id, fun p hp => by cases hp⟩
  have hspares : Spares s v s [] := ⟨rfl, fun p hp => by cases hp⟩
  exact (cloneWithin_spares hv hk.linked s.depthBound hcopying hspares ho h).uses

end AffineRaising.IR
