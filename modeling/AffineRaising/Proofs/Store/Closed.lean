/-
# AffineRaising.Proofs.Store.Closed — what a copy names.

A copy renames the values that came into being with it.  An operation is ready to be copied if each
operand in it is from outside, is renamed already, or is offered somewhere inside before it is used
(`Ready`).  Copying goes through blocks and operations in order, so what is offered inside has a new
name by the time it is used.  Hence a copy names values from outside and new ones only, all its
blocks and regions have owners, and all that is defined inside has a new name in the end:
`cloneOp_built`.

This is what a hoisted operation needs: promotion copies an operation whose operands are available
in front of it, and the copy must name nothing that is only available inside the original. `outside`
is the property that operands from elsewhere have; the result is stated with `Built`, the same
relation that the reader of a program establishes for what it builds.
-/
import AffineRaising.Proofs.Resolve.Built
import AffineRaising.Proofs.Store.Mirror
import AffineRaising.Proofs.Store.Sized

namespace AffineRaising.IR

open Store AffineRaising.Analysis
open Edit (Keeps)

variable {gone : OpRef → Prop} {outside : ValueRef → Prop} {base s s₁ t : Store}
  {m m₁ m' : Renaming}

/-! ## Names -/

namespace Renaming

/-- The renaming has a new value for the value. -/
def Knows (m : Renaming) (v : ValueRef) : Prop := ∃ w, (v, w) ∈ m

/-- The value is the new one of some value. -/
def Gives (m : Renaming) (w : ValueRef) : Prop := ∃ v, (v, w) ∈ m

/-- What is from outside or renamed goes to something from outside or to a given name. -/
theorem apply_cases {v : ValueRef} (hv : outside v ∨ m.Knows v) :
    outside (m.apply v) ∨ m.Gives (m.apply v) := by
  unfold Renaming.apply Renaming.get?
  cases hfind : m.find? (fun p => p.1 == v) with
  | none =>
    refine .inl (hv.resolve_right ?_)
    rintro ⟨w, hw⟩
    simpa using List.find?_eq_none.1 hfind (v, w) hw
  | some p => exact .inr ⟨p.1, List.mem_of_find?_eq_some hfind⟩

theorem knows_insert {v old new : ValueRef} (h : v = old ∨ m.Knows v) :
    (m.insert old new).Knows v := by
  unfold Renaming.insert
  split
  · rename_i hany
    by_cases hv : v = old
    · subst hv
      obtain ⟨p, hp, heq⟩ := List.any_eq_true.1 hany
      exact ⟨new, List.mem_map.2 ⟨p, hp, if_pos heq⟩⟩
    · obtain ⟨w, hw⟩ := h.resolve_left hv
      exact ⟨w, List.mem_map.2 ⟨(v, w), hw, if_neg (by simpa using hv)⟩⟩
  · rcases h with rfl | ⟨w, hw⟩
    · exact ⟨new, List.mem_append_right _ (List.mem_singleton_self _)⟩
    · exact ⟨w, List.mem_append_left _ hw⟩

/-- Old values that have a partner become known; what was known stays so. -/
theorem knows_insertAll {olds : List ValueRef} : ∀ {m : Renaming} {news : List ValueRef},
    olds.length ≤ news.length → ∀ {v}, v ∈ olds ∨ m.Knows v → (m.insertAll olds news).Knows v := by
  induction olds with
  | nil => exact fun _ _ hv => hv.resolve_left (by simp)
  | cons old olds ih =>
    intro m news hlength v hv
    cases news with
    | nil => simp at hlength
    | cons new news =>
      refine ih (m := m.insert old new) (by simpa using hlength) ?_
      rcases hv with hv | hv
      · rcases List.mem_cons.1 hv with rfl | hv
        · exact .inr (knows_insert (.inl rfl))
        · exact .inl hv
      · exact .inr (knows_insert (.inr hv))

theorem Knows.insertAll {v : ValueRef} (h : m.Knows v) (olds news : List ValueRef) :
    (m.insertAll olds news).Knows v := by
  unfold Renaming.insertAll
  induction olds.zip news generalizing m with
  | nil => exact h
  | cons p ps ih => exact ih (knows_insert (.inr h))

/-- The renaming was extended by names of values that came into being. -/
structure Extended (s : Store) (m : Renaming) (t : Store) (m' : Renaming) : Prop where
  knows : ∀ v, m.Knows v → m'.Knows v
  gives : ∀ w, m'.Gives w → m.Gives w ∨ Fresh s t w

theorem Extended.refl (s : Store) (m : Renaming) : Extended s m s m :=
  ⟨fun _ h => h, fun _ h => .inl h⟩

theorem Extended.trans (h : Extended s m s₁ m₁) (h' : Extended s₁ m₁ t m') (hs : Settled s s₁)
    (hs' : Settled s₁ t) : Extended s m t m' := by
  refine ⟨fun v hv => h'.knows v (h.knows v hv), fun w hw => ?_⟩
  rcases h'.gives w hw with hw | hw
  · exact (h.gives w hw).imp_right fun hw => hw.later hs'
  · exact .inr (hw.earlier hs)

theorem Extended.insertAll {olds news : List ValueRef} (hnews : ∀ w ∈ news, Fresh s t w) :
    Extended s m t (m.insertAll olds news) := by
  refine ⟨fun v hv => hv.insertAll olds news, fun w ⟨v, hw⟩ => ?_⟩
  rcases Renaming.mem_insertAll hw with hw | hw
  · exact .inl ⟨v, hw⟩
  · exact .inr (hnews w (List.of_mem_zip hw).2)

end Renaming

/-- The values that a copy may name: those from outside, and those that the renaming gives. -/
def Nameable (outside : ValueRef → Prop) (m : Renaming) (w : ValueRef) : Prop :=
  outside w ∨ m.Gives w

/-- What may be named after more names were added may have been named before, or is new. -/
theorem Renaming.Extended.nameable (h : Renaming.Extended s m s₁ m₁) {w : ValueRef}
    (hw : Nameable outside m₁ w) : Nameable outside m w ∨ Fresh s s₁ w := by
  rcases hw with hw | hw
  · exact .inl (.inl hw)
  · exact (h.gives w hw).imp_left .inr

/-! ## Ready to be copied -/

/-- The value is offered to something nested in `o` that is or encloses `x`. -/
def SeenInside (s : Store) (o x : OpRef) (v : ValueRef) : Prop :=
  ∃ a, Relation.TransGen (Child s) o a ∧ Within s a x ∧ Offered s v a

/-- Each operand in the operation is from outside, renamed, or seen inside. -/
def Ready (base : Store) (outside : ValueRef → Prop) (m : Renaming) (o : OpRef) : Prop :=
  ∀ x d v, Within base o x → base.op? x = some d → v ∈ d.operands →
    outside v ∨ m.Knows v ∨ SeenInside base o x v

/-- The same for an operation of a block, which may also be offered operands there. -/
def ReadyInBlock (base : Store) (outside : ValueRef → Prop) (m : Renaming) (o : OpRef) : Prop :=
  ∀ x d v, Within base o x → base.op? x = some d → v ∈ d.operands →
    outside v ∨ m.Knows v ∨ SeenInside base o x v ∨ Offered base v o

/-- More names do no harm. -/
theorem ReadyInBlock.later (h : ReadyInBlock base outside m o) (hm : ∀ v, m.Knows v → m'.Knows v) :
    ReadyInBlock base outside m' o := by
  intro x d v hw hd hv
  exact (h x d v hw hd hv).imp_right (Or.imp_left (hm v))

/-- What is nested in an operation that is ready is ready in its block. -/
theorem Ready.child (hl : Linked base) (hac : Acyclic base) {o z : OpRef}
    (h : Ready base outside m o) (hz : Child base o z) : ReadyInBlock base outside m z := by
  intro x d v hw hd hv
  rcases h x d v (.head hz hw) hd hv with hv | hv | ⟨a, ha, hax, hv⟩
  · exact .inl hv
  · exact .inr (.inl hv)
  · rcases within_or_within hl hax hw with haz | hza
    · rcases Relation.ReflTransGen.cases_tail haz with rfl | ⟨q, haq, hq⟩
      · exact .inr (.inr (.inr hv))
      · -- nothing is between an operation and what is nested directly in it
        cases hq.unique hl hz
        exact absurd (ha.trans_left haq) (hac o)
    · rcases Relation.reflTransGen_iff_eq_or_transGen.1 hza with rfl | hza
      · exact .inr (.inr (.inr hv))
      · exact .inr (.inr (.inl ⟨a, hza, hax, hv⟩))

/-- With names for the arguments of its block and for the results of what is in front of it, an
operation is ready by itself. -/
theorem ReadyInBlock.ready (hl : Linked base) {b : BlockRef} {bd : BlockData}
    (hb : base.block? b = some bd) {front back : List OpRef} {z : OpRef}
    (hsplit : bd.ops = front ++ z :: back) (hargs : ∀ v ∈ bd.args, m.Knows v)
    (hfront : ∀ y ∈ front, ∀ d, base.op? y = some d → ∀ v ∈ d.results, m.Knows v)
    (h : ReadyInBlock base outside m z) : Ready base outside m z := by
  have hz : z ∈ bd.ops := by simp [hsplit]
  intro x d v hw hd hv
  rcases h x d v hw hd hv with hv | hv | hv | hv
  · exact .inl hv
  · exact .inr (.inl hv)
  · exact .inr (.inr hv)
  · refine .inr (.inl ?_)
    rcases hv with ⟨b', k, bd', hv, hb', hz'⟩ | ⟨y, k, hv, b', bd', hb', hpair⟩
    · cases hl.block_unique hb hz hb' hz'
      exact hargs v (List.mem_of_getElem? ((hl.args.mem_iff (by simp [argsIn, hb]) k v).2 hv))
    · cases hl.block_unique hb hz hb' (right_mem_of_pair hpair)
      cases hb.symm.trans hb'
      have hnd := hl.ops_nodup hb
      rw [hsplit] at hnd hpair
      have hy : y ∈ front := mem_front_of_pair hnd hpair
      obtain ⟨dy, hdy, _⟩ := hl.op?_of_mem hb (o := y) (by simp [hsplit, hy])
      exact hfront y hy dy hdy v
        (List.mem_of_getElem? ((hl.results.mem_iff (by simp [resultsIn, hdy]) k v).2 hv))

/-! ## Defined inside -/

/-- A result of the operation or of something in it, or an argument of a block in it. -/
def DefinedIn (s : Store) (o : OpRef) (v : ValueRef) : Prop :=
  ∃ x, Within s o x ∧ ((∃ d, s.op? x = some d ∧ v ∈ d.results) ∨
    ∃ b d, Holds s x b ∧ s.block? b = some d ∧ v ∈ d.args)

/-- An argument of a block of one of the regions, or defined by an operation there. -/
def DefinedInRegions (s : Store) (rs : List RegionRef) (v : ValueRef) : Prop :=
  (∃ r ∈ rs, ∃ rd, s.region? r = some rd ∧
    ∃ b ∈ rd.blocks, ∃ bd, s.block? b = some bd ∧ v ∈ bd.args) ∨
  ∃ z, InRegions s rs z ∧ DefinedIn s z v

theorem definedIn_of_result {o : OpRef} {d : OpData} {v : ValueRef} (hd : s.op? o = some d)
    (hv : v ∈ d.results) : DefinedIn s o v :=
  ⟨o, .refl, .inl ⟨d, hd, hv⟩⟩

/-- A value that is defined in an operation is a result of it or is defined in its regions. -/
theorem DefinedIn.result_or_regions {o : OpRef} {d : OpData} {v : ValueRef} (hd : s.op? o = some d)
    (h : DefinedIn s o v) : v ∈ d.results ∨ DefinedInRegions s d.regions v := by
  obtain ⟨x, hw, hv⟩ := h
  rcases Relation.ReflTransGen.cases_head hw with rfl | ⟨z, ⟨d', hd', hz⟩, hw⟩
  · rcases hv with ⟨d', hd', hv⟩ | ⟨b, bd, ⟨d', hd', r, hr, rd, hrd, hb⟩, hbd, hv⟩
    · cases hd.symm.trans hd'
      exact .inl hv
    · cases hd.symm.trans hd'
      exact .inr (.inl ⟨r, hr, rd, hrd, b, hb, bd, hbd, hv⟩)
  · cases hd.symm.trans hd'
    exact .inr (.inr ⟨z, hz, x, hw, hv⟩)

/-- A value that is defined in some regions is defined in the first one or in the others. -/
theorem DefinedInRegions.head_or_tail {r : RegionRef} {rs : List RegionRef} {v : ValueRef}
    (h : DefinedInRegions s (r :: rs) v) : DefinedInRegions s [r] v ∨ DefinedInRegions s rs v := by
  rcases h with ⟨x, hx, hv⟩ | ⟨z, ⟨x, hx, hz⟩, hv⟩
  · rcases List.mem_cons.1 hx with rfl | hx
    · exact .inl (.inl ⟨x, List.mem_singleton_self x, hv⟩)
    · exact .inr (.inl ⟨x, hx, hv⟩)
  · rcases List.mem_cons.1 hx with rfl | hx
    · exact .inl (.inr ⟨z, ⟨x, List.mem_singleton_self x, hz⟩, hv⟩)
    · exact .inr (.inr ⟨z, ⟨x, hx, hz⟩, hv⟩)

/-! ## Copying builds -/

/-- Redirecting branches builds nothing. -/
theorem Built.retargetSuccessors {pairs : List (BlockRef × BlockRef)} {o : OpRef} {u : Unit}
    (known : ValueRef → Prop) (hrun : retargetSuccessors pairs o s = .ok (u, t)) :
    Built known s t (fun _ => False) [] [] := by
  obtain ⟨d, successors, hd, rfl⟩ := retargetSuccessors_ok hrun
  have hop : ∀ x, s.op? x = none →
      (s.setOp o { d with successors := successors }).op? x = none := by
    intro x hx
    rw [op?_setOp hd, if_neg (by rintro rfl; rw [hd] at hx; cases hx), hx]
  refine ⟨.setOp s hd rfl, .setOp hd rfl rfl, fun x e v hx hnone _ => ?_, fun x e hx hnone => ?_,
    fun r e hr hnone => ?_, fun b e hb hnone => ?_⟩
  · rw [hop x hnone] at hx
    cases hx
  · rw [hop x hnone] at hx
    cases hx
  · exact absurd (hnone.symm.trans hr) (by simp)
  · exact absurd (hnone.symm.trans hb) (by simp)

/-- There is one copy for each block. -/
theorem cloneBlockHeaders_length {bs : List BlockRef} :
    ∀ {s t : Store} {m m' : Renaming} {bs' : List BlockRef},
      cloneBlockHeaders m bs s = .ok ((bs', m'), t) → bs.length = bs'.length := by
  induction bs with
  | nil =>
    intro s t m m' bs' hrun
    cases hrun
    rfl
  | cons b bs ih =>
    intro s t m m' bs' hrun
    simp only [cloneBlockHeaders, Edit.bind_ok] at hrun
    obtain ⟨_, _, _, _, _, hrest, hresult⟩ := hrun
    cases hresult
    rw [List.length_cons, List.length_cons, ih hrest]

variable (outside) in
/-- The arguments of copied blocks have new names. -/
theorem cloneBlockHeaders_built (hsized : Sized base) {bs : List BlockRef} :
    ∀ {s t : Store} {m m' : Renaming} {bs' : List BlockRef},
      (∀ b ∈ bs, ∃ d, base.block? b = some d) → Copied base s →
      cloneBlockHeaders m bs s = .ok ((bs', m'), t) →
      Built (Nameable outside m) s t (fun _ => False) [] bs' ∧ Renaming.Extended s m t m' ∧
        ∀ b ∈ bs, ∀ d, base.block? b = some d → ∀ v ∈ d.args, m'.Knows v := by
  induction bs with
  | nil =>
    intro s t m m' bs' _ _ hrun
    cases hrun
    exact ⟨.refl _ s _, .refl s m, by simp⟩
  | cons b bs ih =>
    intro s t m m' bs' hbs hcopied hrun
    simp only [cloneBlockHeaders, Edit.bind_ok] at hrun
    obtain ⟨⟨b', m₁⟩, s₁, hheader, ⟨bs₁, m₂⟩, s₂, hrest, hresult⟩ := hrun
    cases hresult
    obtain ⟨d, hd, hcreate, rfl⟩ := cloneBlockHeader_ok hheader
    obtain ⟨d', hd'⟩ := hbs b List.mem_cons_self
    cases (hcopied.block? b d' hd').symm.trans hd
    have hc := createBlock_ok hcreate
    have hfirst := Built.createBlock (Nameable outside m) hcreate
    have hnames : Renaming.Extended s m s₁ (m.insertAll (s₁.argsOf b) (s₁.argsOf b')) :=
      .insertAll fun w hw => hc.fresh_args hw
    obtain ⟨hmore, hnames', hknown⟩ :=
      ih (fun x hx => hbs x (List.mem_cons_of_mem b hx)) (hc.copied hcopied) hrest
    refine ⟨?_, hnames.trans hnames' hfirst.settled hmore.settled, fun x hx e he v hv => ?_⟩
    · refine (hfirst.trans hmore fun w hw => hnames.nameable hw).collect ?_ (by simp)
        (fun x hx => .inl hx)
      rintro y (hy | hy)
      · exact hy.elim
      · exact hy.elim
    · rcases List.mem_cons.1 hx with rfl | hx
      · cases hd'.symm.trans he
        refine hnames'.knows v (Renaming.knows_insertAll ?_ (.inl ?_))
        · rw [argsOf_eq ((hc.copied hcopied).block? x d hd'),
            argsOf_eq ((hc.block? b').trans (if_pos rfl)), hsized.args x d hd']
          simp [Store.nextValues]
        · rwa [argsOf_eq ((hc.copied hcopied).block? x d hd')]
      · exact hknown x hx e he v hv

section Nested

-- the copier of the level below
variable {clone : Renaming → OpRef → Edit (OpRef × Renaming)}
  (hgrows : ∀ s m o, Keeps (Grows s) (clone m o))
  (hclone : ∀ {s t m m' o c}, Copying gone base s m → clone m o s = .ok ((c, m'), t) →
    Copying gone base t m' ∧ base.op? c = none ∧ NewUnder s t (· = c))
  (hbuilt : ∀ {s t m m' o c d}, base.op? o = some d → Ready base outside m o →
    Copying gone base s m → clone m o s = .ok ((c, m'), t) →
    Built (Nameable outside m) s t (· = c) [] [] ∧ Renaming.Extended s m t m' ∧
      ∀ v, DefinedIn base o v → m'.Knows v)
  (hl : Linked base)

include hclone hbuilt hl

/-- Operations at the end of a block are copied one by one; what is in front of them has names. -/
theorem cloneOpsWith_built {pairs : List (BlockRef × BlockRef)} {b target : BlockRef}
    {bd : BlockData} (hb : base.block? b = some bd) (htarget : base.block? target = none)
    {os : List OpRef} : ∀ (front : List OpRef) {s t : Store} {m m' : Renaming},
      bd.ops = front ++ os → (∀ v ∈ bd.args, m.Knows v) →
      (∀ y ∈ front, ∀ d, base.op? y = some d → ∀ v ∈ d.results, m.Knows v) →
      (∀ z ∈ os, ReadyInBlock base outside m z) → Copying gone base s m →
      cloneOpsWith clone pairs target m os s = .ok (m', t) →
      Built (Nameable outside m) s t (InBlocks t [target]) [] [] ∧ Renaming.Extended s m t m' ∧
        ∀ z ∈ os, ∀ v, DefinedIn base z v → m'.Knows v := by
  induction os with
  | nil =>
    intro front s t m m' _ _ _ _ _ hrun
    cases hrun
    exact ⟨.refl _ s _, .refl s m, by simp⟩
  | cons o os ih =>
    intro front s t m m' hsplit hargs hfront hready hcopying hrun
    simp only [cloneOpsWith, Edit.bind_ok] at hrun
    obtain ⟨⟨c, m₁⟩, s₁, hfirst, _, s₂, hretarget, _, s₃, hpush, hrest⟩ := hrun
    obtain ⟨hcopying₁, hnew, _⟩ := hclone hcopying hfirst
    have hcopying₃ := (hcopying₁.retargetSuccessors hnew hretarget).pushOp hnew htarget hpush
    obtain ⟨d, hd, _⟩ := hl.op?_of_mem hb (o := o) (by simp [hsplit])
    have hself := (hready o List.mem_cons_self).ready hl hb hsplit hargs hfront
    obtain ⟨hcopy, hnames, hknown⟩ := hbuilt hd hself hcopying hfirst
    have hset := Built.retargetSuccessors (Nameable outside m) hretarget
    have hpushed := Built.pushOp (Nameable outside m) hpush
    have hput := (hcopy.trans hset fun w hw => .inl hw).trans hpushed fun w hw => .inl hw
    have hnames₃ : Renaming.Extended s m s₃ m₁ := ⟨hnames.knows, fun w hw =>
      (hnames.gives w hw).imp_right fun hw => (hw.later hset.settled).later hpushed.settled⟩
    obtain ⟨hmore, hnames', hknown'⟩ := ih (front ++ [o]) (by simp [hsplit])
      (fun v hv => hnames.knows v (hargs v hv)) (fun y hy e he v hv => by
        rcases List.mem_append.1 hy with hy | hy
        · exact hnames.knows v (hfront y hy e he v hv)
        · cases List.mem_singleton.1 hy
          exact hknown v (definedIn_of_result he hv))
      (fun z hz => (hready z (List.mem_cons_of_mem o hz)).later hnames.knows) hcopying₃ hrest
    refine ⟨(hput.trans hmore fun w hw => hnames₃.nameable hw).collect ?_ (by simp) (by simp),
      hnames₃.trans hnames' hput.settled hmore.settled, fun z hz v hv => ?_⟩
    · rintro y (((rfl | hy) | hy) | hy)
      · obtain ⟨_, _, _, _, _, hlast⟩ := pushOp_ok hpush
        exact ⟨y, hmore.grows.nests.inBlocks ⟨target, by simp, _, hlast, by simp⟩, .refl⟩
      · exact hy.elim
      · exact hy.elim
      · exact ⟨y, hy, .refl⟩
    · rcases List.mem_cons.1 hz with rfl | hz
      · exact hnames'.knows v (hknown v hv)
      · exact hknown' z hz v hv

include hgrows

/-- Blocks are filled one by one; what is defined in them has new names. -/
theorem cloneBodiesWith_built {pairs rest : List (BlockRef × BlockRef)} :
    ∀ {s t : Store} {m m' : Renaming}, (∀ p ∈ rest, base.block? p.2 = none ∧
        ∃ bd, base.block? p.1 = some bd ∧ (∀ v ∈ bd.args, m.Knows v) ∧
          ∀ z ∈ bd.ops, ReadyInBlock base outside m z) →
      Copying gone base s m → cloneBodiesWith clone pairs m rest s = .ok (m', t) →
      Built (Nameable outside m) s t (InBlocks t (rest.map Prod.snd)) [] [] ∧
        Renaming.Extended s m t m' ∧ ∀ p ∈ rest, ∀ bd, base.block? p.1 = some bd →
          ∀ z ∈ bd.ops, ∀ v, DefinedIn base z v → m'.Knows v := by
  induction rest with
  | nil =>
    intro s t m m' _ _ hrun
    cases hrun
    exact ⟨.refl _ s _, .refl s m, by simp⟩
  | cons p rest ih =>
    intro s t m m' hpairs hcopying hrun
    obtain ⟨b, b'⟩ := p
    obtain ⟨htarget, bd, hbd, hargs, hready⟩ := hpairs (b, b') List.mem_cons_self
    obtain ⟨d, m₁, s₁, hd, hfirst, hrun⟩ := cloneBodiesWith_parts hrun
    cases (hcopying.copied.block? b bd hbd).symm.trans hd
    have hcopying₁ := (cloneOpsWith_ok hgrows hclone htarget hcopying hfirst).1
    obtain ⟨hbody, hnames, hknown⟩ := cloneOpsWith_built hclone hbuilt hl hbd htarget []
      rfl hargs (by simp) hready hcopying hfirst
    obtain ⟨hmore, hnames', hknown'⟩ := ih (fun q hq => by
      obtain ⟨htarget', bd', hbd', hargs', hready'⟩ := hpairs q (List.mem_cons_of_mem _ hq)
      exact ⟨htarget', bd', hbd', fun v hv => hnames.knows v (hargs' v hv),
        fun z hz => (hready' z hz).later hnames.knows⟩) hcopying₁ hrun
    refine ⟨(hbody.trans hmore fun w hw => hnames.nameable hw).collect ?_ (by simp) (by simp),
      hnames.trans hnames' hbody.settled hmore.settled, fun q hq qd hqd z hz v hv => ?_⟩
    · rintro y (hy | hy)
      · exact ⟨y, (hmore.grows.nests.inBlocks hy).head, .refl⟩
      · exact ⟨y, hy.tail, .refl⟩
    · rcases List.mem_cons.1 hq with rfl | hq
      · cases hbd.symm.trans hqd
        exact hnames'.knows v (hknown z hz v hv)
      · exact hknown' q hq qd hqd z hz v hv

/-- A region is copied with an owner to come, and what is defined in it has new names. -/
theorem cloneRegionWith_built (hsized : Sized base) {r r' : RegionRef} {rd : RegionData}
    (hr : base.region? r = some rd)
    (hready : ∀ z, InRegions base [r] z → ReadyInBlock base outside m z)
    (hcopying : Copying gone base s m) (hrun : cloneRegionWith clone m r s = .ok ((r', m'), t)) :
    Built (Nameable outside m) s t (InRegions t [r']) [r'] [] ∧ Renaming.Extended s m t m' ∧
      ∀ v, DefinedInRegions base [r] v → m'.Knows v := by
  obtain ⟨d, bs', m₁, s₁, s₂, hd, hheaders, hbodies, hcreate⟩ := cloneRegionWith_parts hrun
  cases (hcopying.copied.region? r rd hr).symm.trans hd
  have hbs : ∀ b ∈ rd.blocks, ∃ bd, base.block? b = some bd := fun b hb => by
    obtain ⟨bd, hbd, _⟩ := block?_of_region hl hr hb
    exact ⟨bd, hbd⟩
  obtain ⟨hcopying₁, _, hnew⟩ := cloneBlockHeaders_ok hcopying hheaders
  obtain ⟨hblocks, hnames, hargs⟩ :=
    cloneBlockHeaders_built outside hsized hbs hcopying.copied hheaders
  have hlength : rd.blocks.length = bs'.length := cloneBlockHeaders_length hheaders
  obtain ⟨hops, hnames', hknown⟩ := cloneBodiesWith_built hgrows hclone hbuilt hl (fun p hp => by
    obtain ⟨hb, hb'⟩ := List.of_mem_zip hp
    obtain ⟨bd, hbd⟩ := hbs p.1 hb
    refine ⟨hnew p.2 hb', bd, hbd, hargs p.1 hb bd hbd, fun z hz => ?_⟩
    exact (hready z ⟨r, by simp, rd, hr, p.1, hb, bd, hbd, hz⟩).later hnames.knows)
      hcopying₁ hbodies
  have hregion := Built.createRegion (Nameable outside m) hcreate
  have hc := createRegion_ok hcreate
  have hbuiltOps := hblocks.trans hops fun w hw => hnames.nameable hw
  refine ⟨(hbuiltOps.trans hregion fun w hw => .inl hw).collect ?_ ?_ ?_, ?_, ?_⟩
  · rintro y ((hy | ⟨b, hb, hin⟩) | hy)
    · exact hy.elim
    · obtain ⟨p, hp, rfl⟩ := List.mem_map.1 hb
      exact ⟨y, ⟨r', by simp, ⟨bs', none⟩, by rw [hc.region?, if_pos rfl],
        hregion.grows.nests.inBlocks ⟨p.2, (List.of_mem_zip hp).2, hin⟩⟩, .refl⟩
    · exact hy.elim
  · intro x hx
    exact .inl (by simpa using hx)
  · intro b hb
    have hb : b ∈ bs' := by simpa using hb
    refine .inr fun d hd => ?_
    rw [hc.block?, if_pos hb] at hd
    obtain ⟨_, _, rfl⟩ := Option.map_eq_some_iff.1 hd
    simp
  · have hboth := hnames.trans hnames' hblocks.settled hops.settled
    exact ⟨hboth.knows, fun w hw => (hboth.gives w hw).imp_right fun hw => hw.later hregion.settled⟩
  · rintro v (⟨x, hx, xd, hxd, b, hb, bd, hbd, hv⟩ | ⟨z, ⟨x, hx, xd, hxd, b, hb, bd, hbd, hz⟩, hv⟩)
    · cases List.mem_singleton.1 hx
      cases hr.symm.trans hxd
      exact hnames'.knows v (hargs b hb bd hbd v hv)
    · cases List.mem_singleton.1 hx
      cases hr.symm.trans hxd
      have hfst : (rd.blocks.zip bs').map Prod.fst = rd.blocks :=
        List.map_fst_zip (Nat.le_of_eq hlength)
      rw [← hfst] at hb
      obtain ⟨p, hp, rfl⟩ := List.mem_map.1 hb
      exact hknown p hp bd hbd z hz v hv

/-- Regions are copied one by one, and what is defined in them has new names. -/
theorem cloneRegionsWith_built (hsized : Sized base) {rs : List RegionRef} :
    ∀ {s t : Store} {m m' : Renaming} {rs' : List RegionRef},
      (∀ r ∈ rs, ∃ d, base.region? r = some d) →
      (∀ z, InRegions base rs z → ReadyInBlock base outside m z) → Copying gone base s m →
      cloneRegionsWith clone m rs s = .ok ((rs', m'), t) →
      Built (Nameable outside m) s t (InRegions t rs') rs' [] ∧ Renaming.Extended s m t m' ∧
        ∀ v, DefinedInRegions base rs v → m'.Knows v := by
  induction rs with
  | nil =>
    intro s t m m' rs' _ _ _ hrun
    cases hrun
    exact ⟨.refl _ s _, .refl s m, fun v hv => by simp [DefinedInRegions, InRegions] at hv⟩
  | cons r rs ih =>
    intro s t m m' rs' hrs hready hcopying hrun
    simp only [cloneRegionsWith, Edit.bind_ok] at hrun
    obtain ⟨⟨r', m₁⟩, s₁, hfirst, ⟨rs₁, m₂⟩, s₂, hrest, hresult⟩ := hrun
    cases hresult
    obtain ⟨rd, hrd⟩ := hrs r List.mem_cons_self
    have hone : ∀ z, InRegions base [r] z → ReadyInBlock base outside m z :=
      fun z hz => hready z hz.head
    obtain ⟨hregion, hnames, hknown⟩ :=
      cloneRegionWith_built hgrows hclone hbuilt hl hsized hrd hone hcopying hfirst
    have hlater : ∀ z, InRegions base rs z → ReadyInBlock base outside m₁ z :=
      fun z hz => (hready z hz.tail).later hnames.knows
    have hcopying₁ := (cloneRegionWith_ok hgrows hclone hcopying hfirst).1
    obtain ⟨hmore, hnames', hknown'⟩ :=
      ih (fun x hx => hrs x (List.mem_cons_of_mem r hx)) hlater hcopying₁ hrest
    refine ⟨(hregion.trans hmore fun w hw => hnames.nameable hw).collect ?_ (fun x hx => .inl hx)
      (by simp), hnames.trans hnames' hregion.settled hmore.settled, fun v hv => ?_⟩
    · rintro y (hy | hy)
      · exact ⟨y, (hmore.grows.nests.inRegions hy).head, .refl⟩
      · exact ⟨y, hy.tail, .refl⟩
    · rcases hv.head_or_tail with hv | hv
      · exact hnames'.knows v (hknown v hv)
      · exact hknown' v hv

end Nested

/-- By induction on the depth, a copy names values from outside and new ones. -/
theorem cloneWithin_built (hl : Linked base) (hac : Acyclic base) (hsized : Sized base) (n : Nat) :
    ∀ {s t : Store} {m m' : Renaming} {o c : OpRef} {d : OpData}, base.op? o = some d →
      Ready base outside m o → Copying gone base s m → cloneWithin n m o s = .ok ((c, m'), t) →
      Built (Nameable outside m) s t (· = c) [] [] ∧ Renaming.Extended s m t m' ∧
        ∀ v, DefinedIn base o v → m'.Knows v := by
  induction n with
  | zero =>
    intro s t m m' o c d _ _ _ hrun
    cases hrun
  | succ n ih =>
    intro s t m m' o c d hd hready hcopying hrun
    obtain ⟨d', rs', m₁, s₁, hd', hregions, hcreate, rfl⟩ := cloneWithin_parts hrun
    cases (hcopying.copied.op? o d hd).symm.trans hd'
    have hrs : ∀ r ∈ d.regions, ∃ rd, base.region? r = some rd := fun r hr => by
      obtain ⟨rd, hrd, _⟩ := region?_of_op hl hd hr
      exact ⟨rd, hrd⟩
    have hgrows := fun s => (Grows.copyStepsKeep s).cloneWithin n
    have hbelow := fun {s t m m' o c} (h : Copying gone base s m)
      (hrun : cloneWithin n m o s = .ok ((c, m'), t)) => (cloneWithin_ok n h hrun).1
    obtain ⟨hnested, hnames, hknown⟩ := cloneRegionsWith_built hgrows hbelow ih hl hsized hrs
      (fun z hz => hready.child hl hac ⟨d, hd, hz⟩) hcopying hregions
    -- nothing inside is offered to the operation itself
    have hoperands : ∀ w ∈ d.operands.map m.apply, Nameable outside m w := by
      intro w hw
      obtain ⟨v, hv, rfl⟩ := List.mem_map.1 hw
      refine Renaming.apply_cases ?_
      rcases hready o d v .refl hd hv with hv | hv | ⟨a, ha, hao, _⟩
      · exact .inl hv
      · exact .inr hv
      · exact absurd (ha.trans_left hao) (hac o)
    have hop : Built (Nameable outside m) s₁ t (· = c) [] [] := .createOp hoperands hcreate
    have hc := createOp_ok hcreate
    have hnames' : Renaming.Extended s₁ m₁ t (m₁.insertAll (t.resultsOf o) (t.resultsOf c)) :=
      .insertAll fun w hw => hc.fresh_results hw
    refine ⟨(hnested.trans hop fun w hw => .inl hw).collect ?_ ?_ (by simp),
      hnames.trans hnames' hnested.settled hop.settled, fun v hv => ?_⟩
    · rintro y (hy | rfl)
      · exact ⟨c, rfl, .single ⟨_, (hc.op? c).trans (if_pos rfl), hop.grows.nests.inRegions hy⟩⟩
      · exact ⟨y, rfl, .refl⟩
    · intro r hr
      rw [List.append_nil] at hr
      refine .inr fun e he => ?_
      rw [hc.region?, if_pos hr] at he
      obtain ⟨_, _, rfl⟩ := Option.map_eq_some_iff.1 he
      simp
    · have hcopying₁ := (cloneRegionsWith_ok hgrows hbelow hcopying hregions).1
      obtain ⟨e, he, _, hresults⟩ := hop.settled.op? o d (hcopying₁.copied.op? o d hd)
      refine Renaming.knows_insertAll ?_ ?_
      · rw [resultsOf_eq he, hresults, hsized.results o d hd,
          resultsOf_eq ((hc.op? c).trans (if_pos rfl))]
        simp [OpSpec.entry, Store.nextValues]
      · rw [resultsOf_eq he, hresults]
        exact (hv.result_or_regions hd).imp_right (hknown v)

/-- A copy names values from outside and new ones, all that is new has an owner, and the renaming
takes what is defined inside to new values. -/
theorem cloneOp_built {o c : OpRef} {d : OpData} (hk : Kept s gone) (hac : Acyclic s)
    (hsized : Sized s) (hd : s.op? o = some d) (hready : Ready s outside [] o)
    (hrun : cloneOp [] o s = .ok ((c, m'), t)) :
    Built outside s t (· = c) [] [] ∧ (∀ v, DefinedIn s o v → m'.Knows v) ∧
      ∀ w, m'.Gives w → Fresh s t w := by
  rw [cloneOp, Edit.get_bind] at hrun
  obtain ⟨hbuilt, hnames, hknown⟩ := cloneWithin_built hk.linked hac hsized s.depthBound hd hready
    ⟨.refl s, hk, id, fun p hp => by cases hp⟩ hrun
  -- nothing was renamed before
  have hnone : ∀ w, ¬ Renaming.Gives [] w := by
    rintro w ⟨v, hv⟩
    cases hv
  refine ⟨⟨hbuilt.grows, hbuilt.settled, fun x e w hx hnew hw => ?_, hbuilt.ops, hbuilt.regions,
    hbuilt.blocks⟩, hknown, fun w hw => (hnames.gives w hw).resolve_left (hnone w)⟩
  exact (hbuilt.operands x e w hx hnew hw).imp_left fun hw => hw.resolve_right (hnone w)

end AffineRaising.IR
