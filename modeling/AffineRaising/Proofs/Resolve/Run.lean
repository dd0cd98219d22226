/-
# AffineRaising.Proofs.Resolve.Run — runs that build a store from a tree.

One lemma for each way in which building is put together, and one for each part of a tree that says
which runs its building is made of.  Building uses the edits that copying uses, so what these keep,
building keeps: `CopyStepsKeep.buildOp`.

Building a tree can fail in two ways: a name may be missing, which is an error of the text
(`ScopeError`), or an edit may fault.  The lemmas take runs that come to a value apart, one for each
constructor of trees; they leave out what later proofs never ask for, such as the attributes.

A scope is only ever asked which values it binds (`Scope.Binds`): names may hide each other, so of
the scope after a binding one knows what it binds at most.
-/
import AffineRaising.IR.Resolve
import AffineRaising.Proofs.Store.Clone

namespace AffineRaising.IR

open AffineRaising.Surface (TypedName)

variable {α β ε : Type} {s t : Store}

/-! ## Runs -/

namespace Build

/-- A run of two parts is a run of the first one and then of the second one. -/
@[simp] theorem bind_ok {x : ExceptT ε Edit α} {f : α → ExceptT ε Edit β} {b : β} :
    (x >>= f) s = .ok (.ok b, t) ↔ ∃ a s', x s = .ok (.ok a, s') ∧ f a s' = .ok (.ok b, t) := by
  show @bind Edit _ _ _ x (ExceptT.bindCont f) s = .ok (.ok b, t) ↔ _
  rw [Edit.bind_ok]
  constructor
  · rintro ⟨r, s', h, h'⟩
    cases r with
    | error e => cases h'
    | ok a => exact ⟨a, s', h, h'⟩
  · rintro ⟨a, s', h, h'⟩
    exact ⟨.ok a, s', h, h'⟩

@[simp] theorem pure_ok {a b : α} :
    (pure a : ExceptT ε Edit α) s = .ok (.ok b, t) ↔ a = b ∧ s = t := by
  show (.ok (.ok a, s) : Except Fault (Except ε α × Store)) = .ok (.ok b, t) ↔ _
  simp

@[simp] theorem throw_ne_ok {e : ε} {b : α} :
    (throw e : ExceptT ε Edit α) s ≠ .ok (.ok b, t) := by
  intro h
  cases h

/-- An edit runs on the store alone. -/
theorem lift_ok {e : Edit α} {a : α} :
    (ExceptT.lift e : ExceptT ε Edit α) s = .ok (.ok a, t) ↔ e s = .ok (a, t) := by
  show (Except.ok <$> e) s = .ok (.ok a, t) ↔ _
  simp

@[simp] theorem edit_ok {e : Edit α} {a : α} :
    edit e s = .ok (.ok a, t) ↔ e s = .ok (a, t) := lift_ok

@[simp high] theorem get_bind {f : Store → Build β} : ((get : Build Store) >>= f) s = f s s := rfl

@[simp high] theorem throw_bind {e : ScopeError} {f : α → Build β} :
    ((throw e : Build α) >>= f) s = .ok (.error e, s) := rfl

@[simp] theorem ite_run {c : Prop} [Decidable c] {x y : Build α} :
    (if c then x else y) s = if c then x s else y s := by
  split <;> rfl

/-- Every run of the building that comes to an end keeps `P`. -/
def Keeps (P : Store → Prop) (x : Build α) : Prop :=
  ∀ s a t, P s → x s = .ok (.ok a, t) → P t

theorem Keeps.pure {P : Store → Prop} (a : α) : Keeps P (pure a) := by
  intro s b t hs h
  exact (pure_ok.1 h).2 ▸ hs

end Build

/-! ## Names -/

/-- The scope has the value under some name, which may be hidden by a later one. -/
def Scope.Binds (scope : Scope) (v : ValueRef) : Prop :=
  v ∈ scope.values.map Prod.snd

variable {scope scope' : Scope} {v : ValueRef}

/-- A value that is found under a name is bound. -/
theorem Scope.binds_of_value? {name : String} (h : scope.value? name = some v) :
    scope.Binds v := by
  obtain ⟨front, back, hsplit, _⟩ := List.lookup_eq_some_iff.1 h
  exact List.mem_map.2 ⟨(name, v), by simp [hsplit], rfl⟩

@[simp] theorem Scope.not_binds_empty : ¬ Scope.empty.Binds v := by
  simp [Scope.Binds, Scope.empty]

@[simp] theorem Scope.binds_bindValue {name : String} {w : ValueRef} :
    (scope.bindValue name w).Binds v ↔ v = w ∨ scope.Binds v := by
  simp [Scope.Binds, Scope.bindValue]

@[simp] theorem Scope.binds_bindBlock {label : String} {b : BlockRef} :
    (scope.bindBlock label b).Binds v ↔ scope.Binds v := Iff.rfl

/-- After the arguments of a block were bound, the names are those from before and the arguments. -/
theorem Scope.binds_foldl {args : List (TypedName × ValueRef)} :
    ∀ {scope : Scope}, (args.foldl (fun sc p => sc.bindValue p.1.name p.2) scope).Binds v →
      scope.Binds v ∨ v ∈ args.map Prod.snd := by
  induction args with
  | nil =>
    intro scope h
    exact .inl h
  | cons p args ih =>
    intro scope h
    rw [List.map_cons, List.mem_cons]
    rcases ih h with h | h
    · rcases Scope.binds_bindValue.1 h with h | h
      · exact .inr (.inl h)
      · exact .inl h
    · exact .inr (.inr h)

/-- Looking names up changes nothing and finds only what the lookup knows. -/
theorem lookUpAll_ok {lookup : String → Option α} {missing : String → ScopeError}
    {names : List String} : ∀ {found : List α},
      lookUpAll lookup missing names s = .ok (.ok found, t) →
      s = t ∧ ∀ a ∈ found, ∃ name, lookup name = some a := by
  induction names with
  | nil =>
    intro found h
    obtain ⟨rfl, rfl⟩ := Build.pure_ok.1 h
    exact ⟨rfl, by simp⟩
  | cons name names ih =>
    intro found h
    rw [lookUpAll] at h
    cases hname : lookup name with
    | none => simp [hname] at h
    | some a =>
      simp only [hname, Build.bind_ok, Build.pure_ok] at h
      obtain ⟨as, s', hrest, rfl, rfl⟩ := h
      obtain ⟨rfl, hfound⟩ := ih hrest
      refine ⟨rfl, fun x hx => ?_⟩
      rcases List.mem_cons.1 hx with rfl | hx
      · exact ⟨name, hname⟩
      · exact hfound x hx

/-- Binding results changes nothing and binds only results. -/
theorem bindResults_ok {op : OpName} {results : List (String × ValueRef)} :
    ∀ {scope : Scope} {i : Nat}, bindResults op scope i results s = .ok (.ok scope', t) →
      s = t ∧ ∀ v, scope'.Binds v → scope.Binds v ∨ v ∈ results.map Prod.snd := by
  induction results with
  | nil =>
    intro scope i h
    obtain ⟨rfl, rfl⟩ := Build.pure_ok.1 h
    exact ⟨rfl, fun v hv => .inl hv⟩
  | cons p results ih =>
    intro scope i h
    obtain ⟨name, w⟩ := p
    rw [bindResults] at h
    split at h
    · simp at h
    · obtain ⟨rfl, hbinds⟩ := ih h
      refine ⟨rfl, fun v hv => ?_⟩
      rcases hbinds v hv with hv | hv
      · rcases Scope.binds_bindValue.1 hv with rfl | hv
        · exact .inr (by simp)
        · exact .inl hv
      · exact .inr (List.mem_cons_of_mem _ hv)

/-! ## The parts of a tree -/

/-- The header of a block creates the block and binds its arguments. -/
theorem buildHeader_ok {label : String} {args : List TypedName} {b : BlockRef}
    (h : buildHeader scope label args s = .ok (.ok (b, scope'), t)) :
    createBlock (args.map (·.ty)) s = .ok (b, t) ∧
      ∀ v, scope'.Binds v → scope.Binds v ∨ v ∈ t.argsOf b := by
  rw [buildHeader] at h
  cases hrep : firstRepeated [] 0 (args.map (·.name)) with
  | some p => simp [hrep] at h
  | none =>
    simp only [hrep] at h
    rw [Build.bind_ok] at h
    obtain ⟨b', s', hcreate, h⟩ := h
    rw [Build.edit_ok] at hcreate
    rw [Build.get_bind] at h
    obtain ⟨hpair, rfl⟩ := Build.pure_ok.1 h
    cases hpair
    refine ⟨hcreate, fun v hv => ?_⟩
    rcases Scope.binds_foldl hv with hv | hv
    · exact .inl hv
    · obtain ⟨p, hp, rfl⟩ := List.mem_map.1 hv
      exact .inr (List.of_mem_zip hp).2

/-- Headers are built one by one; the first block has the arguments of its region. -/
theorem buildHeaders_cons_ok {entry : List TypedName} {seen : List String} {label : String}
    {args : List TypedName} {ops : List Surface.Op} {rest : List Surface.Block}
    {bs : List BlockRef}
    (h : buildHeaders entry seen scope (.mk label args ops :: rest) s =
      .ok (.ok (bs, scope'), t)) :
    ∃ args' b scope₁ s₁ bs₁, buildHeader scope label args' s = .ok (.ok (b, scope₁), s₁) ∧
      buildHeaders [] (label :: seen) scope₁ rest s₁ = .ok (.ok (bs₁, scope'), t) ∧
      bs = b :: bs₁ := by
  rw [buildHeaders] at h
  simp only [Build.ite_run, Build.throw_bind] at h
  by_cases hseen : seen.contains label = true
  · rw [if_pos hseen] at h
    cases h
  · rw [if_neg hseen] at h
    by_cases hentry : (!args.isEmpty && !entry.isEmpty && args.length != entry.length) = true
    · rw [if_pos hentry] at h
      cases h
    · rw [if_neg hentry] at h
      simp only [Build.bind_ok, Build.pure_ok] at h
      obtain ⟨⟨b, scope₁⟩, s₁, hheader, ⟨bs₁, scope₂⟩, s₂, hrest, hpair, rfl⟩ := h
      cases hpair
      exact ⟨_, b, scope₁, s₁, bs₁, hheader, hrest, rfl⟩

/-- An operation is created behind its regions, over operands that are bound, and its results are
bound behind it. -/
theorem buildOp_ok {head : Surface.OpHead} {regions : List Surface.Region} {op : OpRef}
    (h : buildOp scope (.mk head regions) s = .ok (.ok (op, scope'), t)) :
    ∃ spec s₁, buildRegions scope head.params regions s = .ok (.ok spec.regions, s₁) ∧
      (∀ v ∈ spec.operands, scope.Binds v) ∧ createOp spec s₁ = .ok (op, t) ∧
      ∀ v, scope'.Binds v → scope.Binds v ∨ v ∈ t.resultsOf op := by
  rw [buildOp, Build.bind_ok] at h
  obtain ⟨operands, s₀, hoperands, h⟩ := h
  obtain ⟨rfl, hfound⟩ := lookUpAll_ok hoperands
  dsimp only at h
  rw [Build.ite_run] at h
  split at h
  · simp at h
  · rw [Build.bind_ok] at h
    obtain ⟨successors, s₀', hsuccessors, h⟩ := h
    obtain ⟨rfl, _⟩ := lookUpAll_ok hsuccessors
    rw [Build.bind_ok] at h
    obtain ⟨rs, s₁, hregions, h⟩ := h
    rw [Build.bind_ok] at h
    obtain ⟨op', s₂, hcreate, h⟩ := h
    rw [Build.edit_ok] at hcreate
    rw [Build.get_bind] at h
    simp only [Build.bind_ok, Build.pure_ok] at h
    obtain ⟨scope₁, s₃, hbind, hpair, rfl⟩ := h
    cases hpair
    obtain ⟨rfl, hbinds⟩ := bindResults_ok hbind
    refine ⟨_, s₁, hregions, fun v hv => ?_, hcreate, fun v hv => ?_⟩
    · obtain ⟨name, hname⟩ := hfound v hv
      exact Scope.binds_of_value? hname
    · rcases hbinds v hv with hv | hv
      · exact .inl hv
      · obtain ⟨p, hp, rfl⟩ := List.mem_map.1 hv
        exact .inr (List.of_mem_zip hp).2

/-- Regions are built one by one; only the first one has the parameters of the operation. -/
theorem buildRegions_cons_ok {entry : List TypedName} {r : Surface.Region}
    {rest : List Surface.Region} {rs : List RegionRef}
    (h : buildRegions scope entry (r :: rest) s = .ok (.ok rs, t)) :
    ∃ r' s₁ rs₁, buildRegion scope entry r s = .ok (.ok r', s₁) ∧
      buildRegions scope [] rest s₁ = .ok (.ok rs₁, t) ∧ rs = r' :: rs₁ := by
  rw [buildRegions] at h
  simp only [Build.bind_ok, Build.pure_ok] at h
  obtain ⟨r', s₁, hfirst, rs₁, s₂, hrest, rfl, rfl⟩ := h
  exact ⟨r', s₁, rs₁, hfirst, hrest, rfl⟩

/-- The headers of all blocks are built in front of the bodies, so that branches find their labels.
-/
theorem buildRegion_ok {entry : List TypedName} {blocks : List Surface.Block} {r : RegionRef}
    (h : buildRegion scope entry (.mk blocks) s = .ok (.ok r, t)) :
    ∃ bs scope₁ s₁ s₂, buildHeaders entry [] scope blocks s = .ok (.ok (bs, scope₁), s₁) ∧
      buildBodies scope₁ bs blocks s₁ = .ok (.ok (), s₂) ∧ createRegion bs s₂ = .ok (r, t) := by
  rw [buildRegion] at h
  simp only [Build.bind_ok, Build.edit_ok] at h
  obtain ⟨⟨bs, scope₁⟩, s₁, hheaders, _, s₂, hbodies, hcreate⟩ := h
  exact ⟨bs, scope₁, s₁, s₂, hheaders, hbodies, hcreate⟩

/-- Bodies are built one by one, each in the scope that the former ones left. -/
theorem buildBodies_cons_ok {b : Surface.Block} {rest : List Surface.Block} {ref : BlockRef}
    {refs : List BlockRef} {u : Unit}
    (h : buildBodies scope (ref :: refs) (b :: rest) s = .ok (.ok u, t)) :
    ∃ scope₁ s₁, buildBody scope ref b s = .ok (.ok scope₁, s₁) ∧
      buildBodies scope₁ refs rest s₁ = .ok (.ok u, t) := by
  rw [buildBodies] at h
  exact Build.bind_ok.1 h

/-- Operations are built and pushed into their block one by one. -/
theorem buildOps_cons_ok {b : BlockRef} {o : Surface.Op} {rest : List Surface.Op}
    (h : buildOps scope b (o :: rest) s = .ok (.ok scope', t)) :
    ∃ op scope₁ s₁ s₂, buildOp scope o s = .ok (.ok (op, scope₁), s₁) ∧
      pushOp b op s₁ = .ok ((), s₂) ∧ buildOps scope₁ b rest s₂ = .ok (.ok scope', t) := by
  rw [buildOps] at h
  simp only [Build.bind_ok, Build.edit_ok] at h
  obtain ⟨⟨op, scope₁⟩, s₁, hop, _, s₂, hpush, hrest⟩ := h
  exact ⟨op, scope₁, s₁, s₂, hop, hpush, hrest⟩

/-! ## What building keeps -/

namespace CopyStepsKeep

variable {P : Store → Prop}

/-- Headers create blocks and nothing else. -/
theorem buildHeaders (h : CopyStepsKeep P) (blocks : List Surface.Block) :
    ∀ (entry : List TypedName) (seen : List String) (scope : Scope),
      Build.Keeps P (buildHeaders entry seen scope blocks) := by
  induction blocks with
  | nil =>
    intro entry seen scope
    exact .pure _
  | cons b blocks ih =>
    intro entry seen scope s a t hs hrun
    obtain ⟨label, args, ops⟩ := b
    obtain ⟨bs, scope'⟩ := a
    obtain ⟨args', b, scope₁, s₁, bs₁, hheader, hrest, _⟩ := buildHeaders_cons_ok hrun
    exact ih [] _ scope₁ s₁ _ t (h.createBlock _ s b s₁ hs (buildHeader_ok hheader).1) hrest

mutual

/-- What the edits of copying keep, building an operation keeps. -/
theorem buildOp (h : CopyStepsKeep P) :
    ∀ (o : Surface.Op) (scope : Scope), Build.Keeps P (buildOp scope o)
  | .mk head regions, scope => by
    intro s a t hs hrun
    obtain ⟨spec, s₁, hregions, _, hcreate, _⟩ := buildOp_ok hrun
    exact h.createOp spec s₁ a.1 t (buildRegions h regions scope _ s _ s₁ hs hregions) hcreate

theorem buildRegions (h : CopyStepsKeep P) :
    ∀ (rs : List Surface.Region) (scope : Scope) (entry : List TypedName),
      Build.Keeps P (buildRegions scope entry rs)
  | [], scope, entry => by
    rw [IR.buildRegions]
    exact .pure _
  | r :: rest, scope, entry => by
    intro s a t hs hrun
    obtain ⟨r', s₁, rs₁, hfirst, hrest, _⟩ := buildRegions_cons_ok hrun
    have hs₁ := buildRegion h r scope entry s r' s₁ hs hfirst
    exact buildRegions h rest scope [] s₁ rs₁ t hs₁ hrest

theorem buildRegion (h : CopyStepsKeep P) :
    ∀ (r : Surface.Region) (scope : Scope) (entry : List TypedName),
      Build.Keeps P (buildRegion scope entry r)
  | .mk blocks, scope, entry => by
    intro s a t hs hrun
    obtain ⟨bs, scope₁, s₁, s₂, hheaders, hbodies, hcreate⟩ := buildRegion_ok hrun
    have hs₁ := h.buildHeaders blocks entry [] scope s _ s₁ hs hheaders
    exact h.createRegion bs s₂ a t (buildBodies h blocks scope₁ bs s₁ () s₂ hs₁ hbodies) hcreate

theorem buildBodies (h : CopyStepsKeep P) :
    ∀ (bs : List Surface.Block) (scope : Scope) (refs : List BlockRef),
      Build.Keeps P (buildBodies scope refs bs)
  | [], scope, refs => by
    rw [IR.buildBodies]
    exact .pure _
  | b :: rest, scope, [] => by
    rw [IR.buildBodies]
    exact .pure _
  | b :: rest, scope, ref :: refs => by
    intro s a t hs hrun
    obtain ⟨scope₁, s₁, hfirst, hrest⟩ := buildBodies_cons_ok hrun
    have hs₁ := buildBody h b scope ref s scope₁ s₁ hs hfirst
    exact buildBodies h rest scope₁ refs s₁ a t hs₁ hrest

theorem buildBody (h : CopyStepsKeep P) :
    ∀ (b : Surface.Block) (scope : Scope) (block : BlockRef),
      Build.Keeps P (buildBody scope block b)
  | .mk _ _ ops, scope, block => by
    rw [IR.buildBody]
    exact buildOps h ops scope block

theorem buildOps (h : CopyStepsKeep P) :
    ∀ (ops : List Surface.Op) (scope : Scope) (block : BlockRef),
      Build.Keeps P (buildOps scope block ops)
  | [], scope, block => by
    rw [IR.buildOps]
    exact .pure _
  | o :: rest, scope, block => by
    intro s a t hs hrun
    obtain ⟨op, scope₁, s₁, s₂, hop, hpush, hrest⟩ := buildOps_cons_ok hrun
    have hs₁ := buildOp h o scope s _ s₁ hs hop
    exact buildOps h rest scope₁ block s₂ a t (h.pushOp block op s₁ () s₂ hs₁ hpush) hrest

end

end CopyStepsKeep

end AffineRaising.IR
