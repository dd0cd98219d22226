/-
# AffineRaising.Proofs.Raise.LegalOperands — which operands of a composed map are legal.

Positions are checked before operands of other types are replaced by casts.  A cast that is reused
was looked at again; a new one stands next to the definition of its operand, so it is a symbol if
that is in the body of a function, and nowhere else: a constant in a loop passes the check, and its
cast is not a symbol (`composed_operands_legal`, `cast_constant_is_no_symbol`).
-/
import AffineRaising.Proofs.Analysis.Moved
import AffineRaising.Proofs.Raise.SymbolPromotion
import AffineRaising.Proofs.Raise.Upstream

namespace AffineRaising.Raise

open AffineRaising.IR AffineRaising.IR.Store AffineRaising.Ops AffineRaising.Analysis
open AffineRaising.Affine (Expr)

variable {J J' : Journal} {s s' t : Store} {v c w : ValueRef} {anchor o : OpRef} {b : BlockRef}

/-! ## What casts leave as it is -/

/-- A larger store with the same entries and the same owners of blocks; operations may have been put
into blocks. -/
structure Enlarges (s t : Store) : Prop extends Extends s t where
  grows : Grows s t
  value? : ∀ v e, s.value? v = some e → t.value? v = some e
  blockOwner? : ∀ b, Same (s.blockOwner? b) (t.blockOwner? b)
  depthBound_le : s.depthBound ≤ t.depthBound

theorem CastStep.enlarges {x y : Journal × Store} (h : CastStep x y) : Enlarges x.2 y.2 := by
  have hextend := h.extend
  obtain ⟨v, p, cast, s₁, _, hcreate, hinsert, _⟩ := h
  have hgrows : Grows x.2 y.2 :=
    ((Grows.copyStepsKeep x.2).createOp _ _ _ _ (.refl _) hcreate).trans (Grows.insertOp hinsert)
  have hc := createOp_ok hcreate
  obtain ⟨d, bd, front, back, hd, _, hbd, _, _, _, ht⟩ := insertOp_ok hinsert
  refine ⟨hextend, hgrows, fun w e hw => ?_, fun b r hr => ?_, ?_⟩
  · rw [ht]
    exact value?_append hc.values hw
  · simp only [Store.blockOwner?, except_bind_ok, block_ok] at hr ⊢
    obtain ⟨bb, hbb, hr⟩ := hr
    have hbb₁ : s₁.block? b = some bb := by rwa [Store.block?, hc.blocks]
    have hregion : ∀ r, y.2.region? r = x.2.region? r := fun r => by
      rw [ht]
      exact (hc.region? r).trans (if_neg (List.not_mem_nil))
    have hblock : ∃ be, y.2.block? b = some be ∧ be.parent = bb.parent := by
      rw [ht, block?_attach hbd]
      by_cases hb : b = p.block
      · subst hb
        cases hbd.symm.trans hbb₁
        exact ⟨_, if_pos rfl, rfl⟩
      · exact ⟨bb, (if_neg hb).trans hbb₁, rfl⟩
    obtain ⟨be, hbe, hparent⟩ := hblock
    refine ⟨be, hbe, ?_⟩
    rw [hparent]
    cases hp : bb.parent with
    | none => rwa [hp] at hr
    | some r =>
      simp only [hp, except_bind_ok, region_ok] at hr ⊢
      simpa only [hregion] using hr
  · have hsize : s₁.ops.size = x.2.ops.size + 1 := by rw [hc.ops, Array.size_push]
    have hattach : y.2.ops.size = s₁.ops.size := by
      rw [ht]
      exact Array.size_setIfInBounds
    unfold Store.depthBound
    omega

namespace Enlarges

theorem refl (s : Store) : Enlarges s s :=
  ⟨.refl s, .refl s, fun _ _ h => h, fun _ _ h => h, Nat.le_refl _⟩

theorem trans (h : Enlarges s s') (h' : Enlarges s' t) : Enlarges s t :=
  ⟨h.toExtends.trans h'.toExtends, h.grows.trans h'.grows,
    fun v e hv => h'.value? v e (h.value? v e hv),
    fun b r hr => h'.blockOwner? b r (h.blockOwner? b r hr),
    h.depthBound_le.trans h'.depthBound_le⟩

theorem present (h : Enlarges s t) (hv : Present s v) : Present t v := by
  obtain ⟨e, he⟩ := hv
  exact ⟨e, h.value? v e he⟩

section Answers

variable (h : Enlarges s t)

include h

theorem op (o : OpRef) : Same (s.op o) (t.op o) := fun d hd => op_ok.2 (h.op? o d (op_ok.1 hd))

theorem value (v : ValueRef) : Same (s.value v) (t.value v) :=
  fun e he => value_ok.2 (h.value? v e (value_ok.1 he))

theorem isNamed (o : OpRef) (name : OpName) : Same (isNamed s o name) (isNamed t o name) :=
  .bind (.bind (h.op o) fun _ => .pure rfl) fun _ => .pure rfl

theorem definingOp? (v : ValueRef) : Same (s.definingOp? v) (t.definingOp? v) :=
  .bind (h.value v) fun _ => .pure rfl

theorem typeOf (v : ValueRef) : Same (s.typeOf v) (t.typeOf v) :=
  .bind (h.value v) fun _ => .pure rfl

theorem result (o : OpRef) (i : Nat) : Same (s.result o i) (t.result o i) := by
  intro v hv
  unfold Store.result at hv ⊢
  cases hd : s.op? o with
  | none =>
    unfold Store.op? at hd
    simp [Store.resultsOf, hd] at hv
  | some d =>
    rw [resultsOf_eq hd] at hv
    rwa [resultsOf_eq (h.op? o d hd)]

theorem homeBlock? (v : ValueRef) : Same (s.homeBlock? v) (t.homeBlock? v) := by
  refine .bind (h.value v) fun e => ?_
  cases e.origin with
  | result o k => exact .bind (h.op o) fun _ => .pure rfl
  | argument b k => exact .pure rfl

/-- Values that live in one block are both in the body of a function, or neither is. -/
theorem isTopLevel_of_home (hhome : Same (s.homeBlock? v) (t.homeBlock? c)) :
    Same (isTopLevel s v) (isTopLevel t c) := by
  have howner : Same (homeOwner? s v) (homeOwner? t c) := by
    refine .bind hhome fun b => ?_
    cases b with
    | none => exact .pure rfl
    | some b => exact h.blockOwner? b
  refine .bind howner fun owner => ?_
  cases owner with
  | none => exact .pure rfl
  | some owner => exact h.isNamed owner _

theorem isTopLevel (v : ValueRef) : Same (isTopLevel s v) (isTopLevel t v) :=
  h.isTopLevel_of_home (h.homeBlock? v)

theorem isScopeSymbolFuel (n : Nat) : ∀ (m : Nat), n ≤ m → ∀ v : ValueRef,
    Same (isScopeSymbolFuel s n v) (isScopeSymbolFuel t m v) := by
  induction n with
  | zero => exact fun _ _ _ => .throw
  | succ n ih =>
    intro m hm v
    obtain ⟨m, rfl⟩ : ∃ k, m = k + 1 := ⟨m - 1, by omega⟩
    refine .bind (h.isTopLevel v) fun _ => .ite .rfl (.pure rfl) ?_
    refine .bind (h.definingOp? v) fun o => ?_
    cases o with
    | none => exact .pure rfl
    | some o =>
      refine .bind (h.isNamed o _) fun _ => .ite .rfl (.pure rfl) ?_
      refine .bind (h.isNamed o _) fun _ => .ite .rfl ?_ (.pure rfl)
      refine .bind (f := fun vs => vs) (.bind (h.op o) fun _ => .pure rfl) fun vs => ?_
      have hall := allInOrder_moved (f := fun v => v) (ih m (by omega)) vs
      rwa [List.map_id'] at hall

theorem isSymbol (v : ValueRef) : Same (isSymbol s v) (isSymbol t v) := by
  refine .bind (h.isTopLevel v) fun _ => .ite .rfl (.pure rfl) ?_
  refine .bind (h.definingOp? v) fun o => ?_
  cases o with
  | none => exact .pure rfl
  | some o =>
    have hkind : Same (arithKind? s o) (arithKind? t o) :=
      .bind (.bind (h.op o) fun _ => .pure rfl) fun _ => .pure rfl
    refine .bind (.bind hkind fun _ => .pure rfl) fun _ => .ite .rfl (.pure rfl) ?_
    exact h.isScopeSymbolFuel _ _ h.depthBound_le v

theorem isLoopArg (v : ValueRef) : Same (isLoopArg s v) (isLoopArg t v) := by
  refine .bind (h.value v) fun e => ?_
  cases e.origin with
  | result o k => exact .pure rfl
  | argument b k =>
    refine .bind (h.blockOwner? b) fun owner => ?_
    cases owner with
    | none => exact .pure rfl
    | some owner =>
      exact .bind (h.isNamed owner _) fun _ => .ite .rfl (.pure rfl) (h.isNamed owner _)

end Answers

/-- What was there is nested in what it was nested in. -/
theorem child_old (h : Enlarges s t) (hs : Linked s) (ht : Linked t) {p z : OpRef} {d : OpData}
    (hz : s.op? z = some d) (hc : Child t p z) : Child s p z := by
  obtain ⟨b, be, hholds, hbe, hmem⟩ := child_iff.1 hc
  obtain ⟨e, he, hparent⟩ := ht.op?_of_mem hbe hmem
  cases (h.op? z d hz).symm.trans he
  obtain ⟨bd, hbd, hzmem⟩ := hs.mem_of_parent hz hparent
  obtain ⟨p?, hp?, howner⟩ := blockOwner?_ok hs hbd
  obtain ⟨q?, hq?, howner'⟩ := blockOwner?_ok ht hbe
  cases (h.blockOwner? b _ hp?).symm.trans hq?
  exact child_iff.2 ⟨b, bd, (howner p).1 ((howner' p).2 hholds), hbd, hzmem⟩

/-- Where nothing is nested in what is new, nothing is nested in itself. -/
theorem acyclic (h : Enlarges s t) (hs : Linked s) (ht : Linked t) (hac : Acyclic s)
    (hleaf : ∀ p z, Child t p z → ∃ d, s.op? p = some d) : Acyclic t := by
  intro x hcycle
  have hold : ∀ z, Relation.TransGen (Child t) x z → (∃ y, Child t z y) →
      Relation.TransGen (Child s) x z := by
    intro z hz
    induction hz with
    | single hchild =>
      rintro ⟨y, hy⟩
      obtain ⟨d, hd⟩ := hleaf _ y hy
      exact .single (h.child_old hs ht hd hchild)
    | tail _ hchild ih =>
      rintro ⟨y, hy⟩
      obtain ⟨d, hd⟩ := hleaf _ y hy
      exact (ih ⟨_, hchild⟩).tail (h.child_old hs ht hd hchild)
  obtain ⟨y, hchild, _⟩ := Relation.TransGen.head'_iff.1 hcycle
  exact hac x (hold x hcycle ⟨y, hchild⟩)

end Enlarges

theorem CastStep.acyclic {x y : Journal × Store} (h : CastStep x y) (hx : Consistent x.2)
    (hac : Acyclic x.2) : Acyclic y.2 := by
  have hy : Consistent y.2 := (ComposeStep.advances (.inr h) hx).consistent
  refine h.enlarges.acyclic hx.linked hy.linked hac fun p z hchild => ?_
  obtain ⟨v, q, cast, s₁, _, hcreate, hinsert, _⟩ := h
  have hc := createOp_ok hcreate
  obtain ⟨d, bd, front, back, hd, _, _, _, _, _, ht⟩ := insertOp_ok hinsert
  obtain ⟨e, he, hin⟩ := hchild
  have hentry := hc.op? cast
  rw [if_pos rfl, hd] at hentry
  rw [ht, op?_attach hd] at he
  by_cases hp : p = cast
  · -- the cast has no regions
    rw [if_pos hp] at he
    cases he
    cases hentry
    obtain ⟨r, hr, _⟩ := hin
    cases hr
  · rw [if_neg hp, hc.op?, if_neg hp] at he
    exact ⟨e, he⟩

/-! ## What is visible -/

theorem Enlarges.adrift (h : Enlarges s t) (hv : Adrift s v) : Adrift t v := by
  obtain ⟨x, k, horigin, hnone⟩ := hv
  obtain ⟨d, hd, hparent⟩ := Option.map_eq_some_iff.1 hnone
  exact ⟨x, k, h.originOf v _ horigin, by rw [opParent, h.op? x d hd, Option.map_some, hparent]⟩

theorem homeBlock?_of_adrift (h : Adrift s v) : s.homeBlock? v = .ok none := by
  obtain ⟨x, k, horigin, hnone⟩ := h
  obtain ⟨d, hd, hparent⟩ := Option.map_eq_some_iff.1 hnone
  rw [homeBlock?_result horigin hd, hparent]

/-- A place behind a definition is in the block where the value lives. -/
theorem homeBlock?_of_afterDefinition? {p : Point}
    (h : Point.afterDefinition? s v = .ok (some p)) : s.homeBlock? v = .ok (some p.block) := by
  simp only [Point.afterDefinition?, except_bind_ok, value_ok] at h
  obtain ⟨e, he, h⟩ := h
  simp only [Store.homeBlock?, except_bind_ok, value_ok]
  refine ⟨e, he, ?_⟩
  cases heq : e.origin with
  | argument b k =>
    simp only [heq, Point.start, bind_pure_comp, except_map_ok, block_ok] at h
    obtain ⟨_, ⟨bd, _, rfl⟩, h⟩ := h
    cases h
    rfl
  | result x k =>
    simp only [heq, Point.after?, except_bind_ok, op_ok] at h ⊢
    obtain ⟨d, hd, h⟩ := h
    refine ⟨d, hd, ?_⟩
    cases hparent : d.parent with
    | none => rw [hparent] at h; cases h
    | some b =>
      simp only [hparent, except_bind_ok] at h
      obtain ⟨_, _, h⟩ := h
      cases h
      rfl

/-! ## Casts in place of operands -/

theorem isLoopArg_of_result {x : OpRef} {k : Nat} (hv : s.originOf v = some (.result x k)) :
    isLoopArg s v = .ok false := by
  obtain ⟨e, he, heq⟩ := Option.map_eq_some_iff.1 hv
  simp only [isLoopArg, except_bind_ok, value_ok]
  exact ⟨e, he, by rw [heq]; rfl⟩

/-- The value is of the index type. -/
def IsIndexTyped (s : Store) (v : ValueRef) : Prop :=
  ∃ ty, s.typeOf v = .ok ty ∧ ty.isIndex = true

theorem IsIndexTyped.later (h : IsIndexTyped s v) (he : Enlarges s t) : IsIndexTyped t v := by
  obtain ⟨ty, hty, hindex⟩ := h
  exact ⟨ty, he.typeOf v ty hty, hindex⟩

/-- A cast stands for a value of an earlier store: it is an index, visible at the anchor, and a
symbol exactly if it was there before or the value is in the body of a function.  It was there
before if there was one that could be used. -/
structure Stands (anchor : OpRef) (s t : Store) (v c : ValueRef) : Prop where
  index : IsIndexTyped t c
  seen : Sees t c anchor
  notLoopArg : isLoopArg t c = .ok false
  symbol : ∃ r, isSymbol t c = .ok r ∧ (r = true ↔ isTopLevel s v = .ok true ∨ Present s c)
  reused : ∀ u, firstUsableCast? s anchor (s.usesOf v) = .ok (some u) → Present s c

theorem Stands.later (h : Stands anchor s s' v c) (he : Enlarges s' t) :
    Stands anchor s t v c := by
  obtain ⟨r, hr, hiff⟩ := h.symbol
  exact ⟨h.index.later he, he.grows.sees h.seen, he.isLoopArg c _ h.notLoopArg,
    ⟨r, he.isSymbol c r hr, hiff⟩, h.reused⟩

/-- Casts were added to a store, for the operands that the list names and for no others. -/
structure Casting (anchor : OpRef) (s : Store) (casts : List (ValueRef × ValueRef)) (t : Store) :
    Prop extends Enlarges s t where
  consistent : Consistent t
  acyclic : Acyclic t
  stands : ∀ v c, casts.lookup v = some c → Stands anchor s t v c
  usesOf : ∀ v, casts.lookup v = none → t.usesOf v = s.usesOf v

theorem Casting.refl (hs : Consistent s) (hac : Acyclic s) : Casting anchor s [] s :=
  ⟨.refl s, hs, hac, nofun, fun _ _ => rfl⟩

/-- A cast of one more operand. -/
theorem Casting.cons {casts : List (ValueRef × ValueRef)} (h : Casting anchor s casts s')
    (he : Enlarges s' t) (ht : Consistent t) (hac : Acyclic t) (hstands : Stands anchor s t v c)
    (huses : ∀ w, w ≠ v → t.usesOf w = s'.usesOf w) : Casting anchor s ((v, c) :: casts) t := by
  refine ⟨h.toEnlarges.trans he, ht, hac, fun w c' hw => ?_, fun w hw => ?_⟩
  · by_cases hwv : w = v
    · subst hwv
      simp only [List.lookup_cons_self, Option.some.injEq] at hw
      exact hw ▸ hstands
    · rw [List.lookup_cons, beq_false_of_ne hwv] at hw
      exact (h.stands w c' hw).later he
  · by_cases hwv : w = v
    · subst hwv
      simp at hw
    · rw [List.lookup_cons, beq_false_of_ne hwv] at hw
      exact (huses w hwv).trans (h.usesOf w hw)

namespace Casting

variable {casts : List (ValueRef × ValueRef)} {d : OpData} (hs : Consistent s)
  (hac : Acyclic s) (ha : s.op? anchor = some d) (h : Casting anchor s casts s')

include hs hac ha h

/-- A cast that could be used can still be used. -/
theorem usableCast? {u : Use} (hu : usableCast? s anchor u = .ok (some c)) :
    usableCast? s' anchor u = .ok (some c) := by
  obtain ⟨hnamed, hresult, hindex, ⟨e, he, hparent⟩, hsymbol, hvisible⟩ := usableCast?_some.1 hu
  have hseen := (valueDominates_iff hs.linked hac ha).1 hvisible
  exact usableCast?_some.2 ⟨h.isNamed _ _ _ hnamed, h.result _ _ _ hresult,
    IsIndexTyped.later hindex h.toEnlarges, ⟨e, h.op _ e he, hparent⟩, h.isSymbol c _ hsymbol,
    (valueDominates_iff h.consistent.linked h.acyclic (h.op? anchor d ha)).2 (h.grows.sees hseen)⟩

omit hac in
/-- A cast that is reused was there from the start. -/
theorem of_usable (hlookup : casts.lookup v = none)
    (hfound : firstUsableCast? s' anchor (s'.usesOf v) = .ok (some c)) :
    Stands anchor s s' v c := by
  obtain ⟨u, hu, husable⟩ := firstUsableCast?_some hfound
  obtain ⟨_, hresult, hindex, _, hsymbol, hvisible⟩ := usableCast?_some.1 husable
  have hl := h.consistent.linked
  obtain ⟨gone, hk⟩ := hs.kept
  rw [h.usesOf v hlookup] at hu
  obtain ⟨e, he, _⟩ := Option.bind_eq_some_iff.1 (hk.uses.pointsBack v u hu)
  have hc := List.mem_of_getElem? (result_zero_ok hresult (h.op? _ e he))
  have hpresent : Present s c := hs.present_result (o := u.user) (by rwa [resultsOf_eq he])
  obtain ⟨k, horigin⟩ := originOf_of_mem_results hl (o := u.user) (v := c)
    (by rwa [resultsOf_eq (h.op? _ e he)])
  exact ⟨hindex, (valueDominates_iff hl h.acyclic (h.op? anchor d ha)).1 hvisible,
    isLoopArg_of_result horigin, ⟨true, hsymbol, by simp [hpresent]⟩, fun _ _ => hpresent⟩

/-- A new cast stands behind the definition of its operand. -/
theorem of_new (hlookup : casts.lookup v = none) (hv : Present s v)
    (hsees : ¬ Adrift s v → Sees s v anchor)
    (hnone : firstUsableCast? s' anchor (s'.usesOf v) = .ok none) {p : Point} {cast : OpRef}
    {s₁ : Store} (hp : Point.afterDefinition? s' v = .ok (some p))
    (hcreate : createOp (indexCastSpec v .index) s' = .ok (cast, s₁))
    (hinsert : Point.insert p cast s₁ = .ok ((), t)) (hresult : t.result cast 0 = .ok c) :
    Stands anchor s t v c := by
  have hstep : CastStep ([], s') ([] ++ [.inserted cast], t) :=
    ⟨v, p, cast, s₁, hp, hcreate, hinsert, rfl⟩
  have he := hstep.enlarges
  have ht := (ComposeStep.advances (.inr hstep) h.consistent).consistent
  have hc := createOp_ok hcreate
  have hl₁ : Linked s₁ := hc.linked h.consistent.linked
  obtain ⟨e, bd, front, back, he₁, hdetached, hbd, hsplit, hhead, _, hattach⟩ := insertOp_ok hinsert
  have hentry : e = (indexCastSpec v .index).entry s' := by
    rw [hc.op?, if_pos rfl] at he₁
    exact (Option.some.inj he₁).symm
  have hop : t.op? cast = some { e with parent := some p.block } := by
    rw [hattach, op?_attach he₁, if_pos rfl]
  have hmem : e.results[0]? = some c := by simpa using result_zero_ok hresult hop
  have horigin : t.originOf c = some (.result cast 0) :=
    (ht.linked.results.mem_iff (a := cast) (by rw [resultsIn, hop]; rfl) 0 c).1 hmem
  have hnew : ¬ Present s c := by
    intro hold
    obtain ⟨a, ha'⟩ := h.present hold
    have hfresh := (hc.fresh_results (v := c)
      (by rw [resultsOf_eq he₁]; exact List.mem_of_getElem? hmem)).1
    cases ha'.symm.trans hfresh
  refine ⟨⟨.index, ?_, rfl⟩, ?_, isLoopArg_of_result horigin, ?_, fun u hu => ?_⟩
  · have hty : List.Forall₂ (fun w ty => s₁.typeOf w = .ok ty) e.results [.index] :=
      hentry ▸ Created.typed hc
    obtain ⟨c', rest, hc', _, hcons⟩ := List.forall₂_cons_right_iff.1 hty
    rw [hcons] at hmem
    cases hmem
    rw [hattach]
    exact hc'
  · -- what is behind the definition leads to the anchor, and the cast is in front of that
    have hstands : ¬ Adrift s v := fun hv => not_adrift_of_afterDefinition? hp (h.adrift hv)
    obtain ⟨q, hq, hbehind⟩ := reaches_of_afterDefinition? h.consistent.linked
      (h.grows.sees (hsees hstands)) hp
    obtain ⟨rest, hback⟩ : ∃ rest, back = q :: rest :=
      List.head?_eq_some_iff.1 (hhead.trans hq)
    have hgrows : Grows s' s₁ := (Grows.copyStepsKeep s').createOp _ _ _ _ (.refl _) hcreate
    have hreaches : Reaches s₁ q anchor := hgrows.reaches hbehind
    obtain ⟨z, hz, hpre⟩ := hreaches.inserted hl₁ he₁ hbd (hsplit.trans (by rw [hback]))
    rw [← hback, ← hattach] at hz hpre
    exact ⟨z, hz, .inr ⟨cast, 0, horigin, hpre⟩⟩
  · obtain ⟨_, hvalue⟩ := hv
    obtain ⟨r, hr⟩ := isTopLevel_answers hs.linked hvalue
    have hhome : Same (s'.homeBlock? v) (t.homeBlock? c) := by
      rw [homeBlock?_of_afterDefinition? hp, homeBlock?_result horigin hop]
      exact fun _ hb => hb
    have htop : isTopLevel t c = .ok r := he.isTopLevel_of_home hhome r (h.isTopLevel v r hr)
    refine ⟨r, ?_, by simp [hr, hnew]⟩
    cases r with
    | true => exact isSymbol_of_isTopLevel htop
    | false =>
      have hname : e.name = ArithKind.indexCast.opName := by rw [hentry]; rfl
      exact not_isSymbol htop horigin hop (fun heq => absurd (hname.symm.trans heq) (by decide))
        fun heq => absurd (hname.symm.trans heq) (by decide)
  · obtain ⟨use, huse, husable⟩ := firstUsableCast?_some hu
    have hagain := h.usableCast? hs hac ha husable
    rw [← h.usesOf v hlookup] at huse
    cases hagain.symm.trans (firstUsableCast?_none hnone use huse)

end Casting

theorem Casts.enlarges {x y : Journal × Store} (h : Casts x y) : Enlarges x.2 y.2 := by
  induction h with
  | refl => exact .refl _
  | tail _ hstep ih => exact ih.trans hstep.enlarges

/-- An index stands for itself, and a cast for anything else. -/
def ReplacedBy (anchor : OpRef) (s t : Store) (v c : ValueRef) : Prop :=
  IsIndexTyped s v ∧ c = v ∨ ¬ IsIndexTyped s v ∧ Stands anchor s t v c

/-- The value is there, and seen by the anchor unless its definition stands in no block. -/
def InView (anchor : OpRef) (s : Store) (v : ValueRef) : Prop :=
  Present s v ∧ (¬ Adrift s v → Sees s v anchor)

section Runs

variable {casts casts' : List (ValueRef × ValueRef)} {d : OpData} (hs : Consistent s)
  (hac : Acyclic s) (ha : s.op? anchor = some d)

include hs hac ha

/-- A cast that was looked for is in the list afterwards. -/
theorem Casting.indexCastOf (h : Casting anchor s casts s') (hlookup : casts.lookup v = none)
    (hv : InView anchor s v) (hrun : indexCastOf anchor v J s' = .ok ((.ok c, J'), t)) :
    Casting anchor s ((v, c) :: casts) t := by
  obtain ⟨hpresent, hsees⟩ := hv
  obtain ⟨rfl, rfl, hfound⟩ | ⟨hnone, p, cast, s₁, hp, hcreate, hinsert, hJ, hresult⟩ :=
    indexCastOf_ok hrun
  · exact h.cons (.refl t) h.consistent h.acyclic (h.of_usable hs ha hlookup (hfound c rfl))
      fun _ _ => rfl
  · have hstep : CastStep (J, s') (J', t) := ⟨v, p, cast, s₁, hp, hcreate, hinsert, hJ⟩
    refine h.cons hstep.enlarges (ComposeStep.advances (.inr hstep) h.consistent).consistent
      (hstep.acyclic h.consistent h.acyclic) (h.of_new hs hac ha hlookup hpresent hsees hnone hp
        hcreate hinsert (hresult c rfl)) fun w hw => ?_
    obtain ⟨_, _, _, _, _, _, _, _, _, _, ht⟩ := insertOp_ok hinsert
    have huses := (createOp_ok hcreate).usesOf w
    have hunused : operandUses cast (indexCastSpec v .index).operands w = [] := by
      simp [operandUses, indexCastSpec, hw.symm]
    rw [hunused, List.append_nil] at huses
    rw [ht]
    exact huses

theorem Casting.castOf (h : Casting anchor s casts s') (hv : InView anchor s v)
    (hrun : castOf anchor casts v J s' = .ok ((.ok (c, casts'), J'), t)) :
    Casting anchor s casts' t ∧ ReplacedBy anchor s t v c := by
  obtain ⟨ty, hty, hrun⟩ := Compose.ask_bind.1 hrun
  have hold : s.typeOf v = .ok ty := by
    obtain ⟨e, he⟩ := hv.1
    have hty₀ : s.typeOf v = .ok e.ty := typeOf_ok.2 ⟨e, he, rfl⟩
    cases (h.typeOf v _ hty₀).symm.trans hty
    exact hty₀
  cases hindex : ty.isIndex with
  | true =>
    rw [hindex] at hrun
    cases hrun
    exact ⟨h, .inl ⟨⟨ty, hold, hindex⟩, rfl⟩⟩
  | false =>
    have hother : ¬ IsIndexTyped s v := by
      rintro ⟨ty', hty', hindex'⟩
      cases hold.symm.trans hty'
      cases hindex.symm.trans hindex'
    rw [hindex] at hrun
    simp only [Bool.false_eq_true, if_false] at hrun
    cases hlookup : casts.lookup v with
    | some c₀ =>
      rw [hlookup] at hrun
      cases hrun
      exact ⟨h, .inr ⟨hother, h.stands v _ hlookup⟩⟩
    | none =>
      rw [hlookup] at hrun
      obtain ⟨_, J₁, s₁, hcast, hrun⟩ := Compose.bind_ok.1 hrun
      cases hrun
      have hcasting := h.indexCastOf hs hac ha hlookup hv hcast
      exact ⟨hcasting, .inr ⟨hother, hcasting.stands v c (by simp)⟩⟩

/-- Each operand is an index, or a cast stands for it. -/
theorem indexOperands_replaced {vs : List ValueRef} :
    ∀ {casts : List (ValueRef × ValueRef)} {cs : List ValueRef} {J J' : Journal} {s' t : Store},
      Casting anchor s casts s' → (∀ v ∈ vs, InView anchor s v) →
      indexOperands anchor casts vs J s' = .ok ((.ok cs, J'), t) →
      (∃ casts', Casting anchor s casts' t) ∧ List.Forall₂ (ReplacedBy anchor s t) vs cs := by
  induction vs with
  | nil =>
    intro casts cs J J' s' t h _ hrun
    obtain ⟨hrun, _, rfl⟩ := Compose.pure_ok.1 hrun
    cases hrun
    exact ⟨⟨casts, h⟩, .nil⟩
  | cons v vs ih =>
    intro casts cs J J' s' t h hvs hrun
    rw [indexOperands_cons] at hrun
    obtain ⟨⟨c, casts₁⟩, J₁, s₁, hfirst, hrun⟩ := Compose.bind_ok.1 hrun
    obtain ⟨cs', J₂, s₂, hrest, hrun⟩ := Compose.bind_ok.1 hrun
    obtain ⟨hrun, rfl, rfl⟩ := Compose.pure_ok.1 hrun
    cases hrun
    obtain ⟨hv, hvs⟩ := List.forall_mem_cons.1 hvs
    obtain ⟨h₁, hreplaced⟩ := h.castOf hs hac ha hv hfirst
    have hlater : Casts (J₁, s₁) (J₂, s₂) := indexOperands_follows anchor vs _ J₁ s₁ _ _ _ hrest
    obtain ⟨hall, hrestReplaced⟩ := ih h₁ hvs hrest
    refine ⟨hall, .cons ?_ hrestReplaced⟩
    exact hreplaced.imp_right (And.imp_right fun hstands => hstands.later hlater.enlarges)

end Runs

/-! ## Positions -/

/-- A symbol is legal at every position, and an induction variable at those of dimensions. -/
def LegalAt (s : Store) (v : ValueRef) (isDim : Bool) : Prop :=
  isSymbol s v = .ok true ∨ isDim = true ∧ isLoopArg s v = .ok true

namespace LegalAt

variable {isDim : Bool}

theorem of_valid (h : isInvalidAt s v isDim = .ok false) : LegalAt s v isDim := by
  simp only [isInvalidAt, except_bind_ok] at h
  obtain ⟨sym, hsym, h⟩ := h
  cases sym with
  | true => exact .inl hsym
  | false =>
    cases isDim with
    | false => cases h
    | true =>
      simp only [Bool.false_eq_true, if_false, if_true, except_bind_ok] at h
      obtain ⟨arg, harg, h⟩ := h
      cases arg with
      | false => cases h
      | true => exact .inr ⟨rfl, harg⟩

theorem present (h : LegalAt s v isDim) : Present s v := by
  rcases h with h | ⟨_, h⟩
  · simp only [isSymbol, isSymbolWith, isTopLevel, homeOwner?, homeBlock?, except_bind_ok,
      value_ok] at h
    obtain ⟨_, ⟨_, ⟨_, ⟨e, he, _⟩, _⟩, _⟩, _⟩ := h
    exact ⟨e, he⟩
  · simp only [isLoopArg, except_bind_ok, value_ok] at h
    obtain ⟨e, he, _⟩ := h
    exact ⟨e, he⟩

theorem later (h : LegalAt s v isDim) (he : Enlarges s t) : LegalAt t v isDim :=
  h.imp (he.isSymbol v true) (And.imp_right (he.isLoopArg v true))

end LegalAt

/-- What passes the check of the positions is legal. -/
theorem legalAt_of_checkPositions {numDims : Nat} {vs : List ValueRef}
    (h : checkPositions numDims 0 vs J s = .ok ((.ok (), J), s)) {i : Nat}
    (hv : vs[i]? = some v) : LegalAt s v (decide (i < numDims)) := by
  obtain ⟨hdims, hsymbols⟩ := firstInOrder_none.1 (checkPositions_iff.1 h)
  rw [Nat.sub_zero] at hdims hsymbols
  by_cases hi : i < numDims
  · rw [decide_eq_true hi]
    refine .of_valid (hdims v (List.mem_of_getElem? (i := i) ?_))
    rw [List.getElem?_take_of_lt hi, hv]
  · rw [decide_eq_false hi]
    refine .of_valid (hsymbols v (List.mem_of_getElem? (i := i - numDims) ?_))
    rw [List.getElem?_drop, Nat.add_sub_cancel' (Nat.le_of_not_lt hi), hv]

/-- An operand that was legal where the loop of a composition left it: what stands for it is legal
unless it is a new cast of something outside the bodies of functions. -/
theorem ReplacedBy.legalAt_iff {isDim : Bool} (h : ReplacedBy anchor s t v c) (he : Enlarges s t)
    (hv : LegalAt s v isDim) :
    LegalAt t c isDim ↔ isTopLevel s v = .ok true ∨ Present s c := by
  rcases h with ⟨_, rfl⟩ | ⟨_, h⟩
  · exact iff_of_true (hv.later he) (.inr hv.present)
  · obtain ⟨r, hr, hiff⟩ := h.symbol
    rw [← hiff, LegalAt, hr, h.notLoopArg]
    simp

/-- No cast is made of an index, nor of a value with a cast that can be used. -/
theorem ReplacedBy.present (h : ReplacedBy anchor s t v c) (hv : Present s v)
    (hready : IsIndexTyped s v ∨ ∃ u, firstUsableCast? s anchor (s.usesOf v) = .ok (some u)) :
    Present s c := by
  rcases h with ⟨_, rfl⟩ | ⟨hother, h⟩
  · exact hv
  · obtain ⟨u, hu⟩ := hready.resolve_left hother
    exact h.reused u hu

theorem ReplacedBy.index (h : ReplacedBy anchor s t v c) (he : Enlarges s t) :
    IsIndexTyped t c := by
  rcases h with ⟨hindex, rfl⟩ | ⟨_, h⟩
  · exact hindex.later he
  · exact h.index

theorem ReplacedBy.seen (h : ReplacedBy anchor s t v c) (he : Enlarges s t)
    (hv : InView anchor s v) : Sees t c anchor ∨ t.homeBlock? c = .ok none := by
  rcases h with ⟨_, rfl⟩ | ⟨_, h⟩
  · by_cases hstands : Adrift s c
    · exact .inr (homeBlock?_of_adrift (he.adrift hstands))
    · exact .inl (he.grows.sees (hv.2 hstands))
  · exact .inl h.seen

/-- In a module that passes the check, a composition of operands that the anchor sees returns
indices.  The anchor sees each of them, unless it is one whose definition was taken out of its block
on the way.  An operand is legal at its position exactly if it is not a new cast, or the cast value
is in the body of a function; new casts are made only of values that are no indices and have no cast
that could be used.  The module may stand among what was removed from it; the anchor was not
removed. -/
theorem composed_operands_legal {gone : OpRef → Prop} {root : OpRef} {a : OpData}
    (hheld : HoldsModule root gone s) (hcheck : check s root = .ok ⟨[], [], []⟩)
    (hregions : ∀ d, s.op? root = some d → d.regions.length ≤ 1)
    (hanchor : s.op? anchor = some a) (hlive : ¬ gone anchor) {limit : Nat}
    {b b₁ c : Binding} {J₁ : Journal} {s₁ : Store}
    (hvisible : ∀ v ∈ b.operands, valueDominates s v anchor = .ok true)
    (hloop : composeSteps limit b J s = .ok ((.ok b₁, J₁), s₁))
    (h : composeMap anchor limit b J s = .ok ((.ok c, J'), t)) :
    (∀ w ∈ c.operands, IsIndexTyped t w ∧
      (valueDominates t w anchor = .ok true ∨ t.homeBlock? w = .ok none)) ∧
    c.operands.length = b₁.operands.length ∧
    ∀ i v w, b₁.operands[i]? = some v → c.operands[i]? = some w →
      (LegalAt t w (decide (i < c.map.numDims)) ↔
        isTopLevel s₁ v = .ok true ∨ Present s₁ w) ∧
      (IsIndexTyped s₁ v ∨ (∃ u, firstUsableCast? s₁ anchor (s₁.usesOf v) = .ok (some u)) →
        Present s₁ w) := by
  have hs : Consistent s := hheld.consistent
  have hac : Acyclic s := hheld.acyclic
  obtain ⟨hs₁, hac₁, ⟨e, hanchor₁⟩, hseen⟩ := composeSteps_sees hs hac
    (hheld.seesOperands (check_eq_clean.1 hcheck).2.1 hregions) hheld.sized hanchor hlive
    (fun v hv => (valueDominates_iff hs.linked hac hanchor).1 (hvisible v hv)) hloop
  obtain ⟨b', J₁', s₁', hloop', hcasts, hmap, hpositions⟩ := composeMap_ok h
  cases hloop.symm.trans hloop'
  have hlegal : ∀ i v, b₁.operands[i]? = some v → LegalAt s₁ v (decide (i < c.map.numDims)) := by
    intro i v hv
    rw [hmap]
    exact legalAt_of_checkPositions hpositions hv
  have hview : ∀ v ∈ b₁.operands, InView anchor s₁ v := by
    intro v hv
    obtain ⟨i, hi⟩ := List.mem_iff_getElem?.1 hv
    exact ⟨(hlegal i v hi).present, hseen v hv⟩
  obtain ⟨⟨casts, hcasting⟩, hreplaced⟩ :=
    indexOperands_replaced hs₁ hac₁ hanchor₁ (.refl hs₁ hac₁) hview hcasts
  have he := hcasting.toEnlarges
  have hpair : ∀ (i : Nat) (v w : ValueRef), b₁.operands[i]? = some v → c.operands[i]? = some w →
      ReplacedBy anchor s₁ t v w := by
    intro i v w hv hw
    obtain ⟨hi, rfl⟩ := List.getElem?_eq_some_iff.1 hv
    obtain ⟨hi', rfl⟩ := List.getElem?_eq_some_iff.1 hw
    exact hreplaced.get hi hi'
  refine ⟨fun w hw => ?_, hreplaced.length_eq.symm, fun i v w hv hw => ?_⟩
  · obtain ⟨i, hi⟩ := List.mem_iff_getElem?.1 hw
    obtain ⟨hlt, _⟩ := List.getElem?_eq_some_iff.1 hi
    have hv := List.getElem?_eq_getElem (hreplaced.length_eq.symm ▸ hlt : i < b₁.operands.length)
    have hpair := hpair i _ w hv hi
    refine ⟨hpair.index he, (hpair.seen he (hview _ (List.mem_of_getElem? hv))).imp_left ?_⟩
    exact (valueDominates_iff hcasting.consistent.linked hcasting.acyclic
      (he.op? anchor e hanchor₁)).2
  · have hpair := hpair i v w hv hw
    exact ⟨hpair.legalAt_iff he (hlegal i v hv), hpair.present (hlegal i v hv).present⟩

/-- A product and a narrow parameter in a loop: the product is hoisted, and a cast of the parameter
is put at the start of the function. -/
theorem parameter_cast :
    let body : List Surface.Op := [.plain ArithKind.mul.opName ["x"] ["a", "a"] [.index] [],
      .plain ⟨"test", "use"⟩ [] ["x", "n"] [] []]
    let tree := Surface.Op.program [⟨"a", .index⟩, ⟨"n", .core "i32"⟩]
      [.loop body, .plain returnName [] [] [] []]
    let sum : List ValueRef → Binding := fun vs =>
      ⟨⟨1, 2, [.bin .add (.bin .add (.dim 0) (.symbol 0)) (.symbol 1)]⟩, vs⟩
    ∃ root scope s d a J₁ s₁ J t, buildOp Scope.empty tree Store.empty =
        .ok (.ok (root, scope), s) ∧ check s root = .ok ⟨[], [], []⟩ ∧ s.op? root = some d ∧
      d.regions.length = 1 ∧ s.op? ⟨1⟩ = some a ∧
      (valueDominates s ⟨2⟩ ⟨1⟩ = .ok true ∧ valueDominates s ⟨3⟩ ⟨1⟩ = .ok true ∧
        valueDominates s ⟨1⟩ ⟨1⟩ = .ok true) ∧
      composeSteps 8 (sum [⟨2⟩, ⟨3⟩, ⟨1⟩]) [] s =
        .ok ((.ok (sum [⟨2⟩, ⟨4⟩, ⟨1⟩]), J₁), s₁) ∧
      (s₁.typeOf ⟨2⟩ = .ok .index ∧ isTopLevel s₁ ⟨1⟩ = .ok true) ∧
      composeMap ⟨1⟩ 8 (sum [⟨2⟩, ⟨3⟩, ⟨1⟩]) [] s =
        .ok ((.ok (sum [⟨2⟩, ⟨4⟩, ⟨5⟩]), J), t) ∧ t.homeBlock? ⟨5⟩ = .ok (some ⟨1⟩) :=
  ⟨⟨6⟩, _, _, _, _, _, _, _, _, by cbv, by cbv, by cbv, by cbv, by cbv, ⟨by cbv, by cbv, by cbv⟩,
    by cbv, ⟨by cbv, by cbv⟩, by cbv, by cbv⟩

theorem composed_operands_legal_parameter :
    let sum : List ValueRef → Binding := fun vs =>
      ⟨⟨1, 2, [.bin .add (.bin .add (.dim 0) (.symbol 0)) (.symbol 1)]⟩, vs⟩
    ∃ s J t, composeMap ⟨1⟩ 8 (sum [⟨2⟩, ⟨3⟩, ⟨1⟩]) [] s =
        .ok ((.ok (sum [⟨2⟩, ⟨4⟩, ⟨5⟩]), J), t) ∧
      (IsIndexTyped t ⟨5⟩ ∧ valueDominates t ⟨5⟩ ⟨1⟩ = .ok true ∧ LegalAt t ⟨5⟩ false) ∧
      LegalAt t ⟨2⟩ true := by
  intro sum
  obtain ⟨root, scope, s, d, a, J₁, s₁, J, t, hbuild, hcheck, hroot, hregions, hanchor,
    ⟨hvariable, hproduct, hparameter⟩, hloop, ⟨hindex, htop⟩, hcompose, hhome⟩ := parameter_cast
  have hvisible : ∀ v ∈ (sum [⟨2⟩, ⟨3⟩, ⟨1⟩]).operands, valueDominates s v ⟨1⟩ = .ok true := by
    intro v hv
    simp only [sum, List.mem_cons, List.not_mem_nil, or_false] at hv
    rcases hv with rfl | rfl | rfl
    · exact hvariable
    · exact hproduct
    · exact hparameter
  have hone : ∀ d', s.op? root = some d' → d'.regions.length ≤ 1 := fun d' hd' => by
    cases hroot.symm.trans hd'
    exact Nat.le_of_eq hregions
  obtain ⟨hall, _, hpositions⟩ := composed_operands_legal (.of_built hbuild) hcheck hone hanchor id
    hvisible hloop hcompose
  obtain ⟨hcast, hseen⟩ := hall ⟨5⟩ (by simp)
  have hseen : valueDominates t ⟨5⟩ ⟨1⟩ = .ok true :=
    hseen.resolve_right fun hnone => by cases hhome.symm.trans hnone
  obtain ⟨hcastLegal, _⟩ := hpositions 2 ⟨1⟩ ⟨5⟩ rfl rfl
  obtain ⟨hvariableLegal, hkept⟩ := hpositions 0 ⟨2⟩ ⟨2⟩ rfl rfl
  exact ⟨s, J, t, hcompose, ⟨hcast, hseen, hcastLegal.2 (.inl htop)⟩,
    hvariableLegal.2 (.inr (hkept (.inl ⟨_, hindex, rfl⟩)))⟩

/-- A function with a loop that uses a narrow constant. -/
def constantInLoop : Surface.Op :=
  .program [⟨"a", .index⟩] [.loop
    [.mk ⟨["c"], "arith", "const", none, [], [], [], none, [("value", .int 3)], [.core "i32"]⟩ [],
      .plain ⟨"test", "use"⟩ [] ["c"] [] []], .plain returnName [] [] [] []]

/-- A constant is a symbol wherever it stands; its cast, put behind it in a loop, is not. -/
theorem cast_constant_is_no_symbol :
    ¬ ∀ {tree : Surface.Op} {root anchor : OpRef} {scope : Scope} {s t : Store} {d : OpData}
        {block : BlockRef} {limit : Nat} {b c : Binding} {J J' : Journal},
      buildOp Scope.empty tree Store.empty = .ok (.ok (root, scope), s) →
      check s root = .ok ⟨[], [], []⟩ → s.op? anchor = some d → d.parent = some block →
      b.WellBound → (∀ v ∈ b.operands, valueDominates s v anchor = .ok true) →
      composeMap anchor limit b J s = .ok ((.ok c, J'), t) →
      ∀ i w, c.operands[i]? = some w → IsIndexTyped t w ∧ valueDominates t w anchor = .ok true ∧
        LegalAt t w (decide (i < c.map.numDims)) := by
  intro hclaim
  let only : ValueRef → Binding := fun v => ⟨⟨0, 1, [.symbol 0]⟩, [v]⟩
  have hprogram : ∃ root scope s d block J t, buildOp Scope.empty constantInLoop Store.empty =
        .ok (.ok (root, scope), s) ∧ check s root = .ok ⟨[], [], []⟩ ∧
      (s.op? ⟨1⟩ = some d ∧ d.parent = some block) ∧ valueDominates s ⟨2⟩ ⟨1⟩ = .ok true ∧
      composeMap ⟨1⟩ 8 (only ⟨2⟩) [] s = .ok ((.ok (only ⟨3⟩), J), t) ∧
      isSymbol t ⟨3⟩ = .ok false :=
    ⟨⟨6⟩, _, _, _, _, _, _, by cbv, by cbv, ⟨by cbv, by cbv⟩, by cbv, by cbv, by cbv⟩
  obtain ⟨root, scope, s, d, block, J, t, hbuild, hcheck, ⟨hanchor, hparent⟩, hvisible, hcompose,
    hnot⟩ := hprogram
  have hwell : (only ⟨2⟩).WellBound := ⟨rfl, by simp [only, Expr.inRange_symbol]⟩
  have hoperands : ∀ v ∈ (only ⟨2⟩).operands, valueDominates s v ⟨1⟩ = .ok true := by
    intro v hv
    exact List.mem_singleton.1 hv ▸ hvisible
  obtain ⟨_, _, hlegal⟩ :=
    hclaim hbuild hcheck hanchor hparent hwell hoperands hcompose 0 ⟨3⟩ rfl
  rcases hlegal with hsymbol | ⟨hdim, _⟩
  · cases hnot.symm.trans hsymbol
  · cases hdim

end AffineRaising.Raise
