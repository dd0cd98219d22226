/-
# AffineRaising.Proofs.Raise.Visit — visits keep a store consistent.

Each pattern asks for a change that can be carried out in the store that it leaves: new operations
are there, and values that are to stand for results are values.  So a visit to a module, whatever it
changes, leads from consistent stores to consistent ones: `visitModule_advancing`.

The predicate `Asking` is to patterns what `Leads` is to compositions: the store that the pattern
leaves is consistent, and the change it asks for can be carried out there.  Each pattern reads
operands of its operation, which are values as the store is grounded, normalizes maps over them, and
creates or changes one operation; `applyChange` then replaces results by values.
-/
import AffineRaising.Proofs.Raise.Consistency

namespace AffineRaising.Raise

open AffineRaising.IR AffineRaising.IR.Store AffineRaising.Ops AffineRaising.Transform
open AffineRaising.Affine (Map)

variable {α β : Type} {s t : Store}

/-! ## Patterns -/

/-- The values that are to stand for results are in the table of the store. -/
def Given (t : Store) : Change → Prop
  | .eraseFor vs => AllPresent t vs
  | _ => True

/-- What is given stays given, as values stay. -/
theorem Given.later {c : Change} (h : Given s c) (ha : Advances s t) : Given t c := by
  cases c with
  | eraseFor vs => exact AllPresent.later h ha
  | _ => trivial

/-- From the store, the edit leads to consistent ones, where the change it asks for is given. -/
def Asking (s : Store) (e : Edit Change) : Prop :=
  ∀ c t, e s = .ok (c, t) → Advances s t ∧ Given t c

namespace Asking

theorem pure {c : Change} (hs : Consistent s) (hc : Given s c) : Asking s (pure c) := by
  rintro _ _ ⟨⟩
  exact ⟨.refl hs, hc⟩

/-- A query may come first. -/
theorem query {q : Store → Except Fault α} {f : α → Edit Change}
    (hf : ∀ a, q s = .ok a → Asking s (f a)) : Asking s (query q >>= f) := by
  intro c t h
  rw [Edit.query_bind] at h
  obtain ⟨a, ha, h⟩ := h
  exact hf a ha c t h

theorem ite {c : Prop} [Decidable c] {e e' : Edit Change} (h : Asking s e) (h' : Asking s e') :
    Asking s (if c then e else e') := by
  split
  · exact h
  · exact h'

/-- A transaction asks for what its body asks for, whether it commits or rolls back. -/
theorem transaction {body : Compose Change} (hbody : Compose.Leads s body Given) :
    Asking s (transaction body) := by
  intro c t h
  obtain ⟨r, J, s₁, hrun, hend⟩ := transaction_ok.1 h
  obtain ⟨hadvance, hgiven⟩ := hbody [] r J s₁ hrun
  obtain ⟨_, hback, rfl⟩ | ⟨rfl, _, hcommit⟩ := hend
  · exact ⟨hadvance.trans (rollback_advancing J s₁ _ _ hadvance.consistent hback), trivial⟩
  · -- a request is passed on once the journal is committed
    have hlater := commit_advancing J s₁ _ _ hadvance.consistent hcommit
    exact ⟨hadvance.trans hlater, (hgiven c rfl).later hlater⟩

end Asking

/-- A composition that ends with a new operation asks for it. -/
theorem Compose.Leads.replaceBy (hs : Consistent s) {spec : OpSpec}
    (hoperands : AllPresent s spec.operands) :
    Compose.Leads s (do return .replaceBy (← Compose.lift (createOp spec))) Given :=
  .lift_bind (fun _ _ h => createOp_advances hs hoperands h)
    fun _ _ ha => .pure ha.consistent trivial

theorem AllPresent.append {vs ws : List ValueRef} (hv : AllPresent s vs) (hw : AllPresent s ws) :
    AllPresent s (vs ++ ws) :=
  fun v h => (List.mem_append.1 h).elim (hv v) (hw v)

theorem AllPresent.cons {v : ValueRef} {vs : List ValueRef} (hv : Present s v)
    (hvs : AllPresent s vs) : AllPresent s (v :: vs) := by
  intro w hw
  rcases List.mem_cons.1 hw with rfl | hw
  · exact hv
  · exact hvs w hw

theorem AllPresent.nil : AllPresent s [] := fun v hv => by cases hv

section Patterns

variable (hs : Consistent s)

include hs

/-- An operand is a value, and so is each of a slice of operands. -/
theorem present_of_operand {o : OpRef} {i : Nat} {v : ValueRef} (h : s.operand o i = .ok v) :
    Present s v := by
  obtain ⟨d, hd, hv⟩ := operand_ok.1 h
  exact hs.present_operand hd (List.mem_of_getElem? hv)

theorem present_of_slice {o : OpRef} {start stop : Nat} {vs : List ValueRef}
    (h : operandSlice s o start stop = .ok vs) : AllPresent s vs := by
  simp only [operandSlice, except_bind_ok, operandsOf_ok] at h
  obtain ⟨_, ⟨d, hd, rfl⟩, h⟩ := h
  split at h
  · cases h
    exact fun v hv => hs.present_operand hd (List.mem_of_mem_take (List.mem_of_mem_drop hv))
  · cases h

/-- The operands of a bound are values. -/
theorem present_of_boundOperands {o : OpRef} {side : BoundSide} {vs : List ValueRef}
    (h : boundOperands s o side = .ok vs) : AllPresent s vs := by
  simp only [boundOperands, except_bind_ok] at h
  obtain ⟨cuts, _, h⟩ := h
  cases side with
  | lower => exact present_of_slice hs h
  | upper => exact present_of_slice hs h

theorem present_of_loopInits {o : OpRef} {vs : List ValueRef} (h : loopInits s o = .ok vs) :
    AllPresent s vs := by
  simp only [loopInits, except_bind_ok] at h
  obtain ⟨cuts, _, _, _, h⟩ := h
  exact present_of_slice hs h

/-- A pattern for one name asks for nothing elsewhere. -/
theorem onName_asking {name : OpName} {pattern : Pattern} {op : OpRef}
    (h : Asking s (pattern op)) : Asking s (onName name pattern op) :=
  .query fun _ _ => .ite h (.pure hs trivial)

/-- An application is raised to one over values. -/
theorem raiseApply_asking (limit : Nat) (op : OpRef) : Asking s (raiseApply limit op) := by
  refine onName_asking hs (.query fun map _ => ?_)
  cases map with
  | none => exact .pure hs trivial
  | some map =>
    refine .query fun operands _ => .transaction ?_
    refine .bind (normalizeMap_leads hs op limit _) fun b s₁ ha hb => ?_
    refine .ite (.pure ha.consistent trivial) (.ask_bind fun result _ => .ask_bind fun ty _ => ?_)
    exact .replaceBy ha.consistent hb

theorem foldIndexCast_asking (op : OpRef) : Asking s (foldIndexCast op) := by
  refine onName_asking hs ?_
  refine .query fun input _ => .query fun result _ => .query fun ty _ => .query fun inner _ => ?_
  cases inner with
  | none => exact .pure hs trivial
  | some inner =>
    refine .query fun kind _ => ?_
    split
    · refine .query fun source hsource => .query fun sourceTy _ => .ite ?_ (.pure hs trivial)
      exact .pure hs (.cons (present_of_operand hs hsource) .nil)
    · refine .query fun value _ => ?_
      cases value with
      | none => exact .pure hs trivial
      | some value =>
        refine .query fun inputTy _ => .ite ?_ (.pure hs trivial)
        intro c t h
        obtain ⟨new, s₁, hcreate, h⟩ := Edit.bind_ok.1 h
        cases h
        exact ⟨createOp_advances hs .nil hcreate, trivial⟩
    · exact .pure hs trivial

/-- An access is replaced by one whose operands are values, if those kept are. -/
theorem raiseSubscripts_asking (limit : Nat) (op : OpRef) (indices : List ValueRef)
    {build : Binding → OpSpec} (hbuild : ∀ {s₁ b}, Advances s s₁ → AllPresent s₁ b.operands →
      AllPresent s₁ (build b).operands) : Asking s (raiseSubscripts limit op indices build) := by
  refine .transaction (.bind (normalizeMap_leads hs op limit _) fun b s₁ ha hb => ?_)
  exact .replaceBy ha.consistent (hbuild ha hb)

theorem raiseLoad_asking (limit : Nat) (op : OpRef) : Asking s (raiseLoad limit op) := by
  refine onName_asking hs (.query fun indices _ => .query fun valid _ => ?_)
  refine .ite (.pure hs trivial) (.query fun memory hmemory => .query fun d _ => ?_)
  split
  · exact .pure hs trivial
  · refine raiseSubscripts_asking hs limit op indices fun ha hb => ?_
    exact .cons (ha.present _ (present_of_operand hs hmemory)) hb

theorem raiseStore_asking (limit : Nat) (op : OpRef) : Asking s (raiseStore limit op) := by
  refine onName_asking hs (.query fun indices _ => .query fun valid _ => ?_)
  refine .ite (.pure hs trivial) (.query fun value hvalue => .query fun memory hmemory => ?_)
  refine raiseSubscripts_asking hs limit op indices fun ha hb => ?_
  exact .cons (ha.present _ (present_of_operand hs hvalue))
    (.cons (ha.present _ (present_of_operand hs hmemory)) hb)

theorem normalizeAccess_asking (limit : Nat) (op : OpRef) :
    Asking s (normalizeAccess limit op) := by
  refine .query fun d hd => ?_
  split
  · refine .ite (.pure hs trivial) (.transaction ?_)
    refine .bind (normalizeMap_leads hs op limit _) fun b s₁ ha hb => ?_
    refine .ite (.pure ha.consistent trivial) (.ask_bind fun d' _ => ?_)
    refine .replaceBy ha.consistent (.append (fun v hv => ?_) hb)
    exact ha.present v (hs.present_operand (op_ok.1 hd) (List.mem_of_mem_take hv))
  · exact .pure hs trivial

/-- The condition of an operation may be replaced by one over values. -/
theorem setCondition_advances {op : OpRef} {set : Affine.ConstraintSet} {operands : List ValueRef}
    {u : Unit} (hoperands : AllPresent s operands)
    (h : setCondition op set operands s = .ok (u, t)) : Advances s t := by
  obtain ⟨_, s₁, hattr, h⟩ := Edit.bind_ok.1 h
  have hfirst := setAttr_advances hs hattr
  exact hfirst.trans (setOperands_advances hfirst.consistent (hoperands.later hfirst) h)

/-- A bound may be replaced by one over values. -/
theorem setBound_advances {op : OpRef} {side : BoundSide} {m : Map} {operands : List ValueRef}
    {u : Unit} (hoperands : AllPresent s operands)
    (h : setBound op side m operands s = .ok (u, t)) : Advances s t := by
  rw [setBound, Edit.query_bind] at h
  obtain ⟨inits, hinits, h⟩ := h
  have hinits := present_of_loopInits hs hinits
  -- the operands that are kept were operands before
  suffices hset : ∃ all, AllPresent s all ∧
      (do setAttr op side.key (.map m); setOperands op all : Edit Unit) s = .ok (u, t) by
    obtain ⟨all, hall, h⟩ := hset
    obtain ⟨_, s₁, hattr, h⟩ := Edit.bind_ok.1 h
    have hfirst := setAttr_advances hs hattr
    exact hfirst.trans (setOperands_advances hfirst.consistent (hall.later hfirst) h)
  cases side with
  | lower =>
    simp only at h
    rw [Edit.query_bind] at h
    obtain ⟨upper, hupper, h⟩ := h
    exact ⟨_, .append (.append hoperands (present_of_boundOperands hs hupper)) hinits, h⟩
  | upper =>
    simp only at h
    rw [Edit.query_bind] at h
    obtain ⟨lower, hlower, h⟩ := h
    exact ⟨_, .append (.append (present_of_boundOperands hs hlower) hoperands) hinits, h⟩

theorem normalizeCondition_asking (limit : Nat) (op : OpRef) :
    Asking s (normalizeCondition limit op) := by
  refine onName_asking hs (.query fun set _ => ?_)
  cases set with
  | none => exact .pure hs trivial
  | some set =>
    refine .query fun operands _ => .transaction ?_
    refine .bind (normalizeSet_leads hs op limit _) fun b s₁ ha hb => ?_
    refine .ite (.pure ha.consistent trivial) (.lift_bind (fun _ _ h => ?_) fun _ _ ha' => ?_)
    · exact setCondition_advances ha.consistent hb h
    · exact .pure ha'.consistent trivial

theorem normalizeBound_asking (limit : Nat) (op : OpRef) (side : BoundSide) (b : Binding) :
    Asking s (normalizeBound limit op side b) := by
  refine .transaction (.ask_bind fun expanded _ => ?_)
  refine .bind (normalizeMap_leads hs op limit _) fun b s₁ ha hb => ?_
  refine .ite (.pure ha.consistent trivial) (.lift_bind (fun _ _ h => ?_) fun _ _ ha' => ?_)
  · exact setBound_advances ha.consistent hb h
  · exact .pure ha'.consistent trivial

/-- Both bounds may change, one after the other. -/
theorem normalizeBounds_asking (limit : Nat) (op : OpRef) :
    Asking s (normalizeBounds limit op) := by
  refine onName_asking hs (.query fun lower _ => .query fun upper _ => ?_)
  split
  · refine .query fun lowerOperands _ => .query fun upperOperands _ => ?_
    intro c t h
    simp only [Edit.bind_ok, Edit.ite_run, Edit.pure_run] at h
    obtain ⟨first, s₁, hfirst, second, s₂, hsecond, h⟩ := h
    have ha := (normalizeBound_asking hs limit op .lower _ first s₁ hfirst).1
    have ha' := (normalizeBound_asking ha.consistent limit op .upper _ second s₂ hsecond).1
    split at h
    · cases h
      exact ⟨ha.trans ha', trivial⟩
    · cases h
      exact ⟨ha.trans ha', trivial⟩
  · exact .pure hs trivial

end Patterns

/-! ## Branches -/

theorem Advancing.query_bind {q : Store → Except Fault α} {f : α → Edit β}
    (hf : ∀ a, Advancing (f a)) : Advancing (IR.query q >>= f) :=
  .bind (.query q) hf

theorem Advancing.sumM {f : α → Edit Nat} (hf : ∀ a, Advancing (f a)) (l : List α) :
    Advancing (sumM f l) := by
  induction l with
  | nil => exact .pure _
  | cons a l ih => exact .bind (hf a) fun _ => .bind ih fun _ => .pure _

theorem retargetBlock_advancing (source target : OpName) (b : BlockRef) :
    Advancing (retargetBlock source target b) := by
  refine .query_bind fun bd => ?_
  split
  · exact .pure _
  · intro s n t hs h
    rw [Edit.query_bind] at h
    obtain ⟨d, hd, h⟩ := h
    split at h
    · cases h
      exact .refl hs
    · obtain ⟨new, s₁, hcreate, h⟩ := Edit.bind_ok.1 h
      have ha := createOp_advances hs (fun v hv => hs.present_operand (op_ok.1 hd) hv) hcreate
      refine ha.trans (Advancing.bind (.insertOp b (some _) new) (fun _ => ?_)
        s₁ n t ha.consistent h)
      exact .bind (.eraseOp _) fun _ => .pure _

theorem retargetTerminators_advancing (source target : OpName) (r : RegionRef) :
    Advancing (retargetTerminators source target r) :=
  .query_bind fun _ => .sumM (retargetBlock_advancing source target) _

/-- A new region with a block and its terminator is consistent. -/
theorem regionWithTerminator_advancing (o : OpRef) : Advancing (regionWithTerminator o) := by
  refine .bind (fun _ _ _ hs h => createBlock_advances hs h) fun b => ?_
  exact .bind (.insertOp b none o) fun _ => fun _ _ _ hs h => createRegion_advances hs h

/-- Branches move to new regions of a new operation. -/
theorem moveBranches_advancing (op : OpRef) : Advancing (moveBranches op) := by
  have htake : Advancing (takeRegions op) := fun _ _ _ hs h => takeRegions_advances hs h
  have hyield : Advancing (createOp (yieldSpec affineYieldName [])) :=
    fun _ _ _ hs h => createOp_advances hs .nil h
  refine .query_bind fun d => ?_
  extract_lets second rest
  -- whichever else region was found, the rest of the move advances
  have hrest : ∀ elseRegion, Advancing (rest elseRegion) := by
    intro elseRegion
    refine .query_bind fun r => .bind htake fun _ =>
      .bind (retargetTerminators_advancing _ _ r) fun _ => ?_
    cases elseRegion with
    | some r' => exact .bind (retargetTerminators_advancing _ _ r') fun _ => .pure _
    | none =>
      exact .bind hyield fun o => .bind (regionWithTerminator_advancing o) fun _ => .pure _
  cases second with
  | none => exact .bind (.pure none) hrest
  | some r =>
    exact .query_bind fun rd => .ite (.bind (.pure none) hrest) (.bind (.pure (some r)) hrest)

/-- A conditional is replaced by one that takes over its branches. -/
theorem raiseConditional_asking (hs : Consistent s) (limit : Nat) (op : OpRef) :
    Asking s (raiseConditional limit op) := by
  refine onName_asking hs (.query fun d _ => .ite (.pure hs trivial) (.query fun inLoop _ => ?_))
  refine .ite (.pure hs trivial) (.query fun condition _ => .query fun guard _ => ?_)
  cases guard with
  | none => exact .pure hs trivial
  | some guard =>
    refine .transaction (.bind (normalizeSet_leads hs op limit _) fun b s₁ ha hb => ?_)
    refine .ask_bind fun d' _ => .lift_bind (fun _ _ h => ?_) fun regions s₂ ha' => ?_
    · exact moveBranches_advancing op s₁ _ _ ha.consistent h
    · exact .replaceBy ha'.consistent (hb.later ha')

/-- Every pattern of the list asks for what can be carried out. -/
theorem patterns_asking {limit : Nat} {pattern : Pattern} (hp : pattern ∈ patterns limit)
    (hs : Consistent s) (op : OpRef) : Asking s (pattern op) := by
  simp only [patterns, List.mem_cons, List.not_mem_nil, or_false] at hp
  rcases hp with rfl | rfl | rfl | rfl | rfl | rfl | rfl | rfl
  · exact raiseApply_asking hs limit op
  · exact foldIndexCast_asking hs op
  · exact normalizeAccess_asking hs limit op
  · exact normalizeCondition_asking hs limit op
  · exact raiseStore_asking hs limit op
  · exact raiseConditional_asking hs limit op
  · exact raiseLoad_asking hs limit op
  · exact normalizeBounds_asking hs limit op

/-! ## Visits -/

/-- Results are replaced by values, one by one. -/
theorem replaceResults_advances (hs : Consistent s) {op : OpRef} {vs : List ValueRef} {u : Unit}
    (hvs : AllPresent s vs) (h : replaceResults op vs s = .ok (u, t)) : Advances s t := by
  rw [replaceResults, Edit.get_bind] at h
  split at h
  · cases h
  · exact replaceEach_advances hs (fun p hp => hvs _ (List.of_mem_zip hp).2) h

/-- What was asked for is carried out, and the operation is erased. -/
theorem applyChange_advances (hs : Consistent s) {op : OpRef} {c : Change} {u : Unit}
    (hc : Given s c) (h : applyChange op c s = .ok (u, t)) : Advances s t := by
  cases c with
  | none =>
    cases h
    exact .refl hs
  | inPlace =>
    cases h
    exact .refl hs
  | eraseFor vs =>
    obtain ⟨_, s₁, hreplace, herase⟩ := Edit.bind_ok.1 h
    have ha := replaceResults_advances hs hc hreplace
    exact ha.trans (eraseOp_advances ha.consistent herase)
  | replaceBy new =>
    rw [applyChange, Edit.query_bind] at h
    obtain ⟨d, _, h⟩ := h
    rw [Edit.get_bind] at h
    obtain ⟨_, s₁, hreplace, h⟩ := Edit.bind_ok.1 h
    have ha := replaceResults_advances hs (fun v hv => hs.present_result hv) hreplace
    cases hparent : d.parent with
    | none =>
      simp only [hparent] at h
      exact ha.trans (Advancing.eraseOp op s₁ u t ha.consistent h)
    | some b =>
      simp only [hparent] at h
      refine ha.trans (Advancing.bind (.insertOp b (some op) new) (fun _ => ?_)
        s₁ u t ha.consistent h)
      exact .eraseOp op

section Visits

variable {ps : List Pattern} (hps : ∀ pattern ∈ ps, ∀ s op, Consistent s → Asking s (pattern op))

include hps

/-- The first pattern that applies is carried out. -/
theorem applyFirst_advancing (op : OpRef) : Advancing (applyFirst op ps) := by
  induction ps with
  | nil => exact .pure _
  | cons pattern ps ih =>
    intro s b t hs h
    obtain ⟨c, s₁, hpattern, h⟩ := Edit.bind_ok.1 h
    obtain ⟨ha, hc⟩ := hps pattern List.mem_cons_self s op hs c s₁ hpattern
    have happly : ∀ {u s₂}, applyChange op c s₁ = .ok (u, s₂) → Advances s s₂ := fun h =>
      ha.trans (applyChange_advances ha.consistent hc h)
    cases c with
    | none =>
      exact ha.trans (ih (fun q hq => hps q (List.mem_cons_of_mem pattern hq))
        s₁ b t ha.consistent h)
    | _ =>
      obtain ⟨_, s₂, hchange, h⟩ := Edit.bind_ok.1 h
      cases h
      exact happly hchange

/-- Regions are visited before the operation itself. -/
theorem visitOpWith_advancing {visit : RegionRef → Edit Nat} (hvisit : ∀ r, Advancing (visit r))
    (b : BlockRef) (op : OpRef) : Advancing (visitOpWith visit ps b op) := by
  have hin : Advancing (isIn b op) := .query_bind fun _ => .pure _
  refine .bind hin fun _ => .ite (.pure _) (.query_bind fun d => ?_)
  refine .bind (.sumM hvisit d.regions) fun nested => .bind hin fun _ => .ite (.pure _) ?_
  exact .bind (applyFirst_advancing hps op) fun _ => .ite (.pure _) (.pure _)

/-- By induction on the depth of the visit. -/
theorem visitWithin_advancing (depth : Nat) : ∀ r, Advancing (visitWithin ps depth r) := by
  induction depth with
  | zero =>
    intro r s n t _ h
    cases h
  | succ depth ih =>
    intro r
    refine .query_bind fun d => .sumM (fun b => .query_bind fun bd => ?_) d.blocks
    exact .sumM (visitOpWith_advancing hps ih b) bd.ops

/-- A visit to a module, whatever it changes, leads from consistent stores to consistent ones. -/
theorem visitModule_advancing (root : OpRef) : Advancing (visitModule ps root) := by
  intro s n t hs h
  rw [visitModule, Edit.get_bind, Edit.query_bind] at h
  obtain ⟨d, _, h⟩ := h
  cases hregions : d.regions with
  | nil =>
    simp only [hregions] at h
    cases h
    exact .refl hs
  | cons r rs =>
    simp only [hregions] at h
    exact visitWithin_advancing hps s.depthBound r s n t hs h

end Visits

end AffineRaising.Raise
