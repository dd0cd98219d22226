/-
# AffineRaising.Proofs.Raise.Consistency — raising keeps a store consistent.

Every edit that a pattern makes keeps parent links and recorded uses in step, and operands values of
the store, as long as the operands it is given are values.  Those that a composition returns are:
each was looked at before it is returned, or is a cast that is there: `composeMap_leads`.

`Advances` adds to consistency that no value is lost, so what was a value when it was looked at
still is one when it is used.  Runs come in three layers, and each has its predicate: an edit that
advances from whatever consistent store it starts in (`Advancing`), and a composition that leads
from one given store to consistent ones in which its result has a property (`Compose.Leads`).
-/
import AffineRaising.Proofs.Raise.Decline

namespace AffineRaising.Raise

open AffineRaising.IR AffineRaising.IR.Store AffineRaising.Ops AffineRaising.Analysis
open AffineRaising.Transform

variable {α β : Type} {J J' : Journal} {s s₁ t : Store}

/-- The value is in the table of the store. -/
def Present (s : Store) (v : ValueRef) : Prop := ∃ d, s.value? v = some d

/-- The later store is consistent, and no value went away. -/
structure Advances (s t : Store) : Prop where
  consistent : Consistent t
  present : ∀ v, Present s v → Present t v

namespace Advances

theorem refl (hs : Consistent s) : Advances s s := ⟨hs, fun _ h => h⟩

/-- Advances follow one another. -/
theorem trans (h : Advances s s₁) (h' : Advances s₁ t) : Advances s t :=
  ⟨h'.consistent, fun v hv => h'.present v (h.present v hv)⟩

/-- A consistent store with the same table of values is an advance. -/
theorem of_values (ht : Consistent t) (h : t.values = s.values) : Advances s t := by
  refine ⟨ht, fun v hv => ?_⟩
  obtain ⟨d, hd⟩ := hv
  exact ⟨d, by rw [Store.value?, h]; exact hd⟩

end Advances

/-- The values are all in the table of the store. -/
def AllPresent (s : Store) (vs : List ValueRef) : Prop := ∀ v ∈ vs, Present s v

theorem AllPresent.later {vs : List ValueRef} (h : AllPresent s vs) (ha : Advances s t) :
    AllPresent t vs :=
  fun v hv => ha.present v (h v hv)

/-- Operands are values, as a consistent store is grounded. -/
theorem Consistent.present_operand (hs : Consistent s) {o : OpRef} {d : OpData}
    (hd : s.op? o = some d) {v : ValueRef} (hv : v ∈ d.operands) : Present s v :=
  hs.grounded o d v hd hv

/-- The results of an operation are values. -/
theorem Consistent.present_result (hs : Consistent s) {o : OpRef} {v : ValueRef}
    (hv : v ∈ s.resultsOf o) : Present s v :=
  value?_of_mem_resultsOf hs.linked hv

/-! ## Edits -/

section Edits

variable (hs : Consistent s)

include hs

/-- An operation over values can be created. -/
theorem createOp_advances {spec : OpSpec} {o : OpRef} (hoperands : AllPresent s spec.operands)
    (h : createOp spec s = .ok (o, t)) : Advances s t := by
  obtain ⟨⟨gone, hk⟩, hg⟩ := hs
  have hc := createOp_ok h
  refine ⟨⟨⟨gone, (Kept.copyStepsKeep gone).createOp spec s o t hk h⟩, ?_⟩, fun v hv => ?_⟩
  · exact hc.grounded hg hoperands
  · obtain ⟨d, hd⟩ := hv
    exact ⟨d, value?_append hc.values hd⟩

theorem createBlock_advances {types : List Ty} {b : BlockRef}
    (h : createBlock types s = .ok (b, t)) :
    Advances s t := by
  obtain ⟨⟨gone, hk⟩, hg⟩ := hs
  have hc := createBlock_ok h
  have hpresent : ∀ v, Present s v → Present t v := fun v hv =>
    hv.imp fun d hd => value?_append hc.values hd
  refine ⟨⟨⟨gone, (Kept.copyStepsKeep gone).createBlock types s b t hk h⟩, ?_⟩, hpresent⟩
  intro x d v hd hv
  rw [Store.op?, hc.ops] at hd
  exact hpresent v (hg x d v hd hv)

theorem createRegion_advances {bs : List BlockRef} {r : RegionRef}
    (h : createRegion bs s = .ok (r, t)) : Advances s t := by
  obtain ⟨⟨gone, hk⟩, hg⟩ := hs
  have hc := createRegion_ok h
  refine .of_values ⟨⟨gone, (Kept.copyStepsKeep gone).createRegion bs s r t hk h⟩, ?_⟩ hc.values
  intro x d v hd hv
  rw [Store.op?, hc.ops] at hd
  rw [Store.value?, hc.values]
  exact hg x d v hd hv

theorem insertOp_advances {b : BlockRef} {before : Option OpRef} {o : OpRef} {u : Unit}
    (h : insertOp b before o s = .ok (u, t)) : Advances s t := by
  obtain ⟨⟨gone, hk⟩, hg⟩ := hs
  refine .of_values ⟨⟨gone, hk.insertOp h⟩, hg.insertOp h⟩ ?_
  obtain ⟨_, _, _, _, _, _, _, _, _, _, rfl⟩ := insertOp_ok h
  rfl

/-- Erasing leaves the values in their table. -/
theorem eraseOp_advances {o : OpRef} {u : Unit} (h : eraseOp o s = .ok (u, t)) : Advances s t := by
  obtain ⟨⟨gone, hk⟩, hg⟩ := hs
  obtain ⟨out, he, _⟩ := eraseOp_ok hk.linked hk.uses.pointsBack h
  exact .of_values ⟨⟨_, hk.eraseOp h⟩, he.grounded hg⟩ he.values

theorem takeRegions_advances {o : OpRef} {rs : List RegionRef} (h : takeRegions o s = .ok (rs, t)) :
    Advances s t := by
  obtain ⟨⟨gone, hk⟩, hg⟩ := hs
  obtain ⟨d, hd, _, hf⟩ := takeRegions_ok h
  refine .of_values ⟨⟨gone, hk.takeRegions h⟩, ?_⟩ hf.values
  have hset : Grounded (s.setOp o { d with regions := [] }) :=
    hg.setOp hd fun v hv => hg o d v hd hv
  intro x e v he hv
  rw [Store.op?, hf.ops] at he
  rw [Store.value?, hf.values]
  exact hset x e v he hv

theorem setAttr_advances {o : OpRef} {key : String} {a : Attr} {u : Unit}
    (h : setAttr o key a s = .ok (u, t)) : Advances s t := by
  obtain ⟨⟨gone, hk⟩, hg⟩ := hs
  obtain ⟨d, hd, rfl⟩ := setAttr_ok h
  refine .of_values ⟨⟨gone, hk.of_size (hk.linked.setOp hd rfl) (hk.uses.setOp hd rfl) ?_⟩, ?_⟩ rfl
  · simp [Store.setOp]
  · exact hg.setOp hd fun v hv => hg o d v hd hv

/-- The operands of an operation can be replaced by values. -/
theorem setOperands_advances {o : OpRef} {operands : List ValueRef} {u : Unit}
    (hoperands : AllPresent s operands) (h : setOperands o operands s = .ok (u, t)) :
    Advances s t := by
  obtain ⟨⟨gone, hk⟩, hg⟩ := hs
  obtain ⟨d, hd, hset⟩ := setOperands_ok h
  refine .of_values ⟨⟨_, hk.revive hd hset⟩, ?_⟩ hset.values
  have hgrounded : Grounded (s.setOp o { d with operands := operands }) := hg.setOp hd hoperands
  intro x e v he hv
  rw [Store.op?, hset.ops] at he
  rw [Store.value?, hset.values]
  exact hgrounded x e v he hv

/-- A value can be replaced by another one. -/
theorem replaceAllUses_advances {old new : ValueRef} {u : Unit} (hnew : Present s new)
    (h : replaceAllUses old new s = .ok (u, t)) : Advances s t := by
  have hs' := hs
  obtain ⟨⟨gone, hk⟩, hg⟩ := hs
  have hkept := hk.replaceAllUses h
  obtain ⟨_, rfl⟩ | ⟨_, hr⟩ := replaceAllUses_ok h
  · exact .refl hs'
  · refine .of_values ⟨⟨gone, hkept⟩, ?_⟩ hr.values
    intro x e v he hv
    rw [hr.op?] at he
    obtain ⟨d, hd, rfl⟩ := Option.map_eq_some_iff.1 he
    rw [Store.value?, hr.values]
    -- the slot held the value before, or it holds the new one now
    obtain ⟨i, hi⟩ := List.mem_iff_getElem?.1 hv
    rw [List.getElem?_mapIdx] at hi
    obtain ⟨w, hw, rfl⟩ := Option.map_eq_some_iff.1 hi
    split
    · exact hnew
    · exact hg x d w hd (List.mem_of_getElem? hw)

end Edits

/-! ## Runs of edits -/

/-- From consistent stores the edit leads to consistent ones. -/
def Advancing (e : Edit α) : Prop := ∀ s a t, Consistent s → e s = .ok (a, t) → Advances s t

namespace Advancing

theorem pure (a : α) : Advancing (pure a) := by
  rintro s _ _ hs ⟨⟩
  exact .refl hs

theorem query (q : Store → Except Fault α) : Advancing (query q) := by
  intro s a t hs h
  obtain ⟨_, rfl⟩ := Edit.query_ok.1 h
  exact .refl hs

/-- Edits that advance do so one after the other. -/
theorem bind {e : Edit α} {f : α → Edit β} (he : Advancing e) (hf : ∀ a, Advancing (f a)) :
    Advancing (e >>= f) := by
  intro s b t hs h
  obtain ⟨a, s₁, ha, hb⟩ := Edit.bind_ok.1 h
  have hfirst := he s a s₁ hs ha
  exact hfirst.trans (hf a s₁ b t hfirst.consistent hb)

theorem ite {c : Prop} [Decidable c] {e e' : Edit α} (h : Advancing e) (h' : Advancing e') :
    Advancing (if c then e else e') := by
  split
  · exact h
  · exact h'

/-- A loop over edits that advance does so. -/
theorem forM {f : α → Edit PUnit} (hf : ∀ a, Advancing (f a)) (l : List α) :
    Advancing (l.forM f) := by
  induction l with
  | nil => exact .pure _
  | cons a l ih => exact .bind (hf a) fun _ => ih

theorem insertOp (b : BlockRef) (before : Option OpRef) (o : OpRef) :
    Advancing (insertOp b before o) :=
  fun _ _ _ hs h => insertOp_advances hs h

theorem eraseOp (o : OpRef) : Advancing (eraseOp o) := fun _ _ _ hs h => eraseOp_advances hs h

end Advancing

/-- Values can be replaced by values, pair by pair. -/
theorem replaceEach_advances {ps : List (ValueRef × ValueRef)} {u : Unit} :
    ∀ {s t : Store}, Consistent s → (∀ p ∈ ps, Present s p.2) →
      replaceEach ps s = .ok (u, t) → Advances s t := by
  induction ps with
  | nil =>
    intro s t hs _ h
    cases h
    exact .refl hs
  | cons p ps ih =>
    intro s t hs hps h
    obtain ⟨_, s₁, hfirst, hrest⟩ := Edit.bind_ok.1 h
    have hadvance := replaceAllUses_advances hs (hps p List.mem_cons_self) hfirst
    refine hadvance.trans (ih hadvance.consistent (fun q hq => ?_) hrest)
    exact hadvance.present q.2 (hps q (List.mem_cons_of_mem p hq))

theorem forM_replaceAllUses_eq (ps : List (ValueRef × ValueRef)) :
    (ps.forM fun p => replaceAllUses p.1 p.2) = replaceEach ps := by
  induction ps with
  | nil => rfl
  | cons p ps ih =>
    rw [replaceEach, ← ih]
    rfl

theorem redirectResults_advancing (source target : OpRef) :
    Advancing (Journal.redirectResults source target) := by
  intro s u t hs h
  have h : (((s.resultsOf source).zip (s.resultsOf target)).forM fun p =>
      replaceAllUses p.1 p.2) s = .ok (u, t) := h
  rw [forM_replaceAllUses_eq] at h
  exact replaceEach_advances hs (fun p hp => hs.present_result (List.of_mem_zip hp).2) h

/-- Undoing a step of a journal leads to consistent stores. -/
theorem undo_advancing (e : Entry) : Advancing (Journal.undo e) := by
  cases e with
  | hoisted source block before clone =>
    exact .bind (redirectResults_advancing clone source) fun _ =>
      .bind (.insertOp block before source) fun _ => .eraseOp clone
  | inserted o => exact .eraseOp o

/-- Rolling back a journal leads to consistent stores. -/
theorem rollback_advancing (J : Journal) : Advancing (Journal.rollback J) :=
  .forM undo_advancing J.reverse

/-- Committing a journal leads to consistent stores. -/
theorem commit_advancing (J : Journal) : Advancing (Journal.commit J) := by
  induction J with
  | nil => exact .pure _
  | cons e J ih =>
    cases e with
    | hoisted source block before clone => exact .bind (.eraseOp source) fun _ => ih
    | inserted o => exact ih

/-! ## Compositions -/

/-- A hoist and a cast lead to consistent stores, where no value is lost. -/
theorem ComposeStep.advances {x y : Journal × Store} (h : ComposeStep x y)
    (hx : Consistent x.2) : Advances x.2 y.2 := by
  obtain ⟨_, _, hstep⟩ := h.undoable
  refine ⟨(hstep hx).1, fun v hv => ?_⟩
  obtain ⟨d, hd⟩ := hv
  rcases h with hhoist | hcast
  · obtain ⟨o, p, c, _, h⟩ := hhoist
    obtain ⟨⟨gone, hk⟩, hg⟩ := hx
    obtain ⟨b, before, sc, si, sr, m, h, _, _⟩ := hoist_hoisted hk hg h
    obtain ⟨_, e, bd, _, _, _, _, ht⟩ := h.detached
    refine ⟨d, ?_⟩
    rw [ht]
    show sr.value? v = some d
    rw [Store.value?, h.redirected.1.values]
    exact h.placed.value? hd
  · have horigin : x.2.originOf v = some d.origin := by rw [originOf, hd, Option.map_some]
    obtain ⟨a, ha, _⟩ := Option.map_eq_some_iff.1 (hcast.extend.originOf v _ horigin)
    exact ⟨a, ha⟩

/-- So does any number of them. -/
theorem composed_advances {x y : Journal × Store} (hx : Consistent x.2)
    (h : Relation.ReflTransGen ComposeStep x y) : Advances x.2 y.2 := by
  induction h with
  | refl => exact .refl hx
  | tail _ hstep ih => exact ih.trans (hstep.advances ih.consistent)

/-- Every operand was looked at before it was kept or cast. -/
theorem indexOperands_sources {anchor : OpRef} {vs : List ValueRef} :
    ∀ {casts : List (ValueRef × ValueRef)} {cs : List ValueRef} {J J' : Journal} {s t : Store},
      Consistent s → indexOperands anchor casts vs J s = .ok ((.ok cs, J'), t) →
      AllPresent t vs := by
  induction vs with
  | nil =>
    intro casts cs J J' s t _ _ v hv
    cases hv
  | cons w vs ih =>
    intro casts cs J J' s t hs h
    have hall := composed_advances (x := (J, s)) (y := (J', t)) hs
      (((indexOperands_follows anchor (w :: vs) casts).mono .inr) J s _ J' t h)
    unfold indexOperands at h
    rw [Compose.ask_bind] at h
    obtain ⟨ty, hty, h⟩ := h
    have hw : Present s w := by
      simp only [Store.typeOf, except_bind_ok, value_ok] at hty
      obtain ⟨d, hd, _⟩ := hty
      exact ⟨d, hd⟩
    -- the rest is handled in a consistent store, however the first operand was
    suffices hrest : ∃ casts' cs' J₁ s₁, Consistent s₁ ∧
        indexOperands anchor casts' vs J₁ s₁ = .ok ((.ok cs', J'), t) by
      obtain ⟨_, _, _, _, hs₁, hrest⟩ := hrest
      intro v hv
      rcases List.mem_cons.1 hv with rfl | hv
      · exact hall.present _ hw
      · exact ih hs₁ hrest v hv
    split at h
    · rw [Compose.bind_ok] at h
      obtain ⟨cs', J₁, s₁, hrest, h⟩ := h
      obtain ⟨_, rfl, rfl⟩ := Compose.pure_ok.1 h
      exact ⟨_, _, _, _, hs, hrest⟩
    · cases hlookup : casts.lookup w with
      | some c =>
        simp only [hlookup] at h
        rw [Compose.bind_ok] at h
        obtain ⟨cs', J₁, s₁, hrest, h⟩ := h
        obtain ⟨_, rfl, rfl⟩ := Compose.pure_ok.1 h
        exact ⟨_, _, _, _, hs, hrest⟩
      | none =>
        simp only [hlookup] at h
        rw [Compose.bind_ok] at h
        obtain ⟨c, J₁, s₁, hcast, h⟩ := h
        rw [Compose.bind_ok] at h
        obtain ⟨cs', J₂, s₂, hrest, h⟩ := h
        obtain ⟨_, rfl, rfl⟩ := Compose.pure_ok.1 h
        have hfirst := composed_advances (x := (J, s)) (y := (J₁, s₁)) hs
          (((indexCastOf_follows anchor w).mono .inr) J s _ J₁ s₁ hcast)
        exact ⟨_, _, _, _, hfirst.consistent, hrest⟩

/-- Casts of values are values. -/
theorem casts_present {vs cs : List ValueRef}
    (h : List.Forall₂ (fun v c => c = v ∨ IsCast t v c) vs cs) (hvs : AllPresent t vs) :
    AllPresent t cs := by
  induction h with
  | nil => exact hvs
  | cons hcast _ ih =>
    intro v hv
    rcases List.mem_cons.1 hv with rfl | hv
    · rcases hcast with rfl | ⟨o, k, d, horigin, _⟩
      · exact hvs _ List.mem_cons_self
      · obtain ⟨a, ha, _⟩ := Option.map_eq_some_iff.1 horigin
        exact ⟨a, ha⟩
    · exact ih (fun w hw => hvs w (List.mem_cons_of_mem _ hw)) v hv

/-- The assignment that knows the constants of a store, and nothing else. -/
def constants (s : Store) : Assignment := fun v =>
  match constantOf? s v with
  | .ok (some c) => c.toInt
  | _ => 0

/-- This assignment gives every constant its number. -/
theorem constants_known (s : Store) (v : ValueRef) : KnowsConstant s (constants s) v := by
  intro c hc
  rw [constants, hc]

/-- A round of rebinding binds nothing new. -/
theorem rebindOnce_operands {b next : Binding} (h : rebindOnce s b = .ok next) :
    ∀ v ∈ next.operands, v ∈ b.operands := by
  simp only [rebindOnce, except_bind_ok] at h
  obtain ⟨⟨symExprs, p⟩, hsyms, ⟨dimExprs, p'⟩, hdims, m, hm, h⟩ := h
  cases h
  have hbs := rebindList_binds (P := (· ∈ b.operands)) b.map.usesSymbol
    (fun _ _ v _ _ hv hrun => rebindSymbol_binds hv (constants_known s v) hrun)
    (fun _ => List.mem_of_mem_drop) hsyms
  have hbd := rebindList_binds (P := (· ∈ b.operands)) b.map.usesDim
    (fun _ _ v _ _ hv hrun => rebindDim_binds hv (constants_known s v) hrun)
    (fun _ => List.mem_of_mem_take) hdims
  exact hbd.all (hbs.all fun v hv => by cases hv)

/-- However many rounds there are, they bind nothing new. -/
theorem rebindFuel_operands (n : Nat) : ∀ {b b' : Binding}, rebindFuel s n b = .ok b' →
    ∀ v ∈ b'.operands, v ∈ b.operands := by
  induction n with
  | zero =>
    intro b b' h
    cases h
  | succ n ih =>
    intro b b' h v hv
    simp only [rebindFuel, except_bind_ok] at h
    obtain ⟨next, hnext, h⟩ := h
    split at h
    · cases h
      exact rebindOnce_operands hnext v hv
    · exact rebindOnce_operands hnext v (ih h v hv)

namespace Compose

/-- From the store, the composition leads to consistent ones, where what it yields is as `Q` says.
-/
def Leads (s : Store) (x : Compose α) (Q : Store → α → Prop) : Prop :=
  ∀ J r J' t, x J s = .ok ((r, J'), t) → Advances s t ∧ ∀ a, r = .ok a → Q t a

namespace Leads

variable {P : Store → α → Prop} {Q : Store → β → Prop}

theorem pure {a : α} (hs : Consistent s) (ha : P s a) : Leads s (pure a) P := by
  intro J r J' t h
  obtain ⟨rfl, _, rfl⟩ := pure_ok.1 h
  exact ⟨.refl hs, fun b hb => by cases hb; exact ha⟩

theorem bind {x : Compose α} {f : α → Compose β} (hx : Leads s x P)
    (hf : ∀ a s₁, Advances s s₁ → P s₁ a → Leads s₁ (f a) Q) : Leads s (x >>= f) Q := by
  intro J r J' t h
  cases r with
  | ok b =>
    obtain ⟨a, J₁, s₁, hfirst, hrest⟩ := bind_ok.1 h
    obtain ⟨hadvance, ha⟩ := hx J _ J₁ s₁ hfirst
    obtain ⟨hadvance', hb⟩ := hf a s₁ hadvance (ha a rfl) J₁ _ J' t hrest
    exact ⟨hadvance.trans hadvance', hb⟩
  | error e =>
    refine ⟨?_, fun b hb => by cases hb⟩
    rcases bind_error.1 h with h | ⟨a, J₁, s₁, hfirst, hrest⟩
    · exact (hx J _ J' t h).1
    · obtain ⟨hadvance, ha⟩ := hx J _ J₁ s₁ hfirst
      exact hadvance.trans (hf a s₁ hadvance (ha a rfl) J₁ _ J' t hrest).1

/-- A query changes nothing, so what follows starts in the same store. -/
theorem ask_bind {q : Store → Except Fault α} {f : α → Compose β}
    (hf : ∀ a, q s = .ok a → Leads s (f a) Q) : Leads s (Compose.ask q >>= f) Q := by
  intro J r J' t h
  obtain ⟨a, ha, h⟩ := Compose.ask_bind.1 h
  exact hf a ha J r J' t h

/-- An edit that advances may come first. -/
theorem lift_bind {e : Edit α} {f : α → Compose β} (he : ∀ a s₁, e s = .ok (a, s₁) → Advances s s₁)
    (hf : ∀ a s₁, Advances s s₁ → Leads s₁ (f a) Q) : Leads s (Compose.lift e >>= f) Q := by
  intro J r J' t h
  obtain ⟨a, s₁, hfirst, hrest⟩ := Compose.lift_bind.1 h
  have hadvance := he a s₁ hfirst
  obtain ⟨hadvance', hb⟩ := hf a s₁ hadvance J r J' t hrest
  exact ⟨hadvance.trans hadvance', hb⟩

theorem ite {c : Prop} [Decidable c] {x y : Compose α} (hx : Leads s x P) (hy : Leads s y P) :
    Leads s (if c then x else y) P := by
  split
  · exact hx
  · exact hy

end Leads

end Compose

section Normalizing

variable (hs : Consistent s) (anchor : OpRef) (limit : Nat)

include hs

/-- The operands to which a composition comes are values. -/
theorem composeMap_leads (b : Binding) :
    Compose.Leads s (composeMap anchor limit b) fun t c => AllPresent t c.operands := by
  intro J r J' t h
  refine ⟨composed_advances (x := (J, s)) (y := (J', t)) hs
    (composeMap_steps anchor limit b J s r J' t h), ?_⟩
  rintro c rfl
  obtain ⟨b₁, J₁, s₁, hsteps, hcasts, _⟩ := composeMap_ok h
  have hs₁ := composed_advances (x := (J, s)) (y := (J₁, s₁)) hs
    ((composeSteps_follows limit b).mono .inl J s _ J₁ s₁ hsteps)
  obtain ⟨⟨gone, hk⟩, _⟩ := hs₁.consistent
  exact casts_present (indexOperands_casts hk (fun p hp => by cases hp) hcasts)
    (indexOperands_sources hs₁.consistent hcasts)

/-- The operands of a normalized map are values. -/
theorem normalizeMap_leads (b : Binding) :
    Compose.Leads s (normalizeMap anchor limit b) fun t c => AllPresent t c.operands := by
  refine .bind (composeMap_leads hs anchor limit b) fun c s₁ hadvance hc => ?_
  intro J r J' t h
  obtain ⟨b', hb', rfl, _, rfl⟩ := Compose.ask_ok.1 h
  refine ⟨.refl hadvance.consistent, ?_⟩
  rintro _ ⟨⟩ v hv
  exact hc v (rebindFuel_operands _ hb' v hv)

/-- The operands of a normalized set are values. -/
theorem normalizeSet_leads (b : SetBinding) :
    Compose.Leads s (normalizeSet anchor limit b) fun t c => AllPresent t c.operands := by
  refine .bind (P := fun t c => AllPresent t c.operands) ?_ fun c s₁ hadvance hc => ?_
  · refine .bind (composeMap_leads hs anchor limit b.toBinding) fun c s₁ hadvance hc => ?_
    exact .pure hadvance.consistent hc
  · intro J r J' t h
    obtain ⟨b', hb', rfl, _, rfl⟩ := Compose.ask_ok.1 h
    refine ⟨.refl hadvance.consistent, ?_⟩
    rintro _ ⟨⟩ v hv
    simp only [canonicalizeSet, except_bind_ok] at hb'
    obtain ⟨c', hc', hb'⟩ := hb'
    cases hb'
    exact hc v (rebindFuel_operands _ hc' v hv)

end Normalizing

end AffineRaising.Raise
