/-
# AffineRaising.Proofs.Raise.Cast — casts to the index type.

The last part of a composition replaces operands that are not of the index type by casts: casts that
the program has already, or new ones, each written into the journal.  Either way the cast that
stands for an operand is the result of an index cast of it, so an assignment that satisfies the
definitions gives both the same integer.

Three things are said of them.  A new cast is a step of its own kind (`CastStep`), which hoists
nothing and leaves all definitions as they were (`Extends`).  A cast that is found among the uses of
a value is one that the anchor sees (`usableCast?_some`).  And the list of operands that comes out
has at each position the old operand or a cast of it (`indexOperands_casts`).
-/
import AffineRaising.Proofs.Raise.Promote

namespace AffineRaising.Raise

open AffineRaising.IR AffineRaising.IR.Store AffineRaising.Ops AffineRaising.Analysis

variable {J J' : Journal} {s t : Store} {gone : OpRef → Prop} {v c : ValueRef}

/-! ## Steps -/

/-- A new cast of a value to the index type stands in a block, behind the definition of the
value. -/
def CastStep (x y : Journal × Store) : Prop :=
  ∃ v p cast s₁, Point.afterDefinition? x.2 v = .ok (some p) ∧
    createOp (indexCastSpec v .index) x.2 = .ok (cast, s₁) ∧
    Point.insert p cast s₁ = .ok ((), y.2) ∧ y.1 = x.1 ++ [.inserted cast]

/-- Any number of casts. -/
def Casts : Journal × Store → Journal × Store → Prop := Relation.ReflTransGen CastStep

/-- A place behind a definition is found for values only. -/
theorem afterDefinition?_value {p : Option Point} (h : Point.afterDefinition? s v = .ok p) :
    ∃ e, s.value? v = some e := by
  simp only [Point.afterDefinition?, except_bind_ok, Store.value_ok] at h
  obtain ⟨e, he, _⟩ := h
  exact ⟨e, he⟩

/-- What was there is there, with the same definition. -/
structure Extends (s t : Store) : Prop where
  op? : ∀ o d, s.op? o = some d → t.op? o = some d
  originOf : ∀ v x, s.originOf v = some x → t.originOf v = some x

theorem Extends.refl (s : Store) : Extends s s := ⟨fun _ _ h => h, fun _ _ h => h⟩

theorem Extends.trans {s' : Store} (h : Extends s s') (h' : Extends s' t) : Extends s t :=
  ⟨fun o d hd => h'.op? o d (h.op? o d hd), fun v x hx => h'.originOf v x (h.originOf v x hx)⟩

namespace CastStep

variable {x y : Journal × Store}

theorem hoists (h : CastStep x y) : Journal.hoists y.1 = Journal.hoists x.1 := by
  obtain ⟨v, p, cast, s₁, _, _, _, hJ⟩ := h
  simp [hJ, Journal.hoists, Entry.isHoist]

theorem kept (h : CastStep x y) (hk : Kept x.2 gone) : Kept y.2 gone := by
  obtain ⟨v, p, cast, s₁, _, hcreate, hinsert, _⟩ := h
  exact ((Kept.copyStepsKeep gone).createOp _ _ _ _ hk hcreate).insertOp hinsert

theorem extend (h : CastStep x y) : Extends x.2 y.2 := by
  obtain ⟨v, p, cast, s₁, _, hcreate, hinsert, _⟩ := h
  have hc := createOp_ok hcreate
  obtain ⟨d, bd, front, back, hd, _, _, _, _, _, ht⟩ := insertOp_ok hinsert
  have hnew : x.2.op? cast = none := by rw [hc.eq_next, op?_next]
  rw [ht]
  refine ⟨fun o e he => ?_, fun w a ha => ?_⟩
  · have hne : o ≠ cast := by
      intro h
      rw [h, hnew] at he
      cases he
    rw [op?_attach hd, if_neg hne, hc.op?, if_neg hne, he]
  · show s₁.originOf w = some a
    rw [originOf_append hc.values, if_pos (originOf_lt ha), ha]

end CastStep

theorem Casts.hoists {x y : Journal × Store} (h : Casts x y) :
    Journal.hoists y.1 = Journal.hoists x.1 := by
  induction h with
  | refl => rfl
  | tail _ hstep ih => exact hstep.hoists.trans ih

theorem Casts.kept {x y : Journal × Store} (h : Casts x y) (hk : Kept x.2 gone) :
    Kept y.2 gone := by
  induction h with
  | refl => exact hk
  | tail _ hstep ih => exact hstep.kept ih

/-- New casts leave all definitions as they were. -/
theorem Casts.extend {x y : Journal × Store} (h : Casts x y) : Extends x.2 y.2 := by
  induction h with
  | refl => exact .refl _
  | tail _ hstep ih => exact ih.trans hstep.extend

/-! ## Casts that are there -/

/-- A use yields a cast if it is one to the index type that stands in a block, is a symbol, and is
visible at the anchor. -/
theorem usableCast?_some {anchor : OpRef} {u : Use} :
    usableCast? s anchor u = .ok (some c) ↔
      isNamed s u.user ArithKind.indexCast.opName = .ok true ∧ s.result u.user 0 = .ok c ∧
      (∃ ty, s.typeOf c = .ok ty ∧ ty.isIndex = true) ∧
      (∃ d, s.op u.user = .ok d ∧ d.parent.isNone = false) ∧ isSymbol s c = .ok true ∧
      valueDominates s c anchor = .ok true := by
  constructor
  · intro h
    simp only [usableCast?, except_bind_ok] at h
    obtain ⟨named, hnamed, h⟩ := h
    cases named with
    | false => cases h
    | true =>
      simp only [if_true, except_bind_ok] at h
      obtain ⟨r, hr, ty, hty, h⟩ := h
      cases hindex : ty.isIndex with
      | false => rw [hindex] at h; cases h
      | true =>
        simp only [hindex, Bool.not_true, Bool.false_eq_true, if_false, except_bind_ok] at h
        obtain ⟨d, hd, h⟩ := h
        cases hparent : d.parent.isNone with
        | true => rw [hparent] at h; cases h
        | false =>
          simp only [hparent, Bool.false_eq_true, if_false, except_bind_ok] at h
          obtain ⟨sym, hsym, h⟩ := h
          cases sym with
          | false => cases h
          | true =>
            simp only [Bool.not_true, Bool.false_eq_true, if_false, except_bind_ok] at h
            obtain ⟨dom, hdom, h⟩ := h
            cases dom with
            | false => cases h
            | true =>
              cases h
              exact ⟨hnamed, hr, ⟨ty, hty, hindex⟩, ⟨d, hd, hparent⟩, hsym, hdom⟩
  · rintro ⟨hnamed, hr, ⟨ty, hty, hindex⟩, ⟨d, hd, hparent⟩, hsym, hdom⟩
    simp only [usableCast?, except_bind_ok]
    refine ⟨true, hnamed, ?_⟩
    simp only [if_true, except_bind_ok]
    refine ⟨c, hr, ty, hty, ?_⟩
    simp only [hindex, Bool.not_true, Bool.false_eq_true, if_false, except_bind_ok]
    refine ⟨d, hd, ?_⟩
    simp only [hparent, Bool.false_eq_true, if_false, except_bind_ok]
    refine ⟨true, hsym, ?_⟩
    simp only [Bool.not_true, Bool.false_eq_true, if_false, except_bind_ok]
    exact ⟨true, hdom, rfl⟩

/-- The cast that is found is a use that is usable. -/
theorem firstUsableCast?_some {anchor : OpRef} {us : List Use}
    (h : firstUsableCast? s anchor us = .ok (some c)) :
    ∃ u ∈ us, usableCast? s anchor u = .ok (some c) := by
  induction us with
  | nil => cases h
  | cons u us ih =>
    simp only [firstUsableCast?, except_bind_ok] at h
    obtain ⟨found, hfound, h⟩ := h
    cases found with
    | none =>
      obtain ⟨u', hu', husable⟩ := ih h
      exact ⟨u', List.mem_cons_of_mem u hu', husable⟩
    | some w =>
      cases h
      exact ⟨u, List.mem_cons_self, hfound⟩

theorem firstUsableCast?_none {anchor : OpRef} {us : List Use}
    (h : firstUsableCast? s anchor us = .ok none) :
    ∀ u ∈ us, usableCast? s anchor u = .ok none := by
  induction us with
  | nil => exact fun _ hu => nomatch hu
  | cons u us ih =>
    simp only [firstUsableCast?, except_bind_ok] at h
    obtain ⟨found, hfound, h⟩ := h
    cases found with
    | none => exact List.forall_mem_cons.2 ⟨hfound, ih h⟩
    | some w => cases h

/-! ## Runs -/

/-- A cast is one that is used already, or a new one. -/
theorem indexCastOf_ok {anchor : OpRef} {v : ValueRef} {r : Except ComposeError ValueRef}
    (h : indexCastOf anchor v J s = .ok ((r, J'), t)) :
    (J' = J ∧ t = s ∧ ∀ c, r = .ok c → firstUsableCast? s anchor (s.usesOf v) = .ok (some c)) ∨
      firstUsableCast? s anchor (s.usesOf v) = .ok none ∧
        ∃ p cast s₁, Point.afterDefinition? s v = .ok (some p) ∧
          createOp (indexCastSpec v .index) s = .ok (cast, s₁) ∧
          Point.insert p cast s₁ = .ok ((), t) ∧ J' = J ++ [.inserted cast] ∧
          ∀ c, r = .ok c → t.result cast 0 = .ok c := by
  unfold indexCastOf at h
  rw [Compose.ask_bind] at h
  obtain ⟨found, hfound, h⟩ := h
  cases found with
  | some c =>
    obtain ⟨rfl, rfl, rfl⟩ := Compose.pure_ok.1 h
    exact .inl ⟨rfl, rfl, fun c' hc => by cases hc; exact hfound⟩
  | none =>
    simp only at h
    rw [Compose.ask_bind] at h
    obtain ⟨p?, hp?, h⟩ := h
    cases p? with
    | none =>
      obtain ⟨rfl, rfl, rfl⟩ := Compose.throw_ok.1 h
      exact .inl ⟨rfl, rfl, fun c hc => by cases hc⟩
    | some p =>
      simp only at h
      rw [Compose.ask_bind] at h
      obtain ⟨d, _, h⟩ := h
      rw [Compose.lift_bind] at h
      obtain ⟨cast, s₁, hcreate, h⟩ := h
      rw [Compose.lift_bind] at h
      obtain ⟨_, s₂, hinsert, h⟩ := h
      rw [Compose.draft_bind] at h
      obtain ⟨_, J₁, s₃, hrecord, h⟩ := h
      obtain ⟨rfl, rfl⟩ := Draft.record_ok.1 hrecord
      obtain ⟨c, hc, rfl, rfl, rfl⟩ := Compose.ask_ok.1 h
      exact .inr ⟨hfound, p, cast, s₁, hp?, hcreate, hinsert, rfl,
        fun c' hc' => by cases hc'; exact hc⟩

/-- A cast that is made is written into the journal. -/
theorem indexCastOf_follows (anchor : OpRef) (v : ValueRef) :
    Compose.Follows CastStep (indexCastOf anchor v) := by
  intro J s r J' t h
  obtain ⟨rfl, rfl, _⟩ | ⟨_, p, cast, s₁, hv, hcreate, hinsert, hJ, _⟩ := indexCastOf_ok h
  · exact .refl
  · exact .single ⟨v, p, cast, s₁, hv, hcreate, hinsert, hJ⟩

/-- Operands are cast one by one. -/
theorem indexOperands_follows (anchor : OpRef) (vs : List ValueRef) :
    ∀ casts, Compose.Follows CastStep (indexOperands anchor casts vs) := by
  induction vs with
  | nil => exact fun _ => .pure _
  | cons v vs ih =>
    intro casts
    unfold indexOperands
    refine .bind (.ask _) fun ty => .ite (.bind (ih casts) fun _ => .pure _) ?_
    cases casts.lookup v with
    | some c => exact .bind (ih casts) fun _ => .pure _
    | none =>
      refine .bind (indexCastOf_follows anchor v) fun c => ?_
      exact .bind (ih ((v, c) :: casts)) fun _ => .pure _

/-! ## What the casts stand for -/

/-- Value `c` is the result of an index cast of `v`. -/
def IsCast (s : Store) (v c : ValueRef) : Prop :=
  ∃ o k d, s.originOf c = some (.result o k) ∧ s.op? o = some d ∧
    ArithKind.ofName? d.name = some .indexCast ∧ v ∈ d.operands

/-- A cast stays one when definitions stay. -/
theorem IsCast.mono (h : IsCast s v c) (he : Extends s t) : IsCast t v c := by
  obtain ⟨o, k, d, hc, hd, hname, hv⟩ := h
  exact ⟨o, k, d, he.originOf _ _ hc, he.op? _ _ hd, hname, hv⟩

/-- A cast keeps the integer. -/
theorem IsCast.value {rho : Assignment} {Q : ValueRef → Prop} (h : IsCast s v c)
    (hQ : Readable s rho Q) (hc : Q c) : rho c = rho v := by
  obtain ⟨o, k, d, horigin, hd, hname, hv⟩ := h
  have hop := hQ.op hc horigin hd
  simp only [FoldHolds, OpHolds, hname] at hop
  obtain ⟨a, ha, heq⟩ := hop
  rw [ha, List.mem_singleton] at hv
  rw [heq, hv]

theorem result_zero_ok {o : OpRef} (h : s.result o 0 = .ok v) {d : OpData}
    (hd : s.op? o = some d) : d.results[0]? = some v := by
  unfold Store.result at h
  rw [resultsOf_eq hd] at h
  cases hr : d.results[0]? with
  | none => simp [hr] at h
  | some w =>
    simp only [hr, Except.ok.injEq] at h
    rw [h]

/-- A usable cast among the uses of a value is a cast of it, as recorded uses are exact. -/
theorem usableCast?_isCast {anchor : OpRef} {u : Use} (hk : Kept s gone) (hu : u ∈ s.usesOf v)
    (h : usableCast? s anchor u = .ok (some c)) : IsCast s v c := by
  obtain ⟨hnamed, hresult, _⟩ := usableCast?_some.1 h
  obtain ⟨d, hd, hname⟩ := isNamed_ok.1 hnamed
  have hslot := hk.uses.pointsBack v u hu
  rw [Store.slot?, hd, Option.bind_some] at hslot
  refine ⟨u.user, 0, d, ?_, hd, by rw [beq_iff_eq.1 hname]; rfl, List.mem_of_getElem? hslot⟩
  exact (hk.linked.results.mem_iff (a := u.user) (by simp [resultsIn, hd]) 0 c).1
    (result_zero_ok hresult hd)

/-- What is found or made for a value is a cast of it. -/
theorem indexCastOf_isCast {anchor : OpRef} (hk : Kept s gone)
    (h : indexCastOf anchor v J s = .ok ((.ok c, J'), t)) : IsCast t v c := by
  obtain ⟨_, rfl, hfound⟩ | ⟨_, p, cast, s₁, hv, hcreate, hinsert, hJ, hresult⟩ := indexCastOf_ok h
  · obtain ⟨u, hu, husable⟩ := firstUsableCast?_some (hfound c rfl)
    exact usableCast?_isCast hk hu husable
  · have hkept : Kept t gone :=
      CastStep.kept (x := (J, s)) (y := (J', t)) ⟨v, p, cast, s₁, hv, hcreate, hinsert, hJ⟩ hk
    have hc := createOp_ok hcreate
    obtain ⟨d, bd, front, back, hd, _, _, _, _, _, rfl⟩ := insertOp_ok hinsert
    have hentry : d = (indexCastSpec v .index).entry s := by
      rw [hc.op?, if_pos rfl] at hd
      exact (Option.some.inj hd).symm
    have hop : (s₁.attach cast d p.block bd (front ++ cast :: back)).op? cast =
        some { d with parent := some p.block } := by
      rw [op?_attach hd, if_pos rfl]
    refine ⟨cast, 0, _, ?_, hop, by rw [hentry]; rfl, by simp [hentry, OpSpec.entry, indexCastSpec]⟩
    exact (hkept.linked.results.mem_iff (a := cast) (by rw [resultsIn, hop]; rfl) 0 c).1
      (result_zero_ok (hresult c rfl) hop)

/-- Each operand is kept, or a cast of it stands in its place. -/
theorem indexOperands_casts {anchor : OpRef} {vs : List ValueRef} :
    ∀ {casts : List (ValueRef × ValueRef)} {cs : List ValueRef} {J J' : Journal} {s t : Store},
      Kept s gone → (∀ p ∈ casts, IsCast s p.1 p.2) →
      indexOperands anchor casts vs J s = .ok ((.ok cs, J'), t) →
      List.Forall₂ (fun v c => c = v ∨ IsCast t v c) vs cs := by
  induction vs with
  | nil =>
    intro casts cs J J' s t _ _ h
    obtain ⟨h, _⟩ := Compose.pure_ok.1 h
    cases h
    exact .nil
  | cons v vs ih =>
    intro casts cs J J' s t hk hcasts h
    unfold indexOperands at h
    rw [Compose.ask_bind] at h
    obtain ⟨ty, _, h⟩ := h
    split at h
    · rw [Compose.bind_ok] at h
      obtain ⟨cs', J₁, s₁, hrest, h⟩ := h
      obtain ⟨h, rfl, rfl⟩ := Compose.pure_ok.1 h
      cases h
      exact .cons (.inl rfl) (ih hk hcasts hrest)
    · cases hlookup : casts.lookup v with
      | some c =>
        simp only [hlookup] at h
        rw [Compose.bind_ok] at h
        obtain ⟨cs', J₁, s₁, hrest, h⟩ := h
        obtain ⟨h, rfl, rfl⟩ := Compose.pure_ok.1 h
        cases h
        obtain ⟨front, back, rfl, _⟩ := List.lookup_eq_some_iff.1 hlookup
        have hcast := hcasts (v, c) (by simp)
        have hlater : Casts (J, s) (J₁, s₁) := indexOperands_follows anchor vs _ J s _ _ _ hrest
        exact .cons (.inr (hcast.mono hlater.extend)) (ih hk hcasts hrest)
      | none =>
        simp only [hlookup] at h
        rw [Compose.bind_ok] at h
        obtain ⟨c, J₁, s₁, hcast, h⟩ := h
        rw [Compose.bind_ok] at h
        obtain ⟨cs', J₂, s₂, hrest, h⟩ := h
        obtain ⟨h, rfl, rfl⟩ := Compose.pure_ok.1 h
        cases h
        have hfirst : Casts (J, s) (J₁, s₁) := indexCastOf_follows anchor v J s _ _ _ hcast
        have hlater : Casts (J₁, s₁) (J₂, s₂) :=
          indexOperands_follows anchor vs _ J₁ s₁ _ _ _ hrest
        have hc : IsCast s₁ v c := indexCastOf_isCast hk hcast
        refine .cons (.inr (hc.mono hlater.extend)) (ih (hfirst.kept hk) ?_ hrest)
        intro p hp
        rcases List.mem_cons.1 hp with rfl | hp
        · exact hc
        · exact (hcasts p hp).mono hfirst.extend

end AffineRaising.Raise
