/-
# AffineRaising.Proofs.Raise.Promote — promotion is a sequence of moves.

Before the last casts are made, a composition edits the program only by hoisting operations, and it
writes every move into the journal.  So what a single move keeps, a promotion keeps; and a run after
which the journal holds no more moves than before has left the journal and the store as they were.
-/
import AffineRaising.Proofs.Raise.Chain
import AffineRaising.Proofs.Raise.Run
import AffineRaising.Proofs.Store.Copy

namespace AffineRaising.Raise

open AffineRaising.IR AffineRaising.Ops AffineRaising.Analysis

variable {J J' J'' : Journal} {s s' t : Store}

/-! ## Moves -/

/-- One hoist to a place in a block takes a journal and a store to the next ones. -/
def HoistStep (x y : Journal × Store) : Prop :=
  ∃ o p clone, (∃ bd, x.2.block? p.block = some bd) ∧
    hoist o p x.1 x.2 = .ok ((some clone, y.1), y.2)

/-- Any number of hoists. -/
def Hoists : Journal × Store → Journal × Store → Prop := Relation.ReflTransGen HoistStep

theorem hoist_ok {o : OpRef} {p : Point} {r : Option OpRef}
    (h : hoist o p J s = .ok ((r, J'), t)) : ∃ d, s.op? o = some d ∧
      ((d.parent = none ∧ r = none ∧ J' = J ∧ t = s) ∨
        ∃ b before clone m s₁ s₂ s₃, d.parent = some b ∧ s.next? o = .ok before ∧
          cloneOp [] o s = .ok ((clone, m), s₁) ∧ p.insert clone s₁ = .ok ((), s₂) ∧
          Journal.redirectResults o clone s₂ = .ok ((), s₃) ∧ detach o s₃ = .ok ((), t) ∧
          r = some clone ∧ J' = J ++ [.hoisted o b before clone]) := by
  simp only [hoist, Draft.ask_bind, Store.op_ok] at h
  obtain ⟨d, hd, h⟩ := h
  refine ⟨d, hd, ?_⟩
  cases hp : d.parent with
  | none =>
    simp only [hp, Draft.pure_ok] at h
    obtain ⟨rfl, rfl, rfl⟩ := h
    exact .inl ⟨rfl, rfl, rfl, rfl⟩
  | some b =>
    simp only [hp] at h
    rw [Draft.ask_bind] at h
    obtain ⟨before, hbefore, h⟩ := h
    simp only [Draft.bind_ok, Draft.lift_ok, Draft.record_ok, Draft.pure_ok] at h
    obtain ⟨⟨clone, m⟩, _, s₁, ⟨hclone, rfl⟩, _, _, s₂, ⟨hinsert, rfl⟩, _, _, s₃, ⟨hredirect, rfl⟩,
      _, _, s₄, ⟨hdetach, rfl⟩, _, _, _, ⟨rfl, rfl⟩, rfl, rfl, rfl⟩ := h
    exact .inr ⟨b, before, clone, m, s₁, s₂, s₃, rfl, hbefore, hclone, hinsert, hredirect, hdetach,
      rfl, rfl⟩

theorem hoists_of_hoist {o : OpRef} {p : Point} {r : Option OpRef}
    (hp : ∃ bd, s.block? p.block = some bd) (h : hoist o p J s = .ok ((r, J'), t)) :
    Hoists (J, s) (J', t) := by
  cases r with
  | some clone => exact .single ⟨o, p, clone, hp, h⟩
  | none =>
    obtain ⟨d, _, ⟨_, _, rfl, rfl⟩ | ⟨_, _, _, _, _, _, _, _, _, _, _, _, _, hr, _⟩⟩ := hoist_ok h
    · exact .refl
    · cases hr

theorem redirectResults_blocks {o c : OpRef} {u : Unit}
    (h : Journal.redirectResults o c s = .ok (u, t)) : t.blocks = s.blocks := by
  rw [Journal.redirectResults, Edit.get_bind] at h
  generalize (s.resultsOf o).zip (s.resultsOf c) = pairs at h
  induction pairs generalizing s with
  | nil =>
    cases h
    rfl
  | cons p pairs ih =>
    rw [List.forM_eq_forM, List.forM_cons, Edit.bind_ok] at h
    obtain ⟨_, s₁, hfirst, hrest⟩ := h
    rw [← List.forM_eq_forM] at hrest
    rw [ih hrest]
    obtain ⟨_, rfl⟩ | ⟨_, hr⟩ := replaceAllUses_ok hfirst
    · rfl
    · exact hr.blocks

/-- Blocks stay. -/
theorem HoistStep.block? {x y : Journal × Store} (h : HoistStep x y) {b : BlockRef} {d : BlockData}
    (hb : x.2.block? b = some d) : ∃ e, y.2.block? b = some e := by
  obtain ⟨o, p, clone, _, h⟩ := h
  obtain ⟨_, _, ⟨_, hr, _⟩ |
    ⟨_, _, _, m, s₁, s₂, s₃, _, _, hclone, hinsert, hredirect, hdetach, _⟩⟩ := hoist_ok h
  · cases hr
  · have hcopy := (Grows.copyStepsKeep x.2).cloneOp [] o x.2 _ s₁ (.refl x.2) hclone
    obtain ⟨e, he, _⟩ := (hcopy.trans (Grows.insertOp hinsert)).block? b d hb
    have he : s₃.block? b = some e := by
      rw [Store.block?, redirectResults_blocks hredirect]
      exact he
    obtain ⟨_, _, ⟨_, hsame⟩ | ⟨b', bd, _, hb', heq⟩⟩ := detach_ok hdetach
    · exact ⟨e, hsame ▸ he⟩
    · rw [heq, Store.block?_unlink hb']
      split
      · exact ⟨_, rfl⟩
      · exact ⟨e, he⟩

theorem Hoists.block? {x y : Journal × Store} (h : Hoists x y) {b : BlockRef} {d : BlockData}
    (hb : x.2.block? b = some d) : ∃ e, y.2.block? b = some e := by
  induction h with
  | refl => exact ⟨d, hb⟩
  | tail _ hstep ih =>
    obtain ⟨e, he⟩ := ih
    exact hstep.block? he

/-! ## Promotion -/

/-- A place behind a definition is in a block. -/
theorem afterDefinition?_block {v : ValueRef} {p : Point}
    (h : Point.afterDefinition? s v = .ok (some p)) : ∃ bd, s.block? p.block = some bd := by
  simp only [Point.afterDefinition?, except_bind_ok, Store.value_ok] at h
  obtain ⟨d, _, h⟩ := h
  cases horigin : d.origin with
  | argument b i =>
    simp only [horigin, Point.start, bind_pure_comp, except_map_ok, Store.block_ok] at h
    obtain ⟨_, ⟨bd, hbd, rfl⟩, hp⟩ := h
    cases hp
    exact ⟨bd, hbd⟩
  | result o k =>
    simp only [horigin, Point.after?, except_bind_ok, Store.op_ok] at h
    obtain ⟨od, hod, h⟩ := h
    cases hparent : od.parent with
    | none => simp [hparent] at h
    | some b =>
      simp only [hparent, Store.next?, except_bind_ok, Store.op_ok] at h
      obtain ⟨next, ⟨od', hod', hnext⟩, hp⟩ := h
      cases hod.symm.trans hod'
      simp only [hparent, except_bind_ok, Store.block_ok] at hnext
      obtain ⟨bd, hbd, _⟩ := hnext
      cases hp
      exact ⟨bd, hbd⟩

theorem latestFrom?_mem {ps : List Point} : ∀ {p q : Point},
    latestFrom? s p ps = .ok (some q) → q = p ∨ q ∈ ps := by
  induction ps with
  | nil =>
    intro p q h
    cases h
    exact .inl rfl
  | cons p' ps ih =>
    intro p q h
    simp only [latestFrom?, except_bind_ok] at h
    obtain ⟨order, _, h⟩ := h
    have hmem : q = p ∨ q = p' ∨ q ∈ ps := by
      cases order with
      | none => cases h
      | some order =>
        cases order with
        | lt => exact .inr (ih h)
        | eq => exact (ih h).imp_right .inr
        | gt => exact (ih h).imp_right .inr
    exact hmem.imp_right List.mem_cons.2

theorem latest?_mem {ps : List Point} {p : Point} (h : latest? s ps = .ok (some p)) : p ∈ ps := by
  cases ps with
  | nil => cases h
  | cons q ps => exact List.mem_cons.2 (latestFrom?_mem h)

/-- The rest of `availabilityWith` once it is known whether the first value is available. -/
def availabilityFrom (promote : ValueRef → Draft (Option ValueRef)) (forIndex : Bool)
    (rest : List ValueRef) (available : Option ValueRef) : Draft (Option (List Point)) := do
  match available with
  | none => return none
  | some a =>
    match ← Draft.ask (Point.afterDefinition? · a) with
    | none => return none
    | some p =>
      match ← availabilityWith promote forIndex rest with
      | none => return none
      | some ps => return some (p :: ps)

theorem availabilityWith_cons (promote : ValueRef → Draft (Option ValueRef)) (forIndex : Bool)
    (v : ValueRef) (vs : List ValueRef) : availabilityWith promote forIndex (v :: vs) = (do
      let o? ← Draft.ask (·.definingOp? v)
      let stays ← Draft.ask (staysPut · forIndex v)
      if o?.isSome then promote v >>= availabilityFrom promote forIndex vs
      else availabilityFrom promote forIndex vs (if stays then some v else none)) := by
  unfold availabilityWith
  refine congrArg (_ >>= ·) (funext fun o? => congrArg (_ >>= ·) (funext fun stays => ?_))
  cases o? with
  | some o => rfl
  | none => cases stays <;> rfl

section Availability

variable {promote : ValueRef → Draft (Option ValueRef)} {forIndex : Bool} {v : ValueRef}
  {vs : List ValueRef}

/-- The first value was promoted, or it was decided where it stands. -/
theorem availabilityWith_cons_ok {r : Option (List Point)}
    (h : availabilityWith promote forIndex (v :: vs) J s = .ok ((r, J'), t)) :
    ∃ available J₁ s₁, (promote v J s = .ok ((available, J₁), s₁) ∨
        J₁ = J ∧ s₁ = s ∧ (available = none ∨ available = some v)) ∧
      availabilityFrom promote forIndex vs available J₁ s₁ = .ok ((r, J'), t) := by
  rw [availabilityWith_cons] at h
  rw [Draft.ask_bind] at h
  obtain ⟨o?, _, h⟩ := h
  rw [Draft.ask_bind] at h
  obtain ⟨stays, _, h⟩ := h
  cases o? with
  | some o =>
    obtain ⟨available, J₁, s₁, hfirst, hmore⟩ := Draft.bind_ok.1 h
    exact ⟨available, J₁, s₁, .inl hfirst, hmore⟩
  | none => exact ⟨_, J, s, .inr ⟨rfl, rfl, by cases stays <;> simp⟩, h⟩

/-- The other values are made available if the first one is and has a place behind it. -/
theorem availabilityFrom_ok {available : Option ValueRef} {r : Option (List Point)}
    (h : availabilityFrom promote forIndex vs available J s = .ok ((r, J'), t)) :
    (J' = J ∧ t = s ∧ r = none ∧
        ∀ a, available = some a → Point.afterDefinition? s a = .ok none) ∨
      ∃ a p ps?, available = some a ∧ Point.afterDefinition? s a = .ok (some p) ∧
        availabilityWith promote forIndex vs J s = .ok ((ps?, J'), t) ∧ r = ps?.map (p :: ·) := by
  cases available with
  | none =>
    obtain ⟨rfl, rfl, rfl⟩ := Draft.pure_ok.1 h
    exact .inl ⟨rfl, rfl, rfl, fun a ha => by cases ha⟩
  | some a =>
    simp only [availabilityFrom] at h
    rw [Draft.ask_bind] at h
    obtain ⟨p?, hp, h⟩ := h
    cases p? with
    | none =>
      obtain ⟨rfl, rfl, rfl⟩ := Draft.pure_ok.1 h
      exact .inl ⟨rfl, rfl, rfl, fun a ha => by cases ha; exact hp⟩
    | some p =>
      obtain ⟨ps?, J₁, s₁, hmore, h⟩ := Draft.bind_ok.1 h
      refine .inr ⟨a, p, ps?, rfl, hp, ?_⟩
      cases ps? <;>
      · obtain ⟨rfl, rfl, rfl⟩ := Draft.pure_ok.1 h
        exact ⟨hmore, rfl⟩

variable
  (hpromote : ∀ {v J s r J' t}, promote v J s = .ok ((r, J'), t) → Hoists (J, s) (J', t))

include hpromote

/-- Making values available is a sequence of moves, and the places found are in blocks. -/
theorem availabilityWith_ok :
    ∀ {J J' : Journal} {s t : Store} {r : Option (List Point)},
      availabilityWith promote forIndex vs J s = .ok ((r, J'), t) → Hoists (J, s) (J', t) ∧
        ∀ ps, r = some ps → ∀ p ∈ ps, ∃ bd, t.block? p.block = some bd := by
  induction vs with
  | nil =>
    intro J J' s t r h
    obtain ⟨rfl, rfl, rfl⟩ := Draft.pure_ok.1 h
    exact ⟨.refl, fun ps hps p hp => by cases hps; cases hp⟩
  | cons v vs ih =>
    intro J J' s t r h
    obtain ⟨available, J₁, s₁, hfirst, hrest⟩ := availabilityWith_cons_ok h
    have hmoves : Hoists (J, s) (J₁, s₁) := by
      obtain hfirst | ⟨rfl, rfl, _⟩ := hfirst
      · exact hpromote hfirst
      · exact .refl
    obtain ⟨rfl, rfl, rfl, _⟩ | ⟨a, p, ps?, _, hp, hmore, rfl⟩ := availabilityFrom_ok hrest
    · exact ⟨hmoves, fun ps hps => by cases hps⟩
    · obtain ⟨hhoists, hblocks⟩ := ih hmore
      refine ⟨hmoves.trans hhoists, fun qs hqs q hq => ?_⟩
      obtain ⟨ps, rfl, rfl⟩ := Option.map_eq_some_iff.1 hqs
      rcases List.mem_cons.1 hq with rfl | hq
      · obtain ⟨bd, hbd⟩ := afterDefinition?_block hp
        exact hhoists.block? hbd
      · exact hblocks ps rfl q hq

end Availability

/-- The rest of `promoteFuel` once it is known that the definition may be copied. -/
def promoteDefinition (forIndex : Bool) (fuel : Nat) (o : OpRef) : Draft (Option ValueRef) := do
  let free ← Draft.ask (freeOperands · o)
  match ← availabilityWith (promoteFuel forIndex fuel) forIndex free with
  | none => return none
  | some points =>
    match ← Draft.ask (latest? · points) with
    | none => return none
    | some p =>
      match ← hoist o p with
      | none => return none
      | some clone =>
        let s ← Draft.lift get
        return (s.resultsOf clone).head?

/-- The inputs of a definition are made available, and if all of them are and one of the places
behind them is the latest, the definition is moved there. -/
theorem promoteDefinition_ok {forIndex : Bool} {n : Nat} {o : OpRef} {r : Option ValueRef}
    (h : promoteDefinition forIndex n o J s = .ok ((r, J'), t)) :
    ∃ free points J₁ s₁, freeOperands s o = .ok free ∧
      availabilityWith (promoteFuel forIndex n) forIndex free J s = .ok ((points, J₁), s₁) ∧
        ((J' = J₁ ∧ t = s₁ ∧ r = none ∧ ∀ ps, points = some ps → latest? s₁ ps = .ok none) ∨
          ∃ ps p clone, points = some ps ∧ latest? s₁ ps = .ok (some p) ∧
            hoist o p J₁ s₁ = .ok ((clone, J'), t) ∧
              r = clone.bind fun c => (t.resultsOf c).head?) := by
  unfold promoteDefinition at h
  rw [Draft.ask_bind] at h
  obtain ⟨free, hfree, h⟩ := h
  rw [Draft.bind_ok] at h
  obtain ⟨points, J₁, s₁, havail, h⟩ := h
  refine ⟨free, points, J₁, s₁, hfree, havail, ?_⟩
  cases points with
  | none =>
    obtain ⟨rfl, rfl, rfl⟩ := Draft.pure_ok.1 h
    exact .inl ⟨rfl, rfl, rfl, fun ps hps => by cases hps⟩
  | some ps =>
    simp only at h
    rw [Draft.ask_bind] at h
    obtain ⟨p?, hp?, h⟩ := h
    cases p? with
    | none =>
      obtain ⟨rfl, rfl, rfl⟩ := Draft.pure_ok.1 h
      exact .inl ⟨rfl, rfl, rfl, fun ps hps => by cases hps; exact hp?⟩
    | some p =>
      simp only at h
      rw [Draft.bind_ok] at h
      obtain ⟨clone?, J₂, s₂, hhoist, h⟩ := h
      cases clone? with
      | none =>
        obtain ⟨rfl, rfl, rfl⟩ := Draft.pure_ok.1 h
        exact .inr ⟨ps, p, none, rfl, hp?, hhoist, rfl⟩
      | some clone =>
        simp only [Draft.bind_ok, Draft.lift_ok, Edit.get_run, Draft.pure_ok] at h
        obtain ⟨_, _, _, ⟨h, rfl⟩, rfl, rfl, rfl⟩ := h
        cases h
        exact .inr ⟨ps, p, some clone, rfl, hp?, hhoist, rfl⟩

/-- A promotion leaves the value where it is, or makes the inputs of its definition, which at most
reads memory, available and, if that succeeds, moves the definition. -/
theorem promoteFuel_ok {forIndex : Bool} {n : Nat} {v : ValueRef} {r : Option ValueRef}
    (h : promoteFuel forIndex (n + 1) v J s = .ok ((r, J'), t)) :
    (J' = J ∧ t = s ∧ (r = none ∨ r = some v)) ∨
      ∃ o free points J₁ s₁, s.definingOp? v = .ok (some o) ∧ isReadOnly s o = .ok true ∧
        freeOperands s o = .ok free ∧
        availabilityWith (promoteFuel forIndex n) forIndex free J s = .ok ((points, J₁), s₁) ∧
          ((J' = J₁ ∧ t = s₁ ∧ r = none) ∨ ∃ ps p clone, points = some ps ∧
            latest? s₁ ps = .ok (some p) ∧ hoist o p J₁ s₁ = .ok ((clone, J'), t) ∧
              r = clone.bind fun c => (t.resultsOf c).head?) := by
  unfold promoteFuel at h
  rw [Draft.ask_bind] at h
  obtain ⟨stays, _, h⟩ := h
  cases stays with
  | true =>
    obtain ⟨rfl, rfl, rfl⟩ := Draft.pure_ok.1 h
    exact .inl ⟨rfl, rfl, .inr rfl⟩
  | false =>
    simp only [Bool.false_eq_true, if_false] at h
    rw [Draft.ask_bind] at h
    obtain ⟨o?, hdef, h⟩ := h
    cases o? with
    | none =>
      obtain ⟨rfl, rfl, rfl⟩ := Draft.pure_ok.1 h
      exact .inl ⟨rfl, rfl, .inl rfl⟩
    | some o =>
      simp only at h
      rw [Draft.ask_bind] at h
      obtain ⟨isConst, _, h⟩ := h
      cases isConst with
      | true =>
        obtain ⟨rfl, rfl, rfl⟩ := Draft.pure_ok.1 h
        exact .inl ⟨rfl, rfl, .inr rfl⟩
      | false =>
        simp only [Bool.false_eq_true, if_false] at h
        rw [Draft.ask_bind] at h
        obtain ⟨reads, hreads, h⟩ := h
        cases reads with
        | false =>
          obtain ⟨rfl, rfl, rfl⟩ := Draft.pure_ok.1 h
          exact .inl ⟨rfl, rfl, .inl rfl⟩
        | true =>
          obtain ⟨free, points, J₁, s₁, hfree, havail, hend⟩ := promoteDefinition_ok h
          refine .inr ⟨o, free, points, J₁, s₁, hdef, hreads, hfree, havail, hend.imp_left ?_⟩
          rintro ⟨hJ, ht, hr, _⟩
          exact ⟨hJ, ht, hr⟩

theorem promoteFuel_hoists {forIndex : Bool} (n : Nat) :
    ∀ {v : ValueRef} {J J' : Journal} {s t : Store} {r : Option ValueRef},
      promoteFuel forIndex n v J s = .ok ((r, J'), t) → Hoists (J, s) (J', t) := by
  induction n with
  | zero =>
    intro v J J' s t r h
    cases h
  | succ n ih =>
    intro v J J' s t r h
    obtain ⟨rfl, rfl, _⟩ | ⟨o, free, points, J₁, s₁, _, _, _, havail, hrest⟩ := promoteFuel_ok h
    · exact .refl
    · obtain ⟨hhoists, hblocks⟩ := availabilityWith_ok ih havail
      obtain ⟨rfl, rfl, _⟩ | ⟨ps, p, clone, rfl, hp, hhoist, _⟩ := hrest
      · exact hhoists
      · exact hhoists.trans (hoists_of_hoist (hblocks ps rfl p (latest?_mem hp)) hhoist)

theorem promote_follows (v : ValueRef) (forIndex : Bool) :
    Draft.Follows HoistStep (promote v forIndex) :=
  .bind .get fun s => fun _ _ _ _ _ h => promoteFuel_hoists s.depthBound h

/-- A promoted value is the value itself, unless the last thing that happened was a move. -/
theorem promoteFuel_some {forIndex : Bool} {n : Nat} {v w : ValueRef}
    (h : promoteFuel forIndex n v J s = .ok ((some w, J'), t)) :
    w = v ∨ ∃ y, Hoists (J, s) y ∧ HoistStep y (J', t) := by
  cases n with
  | zero => cases h
  | succ n =>
    obtain ⟨_, _, hr⟩ | ⟨o, free, points, J₁, s₁, _, _, _, havail, hrest⟩ := promoteFuel_ok h
    · rcases hr with hr | hr
      · cases hr
      · exact .inl (Option.some.inj hr)
    · obtain ⟨hhoists, hblocks⟩ := availabilityWith_ok (promoteFuel_hoists n) havail
      obtain ⟨_, _, hr⟩ | ⟨ps, p, clone, rfl, hp, hhoist, hnone⟩ := hrest
      · cases hr
      · cases clone with
        | none => cases hnone
        | some clone =>
          exact .inr ⟨(J₁, s₁), hhoists, o, p, clone, hblocks ps rfl p (latest?_mem hp), hhoist⟩

/-! ## Counting moves -/

/-- A step that moved a computation. -/
def Entry.isHoist : Entry → Bool
  | .hoisted _ _ _ _ => true
  | .inserted _ => false

/-- Number of moves in a journal. -/
def Journal.hoists (J : Journal) : Nat := J.countP Entry.isHoist

theorem HoistStep.lt {x y : Journal × Store} (h : HoistStep x y) :
    Journal.hoists x.1 < Journal.hoists y.1 := by
  obtain ⟨o, p, clone, _, h⟩ := h
  obtain ⟨d, _, ⟨_, hr, _⟩ | ⟨b, before, _, _, _, _, _, _, _, _, _, _, _, _, hJ⟩⟩ := hoist_ok h
  · cases hr
  · rw [hJ]
    simp [Journal.hoists, Entry.isHoist]

theorem Hoists.le {x y : Journal × Store} (h : Hoists x y) :
    Journal.hoists x.1 ≤ Journal.hoists y.1 := by
  induction h with
  | refl => exact Nat.le_refl _
  | tail _ hstep ih => exact Nat.le_trans ih (Nat.le_of_lt hstep.lt)

/-- Without more moves in the journal nothing happened. -/
theorem Hoists.eq_of_quiet {x y : Journal × Store} (h : Hoists x y)
    (hquiet : Journal.hoists y.1 = Journal.hoists x.1) : y = x := by
  cases h with
  | refl => rfl
  | tail hrest hstep =>
    have hle := Hoists.le hrest
    have hlt := hstep.lt
    omega

end AffineRaising.Raise
