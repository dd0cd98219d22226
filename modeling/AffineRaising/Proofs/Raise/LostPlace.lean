/-
# AffineRaising.Proofs.Raise.LostPlace — how a promotion can fault.

The places behind the inputs of an operation are collected while these are promoted themselves, and
a promotion takes what it moves out of its block.  So when it is the operation's turn, the one in
front of which a place was may be gone.  That is the only way in which a promotion of a value of a
checked module faults: every query on the way is answered, the fuel suffices, and a place is lost
only if the promotion moved the operation that it names (`promote_settles`).

The module may stand among the remains of what was removed from it.  A promotion of one of its
values never comes to these: what something in the module draws on is in the module.
-/
import AffineRaising.Proofs.Raise.Answers
import AffineRaising.Proofs.Raise.Frame
import AffineRaising.Proofs.Raise.Held

namespace AffineRaising.Raise

open AffineRaising.IR AffineRaising.IR.Store AffineRaising.Ops AffineRaising.Analysis

variable {α β : Type} {J J' J₀ : Journal} {s t s₀ : Store}

/-! ## Runs that come to an end -/

theorem Hoists.journal {x y : Journal × Store} (h : Hoists x y) : ∃ moved, y.1 = x.1 ++ moved := by
  induction h with
  | refl => exact ⟨[], (List.append_nil _).symm⟩
  | tail _ hstep ih =>
    obtain ⟨moved, hmoved⟩ := ih
    obtain ⟨o, p, c, _, hrun⟩ := hstep
    obtain ⟨_, _, ⟨_, hr, _⟩ | ⟨b, before, _, _, _, _, _, _, _, _, _, _, _, _, hJ⟩⟩ := hoist_ok hrun
    · cases hr
    · exact ⟨moved ++ [.hoisted o b before _], by rw [hJ, hmoved, List.append_assoc]⟩

/-- Moves from here on take the operation out of its block. -/
def Displaced (J : Journal) (s : Store) (q : OpRef) : Prop :=
  ∃ moved t, Hoists (J, s) (J ++ moved, t) ∧ q ∈ Journal.originals moved

theorem Displaced.earlier {q : OpRef} (h : Displaced J s q) (hmoves : Hoists (J₀, s₀) (J, s)) :
    Displaced J₀ s₀ q := by
  obtain ⟨moved, t, hmoved, hq⟩ := h
  obtain ⟨front, hfront⟩ := hmoves.journal
  simp only at hfront
  subst hfront
  refine ⟨front ++ moved, t, ?_, ?_⟩
  · rw [← List.append_assoc]
    exact hmoves.trans hmoved
  · rw [Journal.originals, List.filterMap_append]
    exact List.mem_append_right _ hq

/-- What began with journal `J` and store `s` ends after some moves with an answer, or faults at a
place whose operation they took away. -/
def Settles (J : Journal) (s : Store) (run : Except Fault ((α × Journal) × Store))
    (post : α → Journal → Store → Prop) : Prop :=
  (∃ a J' t, run = .ok ((a, J'), t) ∧ Hoists (J, s) (J', t) ∧ post a J' t) ∨
    ∃ q, run = .error (.opNotInBlock q) ∧ Displaced J s q

namespace Settles

variable {P : α → Journal → Store → Prop} {Q : β → Journal → Store → Prop}

theorem pure {a : α} (h : Hoists (J₀, s₀) (J, s)) (hpost : P a J s) :
    Settles J₀ s₀ ((pure a : Draft α) J s) P :=
  .inl ⟨a, J, s, rfl, h, hpost⟩

theorem bind {x : Draft α} {f : α → Draft β} {J₁ : Journal} {s₁ : Store}
    (hmoves : Hoists (J₀, s₀) (J, s)) (hx : Settles J s (x J₁ s₁) P)
    (hf : ∀ a J' t, Hoists (J, s) (J', t) → P a J' t → Settles J₀ s₀ (f a J' t) Q) :
    Settles J₀ s₀ ((x >>= f) J₁ s₁) Q := by
  rcases hx with ⟨a, J', t, hrun, hmoves', hpost⟩ | ⟨q, hrun, hq⟩
  · rw [Draft.bind_eq hrun]
    exact hf a J' t hmoves' hpost
  · refine .inr ⟨q, ?_, hq.earlier hmoves⟩
    show (x J₁ s₁ >>= fun r => f r.1.1 r.1.2 r.2) = .error (.opNotInBlock q)
    rw [hrun]
    rfl

theorem ask {q : Store → Except Fault α} {f : α → Draft β} (hq : Answers (q s))
    (hf : ∀ a, q s = .ok a → Settles J₀ s₀ (f a J s) Q) :
    Settles J₀ s₀ ((Draft.ask q >>= f) J s) Q := by
  obtain ⟨a, ha⟩ := hq
  rw [Draft.ask_eq q ha]
  exact hf a ha

end Settles

/-! ## Inputs -/

variable {spine : BlockRef → Prop} {top : Nat} {rank : OpRef → Nat}

theorem Rooted.value? {v : ValueRef} (h : Rooted spine s v) : ∃ e, s.value? v = some e := by
  obtain ⟨_, _, hv, _⟩ | ⟨_, _, hv, _⟩ := h
  all_goals
    obtain ⟨e, he, _⟩ := Option.map_eq_some_iff.1 hv
    exact ⟨e, he⟩

theorem Rooted.definingOp? {v : ValueRef} {o : OpRef} (h : Rooted spine s v)
    (ho : s.definingOp? v = .ok (some o)) : Seated spine s o := by
  obtain ⟨k, hk⟩ := definingOp?_some ho
  obtain ⟨_, _, hv, _⟩ | ⟨_, _, hv, hx⟩ := h
  · cases hk.symm.trans hv
  · cases hk.symm.trans hv
    exact hx

/-- The place behind the definition of a rooted value is in the spine. -/
theorem Rooted.afterDefinition? {v : ValueRef} (h : Rooted spine s v) (hl : Linked s) :
    ∃ p?, Point.afterDefinition? s v = .ok p? ∧
      ∀ p, p? = some p → spine p.block ∧ Standing s p := by
  have hplace : ∀ p?, Point.afterDefinition? s v = .ok p? → (∀ p, p? = some p → spine p.block) →
      ∃ p?, Point.afterDefinition? s v = .ok p? ∧
        ∀ p, p? = some p → spine p.block ∧ Standing s p := fun p? hp? hspine =>
    ⟨p?, hp?, fun p hp => ⟨hspine p hp, afterDefinition?_standing hl (hp ▸ hp?)⟩⟩
  obtain ⟨e, he⟩ := h.value?
  have horigin : s.originOf v = some e.origin := by rw [originOf, he, Option.map_some]
  rcases h with ⟨b, k, hv, hb⟩ | ⟨x, k, hv, d, hd, hparent⟩
  · have heq : e.origin = .argument b k := Option.some.inj (horigin.symm.trans hv)
    obtain ⟨bd, hbd⟩ := block?_of_argument hl hv
    refine hplace (some ⟨b, bd.ops.head?⟩) ?_ fun p hp => ?_
    · simp only [Point.afterDefinition?, except_bind_ok, value_ok]
      refine ⟨e, he, ?_⟩
      simp only [heq, Point.start, bind_pure_comp, except_map_ok, block_ok]
      exact ⟨_, ⟨bd, hbd, rfl⟩, rfl⟩
    · cases hp
      exact hb
  · have heq : e.origin = .result x k := Option.some.inj (horigin.symm.trans hv)
    have hafter : ∀ p?, Point.after? s x = .ok p? → Point.afterDefinition? s v = .ok p? := by
      intro p? hp?
      simp only [Point.afterDefinition?, except_bind_ok, value_ok]
      refine ⟨e, he, ?_⟩
      simp only [heq]
      exact hp?
    cases hp : d.parent with
    | none =>
      refine hplace none (hafter _ ?_) fun p hp => by cases hp
      simp only [Point.after?, except_bind_ok, op_ok]
      exact ⟨d, hd, by rw [hp]; rfl⟩
    | some b =>
      obtain ⟨next, hnext⟩ := next?_total hl hd
      refine hplace (some ⟨b, next⟩) (hafter _ ?_) fun p hp' => ?_
      · simp only [Point.after?, except_bind_ok, op_ok]
        refine ⟨d, hd, ?_⟩
        simp only [hp, except_bind_ok]
        exact ⟨next, hnext, rfl⟩
      · cases hp'
        exact hparent b hp

/-- A value that a promotion through at most `n` definitions may meet. -/
structure Met (spine : BlockRef → Prop) (top n : Nat) (rank : OpRef → Nat) (s : Store)
    (v : ValueRef) : Prop where
  rooted : Rooted spine s v
  fuel : valueRank s rank v < n
  low : valueRank s rank v ≤ top

theorem Met.carried {n : Nat} {rank' : OpRef → Nat} {v : ValueRef} (h : Met spine top n rank s v)
    (hc : Carried spine rank rank' s t) : Met spine top n rank' t v := by
  refine ⟨hc.rooted h.rooted, ?_, ?_⟩
  · rw [hc.valueRank h.rooted]
    exact h.fuel
  · rw [hc.valueRank h.rooted]
    exact h.low

/-- The free operands of what is met can be met next. -/
theorem Framed.free_met (hf : Framed spine top rank s) {n : Nat} {o : OpRef} {v : ValueRef}
    (hseated : Seated spine s o) (htop : rank o ≤ top) (hn : rank o ≤ n) (hv : Free s o v) :
    Met spine top n rank s v := by
  obtain ⟨z, d, hw, hd, hmem, _⟩ := id hv
  have hle := hf.ranks.within_le htop hw
  have hlt : valueRank s rank v < rank o :=
    Nat.lt_of_lt_of_le (hf.ranks.operand_lt (Nat.le_trans hle htop) hd hmem) hle
  refine ⟨?_, by omega, by omega⟩
  exact (hf.inside o hseated htop z d v hw hd hmem).resolve_right
    (hv.not_seenInside hf.consistent.linked z)

/-- A frame is left as one was found. -/
def Reframed (spine : BlockRef → Prop) (top : Nat) (rank : OpRef → Nat) (s t : Store) : Prop :=
  ∃ rank', Framed spine top rank' t ∧ Carried spine rank rank' s t

theorem Framed.reframed (hf : Framed spine top rank s) : Reframed spine top rank s s :=
  ⟨rank, hf, .refl spine rank s⟩

/-- A place in the spine that was there at some time between two others. -/
def SavedPlace (spine : BlockRef → Prop) (J : Journal) (s : Store) (J' : Journal) (t : Store)
    (p : Point) : Prop :=
  spine p.block ∧ ∃ J₁ s₁, Hoists (J, s) (J₁, s₁) ∧ Hoists (J₁, s₁) (J', t) ∧ Standing s₁ p

/-- What is met can be hoisted to a place that was there, unless the operation that it names has
been moved since. -/
theorem SavedPlace.hoist_settles {J₁ : Journal} {s₁ : Store} {p : Point} {o : OpRef}
    (hp : SavedPlace spine J s J₁ s₁ p) (hs : Consistent s) (hac : Acyclic s)
    (hf : Framed spine top rank s₁) (hseated : Seated spine s₁ o) (htop : rank o ≤ top) :
    Settles J s (hoist o p J₁ s₁) fun r _ t =>
      Reframed spine top rank s₁ t ∧ ∀ c, r = some c → Seated spine t c := by
  obtain ⟨hspine, J₀, s₀, hbefore, hafter, hstanding⟩ := hp
  obtain ⟨d, hd, _⟩ := id hseated
  have hs₀ := (hbefore.rests hs o).1
  obtain ⟨r, J', t, hrun⟩ | ⟨moved, q, hJ, hq, hrun⟩ :=
    hafter.hoist_cases hs₀ (hbefore.acyclic hs hac) hstanding hd
  · have hmoves : Hoists (J, s) (J', t) :=
      (hbefore.trans hafter).trans (hoists_of_hoist (hf.blocks _ hspine) hrun)
    refine .inl ⟨r, J', t, hrun, hmoves, ?_⟩
    cases r with
    | none =>
      obtain ⟨_, _, ⟨_, _, rfl, rfl⟩ | ⟨_, _, _, _, _, _, _, _, _, _, _, _, _, hr, _⟩⟩ :=
        hoist_ok hrun
      · exact ⟨hf.reframed, fun c hc => by cases hc⟩
      · cases hr
    | some c =>
      obtain ⟨rank', hf', hcarried, hc, _⟩ := hf.hoist hspine hseated htop hrun
      exact ⟨⟨rank', hf', hcarried⟩, fun c' hc' => by cases hc'; exact hc⟩
  · subst hJ
    exact .inr ⟨q, hrun, Displaced.earlier ⟨moved, s₁, hafter, hq⟩ hbefore⟩

/-! ## Promotion -/

/-- Promotion of what may be met through at most `n` definitions. -/
def PromoteSettles (spine : BlockRef → Prop) (top n : Nat)
    (promote : ValueRef → Draft (Option ValueRef)) : Prop :=
  ∀ {v J s rank}, Framed spine top rank s → Met spine top n rank s v →
    Settles J s (promote v J s) fun r _ t =>
      Reframed spine top rank s t ∧ ∀ a, r = some a → Rooted spine t a

theorem availabilityWith_settles {promote : ValueRef → Draft (Option ValueRef)} {n : Nat}
    (hpromote : PromoteSettles spine top n promote) {forIndex : Bool} {vs : List ValueRef} :
    ∀ {J : Journal} {s : Store} {rank : OpRef → Nat}, Framed spine top rank s →
      (∀ v ∈ vs, Met spine top n rank s v) →
      Settles J s (availabilityWith promote forIndex vs J s) fun r J' t =>
        Reframed spine top rank s t ∧
          ∀ ps, r = some ps → ∀ p ∈ ps, SavedPlace spine J s J' t p := by
  induction vs with
  | nil =>
    intro J s rank hf _
    exact .pure .refl ⟨hf.reframed, fun ps hps p hp => by cases hps; cases hp⟩
  | cons v vs ih =>
    intro J s rank hf hmet
    have hv := hmet v List.mem_cons_self
    -- once it is known whether the first value is available
    have hrest : ∀ available J₁ s₁, Hoists (J, s) (J₁, s₁) →
        (Reframed spine top rank s s₁ ∧ ∀ a, available = some a → Rooted spine s₁ a) →
        Settles J s (availabilityFrom promote forIndex vs available J₁ s₁) fun r J' t =>
          Reframed spine top rank s t ∧
            ∀ ps, r = some ps → ∀ p ∈ ps, SavedPlace spine J s J' t p := by
      rintro available J₁ s₁ hmoves ⟨⟨rank₁, hf₁, hcarried⟩, hrooted⟩
      cases available with
      | none => exact .pure hmoves ⟨⟨rank₁, hf₁, hcarried⟩, fun ps hps => by cases hps⟩
      | some a =>
        obtain ⟨p?, hp?, hplace⟩ := (hrooted a rfl).afterDefinition? hf₁.consistent.linked
        refine .ask ⟨p?, hp?⟩ fun q? hq? => ?_
        cases hp?.symm.trans hq?
        cases p? with
        | none => exact .pure hmoves ⟨⟨rank₁, hf₁, hcarried⟩, fun ps hps => by cases hps⟩
        | some p =>
          obtain ⟨hspine, hstanding⟩ := hplace p rfl
          refine .bind hmoves (ih hf₁ fun u hu =>
            (hmet u (List.mem_cons_of_mem v hu)).carried hcarried) ?_
          rintro ps? J₂ s₂ hmoves₂ ⟨⟨rank₂, hf₂, hcarried₂⟩, hsaved⟩
          have hframe : Reframed spine top rank s s₂ := ⟨rank₂, hf₂, hcarried.trans hcarried₂⟩
          cases ps? with
          | none => exact .pure (hmoves.trans hmoves₂) ⟨hframe, fun ps hps => by cases hps⟩
          | some ps =>
            refine .pure (hmoves.trans hmoves₂) ⟨hframe, fun qs hqs q hq => ?_⟩
            cases hqs
            rcases List.mem_cons.1 hq with rfl | hq
            · exact ⟨hspine, J₁, s₁, hmoves, hmoves₂, hstanding⟩
            · obtain ⟨hq, J', s', hbefore, hafter, hthere⟩ := hsaved ps rfl q hq
              exact ⟨hq, J', s', hmoves.trans hbefore, hafter, hthere⟩
    obtain ⟨e, he⟩ := hv.rooted.value?
    unfold availabilityWith
    refine .ask (definingOp?_answers he) fun o? _ => ?_
    refine .ask (staysPut_answers hf.consistent.linked hf.consistent.grounded hf.ranks forIndex he
      hv.low) fun stays _ => ?_
    simp only
    split
    · exact .bind .refl (hpromote hf hv) fun available J₁ s₁ hmoves hpost =>
        hrest available J₁ s₁ hmoves hpost
    · split
      · exact hrest (some v) J s .refl ⟨hf.reframed, fun a ha => by cases ha; exact hv.rooted⟩
      · exact hrest none J s .refl ⟨hf.reframed, fun a ha => by cases ha⟩

/-- Promotion of what may be met. -/
theorem promoteFuel_settles (spine : BlockRef → Prop) (top : Nat) (forIndex : Bool) (n : Nat) :
    PromoteSettles spine top n (promoteFuel forIndex n) := by
  induction n with
  | zero =>
    intro v J s rank _ hmet
    exact absurd hmet.fuel (Nat.not_lt_zero _)
  | succ n ih =>
    intro v J s rank hf hmet
    have hlinked := hf.consistent.linked
    have hgrounded := hf.consistent.grounded
    obtain ⟨e, he⟩ := hmet.rooted.value?
    have hstay : ∀ {r : Option ValueRef}, r = none ∨ r = some v →
        Settles J s ((pure r : Draft (Option ValueRef)) J s) fun r _ t =>
          Reframed spine top rank s t ∧ ∀ a, r = some a → Rooted spine t a := by
      intro r hr
      refine .pure .refl ⟨hf.reframed, fun a ha => ?_⟩
      rcases hr with rfl | rfl
      · cases ha
      · cases ha
        exact hmet.rooted
    unfold promoteFuel
    refine .ask (staysPut_answers hlinked hgrounded hf.ranks forIndex he hmet.low) fun stays _ => ?_
    cases stays with
    | true => exact hstay (.inr rfl)
    | false =>
      simp only [Bool.false_eq_true, if_false]
      refine .ask (definingOp?_answers he) fun o? ho => ?_
      cases o? with
      | none => exact hstay (.inl rfl)
      | some o =>
        have hseated := hmet.rooted.definingOp? ho
        obtain ⟨d, hd, _⟩ := id hseated
        have hrank : valueRank s rank v = rank o := Ranks.value_eq rank ho
        have htop : rank o ≤ top := hrank ▸ hmet.low
        have hfuel : rank o < n + 1 := hrank ▸ hmet.fuel
        simp only
        refine .ask (isNamed_answers hd _) fun isConst _ => ?_
        cases isConst with
        | true => exact hstay (.inr rfl)
        | false =>
          simp only [Bool.false_eq_true, if_false]
          refine .ask (isReadOnly_answers hlinked hf.ranks hd htop) fun reads _ => ?_
          cases reads with
          | false => exact hstay (.inl rfl)
          | true =>
            simp only [Bool.not_true, Bool.false_eq_true, if_false]
            obtain ⟨free, hfree, _, hmem⟩ := freeOperands_iff hlinked hf.acyclic hgrounded hd
            refine .ask ⟨free, hfree⟩ fun free' hfree' => ?_
            cases hfree.symm.trans hfree'
            refine .bind .refl (availabilityWith_settles ih hf fun u hu => ?_) ?_
            · exact hf.free_met hseated htop (by omega) ((hmem u).1 hu)
            rintro ps? J₁ s₁ hmoves ⟨⟨rank₁, hf₁, hcarried⟩, hsaved⟩
            have hnone : Settles J s ((pure none : Draft (Option ValueRef)) J₁ s₁) fun r _ t =>
                Reframed spine top rank s t ∧ ∀ a, r = some a → Rooted spine t a :=
              .pure hmoves ⟨⟨rank₁, hf₁, hcarried⟩, fun a ha => by cases ha⟩
            cases ps? with
            | none => exact hnone
            | some ps =>
              simp only
              refine .ask (latest?_answers hf₁.consistent.linked hf₁.acyclic fun p hp =>
                hf₁.blocks p.block (hsaved ps rfl p hp).1) fun p? hp? => ?_
              cases p? with
              | none => exact hnone
              | some p =>
                have hsaved := hsaved ps rfl p (latest?_mem hp?)
                refine .bind .refl (hsaved.hoist_settles hf.consistent hf.acyclic hf₁
                  (hcarried.seated o hseated) (hcarried.rank o d hd ▸ htop)) ?_
                rintro c? J₂ s₂ hmoves₂ ⟨⟨rank₂, hf₂, hcarried₂⟩, hclone⟩
                have hframe : Reframed spine top rank s s₂ := ⟨rank₂, hf₂, hcarried.trans hcarried₂⟩
                cases c? with
                | none => exact .pure hmoves₂ ⟨hframe, fun a ha => by cases ha⟩
                | some c =>
                  refine .inl ⟨_, J₂, s₂, rfl, hmoves₂, hframe, fun a ha => ?_⟩
                  have hl := hf₂.consistent.linked
                  obtain ⟨k, hk⟩ := originOf_of_mem_results hl (List.mem_of_head? ha)
                  exact .inr ⟨c, k, hk, hclone c rfl⟩

/-! ## Modules in which every operand is seen -/

/-- The blocks that hold an operation or something around it. -/
def Spine (s : Store) (o : OpRef) (b : BlockRef) : Prop :=
  ∃ a bd, Within s a o ∧ s.block? b = some bd ∧ a ∈ bd.ops

theorem Seated.self (hl : Linked s) {o : OpRef} {d : OpData} (hd : s.op? o = some d) :
    Seated (Spine s o) s o := by
  refine ⟨d, hd, fun b hb => ?_⟩
  obtain ⟨bd, hbd, hmem⟩ := hl.mem_of_parent hd hb
  exact ⟨o, bd, .refl, hbd, hmem⟩

section Seen

variable {removed : OpRef → Prop} (hs : Consistent s) (hac : Acyclic s)
  (hsees : SeesOperands removed s)

include hs hsees

/-- What an operation of the spine refers to is in the spine or inside the operation. -/
theorem inFrame_of_sees {o x : OpRef} (hx : Seated (Spine s o) s x) (hlive : ¬ removed x) :
    InFrame (Spine s o) s x := by
  have hlinked := hs.linked
  intro z d v hw hd hv
  obtain ⟨a, haz, hoffered⟩ :=
    hsees.sees z d v (hsees.not_removed_within hlinked hlive hw) hd hv
  -- what is offered in a block of the spine is rooted
  have hrooted : (∀ b bd, s.block? b = some bd → a ∈ bd.ops → Spine s o b) →
      Rooted (Spine s o) s v := by
    intro hspine
    rcases hoffered with ⟨b, k, bd, hv, hbd, hmem⟩ | ⟨y, k, hv, b, bd, hbd, hpair⟩
    · exact .inl ⟨b, k, hv, hspine b bd hbd hmem⟩
    · obtain ⟨dy, hdy, hparent⟩ := hlinked.op?_of_mem hbd (left_mem_of_pair hpair)
      refine .inr ⟨y, k, hv, dy, hdy, fun b' hb' => ?_⟩
      cases hparent.symm.trans hb'
      exact hspine b bd hbd (right_mem_of_pair hpair)
  obtain ⟨dx, hdx, hparent⟩ := hx
  have hself : ∀ b bd, s.block? b = some bd → x ∈ bd.ops → Spine s o b := by
    intro b bd hbd hmem
    obtain ⟨dx', hdx', hb⟩ := hlinked.op?_of_mem hbd hmem
    cases hdx.symm.trans hdx'
    exact hparent b hb
  rcases within_or_within hlinked haz hw with hax | hxa
  · refine .inl (hrooted fun b bd hbd hmem => ?_)
    rcases Relation.ReflTransGen.cases_tail hax with rfl | ⟨q, haq, hqx⟩
    · exact hself b bd hbd hmem
    · -- what encloses the operation encloses the one from which the spine starts
      obtain ⟨b', bd', hholds, hbd', hmem'⟩ := child_iff.1 hqx
      obtain ⟨a', bd'', ha'o, hbd'', ha'⟩ := hself b' bd' hbd' hmem'
      have hqa' := (child_iff_holds hlinked hbd'' ha').2 hholds
      exact ⟨a, bd, (haq.tail hqa').trans ha'o, hbd, hmem⟩
  · rcases Relation.reflTransGen_iff_eq_or_transGen.1 hxa with rfl | hxa
    · exact .inl (hrooted hself)
    · exact .inr ⟨a, hxa, haz, hoffered⟩

include hac

/-- An operation is framed by the blocks around it, with ranks that leave out what was removed. -/
theorem Framed.of_sees (hsized : Sized s) {cap : Nat} (hr : RanksUpTo s cap rank)
    (hlive : ∀ x, rank x ≤ cap ↔ ¬ removed x) {o : OpRef} (ho : ¬ removed o) :
    Framed (Spine s o) (rank o) rank s := by
  have hcap : rank o ≤ cap := (hlive o).2 ho
  refine ⟨hs, hac, hsized, hr.mono hcap, fun b hb => ?_, fun q b hb hq => ?_, fun x hx hxo =>
    inFrame_of_sees hs hsees hx ((hlive x).1 (Nat.le_trans hxo hcap))⟩
  · obtain ⟨_, bd, _, hbd, _⟩ := hb
    exact ⟨bd, hbd⟩
  · obtain ⟨a, bd, hao, hbd, hmem⟩ := hb
    have hqa := (child_iff_holds hs.linked hbd hmem).2 hq
    by_cases hqcap : rank q ≤ cap
    · have haq := hr.falls q a hqcap (.inr hqa)
      exact Nat.lt_of_le_of_lt (hr.within_le (Nat.le_trans haq.le hqcap) hao) haq
    · exact Nat.lt_of_le_of_lt hcap (Nat.lt_of_not_le hqcap)

/-- A promotion comes to an end or faults at a place whose operation it has moved. -/
theorem promote_settles (hsized : Sized s) {v : ValueRef} {e : ValueData}
    (hv : s.value? v = some e) (hlive : ∀ o k, e.origin = .result o k → ¬ removed o)
    (forIndex : Bool) (J : Journal) :
    Settles J s (promote v forIndex J s) fun _ _ _ => True := by
  obtain ⟨cap, rank, hr, hcap, _⟩ := hsees.exists_ranks hs.linked hac
  have hpromote : promote v forIndex J s = promoteFuel forIndex s.depthBound v J s :=
    Draft.lift_eq (e := get) rfl
  rw [hpromote]
  have horigin : s.originOf v = some e.origin := by rw [originOf, hv, Option.map_some]
  cases he : e.origin with
  | argument b k =>
    -- an argument has no definition to move
    rw [he] at horigin
    have hzero : valueRank s rank v ≤ cap := by rw [valueRank, horigin]; exact Nat.zero_le _
    unfold Store.depthBound promoteFuel
    refine .ask (staysPut_answers hs.linked hs.grounded hr forIndex hv hzero) fun stays _ => ?_
    cases stays with
    | true => exact .pure .refl trivial
    | false =>
      simp only [Bool.false_eq_true, if_false]
      refine .ask (definingOp?_answers hv) fun o? ho => ?_
      cases o? with
      | none => exact .pure .refl trivial
      | some o =>
        obtain ⟨k', hk'⟩ := definingOp?_some ho
        cases horigin.symm.trans hk'
  | result o k =>
    rw [he] at horigin
    have ho := hlive o k he
    obtain ⟨d, hd⟩ := op?_of_result hs.linked horigin
    have hrank : valueRank s rank v = rank o := by rw [valueRank, horigin]
    have hbound : rank o < s.depthBound := Nat.lt_of_le_of_lt ((hcap o).2 ho) hr.bound
    have hmet : Met (Spine s o) (rank o) s.depthBound rank s v :=
      ⟨.inr ⟨o, k, horigin, .self hs.linked hd⟩, hrank.trans_lt hbound, hrank.le⟩
    obtain ⟨r, J', t, hrun, hmoves, _⟩ | hfault :=
      promoteFuel_settles _ _ forIndex _ (Framed.of_sees hs hac hsees hsized hr hcap ho) hmet
        (J := J)
    · exact .inl ⟨r, J', t, hrun, hmoves, trivial⟩
    · exact .inr hfault

end Seen

/-! ## Modules that were checked -/

/-- A promotion of a value of a module that passes the check returns, or it faults when a copy is
put in front of an operation that is no longer in its block because the promotion has moved it.
There is no other fault: no query fails, and the fuel suffices.  The module may stand among what was
removed from it; the value is one of its own, an argument or a result of what was not removed. -/
theorem promotion_faults_only_at_lost_place {gone : OpRef → Prop} {root : OpRef}
    (h : HoldsModule root gone s) (hcheck : check s root = .ok ⟨[], [], []⟩)
    (hregions : ∀ d, s.op? root = some d → d.regions.length ≤ 1) {v : ValueRef} {e : ValueData}
    (hv : s.value? v = some e) (hlive : ∀ o k, e.origin = .result o k → ¬ gone o)
    (forIndex : Bool) (J : Journal) :
    (∃ r J' t, promote v forIndex J s = .ok ((r, J'), t)) ∨
      ∃ q moved t, promote v forIndex J s = .error (.opNotInBlock q) ∧
        Hoists (J, s) (J ++ moved, t) ∧ q ∈ Journal.originals moved := by
  have hsees := h.seesOperands (check_eq_clean.1 hcheck).2.1 hregions
  obtain ⟨r, J', t, hrun, _⟩ | ⟨q, hrun, moved, t, hmoves, hq⟩ :=
    promote_settles h.consistent h.acyclic hsees h.sized hv hlive forIndex J
  · exact .inl ⟨r, J', t, hrun⟩
  · exact .inr ⟨q, moved, t, hrun, hmoves, hq⟩

/-- A quotient in a loop: the place behind its constant is in front of the product, which is moved
before the quotient is. -/
theorem quotient_promoted :
    let constant := Surface.Op.mk ⟨["k"], "arith", "const", none, [], [], [], none,
      [("value", .int 7)], [.index]⟩ []
    let product := Surface.Op.plain ArithKind.mul.opName ["n"] ["a", "a"] [.index] []
    let quotient := Surface.Op.plain ArithKind.divS.opName ["q"] ["k", "n"] [.index] []
    let loop := Surface.Op.mk ⟨[], "affine", "for", none, [], [], [], none,
      [("lower_bound", .map ⟨0, 0, [.const 0]⟩), ("upper_bound", .map ⟨0, 0, [.const 16]⟩)], []⟩
      [.mk [.mk "body" [⟨"i", .index⟩] [constant, product, quotient,
        Surface.Op.plain affineYieldName [] [] [] []]]]
    let tree := Surface.Op.program [⟨"a", .index⟩]
      [loop, Surface.Op.plain returnName [] [] [] []]
    ∃ root scope s d e, buildOp Scope.empty tree Store.empty = .ok (.ok (root, scope), s) ∧
      check s root = .ok ⟨[], [], []⟩ ∧ s.op? root = some d ∧ d.regions.length = 1 ∧
      s.value? ⟨4⟩ = some e ∧ promote ⟨4⟩ false [] s = .error (.opNotInBlock ⟨1⟩) :=
  ⟨⟨7⟩, _, _, _, _, by cbv, by cbv, by cbv, by cbv, by cbv, by cbv⟩

theorem promotion_faults_only_at_lost_place_quotient :
    ∃ root s d q moved t, HoldsModule root (fun _ => False) s ∧
      check s root = .ok ⟨[], [], []⟩ ∧ s.op? root = some d ∧ d.regions.length = 1 ∧
      promote ⟨4⟩ false [] s = .error (.opNotInBlock q) ∧ Hoists ([], s) (moved, t) ∧
      q ∈ Journal.originals moved := by
  obtain ⟨root, scope, s, d, e, hbuild, hcheck, hroot, hregions, hv, hfault⟩ := quotient_promoted
  have hs := HoldsModule.of_built hbuild
  have hone : ∀ d', s.op? root = some d' → d'.regions.length ≤ 1 := fun d' hd' => by
    cases hroot.symm.trans hd'
    exact Nat.le_of_eq hregions
  obtain ⟨r, J, t, hrun⟩ | ⟨q, moved, t, hrun, hmoves, hq⟩ :=
    promotion_faults_only_at_lost_place hs hcheck hone hv (fun _ _ _ => False.elim) false []
  · rw [hfault] at hrun
    cases hrun
  · exact ⟨root, s, d, q, moved, t, hs, hcheck, hroot, hregions, hrun, hmoves, hq⟩

/-- A promotion need not return: a place can be lost while the others are found. -/
theorem promotion_loses_place :
    ¬ ∀ {tree : Surface.Op} {root : OpRef} {scope : Scope} {s : Store} {d : OpData} {v : ValueRef}
        {e : ValueData} {forIndex : Bool} {J : Journal},
      buildOp Scope.empty tree Store.empty = .ok (.ok (root, scope), s) →
      check s root = .ok ⟨[], [], []⟩ → s.op? root = some d → d.regions.length = 1 →
      s.value? v = some e → ∃ r J' t, promote v forIndex J s = .ok ((r, J'), t) := by
  intro hclaim
  obtain ⟨root, scope, s, d, e, hbuild, hcheck, hroot, hregions, hv, hfault⟩ := quotient_promoted
  obtain ⟨r, J, t, hrun⟩ : ∃ r J' t, promote ⟨4⟩ false [] s = .ok ((r, J'), t) :=
    hclaim hbuild hcheck hroot hregions hv
  rw [hfault] at hrun
  cases hrun

end AffineRaising.Raise
