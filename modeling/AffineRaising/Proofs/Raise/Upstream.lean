/-
# AffineRaising.Proofs.Raise.Upstream — what an operation sees while others are hoisted.

A composition for an anchor begins with values that the anchor sees, and follows their definitions
upstream.  Each hoist on the way takes a definition out of its block and puts a copy in front of
something from which the anchor is reached.  So the anchor sees whatever the composition comes by,
unless the definition of that has been taken out of its block since: `composeSteps_sees`.
-/
import AffineRaising.Proofs.Raise.Anchor
import AffineRaising.Proofs.Raise.Renormalize

namespace AffineRaising.Raise

open AffineRaising.IR AffineRaising.IR.Store AffineRaising.Ops AffineRaising.Analysis
open AffineRaising.Affine (Expr)

variable {s t : Store} {J J' : Journal} {v w : ValueRef} {x o c : OpRef} {p : Point}
  {spine : BlockRef → Prop} {top : Nat} {rank rank' rank'' : OpRef → Nat}

/-! ## Upstream of an anchor -/

/-- The operation that defines the value stands in no block. -/
def Adrift (s : Store) (v : ValueRef) : Prop :=
  ∃ o k, s.originOf v = some (.result o k) ∧ s.opParent o = some none

theorem not_adrift_of_afterDefinition? (h : Point.afterDefinition? s v = .ok (some p)) :
    ¬ Adrift s v := by
  rintro ⟨o, k, horigin, hnone⟩
  obtain ⟨d, hd, hparent⟩ := Option.map_eq_some_iff.1 hnone
  obtain ⟨e, he, heq⟩ := Option.map_eq_some_iff.1 horigin
  simp only [Point.afterDefinition?, except_bind_ok, value_ok] at h
  obtain ⟨e', he', h⟩ := h
  cases he.symm.trans he'
  simp only [heq, Point.after?, except_bind_ok, op_ok] at h
  obtain ⟨d', hd', h⟩ := h
  cases hd.symm.trans hd'
  rw [hparent] at h
  cases h

/-- What sees a value is reached from the place behind the definition of the value. -/
theorem reaches_of_afterDefinition? (hl : Linked s) (hv : Sees s v x)
    (h : Point.afterDefinition? s v = .ok (some p)) : ∃ q, p.before = some q ∧ Reaches s q x := by
  obtain ⟨a, hax, hoffered⟩ := hv
  have hplace : ∃ p, Point.afterDefinition? s v = .ok (some p) ∧
      AtAnchor (fun a => Within s a x) s p := afterDefinition?_of_offered hl hax hoffered
  obtain ⟨p', hp', a', bd, q, ha'x, _, hq, _, hqa⟩ := hplace
  cases h.symm.trans hp'
  exact ⟨q, hq, a', ha'x, hqa.imp_left Eq.symm⟩

/-- A frame around an anchor, which has its rank: what is of a lower rank and stands in a block of
the spine precedes the anchor, or something around it. -/
structure Stationed (spine : BlockRef → Prop) (x : OpRef) (top : Nat) (rank : OpRef → Nat)
    (s : Store) : Prop extends Framed spine top rank s where
  there : ∃ d, s.op? x = some d
  level : rank x = top
  around : ∀ b, spine b → Spine s x b
  ahead : ∀ o d b, s.op? o = some d → d.parent = some b → spine b → rank o < top →
    ∃ a, Within s a x ∧ Precedes s o a

/-- The value is rooted, and the operation that defines it is of a lower rank than the anchor. -/
abbrev Upstream (spine : BlockRef → Prop) (top : Nat) (rank : OpRef → Nat) (s : Store)
    (v : ValueRef) : Prop :=
  Met spine top top rank s v

theorem Upstream.rank_lt (h : Upstream spine top rank s v) {k : Nat}
    (hv : s.originOf v = some (.result o k)) : rank o < top := by
  have hfuel := h.fuel
  rwa [valueRank, hv] at hfuel

section Seen

variable {removed : OpRef → Prop} {cap : Nat} (hs : Consistent s) (hr : RanksUpTo s cap rank)
  (horder : ∀ y z, EndsBefore s y z → rank y < rank z) {d : OpData} (hx : s.op? x = some d)

include hs hr horder hx

theorem Stationed.of_sees (hac : Acyclic s) (hsees : SeesOperands removed s) (hsized : Sized s)
    (hlive : ∀ y, rank y ≤ cap ↔ ¬ removed y) (hxlive : ¬ removed x) :
    Stationed (Spine s x) x (rank x) rank s := by
  refine { Framed.of_sees hs hac hsees hsized hr hlive hxlive with
           there := ⟨d, hx⟩, level := rfl, around := fun b hb => hb, ahead := ?_ }
  rintro o e b he hparent ⟨a, bd, hax, hbd, hmem⟩ hlt
  obtain ⟨bd', hbd', ho⟩ := hs.linked.mem_of_parent he hparent
  cases hbd.symm.trans hbd'
  refine ⟨a, hax, b, bd, hbd, ?_⟩
  obtain ⟨front, back, hsplit⟩ := List.append_of_mem ho
  rw [hsplit] at hmem
  rcases List.mem_append.1 hmem with hfront | hback
  · -- the anchor would come to its end first
    have hao : Precedes s a o :=
      ⟨b, bd, hbd, hsplit ▸ pair_sublist_of_mem hfront List.mem_cons_self⟩
    exact absurd (horder x o (.inr ⟨o, a, .refl, hao, hax⟩)) (Nat.not_lt.2 hlt.le)
  · rcases List.mem_cons.1 hback with rfl | hback
    · have hcap := (hlive x).2 hxlive
      exact absurd (hr.within_le (hlt.le.trans hcap) hax) (Nat.not_le.2 hlt)
    · rw [hsplit]
      exact (List.cons_sublist_cons.2 (List.singleton_sublist.2 hback)).trans
        (List.sublist_append_right front _)

theorem Upstream.of_sees (h : Sees s v x) : Upstream (Spine s x) (rank x) rank s v := by
  obtain ⟨a, hax, hoffered⟩ := h
  rcases hoffered with ⟨b, k, bd, hv, hbd, hmem⟩ | ⟨o, k, hv, hpre⟩
  · have hpos := hr.pos x d hx
    have hrank : valueRank s rank v = 0 := by rw [valueRank, hv]
    exact ⟨.inl ⟨b, k, hv, a, bd, hax, hbd, hmem⟩, by omega, by omega⟩
  · have hlt : rank o < rank x := horder o x (.inr ⟨a, o, hax, hpre, .refl⟩)
    have hrank : valueRank s rank v = rank o := by rw [valueRank, hv]
    obtain ⟨b, bd, hbd, hpair⟩ := hpre
    obtain ⟨e, he, hparent⟩ := hs.linked.op?_of_mem hbd (left_mem_of_pair hpair)
    refine ⟨.inr ⟨o, k, hv, e, he, fun b' hb' => ?_⟩, by omega, by omega⟩
    cases hparent.symm.trans hb'
    exact ⟨a, bd, hax, hbd, right_mem_of_pair hpair⟩

end Seen

namespace Stationed

variable (hs : Stationed spine x top rank s)

include hs

theorem not_within (hrank : rank o < top) : ¬ Within s o x := by
  intro hw
  have hle := hs.ranks.within_le hrank.le hw
  rw [hs.level] at hle
  omega

/-- What is upstream is seen, unless its definition is gone. -/
theorem sees (hv : Upstream spine top rank s v) (hstands : ¬ Adrift s v) : Sees s v x := by
  rcases hv.rooted with ⟨b, k, horigin, hb⟩ | ⟨o, k, horigin, d, hd, hparent⟩
  · obtain ⟨a, bd, hax, hbd, hmem⟩ := hs.around b hb
    exact ⟨a, hax, .inl ⟨b, k, bd, horigin, hbd, hmem⟩⟩
  · cases hp : d.parent with
    | none => exact absurd ⟨o, k, horigin, by rw [opParent, hd, Option.map_some, hp]⟩ hstands
    | some b =>
      obtain ⟨a, hax, hpre⟩ := hs.ahead o d b hd hp (hparent b hp) (hv.rank_lt horigin)
      exact ⟨a, hax, .inr ⟨o, k, horigin, hpre⟩⟩

theorem feeds (hv : Upstream spine top rank s v) (h : Feeds s v w) :
    Upstream spine top rank s w := by
  obtain ⟨o, k, d, horigin, hd, hw⟩ := h
  have hseated : Seated spine s o := hv.rooted.definingOp? (definingOp?_of_result horigin)
  have hlt := hv.rank_lt horigin
  have hwlt := hs.ranks.operand_lt hlt.le hd hw
  rcases hs.inside o hseated hlt.le o d w .refl hd hw with hroot | ⟨a, hoa, hao, _⟩
  · exact ⟨hroot, by omega, by omega⟩
  · exact absurd (hoa.trans_left hao) (hs.acyclic o)

theorem chain (hv : Upstream spine top rank s v) (h : Chain s v w) :
    Upstream spine top rank s w := by
  induction h with
  | refl => exact hv
  | tail _ hfeeds ih => exact hs.feeds ih hfeeds

end Stationed

/-! ## Hoists -/

/-- The place is in front of an operation from which the anchor is reached, or of one that stands in
no block any more. -/
def Ahead (x : OpRef) (s : Store) (p : Point) : Prop :=
  ∃ q, p.before = some q ∧ (Reaches s q x ∨ s.opParent q = some none)

/-- What is left to go on from: the frame, what was upstream, and the places ahead of the anchor. -/
structure Onward (spine : BlockRef → Prop) (x : OpRef) (top : Nat) (rank rank' : OpRef → Nat)
    (s t : Store) : Prop where
  stationed : Stationed spine x top rank' t
  carried : Carried spine rank rank' s t
  place : ∀ p, Ahead x s p → Ahead x t p

namespace Onward

theorem refl (hs : Stationed spine x top rank s) : Onward spine x top rank rank s s :=
  ⟨hs, .refl spine rank s, fun _ h => h⟩

theorem trans {s₁ : Store} (h : Onward spine x top rank rank' s s₁)
    (h' : Onward spine x top rank' rank'' s₁ t) : Onward spine x top rank rank'' s t :=
  ⟨h'.stationed, h.carried.trans h'.carried, fun p hp => h'.place p (h.place p hp)⟩

theorem upstream (h : Onward spine x top rank rank' s t) (hv : Upstream spine top rank s v) :
    Upstream spine top rank' t v :=
  Met.carried hv h.carried

end Onward

namespace Stationed

variable (hs : Stationed spine x top rank s)

include hs

/-- The place behind what is upstream is ahead of the anchor. -/
theorem afterDefinition? (hv : Upstream spine top rank s v)
    (h : Point.afterDefinition? s v = .ok (some p)) : spine p.block ∧ Ahead x s p := by
  have hl := hs.consistent.linked
  have hstands : ¬ Adrift s v := not_adrift_of_afterDefinition? h
  obtain ⟨p?, hp?, hspine⟩ := hv.rooted.afterDefinition? hl
  cases h.symm.trans hp?
  obtain ⟨q, hq, hreaches⟩ := reaches_of_afterDefinition? hl (hs.sees hv hstands) h
  exact ⟨(hspine p rfl).1, q, hq, .inl hreaches⟩

/-- A hoist of something upstream to a place ahead of the anchor. -/
theorem hoist (hspine : spine p.block) (hp : Ahead x s p) (hseated : Seated spine s o)
    (hrank : rank o < top) (hrun : Raise.hoist o p J s = .ok ((some c, J'), t)) :
    ∃ rank', Onward spine x top rank rank' s t ∧ Seated spine t c ∧ rank' c < top := by
  obtain ⟨rank', hf', hcarried, hc, hcopy, honly⟩ :=
    hs.toFramed.hoist hspine hseated hrank.le hrun
  have hl := hs.consistent.linked
  obtain ⟨⟨gone, hk⟩, hg⟩ := hs.consistent
  obtain ⟨b, before, sc, si, sr, m, h, _⟩ := hoist_hoisted hk hg hrun
  obtain ⟨bd, hbd⟩ := hs.blocks _ hspine
  -- the original does not enclose the anchor
  have hne : ∀ {y}, Within s y x → y ≠ o := fun hy heq => hs.not_within hrank (heq ▸ hy)
  have hwithin : ∀ {a}, Within s a x → Within t a x := fun hw =>
    h.within_of hw fun y _ hy => hne hy
  have hstationed : Stationed spine x top rank' t := by
    refine { hf' with there := ?_, level := ?_, around := fun b' hb' => ?_,
                      ahead := fun o' e b' he hparent hb' hlt => ?_ }
    · obtain ⟨d, hd⟩ := hs.there
      obtain ⟨e, he, _⟩ := h.op? hd
      exact ⟨e, he⟩
    · obtain ⟨d, hd⟩ := hs.there
      exact (hcarried.rank x d hd).trans hs.level
    · obtain ⟨a, bd', hax, hbd', hmem⟩ := hs.around b' hb'
      obtain ⟨da, hda, _⟩ := hl.op?_of_mem hbd' hmem
      obtain ⟨be, hbe, hiff⟩ := h.mem_ops hbd' hda
      exact ⟨a, be, hwithin hax, hbe, hiff.2 ⟨hne hax, hmem⟩⟩
    · have hseated' : Seated spine t o' := by
        refine ⟨e, he, fun b'' hb'' => ?_⟩
        cases hparent.symm.trans hb''
        exact hb'
      rcases honly o' hseated' with rfl | ⟨d, hd, _⟩
      · -- the copy precedes what it was put in front of
        obtain ⟨q, hq, hcases⟩ := hp
        obtain ⟨hmem, hprecedes⟩ := h.precedes_copy hbd hq
        rcases hcases with ⟨a, hax, hqa⟩ | hgone
        · exact ⟨a, hwithin hax, hprecedes a (hne hax) hqa⟩
        · cases hgone.symm.trans (opParent_of_mem hl hbd hmem)
      · obtain ⟨e', he', _, _, heq⟩ := h.op? hd
        cases he.symm.trans he'
        have ho' : o' ≠ o := by
          rintro rfl
          rw [if_pos rfl, hparent] at heq
          cases heq
        rw [if_neg ho', hparent] at heq
        obtain ⟨a, hax, hpre⟩ :=
          hs.ahead o' d b' hd heq.symm hb' (hcarried.rank o' d hd ▸ hlt)
        exact ⟨a, hwithin hax, h.precedes hpre ho' (hne hax)⟩
  refine ⟨rank', ⟨hstationed, hcarried, ?_⟩, hc, hcopy ▸ hrank⟩
  rintro p' ⟨q, hq, hcases⟩
  refine ⟨q, hq, ?_⟩
  by_cases hqo : q = o
  · exact .inr (hqo ▸ h.detached_parent)
  · rcases hcases with ⟨a, hax, hqa⟩ | hgone
    · exact .inl ⟨a, hwithin hax, hqa.imp_right fun hpre => h.precedes hpre hqo (hne hax)⟩
    · obtain ⟨d, hd, hnone⟩ := Option.map_eq_some_iff.1 hgone
      obtain ⟨e, he, _, _, heq⟩ := h.op? hd
      rw [if_neg hqo] at heq
      exact .inr (by rw [opParent, he, Option.map_some, heq, hnone])

end Stationed

/-! ## Promotion -/

/-- Promotion of what is upstream. -/
def PromotesUpstream (spine : BlockRef → Prop) (x : OpRef) (top : Nat)
    (promote : ValueRef → Draft (Option ValueRef)) : Prop :=
  ∀ {v J s r J' t rank}, Stationed spine x top rank s → Upstream spine top rank s v →
    promote v J s = .ok ((r, J'), t) → ∃ rank', Onward spine x top rank rank' s t ∧
      ∀ w, r = some w → Upstream spine top rank' t w

/-- Values upstream are made available at places ahead of the anchor. -/
theorem availabilityWith_upstream {promote : ValueRef → Draft (Option ValueRef)}
    (hpromote : PromotesUpstream spine x top promote) {forIndex : Bool} {vs : List ValueRef} :
    ∀ {J J' : Journal} {s t : Store} {rank : OpRef → Nat} {r : Option (List Point)},
      Stationed spine x top rank s → (∀ v ∈ vs, Upstream spine top rank s v) →
      availabilityWith promote forIndex vs J s = .ok ((r, J'), t) →
      ∃ rank', Onward spine x top rank rank' s t ∧
        ∀ ps, r = some ps → ∀ p ∈ ps, spine p.block ∧ Ahead x t p := by
  induction vs with
  | nil =>
    intro J J' s t rank r hs _ h
    obtain ⟨rfl, rfl, rfl⟩ := Draft.pure_ok.1 h
    exact ⟨rank, .refl hs, fun ps hps p hp => by cases hps; cases hp⟩
  | cons v vs ih =>
    intro J J' s t rank r hs hvs h
    have hv := hvs v List.mem_cons_self
    obtain ⟨available, J₁, s₁, hfirst, hrest⟩ := availabilityWith_cons_ok h
    obtain ⟨rank₁, honward, havailable⟩ : ∃ rank₁, Onward spine x top rank rank₁ s s₁ ∧
        ∀ a, available = some a → Upstream spine top rank₁ s₁ a := by
      obtain hfirst | ⟨rfl, rfl, rfl | rfl⟩ := hfirst
      · exact hpromote hs hv hfirst
      · exact ⟨rank, .refl hs, fun a ha => by cases ha⟩
      · exact ⟨rank, .refl hs, fun a ha => by cases ha; exact hv⟩
    obtain ⟨rfl, rfl, rfl, _⟩ | ⟨a, p, ps?, rfl, hp, hmore, rfl⟩ := availabilityFrom_ok hrest
    · exact ⟨rank₁, honward, fun ps hps => by cases hps⟩
    · obtain ⟨rank₂, honward', hplaces⟩ := ih honward.stationed (fun u hu =>
        honward.upstream (hvs u (List.mem_cons_of_mem v hu))) hmore
      obtain ⟨hspine, hahead⟩ := honward.stationed.afterDefinition? (havailable a rfl) hp
      refine ⟨rank₂, honward.trans honward', fun qs hqs q hq => ?_⟩
      obtain ⟨ps, rfl, rfl⟩ := Option.map_eq_some_iff.1 hqs
      rcases List.mem_cons.1 hq with rfl | hq
      · exact ⟨hspine, honward'.place q hahead⟩
      · exact hplaces ps rfl q hq

/-- Promotion of what is upstream yields what is upstream. -/
theorem promoteFuel_upstream (spine : BlockRef → Prop) (x : OpRef) (top : Nat) (forIndex : Bool)
    (n : Nat) : PromotesUpstream spine x top (promoteFuel forIndex n) := by
  induction n with
  | zero =>
    intro v J s r J' t rank _ _ h
    cases h
  | succ n ih =>
    intro v J s r J' t rank hs hv h
    obtain ⟨rfl, rfl, hr⟩ | ⟨o, free, points, J₁, s₁, ho, _, hfree, havail, hrest⟩ :=
      promoteFuel_ok h
    · refine ⟨rank, .refl hs, fun w hw => ?_⟩
      rcases hr with rfl | rfl
      · cases hw
      · cases hw
        exact hv
    · obtain ⟨k, hk⟩ := definingOp?_some ho
      have hseated : Seated spine s o := hv.rooted.definingOp? ho
      have hrank : rank o < top := hv.rank_lt hk
      obtain ⟨d, hd, _⟩ := id hseated
      obtain ⟨free', hfree', _, hmem⟩ :=
        freeOperands_iff hs.consistent.linked hs.acyclic hs.consistent.grounded hd
      cases hfree.symm.trans hfree'
      obtain ⟨rank₁, honward, hplaces⟩ := availabilityWith_upstream ih hs (fun u hu =>
        hs.free_met hseated hrank.le hrank.le ((hmem u).1 hu)) havail
      obtain ⟨rfl, rfl, rfl⟩ | ⟨ps, p, clone, rfl, hp, hhoist, rfl⟩ := hrest
      · exact ⟨rank₁, honward, fun w hw => by cases hw⟩
      · cases clone with
        | none =>
          obtain ⟨_, _, ⟨_, _, rfl, rfl⟩ | ⟨_, _, _, _, _, _, _, _, _, _, _, _, _, hr, _⟩⟩ :=
            hoist_ok hhoist
          · exact ⟨rank₁, honward, fun w hw => by cases hw⟩
          · cases hr
        | some c =>
          obtain ⟨hspine, hahead⟩ := hplaces ps rfl p (latest?_mem hp)
          obtain ⟨rank₂, honward', hc, hcrank⟩ := honward.stationed.hoist hspine hahead
            (honward.carried.seated o hseated) (honward.carried.rank o d hd ▸ hrank) hhoist
          refine ⟨rank₂, honward.trans honward', fun w hw => ?_⟩
          obtain ⟨k, hk⟩ := originOf_of_mem_results honward'.stationed.consistent.linked
            (List.mem_of_head? hw)
          have hvalue : valueRank t rank₂ w = rank₂ c := by rw [valueRank, hk]
          exact ⟨.inr ⟨c, k, hk, hc⟩, by omega, by omega⟩

/-! ## Compositions -/

/-- What is bound for an operand upstream is upstream. -/
theorem composeOperand_upstream {p p' : Positions} {isDim : Bool} {e : Expr}
    (hs : Stationed spine x top rank s) (hp : ∀ w ∈ p.operands, Upstream spine top rank s w)
    (hv : Upstream spine top rank s v)
    (h : composeOperand p v isDim J s = .ok ((.ok (e, p'), J'), t)) :
    ∃ rank', Onward spine x top rank rank' s t ∧
      ∀ w ∈ p'.operands, Upstream spine top rank' t w := by
  by_cases hneeds : NeedsHoist s v
  · obtain ⟨u, w, hchain, hu, hrequire, hmem⟩ := composeOperand_hoisted hneeds h
    obtain ⟨sym, hsym, hrequire⟩ := Compose.ask_bind.1 hrequire
    cases hu.symm.trans hsym
    obtain ⟨w?, J₁, s₁, hpromote, hrequire⟩ := Compose.draft_bind.1 hrequire
    cases w? with
    | none => cases hrequire
    | some w' =>
      obtain ⟨sym', _, hrequire⟩ := Compose.ask_bind.1 hrequire
      cases sym' with
      | false => cases hrequire
      | true =>
        obtain ⟨hw, rfl, rfl⟩ := Compose.pure_ok.1 hrequire
        cases hw
        simp only [promote, Draft.bind_ok, Draft.lift_ok, Edit.get_run] at hpromote
        obtain ⟨_, _, _, ⟨hget, rfl⟩, hpromote⟩ := hpromote
        cases hget
        obtain ⟨rank', honward, hpromoted⟩ :=
          promoteFuel_upstream spine x top false _ hs (hs.chain hv hchain) hpromote
        refine ⟨rank', honward, fun y hy => ?_⟩
        rcases hmem y hy with hy | rfl
        · exact honward.upstream (hp y hy)
        · exact hpromoted y rfl
  · obtain ⟨piece, a, hpiece, ha, hr, rfl, rfl⟩ := (composeOperand_iff hneeds).1 h
    cases hr
    refine ⟨rank, .refl hs, fun w hw => ?_⟩
    rcases Piece.place_operands ha hw with hw | hw
    · exact hp w hw
    · rcases pieceOf?_inputs hpiece with hinputs | hbelow
      · rw [hinputs, List.mem_singleton] at hw
        exact hw ▸ hv
      · exact hs.chain hv (hbelow w hw).to_reflTransGen

theorem composeOperands_upstream {numDims : Nat} {vs : List ValueRef} :
    ∀ {i : Nat} {p p' : Positions} {J J' : Journal} {s t : Store} {rank : OpRef → Nat}
      {es : List Expr}, Stationed spine x top rank s →
      (∀ w ∈ p.operands, Upstream spine top rank s w) → (∀ v ∈ vs, Upstream spine top rank s v) →
      composeOperands numDims i p vs J s = .ok ((.ok (es, p'), J'), t) →
      ∃ rank', Onward spine x top rank rank' s t ∧
        ∀ w ∈ p'.operands, Upstream spine top rank' t w := by
  induction vs with
  | nil =>
    intro i p p' J J' s t rank es hs hp _ h
    obtain ⟨h, rfl, rfl⟩ := Compose.pure_ok.1 h
    cases h
    exact ⟨rank, .refl hs, hp⟩
  | cons v vs ih =>
    intro i p p' J J' s t rank es hs hp hvs h
    obtain ⟨⟨e, p₁⟩, J₁, s₁, hfirst, h⟩ := Compose.bind_ok.1 h
    obtain ⟨⟨es', p₂⟩, J₂, s₂, hrest, h⟩ := Compose.bind_ok.1 h
    obtain ⟨h, rfl, rfl⟩ := Compose.pure_ok.1 h
    cases h
    obtain ⟨rank₁, honward, hp₁⟩ :=
      composeOperand_upstream hs hp (hvs v List.mem_cons_self) hfirst
    obtain ⟨rank₂, honward', hp₂⟩ := ih honward.stationed hp₁
      (fun u hu => honward.upstream (hvs u (List.mem_cons_of_mem v hu))) hrest
    exact ⟨rank₂, honward.trans honward', hp₂⟩

theorem composeSteps_upstream (limit : Nat) :
    ∀ {b b' : Binding} {J J' : Journal} {s t : Store} {rank : OpRef → Nat},
      Stationed spine x top rank s → (∀ v ∈ b.operands, Upstream spine top rank s v) →
      composeSteps limit b J s = .ok ((.ok b', J'), t) →
      ∃ rank', Onward spine x top rank rank' s t ∧
        ∀ w ∈ b'.operands, Upstream spine top rank' t w := by
  have hstep : ∀ {b next : Binding} {J J' : Journal} {s t : Store} {rank : OpRef → Nat},
      Stationed spine x top rank s → (∀ v ∈ b.operands, Upstream spine top rank s v) →
      composeStep b J s = .ok ((.ok next, J'), t) → ∃ rank', Onward spine x top rank rank' s t ∧
        ∀ w ∈ next.operands, Upstream spine top rank' t w := by
    intro b next J J' s t rank hs hb h
    obtain ⟨⟨es, p⟩, J₁, s₁, hoperands, h⟩ := Compose.bind_ok.1 h
    obtain ⟨m, _, h⟩ := Compose.ask_bind.1 h
    obtain ⟨_, hcanonical, hnext, rfl, rfl⟩ := Compose.ask_ok.1 h
    cases hnext
    obtain ⟨rank', honward, hbound⟩ := composeOperands_upstream hs (fun w hw => by cases hw) hb
      hoperands
    exact ⟨rank', honward, fun w hw => hbound w (rebindFuel_operands _ hcanonical w hw)⟩
  induction limit with
  | zero =>
    intro b b' J J' s t rank hs hb h
    rcases composeSteps_cases h with ⟨rfl, rfl, rfl, _⟩ | ⟨_, ⟨rfl, hrun⟩ | ⟨_, _, _, _, hleft, _⟩⟩
    · exact ⟨rank, .refl hs, hb⟩
    · exact hstep hs hb hrun
    · cases hleft
  | succ limit ih =>
    intro b b' J J' s t rank hs hb h
    rcases composeSteps_cases h with
      ⟨rfl, rfl, rfl, _⟩ | ⟨_, ⟨rfl, hrun⟩ | ⟨left, next, J₁, s₁, hleft, _, hrun, hrest⟩⟩
    · exact ⟨rank, .refl hs, hb⟩
    · exact hstep hs hb hrun
    · cases hleft
      obtain ⟨rank₁, honward, hnext⟩ := hstep hs hb hrun
      obtain ⟨rank₂, honward', hbound⟩ := ih honward.stationed hnext hrest
      exact ⟨rank₂, honward.trans honward', hbound⟩

/-- Where every operation sees its operands, the anchor sees what the loop of a composition leaves
of values that it saw, unless the definition was taken out of its block on the way. -/
theorem composeSteps_sees {removed : OpRef → Prop} {b b' : Binding} {limit : Nat} {d : OpData}
    (hs : Consistent s) (hac : Acyclic s) (hsees : SeesOperands removed s) (hsized : Sized s)
    (hx : s.op? x = some d) (hxlive : ¬ removed x) (hb : ∀ v ∈ b.operands, Sees s v x)
    (h : composeSteps limit b J s = .ok ((.ok b', J'), t)) :
    Consistent t ∧ Acyclic t ∧ (∃ e, t.op? x = some e) ∧
      ∀ v ∈ b'.operands, ¬ Adrift t v → Sees t v x := by
  obtain ⟨cap, rank, hr, hlive, horder⟩ := hsees.exists_ranks hs.linked hac
  obtain ⟨rank', honward, hbound⟩ := composeSteps_upstream limit
    (Stationed.of_sees hs hr horder hx hac hsees hsized hlive hxlive)
    (fun v hv => Upstream.of_sees hs hr horder hx (hb v hv)) h
  have ht := honward.stationed
  exact ⟨ht.consistent, ht.acyclic, ht.there, fun v hv hstands => ht.sees (hbound v hv) hstands⟩

end AffineRaising.Raise
