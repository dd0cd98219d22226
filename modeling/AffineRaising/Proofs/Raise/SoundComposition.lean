/-
# AffineRaising.Proofs.Raise.SoundComposition — compositions keep a module sound.

A composition for an anchor hoists and casts ahead of the anchor (`Prepares`), whether it comes to a
binding or gives up.  All along the anchor can look at the values that are bound: they are values
that it could look at before, or what such values are computed from, promoted to, or cast to.
-/
import AffineRaising.Proofs.Raise.CanonicalOperands
import AffineRaising.Proofs.Raise.SoundEdits
import AffineRaising.Proofs.Raise.SoundPromotion

namespace AffineRaising.Raise

open AffineRaising.IR AffineRaising.IR.Store AffineRaising.Ops AffineRaising.Analysis
open AffineRaising.Affine (Expr)

variable {sided : Prop} {gone : OpRef → Prop} {a b : Journal × Store} {s t : Store}
  {u v w : ValueRef}
  {root o x q : OpRef}

/-! ## Steps ahead of an anchor -/

/-- The anchor sees the value, or the value is a result of an original. -/
abbrev Looks (x : OpRef) (a : Journal × Store) (v : ValueRef) : Prop :=
  InReach (· ∈ a.1.originals) a.2 x v

/-- A cast of something that the anchor sees is put behind the definition of that. -/
def CastAhead (x : OpRef) (a b : Journal × Store) : Prop :=
  ∃ v p cast s₁, Sees a.2 v x ∧ Point.afterDefinition? a.2 v = .ok (some p) ∧
    createOp (indexCastSpec v .index) a.2 = .ok (cast, s₁) ∧
    Point.insert p cast s₁ = .ok ((), b.2) ∧ b.1 = a.1 ++ [.inserted cast]

theorem suits_indexCast (v : ValueRef) (s : Store) :
    Fitted sided ((indexCastSpec v .index).entry s) := by
  refine .of_name (.of_name ?_ ?_ ?_ ?_ (.of_name ?_ ?_)) ?_ <;>
    simp only [OpSpec.entry, indexCastSpec] <;> decide

/-- The place behind what the anchor sees is in the module, ahead of the anchor, and the value is
seen from there. -/
theorem place_of_afterDefinition? {p : Point} (hl : Linked s) (htop : s.opParent root = some none)
    (hx : Nested s root x) (hv : Sees s v x) (hp : Point.afterDefinition? s v = .ok (some p)) :
    ∃ q, p.before = some q ∧ Nested s root q ∧ Reaches s q x ∧ Sees s v q := by
  obtain ⟨q, hq, hreach⟩ := reaches_of_afterDefinition? hl hv hp
  have hoffered := offered_of_afterDefinition? hl hp hq (.inl rfl)
  obtain ⟨b', hb'⟩ : ∃ b', s.opParent q = some (some b') := by
    rcases hoffered with ⟨b', _, bd, _, hbd, hmem⟩ | ⟨_, _, _, b', bd, hbd, hpair⟩
    · exact ⟨b', opParent_of_mem hl hbd hmem⟩
    · exact ⟨b', opParent_of_mem hl hbd (right_mem_of_pair hpair)⟩
  exact ⟨q, hq, hx.of_reaches hl htop hreach hb', hreach, hoffered.sees⟩

/-- The parts of a new cast that stands ahead of an anchor. -/
theorem CastAhead.parts (h : CastAhead x a b) (ha : Underway sided root gone a)
    (hx : Nested a.2 root x) : ∃ v p q cast s₁,
      createOp (indexCastSpec v .index) a.2 = .ok (cast, s₁) ∧
      insertOp p (some q) cast s₁ = .ok ((), b.2) ∧ b.1 = a.1 ++ [.inserted cast] ∧
      Nested a.2 root q ∧ Sees a.2 v q := by
  obtain ⟨v, p, cast, s₁, hv, hp, hcreate, hinsert, hJ⟩ := h
  obtain ⟨q, hq, hnested, _, hseen⟩ :=
    place_of_afterDefinition? ha.sound.linked ha.sound.top hx hv hp
  exact ⟨v, p.block, q, cast, s₁, hcreate, by rw [← hq]; exact hinsert, hJ, hnested, hseen⟩

namespace CastAhead

variable (h : CastAhead x a b) (ha : Underway sided root gone a) (hx : Nested a.2 root x)

include h ha hx

theorem underway : Underway sided root gone b := by
  obtain ⟨v, p, q, cast, s₁, hcreate, hinsert, hJ, hq, hv⟩ := h.parts ha hx
  have hc := createOp_ok hcreate
  have hsound := ha.sound
  have hcopied := hc.copied_self rfl
  obtain ⟨d, hd, hparent⟩ := Option.map_eq_some_iff.1 hsound.top
  have hcreated := hsound.created hcreate rfl
    (fun w hw => List.mem_singleton.1 hw ▸ value?_of_sees hv) (suits_indexCast v a.2)
  have hne : cast ≠ root := by
    rintro rfl
    cases hc.new.symm.trans hd
  have hlive : ¬ gone cast := fun hgone => by
    have hlt := hsound.tidy.kept.created cast hgone
    rw [hc.eq_next] at hlt
    exact Nat.lt_irrefl _ hlt
  have hinserted := hcreated.inserted hlive hne hinsert (hq.grows hcopied.grows)
    fun y e w hy he hw => by
      cases hc.within_self rfl hy
      rw [hc.op?, if_pos rfl] at he
      cases he
      cases List.mem_singleton.1 (show w ∈ [v] from hw)
      exact .inl (hcopied.grows.sees hv)
  have horiginals : b.1.originals = a.1.originals := by
    rw [hJ, Journal.originals_inserted]
  have hi := insertedBefore_of_ok hinsert
  refine ⟨hinserted.mono fun y hy => ?_, fun y hy => ?_, ?_⟩
  · rw [horiginals]
    exact hy.1.resolve_right hy.2
  · rw [horiginals] at hy
    obtain ⟨e, he, hnone⟩ := Option.map_eq_some_iff.1 (ha.out y hy)
    have hyc : y ≠ cast := by
      rintro rfl
      cases hc.new.symm.trans he
    rw [hi.opParent_other hyc, opParent, hcopied.op? y e he, Option.map_some, hnone]
  · rw [horiginals]
    exact ha.stays

theorem nested : Nested b.2 root x := by
  obtain ⟨v, p, q, cast, s₁, hcreate, hinsert, _⟩ := h.parts ha hx
  exact (hx.grows ((createOp_ok hcreate).copied_self rfl).grows).grows
    (insertedBefore_of_ok hinsert).grows

theorem looks (hw : Looks x a w) : Looks x b w := by
  have hb := h.underway ha hx
  obtain ⟨v, p, q, cast, s₁, hcreate, hinsert, hJ, hq, hv⟩ := h.parts ha hx
  have hc := createOp_ok hcreate
  have hcopied := hc.copied_self rfl
  have hl₁ : Linked s₁ := ((Kept.copyStepsKeep gone).createOp _ _ _ _ ha.sound.tidy.kept
    hcreate).linked
  obtain ⟨d, hd, hparent⟩ := Option.map_eq_some_iff.1 ha.sound.top
  show InReach (· ∈ b.1.originals) b.2 x w
  rw [hJ, Journal.originals_inserted]
  refine InReach.inserted (insertedBefore_of_ok hinsert) hl₁ ?_ (hq.grows hcopied.grows)
    hb.sound.linked (InReach.copied hcopied ha.sound.linked hl₁ hw) ha.stays fun hcast => ?_
  · rw [opParent, hcopied.op? root d hd, Option.map_some, hparent]
  · obtain ⟨e, he, _⟩ := Option.map_eq_some_iff.1 (ha.out cast hcast)
    cases hc.new.symm.trans he

end CastAhead

/-- A hoist or a cast ahead of the anchor. -/
def PrepareStep (root : OpRef) (gone : OpRef → Prop) (x : OpRef) (a b : Journal × Store) : Prop :=
  DrawStep root gone x a b ∨ CastAhead x a b

/-- Any number of hoists and casts ahead of the anchor. -/
def Prepares (root : OpRef) (gone : OpRef → Prop) (x : OpRef) :
    Journal × Store → Journal × Store → Prop :=
  Relation.ReflTransGen (PrepareStep root gone x)

theorem Draws.prepares (h : Draws root gone x a b) : Prepares root gone x a b :=
  Relation.ReflTransGen.mono (fun _ _ => .inl) _ _ h

namespace Prepares

variable (h : Prepares root gone x a b) (ha : Underway sided root gone a) (hx : Nested a.2 root x)

include h ha hx

theorem sound : Underway sided root gone b ∧ Nested b.2 root x := by
  induction h with
  | refl => exact ⟨ha, hx⟩
  | tail _ hstep ih =>
    obtain ⟨hc, hxc⟩ := ih
    rcases hstep with hstep | hstep
    · exact ⟨hstep.underway hc, hstep.nested hxc⟩
    · exact ⟨hstep.underway hc hxc, hstep.nested hc hxc⟩

theorem looks (hv : Looks x a v) : Looks x b v := by
  induction h with
  | refl => exact hv
  | tail hrun hstep ih =>
    obtain ⟨hc, hxc⟩ := Prepares.sound hrun ha hx
    rcases hstep with hstep | hstep
    · exact hstep.inReach hc ih
    · exact hstep.looks hc hxc ih

end Prepares

/-- Operations keep their entries, operands and places apart. -/
theorem PrepareStep.fixed (h : PrepareStep root gone x a b) (ha : Underway sided root gone a)
    (hx : Nested a.2 root x) {y : OpRef} {d : OpData} (hd : a.2.op? y = some d) :
    ∃ e, b.2.op? y = some e ∧ fixedOf e = fixedOf d := by
  rcases h with ⟨o, q, c, p, blk, before, sc, si, sr, m, hdraw, _, _⟩ | hcast
  · exact hdraw.hoisted.fixed_of_op? (hdraw.copied.op? y d hd)
  · obtain ⟨v, p, q, cast, s₁, hcreate, hinsert, _⟩ := hcast.parts ha hx
    have hc := createOp_ok hcreate
    have hyc : y ≠ cast := by
      rintro rfl
      cases hc.new.symm.trans hd
    refine ⟨d, ?_, rfl⟩
    rw [(insertedBefore_of_ok hinsert).op?_other hyc, hc.op?, if_neg hyc, hd]

theorem Prepares.fixed (h : Prepares root gone x a b) (ha : Underway sided root gone a)
    (hx : Nested a.2 root x) {y : OpRef} {d : OpData} (hd : a.2.op? y = some d) :
    ∃ e, b.2.op? y = some e ∧ fixedOf e = fixedOf d := by
  induction h with
  | refl => exact ⟨d, hd, rfl⟩
  | tail hrun hstep ih =>
    obtain ⟨e, he, hfixed⟩ := ih
    obtain ⟨hb, hxb⟩ := Prepares.sound hrun ha hx
    obtain ⟨e', he', hfixed'⟩ := hstep.fixed hb hxb he
    exact ⟨e', he', hfixed'.trans hfixed⟩

/-! ## What is looked at -/

section Looks

variable (ha : Underway sided root gone a) (hx : Nested a.2 root x)

include ha hx

theorem Looks.feeds (hv : Looks x a v) (h : Feeds a.2 v w) : Looks x a w := by
  obtain ⟨o, k, d, horigin, hd, hw⟩ := h
  exact ha.sound.visible.computedFrom_inReach ha.sound.linked ha.sound.top hx hv
    ⟨o, k, o, d, horigin, .refl, hd, hw, .inl rfl⟩

theorem Looks.chain (hv : Looks x a v) (h : Chain a.2 v w) : Looks x a w := by
  induction h with
  | refl => exact hv
  | tail _ hfeeds ih => exact Looks.feeds ha hx ih hfeeds

end Looks

/-! ## Runs of a composition -/

/-- However the composition ends, it has only hoisted and cast ahead of the anchor; and what it
yields has the property. -/
def ComposesTo {α : Type} (root : OpRef) (gone : OpRef → Prop) (x : OpRef) (a : Journal × Store)
    (m : Compose α) (Q : α → Journal × Store → Prop) : Prop :=
  ∀ r J' t, m a.1 a.2 = .ok ((r, J'), t) →
    Prepares root gone x a (J', t) ∧ ∀ y, r = .ok y → Q y (J', t)

namespace ComposesTo

variable {α β : Type} {m : Compose α} {f : α → Compose β} {P : α → Journal × Store → Prop}
  {Q : β → Journal × Store → Prop}

theorem pure {y : β} (h : Q y a) : ComposesTo root gone x a (Pure.pure y) Q := by
  intro r J' t hrun
  obtain ⟨rfl, rfl, rfl⟩ := Compose.pure_ok.1 hrun
  refine ⟨.refl, fun y' hy => ?_⟩
  cases hy
  exact h

theorem throw {e : ComposeError} :
    ComposesTo root gone x a (MonadExcept.throw e : Compose β) Q := by
  intro r J' t hrun
  obtain ⟨rfl, rfl, rfl⟩ := Compose.throw_ok.1 hrun
  exact ⟨.refl, fun y hy => by cases hy⟩

theorem ask_bind {q : Store → Except Fault α}
    (h : ∀ y, q a.2 = .ok y → ComposesTo root gone x a (f y) Q) :
    ComposesTo root gone x a (Compose.ask q >>= f) Q := by
  intro r J' t hrun
  obtain ⟨y, hy, hrun⟩ := Compose.ask_bind.1 hrun
  exact h y hy r J' t hrun

theorem bind (hm : ComposesTo root gone x a m P)
    (hf : ∀ y b, Prepares root gone x a b → P y b → ComposesTo root gone x b (f y) Q) :
    ComposesTo root gone x a (m >>= f) Q := by
  intro r J' t hrun
  cases r with
  | ok z =>
    obtain ⟨y, J₁, s₁, hfirst, hrest⟩ := Compose.bind_ok.1 hrun
    obtain ⟨hprepares, hP⟩ := hm _ J₁ s₁ hfirst
    obtain ⟨hprepares', hQ⟩ := hf y (J₁, s₁) hprepares (hP y rfl) _ J' t hrest
    exact ⟨hprepares.trans hprepares', hQ⟩
  | error e =>
    refine ⟨?_, fun y hy => by cases hy⟩
    rcases Compose.bind_error.1 hrun with hrun | ⟨y, J₁, s₁, hfirst, hrest⟩
    · exact (hm _ J' t hrun).1
    · obtain ⟨hprepares, hP⟩ := hm _ J₁ s₁ hfirst
      exact hprepares.trans (hf y (J₁, s₁) hprepares (hP y rfl) _ J' t hrest).1

theorem ite {c : Prop} [Decidable c] {m' : Compose α} (h : c → ComposesTo root gone x a m P)
    (h' : ¬ c → ComposesTo root gone x a m' P) :
    ComposesTo root gone x a (if c then m else m') P := by
  split
  · exact h ‹_›
  · exact h' ‹_›

theorem mono {P' : α → Journal × Store → Prop} (h : ComposesTo root gone x a m P)
    (hP : ∀ y b, P y b → P' y b) : ComposesTo root gone x a m P' := fun r J' t hrun =>
  (h r J' t hrun).imp_right fun hr y hy => hP y _ (hr y hy)

end ComposesTo

/-! ## Folding -/

section Anchor

variable (ha : Underway sided root gone a) (hx : Nested a.2 root x)

include ha hx

/-- What a value is promoted to the anchor can look at. -/
theorem requireSymbol_sound (hv : Looks x a v) :
    ComposesTo root gone x a (requireSymbol v) fun w b => Looks x b w := by
  refine .ask_bind fun sym _ => ?_
  refine .ite (fun _ => .pure hv) fun _ => .bind (P := fun r b => ∀ w, r = some w → Looks x b w)
    (fun r J' t hrun => ?_) fun r b _ hr => ?_
  · obtain ⟨w?, hpromote, rfl⟩ := Compose.draft_ok.1 hrun
    simp only [promote, Draft.bind_ok, Draft.lift_ok, Edit.get_run] at hpromote
    obtain ⟨_, _, _, ⟨hget, rfl⟩, hpromote⟩ := hpromote
    cases hget
    obtain ⟨hdraws, hpromoted⟩ := promoteFuel_sound root gone false _ ha hx hv hpromote
    refine ⟨hdraws.prepares, fun r hr w hw => ?_⟩
    cases hr
    exact (hpromoted w hw).1
  · cases r with
    | none => exact .throw
    | some w =>
      exact .ask_bind fun sym' _ => .ite (fun _ => .pure (hr w rfl)) fun _ => .throw

/-- What is bound for an operand the anchor can look at. -/
theorem composeOperand_sound {p : Positions} (hp : ∀ w ∈ p.operands, Looks x a w)
    (hv : Looks x a v) (isDim : Bool) :
    ComposesTo root gone x a (composeOperand p v isDim) fun r b =>
      ∀ w ∈ r.2.operands, Looks x b w := by
  rw [composeOperand_eq]
  refine .ask_bind fun decast hdecast => .ask_bind fun sym _ => ?_
  have hbehind : Looks x a decast := hv.chain ha hx (stripFuel_chain _ hdecast)
  have hlooked : Looks x a (if sym then v else decast) := by
    cases sym with
    | true => exact hv
    | false => exact hbehind
  generalize (if sym then v else decast) = y at hlooked
  refine .ask_bind fun shape? hshape => ?_
  cases shape? with
  | some shape =>
    refine .ask_bind fun e _ => .pure fun w hw => ?_
    rcases mem_bindAll Positions.mem_symbol hw with hw | hw
    · exact hp w hw
    · rcases inlineShape?_feeds hshape with hfeeds | hfeeds
      · exact hlooked.feeds ha hx (hfeeds w hw)
      · exact hbehind.feeds ha hx (hfeeds w hw)
  | none =>
    refine .ask_bind fun arg _ => .ite (fun _ => .pure fun w hw => ?_) fun _ =>
      .ask_bind fun applied happlied => ?_
    · rcases Positions.mem_dim hw with hw | rfl
      · exact hp w hw
      · exact hlooked
    · cases applied with
      | some applied =>
        obtain ⟨m, result, operands⟩ := applied
        refine .ask_bind fun e _ => .pure fun w hw => ?_
        rcases mem_bindAll Positions.mem_symbol hw with hw | hw
        · rcases mem_bindAll Positions.mem_dim hw with hw | hw
          · exact hp w hw
          · exact hlooked.feeds ha hx (appliedMap?_feeds happlied w (List.mem_of_mem_take hw))
        · exact hlooked.feeds ha hx (appliedMap?_feeds happlied w (List.mem_of_mem_drop hw))
      | none =>
        refine .bind (requireSymbol_sound ha hx hlooked) fun y' b hprepares hy' => .pure ?_
        have hlater : ∀ w ∈ p.operands, Looks x b w := fun w hw => hprepares.looks ha hx (hp w hw)
        intro w hw
        cases isDim with
        | true =>
          rcases Positions.mem_dim hw with hw | rfl
          · exact hlater w hw
          · exact hy'
        | false =>
          rcases Positions.mem_symbol hw with hw | rfl
          · exact hlater w hw
          · exact hy'

end Anchor

/-- The anchor can look at all operands of the binding; there are none if there were none before. -/
def Bound (x : OpRef) (b : Binding) (b' : Binding) (a : Journal × Store) : Prop :=
  (∀ w ∈ b'.operands, Looks x a w) ∧ (b.operands = [] → b'.operands = [])

theorem composeOperands_sound {numDims : Nat} {vs : List ValueRef} :
    ∀ {i : Nat} {p : Positions} {a : Journal × Store}, Underway sided root gone a →
      Nested a.2 root x → (∀ w ∈ p.operands, Looks x a w) → (∀ v ∈ vs, Looks x a v) →
      ComposesTo root gone x a (composeOperands numDims i p vs) fun r b =>
        (∀ w ∈ r.2.operands, Looks x b w) ∧ (vs = [] → r.2 = p) := by
  induction vs with
  | nil =>
    intro i p a _ _ hp _
    exact .pure ⟨hp, fun _ => rfl⟩
  | cons v vs ih =>
    intro i p a ha hx hp hvs
    refine .bind (composeOperand_sound ha hx hp (hvs v List.mem_cons_self) _)
      fun r b hprepares hr => ?_
    obtain ⟨hb, hxb⟩ := hprepares.sound ha hx
    refine .bind (ih hb hxb hr fun u hu =>
      hprepares.looks ha hx (hvs u (List.mem_cons_of_mem v hu))) fun r' b' _ hr' => .pure ?_
    exact ⟨hr'.1, fun hnil => by cases hnil⟩

theorem composeStep_sound {b₀ : Binding} (ha : Underway sided root gone a) (hx : Nested a.2 root x)
    (hb : ∀ v ∈ b₀.operands, Looks x a v) :
    ComposesTo root gone x a (composeStep b₀) (Bound x b₀) := by
  refine .bind (composeOperands_sound ha hx (fun w hw => by cases hw) hb)
    fun r b _ hr => .ask_bind fun map _ => ?_
  intro r' J' t hrun
  obtain ⟨b', hcanonical, rfl, rfl, rfl⟩ := Compose.ask_ok.1 hrun
  refine ⟨.refl, fun y hy => ?_⟩
  cases hy
  have hsub := rebindFuel_operands _ hcanonical
  refine ⟨fun w hw => hr.1 w (hsub w hw), fun hnil => ?_⟩
  refine List.eq_nil_iff_forall_not_mem.2 fun w hw => ?_
  have hmem := hsub w hw
  rw [show r.2 = Positions.empty from hr.2 hnil] at hmem
  cases hmem

theorem composeSteps_sound (limit : Nat) :
    ∀ {b₀ : Binding} {a : Journal × Store}, Underway sided root gone a → Nested a.2 root x →
      (∀ v ∈ b₀.operands, Looks x a v) →
      ComposesTo root gone x a (composeSteps limit b₀) (Bound x b₀) := by
  induction limit with
  | zero =>
    intro b₀ a ha hx hb
    rw [composeSteps.eq_def]
    exact .ask_bind fun _ _ => .ite (fun _ => .pure ⟨hb, id⟩) fun _ => .pure ⟨hb, id⟩
  | succ limit ih =>
    intro b₀ a ha hx hb
    rw [composeSteps.eq_def]
    refine .ask_bind fun _ _ => .ite (fun _ => .pure ⟨hb, id⟩) fun _ =>
      .bind (composeStep_sound ha hx hb) fun next b hprepares hnext => .ite (fun heq => .pure ?_)
        fun _ => ?_
    · exact heq ▸ hnext
    · obtain ⟨hb', hxb⟩ := hprepares.sound ha hx
      exact (ih hb' hxb hnext.1).mono fun y c hy => ⟨hy.1, fun hnil => hy.2 (hnext.2 hnil)⟩

/-! ## Casts -/

section Casts

variable (ha : Underway sided root gone a) (hx : Nested a.2 root x)

include ha hx

/-- The anchor can look at the cast of what it can look at. -/
theorem indexCastOf_sound (hv : Looks x a v) :
    ComposesTo root gone x a (indexCastOf x v) fun w b => Looks x b w := by
  intro r J' t hrun
  have hl : Linked a.2 := ha.sound.linked
  obtain ⟨rfl, rfl, hr⟩ | ⟨_, p, cast, s₁, hp, hcreate, hinsert, hJ, hr⟩ := indexCastOf_ok hrun
  · refine ⟨.refl, fun w hw => ?_⟩
    obtain ⟨u, _, husable⟩ := firstUsableCast?_some (hr w hw)
    obtain ⟨_, _, _, _, _, hdominates⟩ := usableCast?_some.1 husable
    obtain ⟨bx, hbx⟩ := hx.attached hl
    obtain ⟨d, hd, _⟩ := opParent_eq_some.1 hbx
    exact .of_sees hl ((valueDominates_iff hl ha.sound.acyclic hd).1 hdominates)
  · have hstep : CastAhead x a (J', t) :=
      ⟨v, p, cast, s₁, hv.sees (not_adrift_of_afterDefinition? hp), hp, hcreate, hinsert, hJ⟩
    refine ⟨.single (.inr hstep), fun w hw => ?_⟩
    have ht := hstep.underway ha hx
    have hc := createOp_ok hcreate
    obtain ⟨q, hq, _, hreach, _⟩ := place_of_afterDefinition? hl ha.sound.top hx
      (hv.sees (not_adrift_of_afterDefinition? hp)) hp
    have hi : InsertedBefore s₁ cast q p.block t := insertedBefore_of_ok <| by
      rw [← hq]
      exact hinsert
    have hl₁ : Linked s₁ := ((Kept.copyStepsKeep gone).createOp _ _ _ _ ha.sound.tidy.kept
      hcreate).linked
    have hw' : w ∈ t.resultsOf cast := by
      have hresult := hr w hw
      unfold Store.result at hresult
      split at hresult
      · cases hresult
        exact List.mem_of_getElem? ‹_›
      · cases hresult
    obtain ⟨k, hk⟩ := originOf_of_mem_results ht.sound.linked hw'
    rw [hi.originOf_eq] at hk
    exact .of_sees ht.sound.linked
      (hi.sees_result hl₁ ((hc.copied_self rfl).grows.reaches hreach) hk)

end Casts

/-- The anchor can look at operands and at what stands for them. -/
theorem indexOperands_sound {vs : List ValueRef} :
    ∀ {casts : List (ValueRef × ValueRef)} {a : Journal × Store}, Underway sided root gone a →
      Nested a.2 root x → (∀ p ∈ casts, Looks x a p.2) → (∀ v ∈ vs, Looks x a v) →
      ComposesTo root gone x a (indexOperands x casts vs) fun cs b =>
        (∀ w ∈ cs, Looks x b w) ∧ (vs = [] → cs = []) := by
  induction vs with
  | nil =>
    intro casts a _ _ _ _
    exact .pure ⟨fun w hw => (by cases hw), fun _ => rfl⟩
  | cons v vs ih =>
    intro casts a ha hx hcasts hvs
    have hv := hvs v List.mem_cons_self
    -- the rest of the operands, once it is known what stands for the first one
    have hrest : ∀ {casts' c b}, Prepares root gone x a b → (∀ p ∈ casts', Looks x b p.2) →
        Looks x b c → ComposesTo root gone x b
          (indexOperands x casts' vs >>= fun cs => Pure.pure (c :: cs)) fun cs b =>
            (∀ w ∈ cs, Looks x b w) ∧ (v :: vs = [] → cs = []) := by
      intro casts' c b hprepares hcasts' hc
      obtain ⟨hb, hxb⟩ := hprepares.sound ha hx
      refine .bind (ih hb hxb hcasts' fun u hu =>
        hprepares.looks ha hx (hvs u (List.mem_cons_of_mem v hu)))
          fun cs b' hprepares' hcs => .pure ?_
      exact ⟨List.forall_mem_cons.2 ⟨hprepares'.looks hb hxb hc, hcs.1⟩, fun hnil => by cases hnil⟩
    unfold indexOperands
    refine .ask_bind fun ty _ => .ite (fun _ => hrest .refl hcasts hv) fun _ => ?_
    cases hlookup : casts.lookup v with
    | some c =>
      obtain ⟨front, back, rfl, _⟩ := List.lookup_eq_some_iff.1 hlookup
      exact hrest .refl hcasts (hcasts (v, c) (by simp))
    | none =>
      refine .bind (indexCastOf_sound ha hx hv) fun c b hprepares hc => ?_
      refine hrest hprepares (fun p hp => ?_) hc
      rcases List.mem_cons.1 hp with rfl | hp
      · exact hc
      · exact hprepares.looks ha hx (hcasts p hp)

/-! ## Whole compositions -/

section Whole

variable (ha : Underway sided root gone a) (hx : Nested a.2 root x)

include ha hx

/-- The anchor can look at the operands of what a composition comes to. -/
theorem composeMap_sound (limit : Nat) {b₀ : Binding} (hb : ∀ v ∈ b₀.operands, Looks x a v) :
    ComposesTo root gone x a (composeMap x limit b₀) (Bound x b₀) := by
  refine .bind (composeSteps_sound limit ha hx hb) fun b₁ b hprepares hb₁ => ?_
  obtain ⟨hb, hxb⟩ := hprepares.sound ha hx
  refine .bind (P := fun _ c => c = b) (fun r J' t hrun => ?_) fun _ c _ hc => ?_
  · obtain ⟨rfl, rfl⟩ := checkPositions_ok hrun
    exact ⟨.refl, fun _ _ => rfl⟩
  · subst hc
    refine .bind (indexOperands_sound hb hxb (fun p hp => by cases hp) hb₁.1)
      fun operands c _ hoperands => .pure ⟨hoperands.1, fun hnil => hoperands.2 (hb₁.2 hnil)⟩

/-- What a normalization comes to binds as many operands as the map takes, and the anchor can look
at them. -/
theorem normalizeMap_sound (limit : Nat) {b₀ : Binding} (hb : ∀ v ∈ b₀.operands, Looks x a v) :
    ComposesTo root gone x a (normalizeMap x limit b₀) fun b' c =>
      Bound x b₀ b' c ∧ b'.map.numInputs = b'.operands.length := by
  refine .bind (composeMap_sound ha hx limit hb) fun b₁ b _ hb₁ r J' t hrun => ?_
  obtain ⟨b', hcanonical, rfl, rfl, rfl⟩ := Compose.ask_ok.1 hrun
  refine ⟨.refl, fun y hy => ?_⟩
  cases hy
  have hsub := rebindFuel_operands _ hcanonical
  refine ⟨⟨fun w hw => hb₁.1 w (hsub w hw), fun hnil => ?_⟩,
    (canonicalize_canonical hcanonical).inputs⟩
  refine List.eq_nil_iff_forall_not_mem.2 fun w hw => ?_
  have hmem := hsub w hw
  rw [hb₁.2 hnil] at hmem
  cases hmem

theorem normalizeSet_sound (limit : Nat) {b₀ : SetBinding} (hb : ∀ v ∈ b₀.operands, Looks x a v) :
    ComposesTo root gone x a (normalizeSet x limit b₀) fun b' c =>
      (∀ w ∈ b'.operands, Looks x c w) ∧ b'.set.numInputs = b'.operands.length := by
  refine .bind (P := fun b' c => ∀ w ∈ b'.operands, Looks x c w)
    (.bind (composeMap_sound ha hx limit (show ∀ v ∈ b₀.toBinding.operands, Looks x a v from hb))
      fun b₁ b _ hb₁ => .pure hb₁.1)
    fun b₁ b _ hb₁ r J' t hrun => ?_
  obtain ⟨c, hcanonical, rfl, rfl, rfl⟩ := Compose.ask_ok.1 hrun
  refine ⟨.refl, fun y hy => ?_⟩
  cases hy
  simp only [canonicalizeSet, except_bind_ok] at hcanonical
  obtain ⟨b', hb', hc⟩ := hcanonical
  cases hc
  exact ⟨fun w hw => hb₁ w (rebindFuel_operands _ hb' w hw), (canonicalize_canonical hb').inputs⟩

end Whole

end AffineRaising.Raise
