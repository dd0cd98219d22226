/-
# AffineRaising.Proofs.Raise.SoundTransaction — transactions that keep a module sound.

The body of a transaction first composes ahead of the operation it looks at, and then it gives up,
creates what is to replace the operation, or changes it (`Concludes`).  If it gives up, the rollback
leaves the module as sound as it was.  Else the journal is committed, and that comes to an end only
if the new operands are seen by the operation, so what is asked for can be carried out.

Of what is created or changed, the *subject* of the change, `Concludes` also says that nothing else
has come to use what the composition has set aside (`Built`); that is what decides whether the
commit comes to an end.
-/
import AffineRaising.Proofs.Raise.SetAside
import AffineRaising.Proofs.Raise.SoundChange
import AffineRaising.Proofs.Raise.SoundCommit
import AffineRaising.Proofs.Raise.SoundRollback

namespace AffineRaising.Raise

open AffineRaising.IR AffineRaising.IR.Store AffineRaising.Ops AffineRaising.Analysis
open AffineRaising.Transform

variable {sided : Prop} {gone out : OpRef → Prop} {a b : Journal × Store} {s t : Store}
  {v w : ValueRef} {root c op x : OpRef}

/-! ## Edits that ask for a change -/

/-- From the store, the edit leads to a module that is sound apart from what is asked for. -/
def AsksSoundly (sided : Prop) (root op : OpRef) (s : Store) (e : Edit Change) : Prop :=
  ∀ c t, e s = .ok (c, t) → Asked sided root op c t

namespace AsksSoundly

theorem pure {c : Change} (h : Asked sided root op c s) : AsksSoundly sided root op s (pure c) := by
  rintro _ _ ⟨⟩
  exact h

theorem query {α : Type} {q : Store → Except Fault α} {f : α → Edit Change}
    (hf : ∀ y, q s = .ok y → AsksSoundly sided root op s (f y)) :
    AsksSoundly sided root op s (query q >>= f) := by
  intro c t h
  rw [Edit.query_bind] at h
  obtain ⟨y, hy, h⟩ := h
  exact hf y hy c t h

theorem ite {p : Prop} [Decidable p] {e e' : Edit Change} (h : p → AsksSoundly sided root op s e)
    (h' : ¬ p → AsksSoundly sided root op s e') :
    AsksSoundly sided root op s (if p then e else e') := by
  split
  · exact h ‹_›
  · exact h' ‹_›

end AsksSoundly

/-! ## Bodies -/

/-- The operation that a change is about: the new one, or the one at which it was asked for. -/
def subjectOf (op : OpRef) : Change → OpRef
  | .replaceBy c => c
  | _ => op

/-- The body hoists and casts ahead of the operation.  Then it gives up, or it makes an edit after
which a commit leaves a store of which `P` holds, given what is asked for. -/
def Concludes (root : OpRef) (gone : OpRef → Prop) (x : OpRef) (P : Change → Store → Prop)
    (a : Journal × Store) (m : Compose Change) : Prop :=
  ∀ r J' t, m a.1 a.2 = .ok ((r, J'), t) → ∃ s₁, Prepares root gone x a (J', s₁) ∧
    (t = s₁ ∧ (∀ c, r = .ok c → c = .none) ∨
      ∃ c, r = .ok c ∧ c ≠ .none ∧ Built x (subjectOf x c) (J', s₁) t ∧
        ∀ u t', Journal.commit J' t = .ok (u, t') → P c t')

namespace Concludes

variable {α : Type} {m : Compose α} {f : α → Compose Change} {Q : α → Journal × Store → Prop}
  {P : Change → Store → Prop}

theorem bind (hm : ComposesTo root gone x a m Q)
    (hf : ∀ y b, Prepares root gone x a b → Q y b → Concludes root gone x P b (f y)) :
    Concludes root gone x P a (m >>= f) := by
  intro r J' t hrun
  have hrest : ∀ {y J₁ s₁}, m a.1 a.2 = .ok ((.ok y, J₁), s₁) →
      f y J₁ s₁ = .ok ((r, J'), t) → ∃ s₂, Prepares root gone x a (J', s₂) ∧
        (t = s₂ ∧ (∀ c, r = .ok c → c = .none) ∨
          ∃ c, r = .ok c ∧ c ≠ .none ∧ Built x (subjectOf x c) (J', s₂) t ∧
            ∀ u t', Journal.commit J' t = .ok (u, t') → P c t') := by
    intro y J₁ s₁ hfirst hrest
    obtain ⟨hprepares, hQ⟩ := hm _ J₁ s₁ hfirst
    obtain ⟨s₂, hprepares', hend⟩ := hf y (J₁, s₁) hprepares (hQ y rfl) r J' t hrest
    exact ⟨s₂, hprepares.trans hprepares', hend⟩
  cases r with
  | ok z =>
    obtain ⟨y, J₁, s₁, hfirst, hsecond⟩ := Compose.bind_ok.1 hrun
    exact hrest hfirst hsecond
  | error e =>
    rcases Compose.bind_error.1 hrun with hrun | ⟨y, J₁, s₁, hfirst, hsecond⟩
    · exact ⟨t, (hm _ J' t hrun).1, .inl ⟨rfl, fun c hc => nomatch hc⟩⟩
    · exact hrest hfirst hsecond

theorem ask_bind {q : Store → Except Fault α}
    (h : ∀ y, q a.2 = .ok y → Concludes root gone x P a (f y)) :
    Concludes root gone x P a (Compose.ask q >>= f) := by
  intro r J' t hrun
  obtain ⟨y, hy, hrun⟩ := Compose.ask_bind.1 hrun
  exact h y hy r J' t hrun

theorem ite {p : Prop} [Decidable p] {m m' : Compose Change} (h : p → Concludes root gone x P a m)
    (h' : ¬ p → Concludes root gone x P a m') :
    Concludes root gone x P a (if p then m else m') := by
  split
  · exact h ‹_›
  · exact h' ‹_›

theorem giveUp : Concludes root gone x P a (Pure.pure .none) := by
  intro r J' t hrun
  obtain ⟨rfl, rfl, rfl⟩ := Compose.pure_ok.1 hrun
  refine ⟨_, .refl, .inl ⟨rfl, fun c hc => ?_⟩⟩
  cases hc
  rfl

/-- The body ends with an edit. -/
theorem build {e : Edit α} (change : α → Change) (hchange : ∀ y, change y ≠ .none)
    (hbuilt : ∀ y t, e a.2 = .ok (y, t) → Built x (subjectOf x (change y)) a t)
    (h : ∀ y t, e a.2 = .ok (y, t) → ∀ u t', Journal.commit a.1 t = .ok (u, t') →
      P (change y) t') :
    Concludes root gone x P a (Compose.lift e >>= fun y => Pure.pure (change y)) := by
  intro r J' t hrun
  obtain ⟨y, t₁, he, hrun⟩ := Compose.lift_bind.1 hrun
  obtain ⟨rfl, rfl, rfl⟩ := Compose.pure_ok.1 hrun
  exact ⟨a.2, .refl, .inr ⟨change y, rfl, hchange y, hbuilt y _ he, h y _ he⟩⟩

end Concludes

/-! ## Transactions -/

theorem Sound.underway (h : Sound sided root gone (fun _ => False) s) :
    Underway sided root gone ([], s) where
  sound := h.mono fun _ => False.elim
  out _ ho := nomatch ho
  stays h := nomatch h

/-- What holds after a commit of what the body ends with, and after a rollback that leaves nothing
over but what is gone, holds after the transaction. -/
theorem transaction_concludes (hs : Sound sided root gone (fun _ => False) s) (hx : Nested s root x)
    {P : Change → Store → Prop} {body : Compose Change}
    (hnone : ∀ gone' t, Leftover gone s gone' t → P .none t)
    (hbody : Concludes root gone x P ([], s) body) {c : Change}
    (h : transaction body s = .ok (c, t)) : P c t := by
  obtain ⟨r, J, s₁, hrun, hlast⟩ := transaction_ok.1 h
  obtain ⟨s₂, hprepares, hend⟩ := hbody r J s₁ hrun
  rcases hend with ⟨rfl, hgiven⟩ | ⟨c', rfl, hchange, _, hasked⟩
  · obtain ⟨_, hback, rfl⟩ | ⟨rfl, hchange, _⟩ := hlast
    · have htidy := (hprepares.sound hs.underway hx).1.sound
      obtain ⟨gone', hleft⟩ := rollback_leftover hs.underway hx hprepares
        (.refl htidy.tidy htidy.sized) hback
      exact hnone gone' t hleft
    · exact absurd (hgiven c rfl) hchange
  · obtain ⟨hasksNone, _⟩ | ⟨heq, _, hcommit⟩ := hlast
    · exact absurd (hasksNone c' rfl) hchange
    · cases heq
      exact hasked _ _ hcommit

theorem Asked.of_leftover (hs : Sound sided root gone (fun _ => False) s) (hx : Nested s root x)
    {gone' : OpRef → Prop} (h : Leftover gone s gone' t) : Asked sided root x .none t :=
  ⟨⟨gone', hs.leftover h⟩, hx.grows h.restores.grows⟩

/-- A transaction leaves a module that is sound apart from what it asks for. -/
theorem transaction_sound (hs : Sound sided root gone (fun _ => False) s) (hx : Nested s root x)
    {body : Compose Change} (hbody : Concludes root gone x (Asked sided root x) ([], s) body) :
    AsksSoundly sided root x s (transaction body) := fun _ _ h =>
  transaction_concludes hs hx (fun _ _ => .of_leftover hs hx) hbody h

/-! ## What the body of a transaction ends with -/

section Anchor

variable (ha : Underway sided root gone a)

include ha

/-- What was made to replace the anchor can do so after a commit that comes to an end, if all that
it uses the anchor can look at or sees, or it is seen inside of it. -/
theorem asked_of_commit (hroot : c ≠ root) (hcJ : c ∉ a.1.originals) {gone₁ : OpRef → Prop}
    (hs : Sound sided root gone₁ (fun y => y ∈ a.1.originals ∨ y = c) s) (hx : Nested s root x)
    (hout : ∀ o ∈ a.1.originals, s.opParent o = some none) (hdetached : s.opParent c = some none)
    (hlive : ¬ gone₁ c) (hsees : ∀ w, Sees a.2 w x → Sees s w x)
    (horigin : ∀ w k, a.2.originOf w = some k → s.originOf w = some k)
    (huses : ∀ z e w, Within s c z → s.op? z = some e → w ∈ e.operands →
      Looks x a w ∨ Sees s w x ∨ SeenInside s c z w) {u : Unit}
    (hcommit : Journal.commit a.1 s = .ok (u, t)) : Asked sided root x (.replaceBy c) t := by
  have hl := hs.linked
  have hne : c ≠ x := by
    rintro rfl
    obtain ⟨b, hb⟩ := hx.attached hl
    cases hdetached.symm.trans hb
  obtain ⟨gone', hcommitted⟩ := commit_committed hs ha.stays hcommit
  obtain ⟨tree, hleft, _⟩ := hcommitted.leaves
  obtain ⟨_, _, hgone⟩ := hcommitted.keeps_of_detached hl hout hdetached hcJ .refl
  refine ⟨gone', hcommitted.sound.mono fun y hy => hy.1.resolve_left hy.2,
    hcommitted.nested hl hout hs.top ha.stays hx, fun hg => hlive (hgone hg), hroot, hne,
    fun z e w hz he hw => ?_⟩
  have hcz : Within s c z := hleft.within_of hz
  rw [(hcommitted.keeps_of_detached hl hout hdetached hcJ hcz).2.1] at he
  have hkeeps : Sees s w x → Sees t w x := hcommitted.sees hl hout hs.top ha.stays hx
  rcases huses z e w hcz he hw with hlooks | hseen | hinside
  · -- the operand was seen, else the commit would have met its use
    have hzlive : ¬ gone₁ z := by
      rcases Relation.reflTransGen_iff_eq_or_transGen.1 hcz with rfl | hcz'
      · exact hlive
      · exact hs.tidy.not_gone hcz'
    exact .inl (hkeeps (hsees w (sees_of_commit hs.tidy he hzlive hw
      (fun o ho => Committed.apart_of_detached hl hout hdetached hcJ hcz ho) hcommit hlooks.holds
      (horigin w))))
  · exact .inl (hkeeps hseen)
  · exact .inr (hcommitted.seenInside hl hout hdetached hcJ hinside)

variable (hx : Nested a.2 root x)

include hx

/-- A new operation without regions can replace the anchor that can look at its operands. -/
theorem created_asked {spec : OpSpec} (hregions : spec.regions = [])
    (hlooks : ∀ v ∈ spec.operands, Looks x a v)
    (hfits : Fitted sided (spec.entry a.2))
    (hcreate : createOp spec a.2 = .ok (c, s)) {u : Unit}
    (hcommit : Journal.commit a.1 s = .ok (u, t)) : Asked sided root x (.replaceBy c) t := by
  have hs := ha.sound
  have hc := createOp_ok hcreate
  have hcopied := hc.copied_self hregions
  have hnew : ∀ {y p?}, a.2.opParent y = some p? → c ≠ y := by
    rintro y p? hy rfl
    obtain ⟨e, he, _⟩ := opParent_eq_some.1 hy
    cases hc.new.symm.trans he
  refine asked_of_commit ha (hnew hs.top) (fun hcJ => hnew (ha.out c hcJ) rfl)
    (hs.created hcreate hregions (fun v hv => (hlooks v hv).value?) hfits)
    (hx.grows hcopied.grows) (fun o ho => ?_) ?_ (fun hgone => ?_) (fun w => hcopied.grows.sees)
    (fun w => hcopied.grows.originOf w) (fun z e w hz he hw => .inl (hlooks w ?_)) hcommit
  · obtain ⟨e, he, hnone⟩ := opParent_eq_some.1 (ha.out o ho)
    exact opParent_eq_some.2 ⟨e, hcopied.op? o e he, hnone⟩
  · exact opParent_eq_some.2 ⟨_, (hc.op? c).trans (if_pos rfl), rfl⟩
  · have hlt := hs.tidy.kept.created c hgone
    rw [hc.eq_next] at hlt
    exact Nat.lt_irrefl _ hlt
  · cases hc.within_self hregions hz
    rw [hc.op?, if_pos rfl] at he
    cases he
    exact hw

theorem Concludes.replaceBy {spec : OpSpec} (hregions : spec.regions = [])
    (hlooks : ∀ v ∈ spec.operands, Looks x a v)
    (hfits : Fitted sided (spec.entry a.2)) :
    Concludes root gone x (Asked sided root x) a
      (do return .replaceBy (← Compose.lift (createOp spec))) :=
  .build .replaceBy (fun _ hc => nomatch hc) (fun _ _ => .created ha hregions hlooks)
    fun _ _ hcreate _ _ hcommit => created_asked ha hx hregions hlooks hfits hcreate hcommit

/-- The anchor itself can be given an attribute and operands that it can look at. -/
theorem Concludes.inPlace {P : Change → Store → Prop} {e : Edit Unit}
    (he : ∀ u t, e a.2 = .ok (u, t) →
      ∃ key attr operands d, respecify x key attr operands a.2 = .ok (u, t) ∧ a.2.op? x = some d ∧
        (∀ v ∈ operands, Looks x a v) ∧
        Fitted sided { d with attrs := d.attrs.insert key attr, operands := operands } ∧
        ∀ t' d', Asked sided root x .inPlace t' → t'.op? x = some d' →
          fixedOf d' = fixedOf { d with attrs := d.attrs.insert key attr } →
          d'.operands = operands → P .inPlace t') :
    Concludes root gone x P a (do Compose.lift e; return .inPlace) := by
  refine .build (fun _ => .inPlace) (fun c hc => nomatch hc) (fun u t hrun => ?_)
    fun u t hrun u' t' hcommit => ?_
  · obtain ⟨key, attr, operands, d, hrun, hd, hlooks, _⟩ := he u t hrun
    exact .respecified ha hx hd hlooks hrun
  obtain ⟨key, attr, operands, d, hrun, hd, hlooks, hfits, hP⟩ := he u t hrun
  have hs := ha.sound
  have hr := respecified_of_ok hd hrun
  have hsame := hr.sameNesting hd rfl rfl
  have hlive : ¬ gone x := hs.tidy.not_gone hx
  have htidy := hs.tidy.respecified hd hrun hlive fun v hv => (hlooks v hv).value?
  have hout : ∀ o ∈ a.1.originals, t.opParent o = some none := fun o ho => by
    rw [hsame.opParent_eq, ha.out o ho]
  have hx' := hsame.nested_iff.2 hx
  have hstays : ∀ o ∈ a.1.originals, ¬ Within t o x := fun o ho =>
    Committed.stays htidy.kept.linked hout (by rw [hsame.opParent_eq, hs.top]) ha.stays hx' ho
  -- the commit would have met the use of an operand that is not seen
  have hsees : ∀ v ∈ operands, Sees a.2 v x := fun v hv =>
    sees_of_commit htidy ((hr.op? x).trans (if_pos rfl)) hlive hv hstays hcommit (hlooks v hv).holds
      fun k hk => hsame.grows.originOf v k hk
  have hsound := hs.respecified hd hrun hx hsees hfits
  obtain ⟨gone', hcommitted⟩ := commit_committed hsound ha.stays hcommit
  obtain ⟨tree, hleft, _⟩ := hcommitted.leaves
  refine hP t' _ ⟨⟨gone', hcommitted.sound.mono fun y hy => hy.2 hy.1⟩,
    hcommitted.nested hsound.linked hout hsound.top ha.stays hx'⟩
    ((hleft.op? x).trans (congrArg _ ((hr.op? x).trans (if_pos rfl)))) ?_ ?_ <;>
  · split <;> rfl

end Anchor

end AffineRaising.Raise
