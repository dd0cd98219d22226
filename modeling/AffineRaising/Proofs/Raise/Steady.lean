/-
# AffineRaising.Proofs.Raise.Steady — raising that keeps the operands of upper bounds.

A steady run visits the operations of a module in the same order as raising and does the same to
each, but it stops at a loop whose upper bound has lost an operand when the lower one was
normalized.  `KeepsUpperOperands` says of a module that raising it is steady: wherever raising comes
to an end, the steady run does too, in the same way.

This holds if no loop binds operands to both of its bounds (`KeepsUpperOperands.of_oneSided`): that
is kept by raising, and at such a loop `normalizeBounds` and `steadyBounds` do the same
(`normalizeBounds_steady`).  It holds as well where both bounds have operands but raising leaves
them where they are, as it does with parameters, loop variables and what stands outside of all
loops; that is a matter of the single run, and is found out by evaluating it.
-/
import AffineRaising.Proofs.Raise.SoundVisits

/-! ## Edits that do the same -/

namespace AffineRaising.IR.Edit

variable {α β : Type} {s : Store}

/-- If the first edit comes to an end from the store, the second one does so in the same way. -/
def Follows (s : Store) (e e' : Edit α) : Prop := ∀ r, e s = .ok r → e' s = .ok r

namespace Follows

variable {e e' : Edit α} {f f' : α → Edit β}

theorem refl : Follows s e e := fun _ => id

/-- Runs agree if their parts do. -/
theorem bind (h : Follows s e e') (hf : ∀ a t, e s = .ok (a, t) → Follows t (f a) (f' a)) :
    Follows s (e >>= f) (e' >>= f') := by
  rintro ⟨b, u⟩ hrun
  obtain ⟨a, t, he, hrun⟩ := Edit.bind_ok.1 hrun
  exact Edit.bind_ok.2 ⟨a, t, h _ he, hf a t he _ hrun⟩

/-- A query may come first. -/
theorem query {q : Store → Except Fault α} (hf : ∀ a, q s = .ok a → Follows s (f a) (f' a)) :
    Follows s (IR.query q >>= f) (IR.query q >>= f') :=
  .bind .refl fun a t hrun => by
    obtain ⟨hq, rfl⟩ := query_ok.1 hrun
    exact hf a hq

theorem ite {c : Prop} [Decidable c] {x x' : Edit α} (h : c → Follows s e e')
    (h' : ¬ c → Follows s x x') : Follows s (if c then e else x) (if c then e' else x') := by
  split
  · exact h ‹_›
  · exact h' ‹_›

end Follows

end AffineRaising.IR.Edit

namespace AffineRaising.Raise

open AffineRaising.IR AffineRaising.IR.Store AffineRaising.Ops AffineRaising.Analysis
open AffineRaising.Transform
open Edit (Keeps Follows)

variable {gone : OpRef → Prop} {s t : Store} {root op : OpRef}

/-! ## Bounds -/

/-- In a module whose loops bind operands to one bound only, normalizing bounds is steady. -/
theorem normalizeBounds_steady (hs : Sound True root gone (fun _ => False) s)
    (hx : Nested s root op) (limit : Nat) :
    Follows s (normalizeBounds limit op) (steadyBounds limit op) := by
  refine .query fun named hnamed => .ite (fun htrue => ?_) fun _ => .refl
  obtain ⟨d, hd, hname⟩ := isNamed_ok.1 hnamed
  have hname : d.name = forName := by simpa [htrue] using hname
  refine .query fun lower? hlower => .query fun upper? hupper => ?_
  cases lower? with
  | none => exact .refl
  | some lower =>
    cases upper? with
    | none => exact .refl
    | some upper =>
      obtain ⟨d', hd', hlower⟩ := boundMap?_ok.1 hlower
      cases hd.symm.trans hd'
      obtain ⟨d', hd', hupper⟩ := boundMap?_ok.1 hupper
      cases hd.symm.trans hd'
      refine .query fun los hlos => .query fun ups hups => .bind .refl fun first t hfirst => ?_
      obtain ⟨_, _, _, _, hsteady⟩ := lowerBound_sound hs hx hd hname hlower hupper hlos hups hfirst
      intro r h
      refine Edit.query_bind.2 ⟨ups, (hsteady trivial).1, ?_⟩
      rw [if_neg (not_not.2 rfl)]
      exact h

/-! ## Visits -/

/-- Wherever the first pattern comes to an end the second one does the same; and if it asks for
nothing, what is visited can be looked at by the next pattern. -/
structure Follower (Q : Store → OpRef → Prop) (p p' : Pattern) : Prop where
  follows : ∀ {s op}, Q s op → Follows s (p op) (p' op)
  next : ∀ {s op t}, Q s op → p op s = .ok (.none, t) → Q t op

section Visits

variable {P : Store → Prop} {Q : Store → OpRef → Prop} {ps ps' : List Pattern}
  (hps : List.Forall₂ (Follower Q) ps ps')

include hps

theorem applyFirst_follows (hs : Q s op) :
    Follows s (applyFirst op ps) (applyFirst op ps') := by
  induction hps generalizing s with
  | nil => exact .refl
  | @cons p p' ps ps' hp _ ih =>
    refine .bind (hp.follows hs) fun c t hrun => ?_
    cases c with
    | none => exact ih (hp.next hs hrun)
    | _ => exact .refl

variable (hstart : ∀ {s op b}, P s → s.opParent op = some (some b) → Q s op)
  (hfirst : ∀ {s op changed t}, Q s op → applyFirst op ps s = .ok (changed, t) → P t)

omit hps in
theorem sumM_follows {α : Type} {f f' : α → Edit Nat} (hkeeps : ∀ a, Keeps P (f a))
    (hf : ∀ a s, P s → Follows s (f a) (f' a)) :
    ∀ l s, P s → Follows s (sumM f l) (sumM f' l)
  | [], _, _ => .refl
  | a :: l, s, hs => .bind (hf a s hs) fun n t hrun =>
    .bind (sumM_follows hkeeps hf l t (hkeeps a s n t hs hrun)) fun _ _ _ => .refl

include hstart

theorem visitOpWith_follows {visit visit' : RegionRef → Edit Nat}
    (hkeeps : ∀ r, Keeps P (visit r)) (hvisit : ∀ r s, P s → Follows s (visit r) (visit' r))
    (b : BlockRef) (op : OpRef) (s : Store) (hs : P s) :
    Follows s (visitOpWith visit ps b op) (visitOpWith visit' ps' b op) := by
  refine .bind .refl fun inside s₁ hin => .ite (fun _ => .refl) fun _ => .query fun d hd => ?_
  obtain ⟨_, _, _, rfl⟩ := isIn_ok.1 hin
  refine .bind (sumM_follows hkeeps hvisit d.regions s hs) fun n s₂ hn => .bind .refl ?_
  intro inside s₃ hin
  obtain ⟨e, he, hparent, rfl⟩ := isIn_ok.1 hin
  refine .ite (fun _ => .refl) fun htrue => .bind (applyFirst_follows hps ?_) fun _ _ _ => .refl
  have hb : s₂.opParent op = some (some b) :=
    opParent_eq_some.2 ⟨e, he, by simpa [← hparent] using htrue⟩
  exact hstart (keeps_sumM hkeeps d.regions s _ s₂ hs hn) hb

include hfirst

theorem visitWithin_follows (depth : Nat) : ∀ r s, P s →
    Follows s (visitWithin ps depth r) (visitWithin ps' depth r) := by
  induction depth with
  | zero => exact fun _ _ _ => .refl
  | succ depth ih =>
    have hkeeps := visitOpWith_keeps hstart hfirst (visitWithin_keeps hstart hfirst depth)
    refine fun r s hs => .query fun d _ => sumM_follows (fun b => ?_) (fun b s hs => ?_)
      d.blocks s hs
    · exact .bind (.query _) fun bd => keeps_sumM (hkeeps b) bd.ops
    · exact .query fun bd _ => sumM_follows (hkeeps b) (visitOpWith_follows hps hstart
        (visitWithin_keeps hstart hfirst depth) ih b) bd.ops s hs

theorem visitModule_follows (hs : P s) :
    Follows s (visitModule ps root) (visitModule ps' root) := by
  refine .bind .refl fun s' t hget => .query fun d _ => ?_
  cases hget
  cases d.regions with
  | nil => exact .refl
  | cons r rs => exact visitWithin_follows hps hstart hfirst s.depthBound r s hs

theorem visitUntilStable_follows (left : Nat) : ∀ iterations changes s, P s →
    Follows s (visitUntilStable ps root left iterations changes)
      (visitUntilStable ps' root left iterations changes) := by
  induction left with
  | zero => exact fun _ _ _ _ => .refl
  | succ left ih =>
    refine fun iterations changes s hs => .bind (visitModule_follows hps hstart hfirst hs)
      fun n t hrun => .ite (fun _ => .refl) fun _ => ?_
    exact ih _ _ t (visitModule_keeps hstart hfirst s n t hs hrun)

end Visits

/-! ## Whole modules -/

/-- Raising the module, if it comes to an end, meets no loop whose upper bound has another operand
once the lower one was normalized. -/
def KeepsUpperOperands (config : Config) (root : OpRef) (s : Store) : Prop :=
  Follows s (legalize config root) (legalizeSteadily config root)

/-- A module is raised steadily if its loops bind operands to one of their bounds only. -/
theorem KeepsUpperOperands.of_oneSided {config : Config}
    (hs : Sound True root gone (fun _ => False) s) : KeepsUpperOperands config root s := by
  let Q : Store → OpRef → Prop := fun s op => Settled True root s ∧ Nested s root op
  have hsound : ∀ {p}, p ∈ steadyPatterns config.maxComposeSteps → ∀ {s op t}, Q s op →
      p op s = .ok (.none, t) → Q t op := by
    rintro p hp s op t ⟨⟨_, hs⟩, hx⟩ hrun
    exact steadyPatterns_sound hp hs hx .none t hrun
  have hself : ∀ {p}, p ∈ steadyPatterns config.maxComposeSteps → Follower Q p p := fun hp =>
    ⟨fun _ => .refl, hsound hp⟩
  have hbounds : Follower Q (normalizeBounds config.maxComposeSteps)
      (steadyBounds config.maxComposeSteps) := by
    have hfollows : ∀ {s op}, Q s op → Follows s (normalizeBounds config.maxComposeSteps op)
        (steadyBounds config.maxComposeSteps op) := by
      rintro s op ⟨⟨_, hs⟩, hx⟩
      exact normalizeBounds_steady hs hx _
    exact ⟨hfollows, fun hq hrun => hsound (by simp [steadyPatterns]) hq (hfollows hq _ hrun)⟩
  have hps : List.Forall₂ (Follower Q) (patterns config.maxComposeSteps)
      (steadyPatterns config.maxComposeSteps) := by
    refine .cons (hself ?_) (.cons (hself ?_) (.cons (hself ?_) (.cons (hself ?_) (.cons (hself ?_)
      (.cons (hself ?_) (.cons (hself ?_) (.cons hbounds .nil))))))) <;>
    simp [steadyPatterns]
  refine .bind (visitUntilStable_follows (P := Settled True root) hps
    (fun hs hb => ⟨hs, hs.nested hb⟩) (fun hq hrun => ?_) _ _ _ s ⟨gone, hs⟩) fun _ _ _ => .refl
  exact applyFirst_settled (fun _ hp => steadyPatterns_sound hp) hq
    (applyFirst_follows hps hq _ hrun)

end AffineRaising.Raise
