/-
# AffineRaising.Proofs.Raise.SoundPromotion — promotions keep a module sound.

A promotion for an anchor that can look at the value is a run of hoists ahead of the anchor: the
inputs of the definition are made available ahead of the definition, and then the definition goes to
the latest of the places behind them, from which all that it uses is seen.  A definition that has
left its block cannot be hoisted again, and its inputs are promoted for the anchor in vain.
-/
import AffineRaising.Proofs.Raise.Draws

namespace AffineRaising.Raise

open AffineRaising.IR AffineRaising.IR.Store AffineRaising.Analysis

variable {sided : Prop} {gone : OpRef → Prop} {J J' : Journal} {s t : Store} {u v w : ValueRef}
  {root o x : OpRef} {p : Point}

/-! ## Inputs -/

/-- What an operation uses from outside its results are computed from. -/
theorem Free.computedFrom {k : Nat} (hv : s.originOf v = some (.result o k)) (hu : Free s o u) :
    ComputedFrom s v u := by
  obtain ⟨z, d, hoz, hd, hu, hout⟩ := hu
  exact ⟨o, k, z, d, hv, hoz, hd, hu, .inr hout⟩

theorem adrift_iff {k : Nat} (hv : s.originOf v = some (.result o k)) :
    Adrift s v ↔ s.opParent o = some none := by
  constructor
  · rintro ⟨o', k', hv', hnone⟩
    cases hv.symm.trans hv'
    exact hnone
  · exact fun hnone => ⟨o, k, hv, hnone⟩

/-! ## Promotion -/

/-- A promotion of a value that the anchor can look at is a run of hoists ahead of the anchor.  The
anchor can look at what it yields, and the place behind that supplies the value. -/
def PromotesSoundly (sided : Prop) (root : OpRef) (gone : OpRef → Prop)
    (promote : ValueRef → Draft (Option ValueRef)) : Prop :=
  ∀ {x v J s r J' t}, Underway sided root gone (J, s) → Nested s root x →
    InReach (· ∈ J.originals) s x v → promote v J s = .ok ((r, J'), t) →
    Draws root gone x (J, s) (J', t) ∧ ∀ w, r = some w → InReach (· ∈ J'.originals) t x w ∧
      ∀ vs ps p, Point.afterDefinition? t w = .ok (some p) → Supplied s x (v :: vs) ps →
        Supplied t x vs (ps ++ [p])

/-- A value that stays put supplies itself. -/
theorem Underway.stays_put (hs : Underway sided root gone (J, s))
    (hv : InReach (· ∈ J.originals) s x v)
    (vs : List ValueRef) (ps : List Point) (p : Point)
    (hp : Point.afterDefinition? s v = .ok (some p)) (hsupplied : Supplied s x (v :: vs) ps) :
    Supplied s x vs (ps ++ [p]) :=
  hsupplied.next hs.sound.linked (hv.sees (not_adrift_of_afterDefinition? hp)) hp

/-- Values that the anchor can look at are made available by hoists ahead of the anchor, and the
places found supply them. -/
theorem availabilityWith_sound {promote : ValueRef → Draft (Option ValueRef)}
    (hpromote : PromotesSoundly sided root gone promote) {forIndex : Bool} {vs : List ValueRef} :
    ∀ {J J' : Journal} {s t : Store} {r : Option (List Point)}, Underway sided root gone (J, s) →
      Nested s root x → (∀ v ∈ vs, InReach (· ∈ J.originals) s x v) →
      availabilityWith promote forIndex vs J s = .ok ((r, J'), t) →
      Draws root gone x (J, s) (J', t) ∧
        ∀ ps, r = some ps → ∀ before, Supplied s x vs before → Supplied t x [] (before ++ ps) := by
  induction vs with
  | nil =>
    intro J J' s t r hs hx _ h
    obtain ⟨rfl, rfl, rfl⟩ := Draft.pure_ok.1 h
    refine ⟨.refl, fun ps hps before hbefore => ?_⟩
    cases hps
    rwa [List.append_nil]
  | cons v vs ih =>
    intro J J' s t r hs hx hvs h
    have hv := hvs v List.mem_cons_self
    obtain ⟨available, J₁, s₁, hfirst, hrest⟩ := availabilityWith_cons_ok h
    obtain ⟨hdraws, havailable⟩ : Draws root gone x (J, s) (J₁, s₁) ∧
        ∀ a, available = some a → ∀ before p, Point.afterDefinition? s₁ a = .ok (some p) →
          Supplied s x (v :: vs) before → Supplied s₁ x vs (before ++ [p]) := by
      obtain hfirst | ⟨rfl, rfl, hstays⟩ := hfirst
      · obtain ⟨hdraws, havailable⟩ := hpromote hs hx hv hfirst
        exact ⟨hdraws, fun a ha before p hp => (havailable a ha).2 vs before p hp⟩
      · refine ⟨.refl, fun a ha before p hp => ?_⟩
        rcases hstays with rfl | rfl
        · cases ha
        · cases ha
          exact hs.stays_put hv vs before p hp
    obtain ⟨rfl, rfl, rfl, _⟩ | ⟨a, p, ps?, rfl, hp, hmore, rfl⟩ := availabilityFrom_ok hrest
    · exact ⟨hdraws, fun ps hps => by cases hps⟩
    · obtain ⟨hdraws', hplaces⟩ := ih (hdraws.underway hs) (hdraws.nested hx)
        (fun u hu => hdraws.inReach hs (hvs u (List.mem_cons_of_mem v hu))) hmore
      refine ⟨hdraws.trans hdraws', fun qs hqs before hbefore => ?_⟩
      obtain ⟨ps, rfl, rfl⟩ := Option.map_eq_some_iff.1 hqs
      have hsupplied := hplaces ps rfl (before ++ [p]) (havailable a rfl before p hp hbefore)
      rwa [List.append_assoc, List.singleton_append] at hsupplied

/-- Promotion keeps a module sound. -/
theorem promoteFuel_sound (root : OpRef) (gone : OpRef → Prop) (forIndex : Bool) (n : Nat) :
    PromotesSoundly sided root gone (promoteFuel forIndex n) := by
  induction n with
  | zero =>
    intro x v J s r J' t _ _ _ h
    cases h
  | succ n ih =>
    intro x v J s r J' t hs hx hv h
    have hl : Linked s := hs.sound.linked
    obtain ⟨rfl, rfl, hr⟩ | ⟨o, free, points, J₁, s₁, ho, _, hfree, havail, hrest⟩ :=
      promoteFuel_ok h
    · refine ⟨.refl, fun w hw => ?_⟩
      rcases hr with rfl | rfl
      · cases hw
      · cases hw
        exact ⟨hv, hs.stays_put hv⟩
    · obtain ⟨k, hk⟩ := definingOp?_some ho
      obtain ⟨d, hd⟩ := op?_of_result hl hk
      obtain ⟨free', hfree', _, hmem⟩ :=
        freeOperands_iff hl hs.sound.acyclic hs.sound.tidy.grounded hd
      cases hfree.symm.trans hfree'
      by_cases hadrift : Adrift s v
      · -- the definition has left its block: whatever is moved is moved for the anchor
        obtain ⟨hdraws, _⟩ := availabilityWith_sound ih hs hx (fun u hu =>
          hv.computedFrom hadrift (((hmem u).1 hu).computedFrom hk)) havail
        obtain ⟨rfl, rfl, rfl⟩ | ⟨ps, p, clone, rfl, _, hhoist, rfl⟩ := hrest
        · exact ⟨hdraws, fun w hw => by cases hw⟩
        · have hnone := hdraws.detached ((adrift_iff hk).1 hadrift)
          obtain ⟨e, he, hparent⟩ := Option.map_eq_some_iff.1 hnone
          obtain ⟨e', he', ⟨_, rfl, rfl, rfl⟩ | ⟨_, _, _, _, _, _, _, hsome, _⟩⟩ := hoist_ok hhoist
          · exact ⟨hdraws, fun w hw => by cases hw⟩
          · cases he.symm.trans he'
            cases hparent.symm.trans hsome
      · have hseen : Sees s v x := hv.sees hadrift
        have ho : Nested s root o := hx.definition hl hs.sound.top hseen hk
        obtain ⟨hdraws, hplaces⟩ := availabilityWith_sound ih hs ho (fun u hu =>
          .of_sees hl (hs.sound.visible.free_seen hl ho ((hmem u).1 hu))) havail
        obtain ⟨hdrawsx, hahead⟩ := hdraws.behind (StandsAhead.of_sees hseen hk)
        obtain ⟨rfl, rfl, rfl⟩ | ⟨ps, p, clone, rfl, hlatest, hhoist, rfl⟩ := hrest
        · exact ⟨hdrawsx, fun w hw => by cases hw⟩
        · cases clone with
          | none =>
            obtain ⟨_, _, ⟨_, _, rfl, rfl⟩ | ⟨_, _, _, _, _, _, _, _, _, _, _, _, _, hr, _⟩⟩ :=
              hoist_ok hhoist
            · exact ⟨hdrawsx, fun w hw => by cases hw⟩
            · cases hr
          | some c =>
            have hs₁ := hdraws.underway hs
            have hsupplied := hplaces ps rfl [] ⟨fun p hp => (by cases hp), .inr fun u hu =>
              .inl ((hmem u).2 hu)⟩
            obtain ⟨q, blk, before, sc, si, sr, m, hdrawing, hJ⟩ := drawing_of_latest hs₁
              (hdraws.nested ho) hsupplied
              ((availabilityWith_ok (promoteFuel_hoists n) havail).2 ps rfl) hlatest hhoist
            refine ⟨hdrawsx.tail ⟨o, q, c, p, blk, before, sc, si, sr, m, hdrawing, hahead, hJ⟩,
              fun w hw => ?_⟩
            have ht : Linked t := hdrawing.tidy_after.kept.linked
            obtain ⟨k', hk'⟩ := originOf_of_mem_results ht (List.mem_of_head? hw)
            -- the definition was still in its block, so the anchor saw the value
            have hk₁ := hdraws.originOf hk
            have hseen₁ : Sees s₁ v x := (hdrawsx.inReach hs hv).sees fun hadrift => by
              obtain ⟨b, hb⟩ := (hdraws.nested ho).attached hs₁.sound.linked
              cases hb.symm.trans ((adrift_iff hk₁).1 hadrift)
            refine ⟨.of_sees ht (hdrawing.copy_seen
              (hahead.not_within hs₁.sound.linked hs₁.sound.acyclic) hseen₁ hk₁ hk'), ?_⟩
            exact fun vs ps p' hp' hvs => hdrawing.supplied_next hahead (hdrawsx.nested hx)
              (hdrawsx.supplied hx hvs) hseen₁ hk₁ hk' hp'

end AffineRaising.Raise
