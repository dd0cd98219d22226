/-
# AffineRaising.Proofs.Raise.Idle — compositions that try nothing.

A composition that neither hoists nor casts has only asked queries.  If what went out of a module
was not looked at (`Pruned`), these have the same answers in both modules, and so the composition
comes to the same in both (`Compose.Idles`).  Whether a run has tried anything is seen from its
journal, which every hoist and every cast makes longer.

A promotion that tries nothing is the one place where the answers differ: the inputs of a
computation are available from other places on, where operations in front of these went.  But if
there are inputs at all, then one of those places is the latest, and the computation is hoisted.
-/
import AffineRaising.Proofs.Raise.Decline
import AffineRaising.Proofs.Raise.Pruned

namespace AffineRaising.Raise

open AffineRaising.IR AffineRaising.IR.Store AffineRaising.Ops AffineRaising.Analysis
open AffineRaising.Affine (Expr)

variable {α β : Type} {sided : Prop} {gone : OpRef → Prop} {out : List OpRef}
  {J J' J₁ : Journal} {s s' s₁ t : Store} {root o x : OpRef} {u v w : ValueRef} {b : BlockRef}

/-! ## Journals that do not grow -/

theorem ComposeStep.length {a b : Journal × Store} (h : ComposeStep a b) :
    b.1.length = a.1.length + 1 := by
  obtain ⟨e, hJ, _⟩ := h.undoable
  simp [hJ]

theorem Hoists.composed {a b : Journal × Store} (h : Hoists a b) :
    Relation.ReflTransGen ComposeStep a b :=
  Relation.ReflTransGen.mono (fun _ _ => .inl) _ _ h

theorem composed_length {a b : Journal × Store} (h : Relation.ReflTransGen ComposeStep a b) :
    a.1.length ≤ b.1.length ∧ (b.1.length = a.1.length → b = a) := by
  induction h with
  | refl => exact ⟨Nat.le_refl _, fun _ => rfl⟩
  | tail _ hstep ih =>
    have hlength := hstep.length
    exact ⟨by omega, fun heq => by omega⟩

/-- Where the journal ends as it began, nothing was tried. -/
theorem composed_idle (h : Relation.ReflTransGen ComposeStep (J, s) (J₁, s₁))
    (h' : Relation.ReflTransGen ComposeStep (J₁, s₁) (J, s')) : J₁ = J ∧ s₁ = s := by
  obtain ⟨hle, heq⟩ := composed_length h
  have hle' := (composed_length h').1
  exact Prod.mk.inj (heq (by simp only at hle hle' ⊢; omega))

/-! ## Idle compositions -/

namespace Compose

/-- All that the composition does is to hoist and to cast.  Where `c` holds and it does neither in
the first store, it comes to the same in the second one, and its value is as `Q` says. -/
structure Idles (s t : Store) (c : Prop) (Q : α → Prop) (x : Compose α) : Prop where
  follows : Follows ComposeStep x
  again : c → ∀ J r s', x J s = .ok ((r, J), s') →
    x J t = .ok ((r, J), t) ∧ ∀ a, r = .ok a → Q a

namespace Idles

variable {c : Prop} {Q : α → Prop} {R : β → Prop}

theorem pure {a : α} (ha : c → Q a) : Idles s t c Q (pure a) := by
  refine ⟨.pure a, fun hc J r s' h => ?_⟩
  obtain ⟨rfl, _, _⟩ := pure_ok.1 h
  exact ⟨rfl, fun b hb => by cases hb; exact ha hc⟩

theorem throw (e : ComposeError) : Idles s t c Q (throw e) := by
  refine ⟨.throw e, fun _ J r s' h => ?_⟩
  obtain ⟨rfl, _, _⟩ := throw_ok.1 h
  exact ⟨rfl, fun b hb => by cases hb⟩

/-- A query has to have the same answer in both stores. -/
theorem ask {q : Store → Except Fault α} (hq : c → ∀ a, q s = .ok a → q t = .ok a) :
    Idles s t c (fun a => q s = .ok a) (ask q) := by
  refine ⟨.ask q, fun hc J r s' h => ?_⟩
  obtain ⟨a, ha, rfl, _, _⟩ := ask_ok.1 h
  exact ⟨ask_ok.2 ⟨a, hq hc a ha, rfl, rfl, rfl⟩, fun b hb => by cases hb; exact ha⟩

/-- If nothing was tried at all, nothing was tried in the first part. -/
theorem bind {x : Compose α} {f : α → Compose β} (hx : Idles s t c Q x)
    (hf : ∀ a, Idles s t (c ∧ Q a) R (f a)) : Idles s t c R (x >>= f) := by
  refine ⟨.bind hx.follows fun a => (hf a).follows, fun hc J r s' h => ?_⟩
  have hrest : ∀ {a J₁ s₁}, x J s = .ok ((.ok a, J₁), s₁) → f a J₁ s₁ = .ok ((r, J), s') →
      x J t = .ok ((.ok a, J), t) ∧ f a J t = .ok ((r, J), t) ∧ ∀ b, r = .ok b → R b := by
    intro a J₁ s₁ hfirst hrest
    obtain ⟨rfl, rfl⟩ := composed_idle (hx.follows J s _ J₁ s₁ hfirst)
      ((hf a).follows J₁ s₁ r J s' hrest)
    obtain ⟨hfirst', ha⟩ := hx.again hc J₁ _ s₁ hfirst
    exact ⟨hfirst', (hf a).again ⟨hc, ha a rfl⟩ J₁ r s' hrest⟩
  cases r with
  | ok b =>
    obtain ⟨a, J₁, s₁, hfirst, hlast⟩ := bind_ok.1 h
    obtain ⟨hfirst', hlast', hb⟩ := hrest hfirst hlast
    exact ⟨bind_ok.2 ⟨a, J, t, hfirst', hlast'⟩, hb⟩
  | error e =>
    refine ⟨bind_error.2 ?_, fun b hb => by cases hb⟩
    rcases bind_error.1 h with h | ⟨a, J₁, s₁, hfirst, hlast⟩
    · exact .inl (hx.again hc J _ s' h).1
    · obtain ⟨hfirst', hlast', _⟩ := hrest hfirst hlast
      exact .inr ⟨a, J, t, hfirst', hlast'⟩

/-- A query has to have the same answer, and what follows may count on it. -/
theorem ask_bind {q : Store → Except Fault α} {f : α → Compose β}
    (hq : c → ∀ a, q s = .ok a → q t = .ok a)
    (hf : ∀ a, Idles s t (c ∧ q s = .ok a) R (f a)) : Idles s t c R (Compose.ask q >>= f) :=
  bind (ask hq) hf

theorem ite {p : Prop} [Decidable p] {x y : Compose α} (hx : Idles s t c Q x)
    (hy : Idles s t c Q y) : Idles s t c Q (if p then x else y) := by
  split
  · exact hx
  · exact hy

theorem mono {P : α → Prop} {x : Compose α} (h : Idles s t c Q x) (hP : c → ∀ a, Q a → P a) :
    Idles s t c P x := by
  refine ⟨h.follows, fun hc J r s' hrun => ?_⟩
  obtain ⟨hrun', hr⟩ := h.again hc J r s' hrun
  exact ⟨hrun', fun a ha => hP hc a (hr a ha)⟩

end Idles

end Compose

/-! ## Places behind definitions -/

/-- Behind a value that becomes available in a block there is a place. -/
theorem afterDefinition?_of_attached (hl : Linked s) {e : ValueData} (he : s.value? v = some e)
    (hv : ∀ o k, s.originOf v = some (.result o k) → ∃ b, s.opParent o = some (some b)) :
    ∃ p, Point.afterDefinition? s v = .ok (some p) := by
  have horigin : s.originOf v = some e.origin := by rw [originOf, he, Option.map_some]
  cases hcase : e.origin with
  | argument b k =>
    rw [hcase] at horigin
    obtain ⟨bd, hbd⟩ := block?_of_argument hl horigin
    refine ⟨⟨b, bd.ops.head?⟩, ?_⟩
    simp only [Point.afterDefinition?, except_bind_ok, value_ok]
    refine ⟨e, he, ?_⟩
    simp only [hcase, Point.start, except_bind_ok, block_ok]
    exact ⟨_, ⟨bd, hbd, rfl⟩, rfl⟩
  | result o k =>
    rw [hcase] at horigin
    obtain ⟨b, hb⟩ := hv o k horigin
    obtain ⟨d, hd, hparent⟩ := opParent_eq_some.1 hb
    obtain ⟨bd, hbd, ho⟩ := hl.mem_of_parent hd hparent
    obtain ⟨i, hi⟩ : ∃ i, bd.ops.idxOf? o = some i :=
      Option.ne_none_iff_exists'.1 fun hnone => List.idxOf?_eq_none_iff.1 hnone ho
    refine ⟨⟨b, bd.ops[i + 1]?⟩, ?_⟩
    simp only [Point.afterDefinition?, except_bind_ok, value_ok]
    refine ⟨e, he, ?_⟩
    simp only [hcase, Point.after?, except_bind_ok, op_ok]
    refine ⟨d, hd, ?_⟩
    simp only [hparent, next?, except_bind_ok, op_ok]
    refine ⟨_, ⟨d, hd, ?_⟩, rfl⟩
    simp only [hparent, except_bind_ok, block_ok]
    exact ⟨bd, hbd, by rw [hi]; rfl⟩

section Pruned

variable (h : Pruned sided root gone out s t)

include h

/-- What is left stands where it stood. -/
theorem Pruned.opParent (ho : o ∉ out) : t.opParent o = s.opParent o := by
  rw [Store.opParent, Store.opParent, h.erased.op?_left ho]

/-- Behind a value that lasts there is a place in both modules. -/
theorem Pruned.afterDefinition? (hv : Lasts root out s v) {e : ValueData}
    (he : s.value? v = some e) : (∃ p, Point.afterDefinition? s v = .ok (some p)) ∧
      ∃ p, Point.afterDefinition? t v = .ok (some p) := by
  have hattached : ∀ o k, s.originOf v = some (.result o k) → ∃ b, s.opParent o = some (some b) :=
    fun o k ho => (hv.result o k ho).nested.attached h.linked
  have he' := (h.erased.value? v).trans he
  refine ⟨afterDefinition?_of_attached h.linked he hattached,
    afterDefinition?_of_attached (h.erased.linked h.linked) he' fun o k ho => ?_⟩
  have ho' := (h.erased.originOf v).symm.trans ho
  rw [h.opParent (hv.result o k ho').left]
  exact hattached o k ho'

/-- Of places behind values that an operation sees one is the latest. -/
theorem latest?_of_sees {ps : List Point} (hx : Nested s root x) (hne : ps ≠ [])
    (hps : ∀ p ∈ ps, ∃ v, Sees s v x ∧ Point.afterDefinition? s v = .ok (some p)) :
    ∃ p, latest? s ps = .ok (some p) := by
  have hf := forest_of_linked h.linked h.sound.acyclic
  obtain ⟨b, hb⟩ := hx.attached h.linked
  obtain ⟨bd, i, hbd, _, hplace⟩ := hf.standsAt hb
  have hdominates : ∀ p ∈ ps, Analysis.Placed s p ∧ Dominates s p ⟨b, some x⟩ := by
    intro p hp
    obtain ⟨v, hsees, hdef⟩ := hps p hp
    have hplaced : Analysis.Placed s p := afterDefinition?_block hdef
    obtain ⟨e, he⟩ := afterDefinition?_value hdef
    obtain ⟨d, hd, _⟩ := opParent_eq_some.1 hb
    obtain ⟨w, hw, havailable⟩ := visible_iff_available hf he hplace
    cases hw.symm.trans ((valueDominates_iff h.linked h.sound.acyclic hd).2 hsees)
    simp only [availableAt, hdef] at havailable
    exact ⟨hplaced, (dominates_iff hf hplaced ⟨bd, hbd⟩).1 havailable⟩
  obtain ⟨r?, hr, hsome, _⟩ := latest?_ok hf hne fun p hp => (hdominates p hp).1
  have hcomparable : ∀ p ∈ ps, ∀ q ∈ ps, Comparable s p q := fun p hp q hq =>
    (hdominates p hp).2.total (hdominates q hq).2
  obtain ⟨r, rfl⟩ := Option.isSome_iff_exists.1 (hsome.2 hcomparable)
  exact ⟨r, hr⟩

/-! ## Promotions -/

omit h in
theorem availabilityFrom_hoists {promote : ValueRef → Draft (Option ValueRef)} {forIndex : Bool}
    (hpromote : ∀ {v J s r J' t}, promote v J s = .ok ((r, J'), t) → Hoists (J, s) (J', t))
    {vs : List ValueRef} {available : Option ValueRef} {ps? : Option (List Point)}
    (hrun : availabilityFrom promote forIndex vs available J s = .ok ((ps?, J'), s')) :
    Hoists (J, s) (J', s') := by
  obtain ⟨rfl, rfl, _⟩ | ⟨_, _, _, _, _, hmore, _⟩ := availabilityFrom_ok hrun
  · exact .refl
  · exact (availabilityWith_ok hpromote hmore).1

/-- Values are available in both modules or in neither, behind some values in both or behind none,
and the places in the first module are behind the values. -/
structure AvailableAlike (s : Store) (vs : List ValueRef) (ps? qs? : Option (List Point)) :
    Prop where
  empty : qs?.map List.isEmpty = ps?.map List.isEmpty
  places : ∀ ps, ps? = some ps → ∀ p ∈ ps, ∃ v ∈ vs, Point.afterDefinition? s v = .ok (some p)

namespace AvailableAlike

variable {vs : List ValueRef} {ps : List Point} {qs? : Option (List Point)}

omit h

theorem none : AvailableAlike s vs none none :=
  ⟨rfl, fun _ hps => by cases hps⟩

theorem eq_none (h : AvailableAlike s vs .none qs?) : qs? = .none := by
  simpa using h.empty

theorem eq_some (h : AvailableAlike s vs (some ps) qs?) : ∃ qs, qs? = some qs := by
  obtain ⟨qs, hqs, _⟩ := Option.map_eq_some_iff.1 h.empty
  exact ⟨qs, hqs⟩

theorem cons {qs : List Point} {p q : Point} (h : AvailableAlike s vs (some ps) (some qs))
    (hp : Point.afterDefinition? s v = .ok (some p)) :
    AvailableAlike s (v :: vs) (some (p :: ps)) (some (q :: qs)) := by
  refine ⟨rfl, ?_⟩
  rintro _ ⟨⟩ p' hp'
  rcases List.mem_cons.1 hp' with rfl | hp'
  · exact ⟨v, List.mem_cons_self, hp⟩
  · obtain ⟨w, hw, hwp⟩ := h.places ps rfl p' hp'
    exact ⟨w, List.mem_cons_of_mem v hw, hwp⟩

end AvailableAlike

/-- Once the first value is available, the rest decides in both modules alike. -/
theorem availabilityFrom_idle {promote : ValueRef → Draft (Option ValueRef)} {forIndex : Bool}
    {vs : List ValueRef} {available : Option ValueRef} {ps? : Option (List Point)}
    (hv : Lasts root out s v) (havailable : available = none ∨ available = some v)
    (ih : ∀ {J ps? s'}, availabilityWith promote forIndex vs J s = .ok ((ps?, J), s') →
      ∃ qs?, availabilityWith promote forIndex vs J t = .ok ((qs?, J), t) ∧
        AvailableAlike s vs ps? qs?)
    (hrun : availabilityFrom promote forIndex vs available J s = .ok ((ps?, J), s')) :
    ∃ qs?, availabilityFrom promote forIndex vs available J t = .ok ((qs?, J), t) ∧
      AvailableAlike s (v :: vs) ps? qs? := by
  obtain ⟨_, _, rfl, hnone⟩ | ⟨a, p, more?, rfl, hp, hmore, rfl⟩ := availabilityFrom_ok hrun
  · rcases havailable with rfl | rfl
    · exact ⟨none, rfl, .none⟩
    · -- behind a value that lasts there is a place
      obtain ⟨e, he⟩ := afterDefinition?_value (hnone v rfl)
      obtain ⟨⟨p, hp⟩, _⟩ := h.afterDefinition? hv he
      cases hp.symm.trans (hnone v rfl)
  obtain rfl : a = v := Option.some.inj (havailable.resolve_left (by simp))
  obtain ⟨e, he⟩ := afterDefinition?_value hp
  obtain ⟨_, q, hq⟩ := h.afterDefinition? hv he
  obtain ⟨others?, hothers, halike⟩ := ih hmore
  cases more? with
  | none =>
    obtain rfl := halike.eq_none
    exact ⟨none, Draft.ask_bind.2 ⟨_, hq, Draft.bind_ok.2 ⟨_, J, t, hothers, rfl⟩⟩, .none⟩
  | some more =>
    obtain ⟨others, rfl⟩ := halike.eq_some
    exact ⟨some (q :: others), Draft.ask_bind.2 ⟨_, hq, Draft.bind_ok.2 ⟨_, J, t, hothers, rfl⟩⟩,
      halike.cons hp⟩

/-- Values that last are available in both modules, though from other places on, if making them so
tries nothing. -/
theorem availabilityWith_idle {promote : ValueRef → Draft (Option ValueRef)} {forIndex : Bool}
    (hpromote : ∀ {v J s r J' t}, promote v J s = .ok ((r, J'), t) → Hoists (J, s) (J', t))
    (hagain : ∀ v, Lasts root out s v → ∀ {J r s'}, promote v J s = .ok ((r, J), s') →
      promote v J t = .ok ((r, J), t) ∧ (r = none ∨ r = some v))
    {vs : List ValueRef} (hvs : ∀ v ∈ vs, Lasts root out s v) :
    ∀ {J ps? s'}, availabilityWith promote forIndex vs J s = .ok ((ps?, J), s') →
      ∃ qs?, availabilityWith promote forIndex vs J t = .ok ((qs?, J), t) ∧
        AvailableAlike s vs ps? qs? := by
  induction vs with
  | nil =>
    intro J ps? s' hrun
    obtain ⟨rfl, _, _⟩ := Draft.pure_ok.1 hrun
    exact ⟨some [], rfl, rfl, fun ps hps p hp => by cases hps; cases hp⟩
  | cons v vs ih =>
    intro J ps? s' hrun
    obtain ⟨hv, hvs⟩ := List.forall_mem_cons.1 hvs
    rw [availabilityWith_cons] at hrun ⊢
    rw [Draft.ask_bind] at hrun
    obtain ⟨o?, ho, hrun⟩ := hrun
    rw [Draft.ask_bind] at hrun
    obtain ⟨stays, hstays, hrun⟩ := hrun
    have ho' := (h.definingOp? v).trans ho
    have hstays' := (staysPut_pruned h hv forIndex).trans hstays
    cases o? with
    | some o =>
      -- the journal is as it was in the end, so it was so in between
      obtain ⟨r, J₁, s₁, hfirst, hlast⟩ := Draft.bind_ok.1 hrun
      obtain ⟨rfl, rfl⟩ := composed_idle (hpromote hfirst).composed
        (availabilityFrom_hoists hpromote hlast).composed
      obtain ⟨hfirst', hr⟩ := hagain v hv hfirst
      obtain ⟨qs?, hlast', halike⟩ := availabilityFrom_idle h hv hr (ih hvs) hlast
      refine ⟨qs?, Draft.ask_bind.2 ⟨_, ho', Draft.ask_bind.2 ⟨_, hstays', ?_⟩⟩, halike⟩
      exact Draft.bind_ok.2 ⟨r, J₁, t, hfirst', hlast'⟩
    | none =>
      have hr : (if stays then some v else none) = none ∨
          (if stays then some v else none) = some v := by cases stays <;> simp
      obtain ⟨qs?, hlast', halike⟩ := availabilityFrom_idle h hv hr (ih hvs) hrun
      exact ⟨qs?, Draft.ask_bind.2 ⟨_, ho', Draft.ask_bind.2 ⟨_, hstays', hlast'⟩⟩, halike⟩

omit h in
/-- A hoist of an operation that stood in a block leaves a longer journal than there was before the
moves that were made for it. -/
theorem journal_ne_of_hoist {p : Point} {J₁ J₂ : Journal} {s₁ s₂ : Store} {clone? : Option OpRef}
    (hb : s.opParent o = some (some b)) (hhoists : Hoists (J, s) (J₁, s₁))
    (hhoist : hoist o p J₁ s₁ = .ok ((clone?, J₂), s₂)) : J₂ ≠ J := by
  rintro rfl
  obtain ⟨hle, hsame⟩ := composed_length hhoists.composed
  obtain ⟨d, hd, ⟨hparent, _, hJ, _⟩ | ⟨_, _, _, _, _, _, _, _, _, _, _, _, _, _, hJ⟩⟩ :=
    hoist_ok hhoist
  · obtain ⟨_, rfl⟩ := Prod.mk.inj (hsame (congrArg List.length hJ.symm))
    cases hb.symm.trans (opParent_eq_some.2 ⟨d, hd, hparent⟩)
  · have hlength := congrArg List.length hJ
    simp only [List.length_append, List.length_singleton] at hlength
    simp only at hle
    omega

omit h in
/-- If nothing is hoisted, the inputs of a definition cannot be had or have no latest place. -/
theorem promoteDefinition_waits {forIndex : Bool} {n : Nat} {r : Option ValueRef}
    (hb : s.opParent o = some (some b))
    (hrun : promoteDefinition forIndex n o J s = .ok ((r, J), s')) :
    r = none ∧ ∃ free ps?, freeOperands s o = .ok free ∧
      availabilityWith (promoteFuel forIndex n) forIndex free J s = .ok ((ps?, J), s) ∧
      ∀ ps, ps? = some ps → latest? s ps = .ok none := by
  obtain ⟨free, ps?, J₁, s₁, hfree, havail, hend⟩ := promoteDefinition_ok hrun
  have hhoists : Hoists (J, s) (J₁, s₁) := (availabilityWith_ok (promoteFuel_hoists n) havail).1
  obtain ⟨rfl, _, rfl, hlatest⟩ | ⟨_, _, _, _, _, hhoist, _⟩ := hend
  · obtain ⟨_, rfl⟩ := Prod.mk.inj ((composed_length hhoists.composed).2 rfl)
    exact ⟨rfl, free, ps?, hfree, havail, hlatest⟩
  · exact absurd rfl (journal_ne_of_hoist hb hhoists hhoist)

/-- If nothing is hoisted, a definition has no inputs or one that cannot be had. -/
theorem promoteDefinition_idle {forIndex : Bool} {n : Nat}
    (ih : ∀ v, Lasts root out s v → ∀ {J r s'}, promoteFuel forIndex n v J s = .ok ((r, J), s') →
      promoteFuel forIndex n v J t = .ok ((r, J), t) ∧ (r = none ∨ r = some v))
    (ho : RemainsWhole root out s o) {r : Option ValueRef}
    (hrun : promoteDefinition forIndex n o J s = .ok ((r, J), s')) :
    promoteDefinition forIndex n o J t = .ok ((r, J), t) ∧ r = none := by
  obtain ⟨b, hb⟩ := ho.nested.attached h.linked
  obtain ⟨rfl, free, ps?, hfree, havail, hlatest⟩ := promoteDefinition_waits hb hrun
  obtain ⟨d, hd, _⟩ := opParent_eq_some.1 hb
  obtain ⟨free', hfree', _, hiff⟩ :=
    freeOperands_iff h.linked h.sound.acyclic h.sound.tidy.grounded hd
  cases hfree.symm.trans hfree'
  have hlasts : ∀ v ∈ free, Lasts root out s v := by
    intro v hv
    obtain ⟨z, e, hz, he, hmem, _⟩ := (hiff v).1 hv
    exact h.operand (ho.within hz).remains he hmem
  obtain ⟨qs?, hagain, halike⟩ := availabilityWith_idle h (promoteFuel_hoists n) ih hlasts havail
  refine ⟨Draft.ask_bind.2 ⟨free, (freeOperands_pruned h ho).trans hfree,
    Draft.bind_ok.2 ⟨qs?, J, t, hagain, ?_⟩⟩, rfl⟩
  cases ps? with
  | none =>
    obtain rfl := halike.eq_none
    rfl
  | some ps =>
    obtain ⟨qs, rfl⟩ := halike.eq_some
    -- behind inputs there would be a latest place
    have hps : ps = [] := by
      by_contra hne
      obtain ⟨p, hp⟩ := latest?_of_sees h ho.nested hne fun p hp => by
        obtain ⟨v, hv, hdef⟩ := halike.places ps rfl p hp
        exact ⟨v, h.sound.visible.free_seen h.linked ho.nested ((hiff v).1 hv), hdef⟩
      cases (hlatest ps rfl).symm.trans hp
    subst hps
    obtain rfl : qs = [] := List.isEmpty_iff.1 (Option.some.inj halike.empty)
    exact Draft.ask_bind.2 ⟨none, rfl, rfl⟩

/-- A value that lasts is promoted in both modules to itself or in neither, if nothing is
hoisted. -/
theorem promoteFuel_idle (forIndex : Bool) (n : Nat) :
    ∀ v, Lasts root out s v → ∀ {J r s'}, promoteFuel forIndex n v J s = .ok ((r, J), s') →
      promoteFuel forIndex n v J t = .ok ((r, J), t) ∧ (r = none ∨ r = some v) := by
  induction n with
  | zero =>
    intro v _ J r s' hrun
    cases hrun
  | succ n ih =>
    intro v hv J r s' hrun
    unfold promoteFuel at hrun ⊢
    rw [Draft.ask_bind] at hrun ⊢
    obtain ⟨stays, hstays, hrun⟩ := hrun
    have hstays' := (staysPut_pruned h hv forIndex).trans hstays
    cases stays with
    | true =>
      obtain ⟨rfl, _, _⟩ := Draft.pure_ok.1 hrun
      exact ⟨⟨true, hstays', rfl⟩, .inr rfl⟩
    | false =>
      simp only [Bool.false_eq_true, if_false] at hrun
      rw [Draft.ask_bind] at hrun
      obtain ⟨o?, ho, hrun⟩ := hrun
      suffices hrest : _ ∧ (r = none ∨ r = some v) from
        ⟨⟨false, hstays', Draft.ask_bind.2 ⟨o?, (h.definingOp? v).trans ho, hrest.1⟩⟩, hrest.2⟩
      cases o? with
      | none =>
        obtain ⟨rfl, _, _⟩ := Draft.pure_ok.1 hrun
        exact ⟨rfl, .inl rfl⟩
      | some o =>
        -- all that is asked from here on is about the definition, which remains as a whole
        have hwhole := h.definingOp?_remains hv ho
        simp only at hrun ⊢
        rw [Draft.ask_bind] at hrun ⊢
        obtain ⟨isConst, hconst, hrun⟩ := hrun
        have hconst' := (isNamed_pruned h o _).trans hconst
        cases isConst with
        | true =>
          obtain ⟨rfl, _, _⟩ := Draft.pure_ok.1 hrun
          exact ⟨⟨true, hconst', rfl⟩, .inr rfl⟩
        | false =>
          simp only [Bool.false_eq_true, if_false] at hrun
          rw [Draft.ask_bind] at hrun
          obtain ⟨reads, hreads, hrun⟩ := hrun
          have hreads' := (isReadOnly_pruned h hwhole).trans hreads
          cases reads with
          | false =>
            obtain ⟨rfl, _, _⟩ := Draft.pure_ok.1 hrun
            exact ⟨⟨false, hconst', Draft.ask_bind.2 ⟨false, hreads', rfl⟩⟩, .inl rfl⟩
          | true =>
            obtain ⟨hrest, rfl⟩ := promoteDefinition_idle h ih hwhole hrun
            exact ⟨⟨false, hconst', Draft.ask_bind.2 ⟨true, hreads', hrest⟩⟩, .inl rfl⟩

/-! ## Compositions -/

variable {c : Prop}

theorem promote_idles (hv : c → Lasts root out s v) (forIndex : Bool) :
    Compose.Idles s t c (fun r => r = none ∨ r = some v) (Compose.draft (promote v forIndex)) := by
  refine ⟨(Compose.Follows.draft (promote_follows v forIndex)).mono .inl, ?_⟩
  intro hc J r s' hdraft
  obtain ⟨w, hrun, rfl⟩ := Compose.draft_ok.1 hdraft
  simp only [promote, Draft.bind_ok, Draft.lift_ok, Edit.get_run] at hrun
  obtain ⟨_, _, _, ⟨hget, rfl⟩, hrun⟩ := hrun
  cases hget
  obtain ⟨hrun', hw⟩ := promoteFuel_idle h forIndex _ v (hv hc) hrun
  refine ⟨Compose.draft_ok.2 ⟨w, ?_, rfl⟩, fun a ha => by cases ha; exact hw⟩
  simp only [promote, Draft.bind_ok, Draft.lift_ok, Edit.get_run]
  exact ⟨t, J, t, ⟨rfl, rfl⟩, h.depthBound ▸ hrun'⟩

/-- A symbol that nothing had to be hoisted for is the value itself. -/
theorem requireSymbol_idles (hv : c → Lasts root out s v) :
    Compose.Idles s t c (fun w => w = v) (requireSymbol v) := by
  refine .ask_bind (fun hc a ha => (isSymbol_pruned h (hv hc)).trans ha) fun sym => ?_
  refine .ite (.pure fun _ => rfl) (.bind (promote_idles h (fun hc => hv hc.1) false) fun r => ?_)
  cases r with
  | none => exact .throw _
  | some p =>
    have hp : (c ∧ isSymbol s v = .ok sym) ∧ (some p = none ∨ some p = some v) → p = v := fun hc =>
      Option.some.inj (hc.2.resolve_left (by simp))
    refine .ask_bind (fun hc a ha => ?_) fun sym' => .ite (.pure fun hc => hp hc.1) (.throw _)
    rw [hp hc] at ha ⊢
    exact (isSymbol_pruned h (hv hc.1.1)).trans ha

/-- The positions that an operand gets bind values that last. -/
theorem foldValue_idles {p : Positions} {decast : ValueRef} {isDim : Bool}
    (hp : c → ∀ w ∈ p.operands, Lasts root out s w) (hv : c → Lasts root out s v)
    (hdecast : c → Lasts root out s decast) :
    Compose.Idles s t c (fun r => ∀ w ∈ r.2.operands, Lasts root out s w)
      (foldValue p v decast isDim) := by
  refine .ask_bind (fun hc a ha => (inlineShape?_pruned h (hv hc) decast).trans ha) fun shape => ?_
  cases shape with
  | some shape =>
    refine .ask_bind (fun _ _ => id) fun e => .pure fun hc w hw => ?_
    rcases mem_bindAll Positions.mem_symbol hw with hw | hw
    · exact hp hc.1.1 w hw
    · rcases inlineShape?_feeds hc.1.2 with hfeeds | hfeeds
      · exact h.feeds (hv hc.1.1) (hfeeds w hw)
      · exact h.feeds (hdecast hc.1.1) (hfeeds w hw)
  | none =>
    refine .ask_bind (fun _ a ha => (isLoopArg_pruned h v).trans ha) fun arg => ?_
    refine .ite (.pure fun hc w hw => ?_) ?_
    · rcases Positions.mem_dim hw with hw | rfl
      · exact hp hc.1.1 w hw
      · exact hv hc.1.1
    refine .ask_bind (fun _ a ha => (appliedMap?_pruned h v).trans ha) fun applied => ?_
    cases applied with
    | some applied =>
      obtain ⟨m, result, operands⟩ := applied
      refine .ask_bind (fun _ _ => id) fun e => .pure fun hc w hw => ?_
      obtain ⟨⟨⟨⟨hc, _⟩, _⟩, happlied⟩, _⟩ := hc
      have hfeeds := appliedMap?_feeds happlied
      rcases mem_bindAll Positions.mem_symbol hw with hw | hw
      · rcases mem_bindAll Positions.mem_dim hw with hw | hw
        · exact hp hc w hw
        · exact h.feeds (hv hc) (hfeeds w (List.mem_of_mem_take hw))
      · exact h.feeds (hv hc) (hfeeds w (List.mem_of_mem_drop hw))
    | none =>
      refine .bind (requireSymbol_idles h fun hc => hv hc.1.1.1) fun w => .pure fun hc u hu => ?_
      obtain ⟨hc, rfl⟩ := hc
      have hmem : u ∈ p.operands ∨ u = w := by
        cases isDim with
        | true => exact Positions.mem_dim hu
        | false => exact Positions.mem_symbol hu
      rcases hmem with hu | rfl
      · exact hp hc.1.1.1 u hu
      · exact hv hc.1.1.1

theorem composeOperand_idles {p : Positions} {operand : ValueRef} {isDim : Bool}
    (hp : c → ∀ w ∈ p.operands, Lasts root out s w) (hv : c → Lasts root out s operand) :
    Compose.Idles s t c (fun r => ∀ w ∈ r.2.operands, Lasts root out s w)
      (composeOperand p operand isDim) := by
  rw [composeOperand_eq]
  refine .ask_bind (fun _ a ha => (stripCasts_pruned h operand).trans ha) fun decast => ?_
  have hdecast : c ∧ stripCasts s operand = .ok decast → Lasts root out s decast := fun hc =>
    h.chain (hv hc.1) (stripFuel_chain _ hc.2)
  refine .ask_bind (fun hc a ha => (isSymbol_pruned h (hv hc.1)).trans ha) fun sym => ?_
  refine foldValue_idles h (fun hc => hp hc.1.1) (fun hc => ?_) fun hc => hdecast hc.1
  split
  · exact hv hc.1.1
  · exact hdecast hc.1

theorem composeOperands_idles (numDims : Nat) {vs : List ValueRef} :
    ∀ {c : Prop} (i : Nat) {p : Positions}, (c → ∀ w ∈ p.operands, Lasts root out s w) →
      (c → ∀ v ∈ vs, Lasts root out s v) → Compose.Idles s t c
        (fun r => ∀ w ∈ r.2.operands, Lasts root out s w) (composeOperands numDims i p vs) := by
  induction vs with
  | nil => exact fun _ _ hp _ => .pure hp
  | cons v vs ih =>
    intro c i p hp hvs
    refine .bind (composeOperand_idles h hp fun hc => hvs hc v List.mem_cons_self) fun q => ?_
    refine .bind (ih (i + 1) (fun hc => hc.2) fun hc w hw => ?_) fun q' => .pure fun hc => hc.2
    exact hvs hc.1 w (List.mem_cons_of_mem v hw)

theorem canonicalize_idles {b : Binding} (hb : c → ∀ v ∈ b.operands, Lasts root out s v) :
    Compose.Idles s t c (fun b' => ∀ v ∈ b'.operands, Lasts root out s v)
      (Compose.ask (canonicalize · b)) := by
  refine (Compose.Idles.ask fun hc a ha => (canonicalize_pruned h (hb hc)).trans ha).mono ?_
  exact fun hc b' hb' v hv => hb hc v (rebindFuel_operands _ hb' v hv)

theorem anyFoldable_pruned (numDims : Nat) {vs : List ValueRef} :
    ∀ i, (∀ v ∈ vs, Lasts root out s v) →
      anyFoldable t numDims i vs = anyFoldable s numDims i vs := by
  induction vs with
  | nil => exact fun _ _ => rfl
  | cons v vs ih =>
    intro i hvs
    obtain ⟨hv, hvs⟩ := List.forall_mem_cons.1 hvs
    exact bind_congr_ok (isFoldable_pruned h hv _) fun _ _ => if_congr .rfl rfl (ih (i + 1) hvs)

/-- A step in which nothing is hoisted comes to the same binding of values that last. -/
theorem composeStep_idles {b : Binding} (hb : c → ∀ v ∈ b.operands, Lasts root out s v) :
    Compose.Idles s t c (fun b' => ∀ v ∈ b'.operands, Lasts root out s v) (composeStep b) := by
  refine .bind (composeOperands_idles h _ 0 (fun _ w hw => by cases hw) hb) fun q => ?_
  refine .ask_bind (fun _ _ => id) fun map => canonicalize_idles h fun hc => hc.1.2

/-- Steps in which nothing is hoisted come to the same binding of values that last. -/
theorem composeSteps_idles (left : Nat) : ∀ {c : Prop} {b : Binding},
    (c → ∀ v ∈ b.operands, Lasts root out s v) → Compose.Idles s t c
      (fun b' => ∀ v ∈ b'.operands, Lasts root out s v) (composeSteps left b) := by
  have hfoldable : ∀ {b : Binding}, (∀ v ∈ b.operands, Lasts root out s v) →
      ∀ a, anyFoldable s b.map.numDims 0 b.operands = .ok a →
        anyFoldable t b.map.numDims 0 b.operands = .ok a := fun hb a ha =>
    (anyFoldable_pruned h _ 0 hb).trans ha
  induction left with
  | zero =>
    intro c b hb
    unfold composeSteps
    refine .ask_bind (fun hc => hfoldable (hb hc)) fun foldable => ?_
    exact .ite (.pure fun hc => hb hc.1) (.pure fun hc => hb hc.1)
  | succ left ih =>
    intro c b hb
    unfold composeSteps
    refine .ask_bind (fun hc => hfoldable (hb hc)) fun foldable => ?_
    refine .ite (.pure fun hc => hb hc.1) ?_
    refine .bind (composeStep_idles h fun hc => hb hc.1) fun next => ?_
    exact .ite (.pure fun hc => hb hc.1.1) (ih fun hc => hc.2)

theorem checkPositions_idles (numDims : Nat) {vs : List ValueRef} : ∀ {c : Prop} (i : Nat),
    (c → ∀ v ∈ vs, Lasts root out s v) →
      Compose.Idles s t c (fun _ => True) (checkPositions numDims i vs) := by
  induction vs with
  | nil => exact fun _ _ => .pure fun _ => trivial
  | cons v vs ih =>
    intro c i hvs
    have hrest : ∀ {d : Prop}, (d → c) → ∀ valid : Bool, Compose.Idles s t d (fun _ => True) (do
        if !valid then throw (.notAffine v)
        checkPositions numDims (i + 1) vs) := fun hd valid =>
      .ite (.throw _) (ih (i + 1) fun hc w hw => hvs (hd hc) w (List.mem_cons_of_mem v hw))
    have hv : c → Lasts root out s v := fun hc => hvs hc v List.mem_cons_self
    unfold checkPositions
    refine .ask_bind (fun hc a ha => (isSymbol_pruned h (hv hc)).trans ha) fun sym => ?_
    have hpure : ∀ valid : Bool, Compose.Idles s t (c ∧ isSymbol s v = .ok sym) (fun _ => True)
        (pure valid) := fun _ => .pure fun _ => trivial
    refine .ite (.bind (hpure true) fun valid => hrest (fun hc => hc.1.1) valid) (.ite ?_ ?_)
    · refine .ask_bind (fun _ a ha => (isLoopArg_pruned h v).trans ha) fun valid => ?_
      exact hrest (fun hc => hc.1.1) valid
    · exact .bind (hpure false) fun valid => hrest (fun hc => hc.1.1) valid

/-! ### Casts -/

/-- A cast that is there already is the same one, and it lasts. -/
theorem indexCastOf_idles (hx : Remains root out s x) (hv : c → Lasts root out s v) :
    Compose.Idles s t c (Lasts root out s) (indexCastOf x v) := by
  refine ⟨(indexCastOf_follows x v).mono .inr, fun hc J r s' hrun => ?_⟩
  have husers : ∀ u ∈ s.usesOf v, Nested s root u.user := fun u hu => by
    obtain ⟨_, _, _, hnested⟩ := h.sound.user_nested hu
    exact hnested
  unfold indexCastOf at hrun ⊢
  rw [Compose.ask_bind] at hrun
  obtain ⟨found, hfound, hrest⟩ := hrun
  have hfound' := firstUsableCast?_pruned h hx husers hfound
  rw [← h.erased.usesOf] at hfound'
  cases found with
  | some cast =>
    obtain ⟨rfl, _, _⟩ := Compose.pure_ok.1 hrest
    refine ⟨Compose.ask_bind.2 ⟨some cast, hfound', rfl⟩, fun a ha => ?_⟩
    cases ha
    exact firstUsableCast?_lasts h hfound
  | none =>
    -- a value that lasts has a place behind it, and a cast is made there
    simp only at hrest
    rw [Compose.ask_bind] at hrest
    obtain ⟨p?, hp, hrest⟩ := hrest
    obtain ⟨e, he⟩ := afterDefinition?_value hp
    obtain ⟨⟨p, hp'⟩, _⟩ := h.afterDefinition? (hv hc) he
    cases hp.symm.trans hp'
    simp only [Compose.ask_bind, Compose.lift_bind, Compose.draft_bind] at hrest
    obtain ⟨_, _, cast, _, _, _, _, _, _, _, _, hrecord, hrest⟩ := hrest
    obtain ⟨rfl, rfl⟩ := Draft.record_ok.1 hrecord
    obtain ⟨_, _, _, hJ, _⟩ := Compose.ask_ok.1 hrest
    simp at hJ

/-- Operands that need no new casts come to the same values, which last. -/
theorem indexOperands_idles (hx : Remains root out s x) {vs : List ValueRef} :
    ∀ {c : Prop} {casts : List (ValueRef × ValueRef)},
      (c → ∀ p ∈ casts, Lasts root out s p.2) → (c → ∀ v ∈ vs, Lasts root out s v) →
      Compose.Idles s t c (fun cs => ∀ v ∈ cs, Lasts root out s v) (indexOperands x casts vs) := by
  induction vs with
  | nil => exact fun _ _ => .pure fun _ v hv => by cases hv
  | cons v vs ih =>
    intro c casts hcasts hvs
    have hrest : ∀ {d : Prop}, (d → c) → d → ∀ w ∈ vs, Lasts root out s w := fun hd hc w hw =>
      hvs (hd hc) w (List.mem_cons_of_mem v hw)
    unfold indexOperands
    refine .ask_bind (fun _ a ha => (h.typeOf v).trans ha) fun ty => .ite ?_ ?_
    · refine .bind (ih (fun hc => hcasts hc.1) (hrest And.left)) fun cs => .pure fun hc => ?_
      exact List.forall_mem_cons.2 ⟨hvs hc.1.1 v List.mem_cons_self, hc.2⟩
    cases hlookup : casts.lookup v with
    | some cast =>
      refine .bind (ih (fun hc => hcasts hc.1) (hrest And.left)) fun cs => .pure fun hc => ?_
      obtain ⟨front, back, rfl, _⟩ := List.lookup_eq_some_iff.1 hlookup
      exact List.forall_mem_cons.2 ⟨hcasts hc.1.1 (v, cast) (by simp), hc.2⟩
    | none =>
      refine .bind (indexCastOf_idles h hx fun hc => hvs hc.1 v List.mem_cons_self) fun cast => ?_
      refine .bind (ih (fun hc => ?_) (hrest fun hc => hc.1.1)) fun cs => .pure fun hc => ?_
      · exact List.forall_mem_cons.2 ⟨hc.2, hcasts hc.1.1⟩
      · exact List.forall_mem_cons.2 ⟨hc.1.2, hc.2⟩

/-! ### Whole compositions -/

/-- A composition for an operation that remains comes to the same map over values that last, if
nothing is hoisted or cast. -/
theorem composeMap_idles (hx : Remains root out s x) (limit : Nat) {b : Binding}
    (hb : c → ∀ v ∈ b.operands, Lasts root out s v) :
    Compose.Idles s t c (fun b' => ∀ v ∈ b'.operands, Lasts root out s v)
      (composeMap x limit b) := by
  refine .bind (composeSteps_idles h limit hb) fun b' => ?_
  refine .bind (checkPositions_idles h _ 0 fun hc => hc.2) fun _ => ?_
  refine .bind (indexOperands_idles h hx (fun _ p hp => by cases hp) fun hc => hc.1.2) fun vs => ?_
  exact .pure fun hc => hc.2

theorem normalizeMap_idles (hx : Remains root out s x) (limit : Nat) {b : Binding}
    (hb : c → ∀ v ∈ b.operands, Lasts root out s v) :
    Compose.Idles s t c (fun _ => True) (normalizeMap x limit b) := by
  refine .bind (composeMap_idles h hx limit hb) fun b' => ?_
  exact (canonicalize_idles h fun hc => hc.2).mono fun _ _ _ => trivial

theorem normalizeSet_idles (hx : Remains root out s x) (limit : Nat) {b : SetBinding}
    (hb : c → ∀ v ∈ b.operands, Lasts root out s v) :
    Compose.Idles s t c (fun _ => True) (normalizeSet x limit b) := by
  have hcompose : Compose.Idles s t c (fun b' => ∀ v ∈ b'.operands, Lasts root out s v)
      (composeSet x limit b) :=
    .bind (composeMap_idles h hx limit hb) fun b' => .pure fun hc => hc.2
  refine .bind hcompose fun b' => (Compose.Idles.ask fun hc a ha => ?_).mono fun _ _ _ => trivial
  exact (canonicalizeSet_pruned h hc.2).trans ha

end Pruned

end AffineRaising.Raise
