/-
# AffineRaising.Proofs.Raise.SoundBounds — normalized bounds keep a module sound.

A loop that gets another map and other operands for a bound binds as many operands as its maps take,
if it did before.  The operands of both bounds are read before the first one is normalized, so when
the second one is normalized they may be out of date: committing the first bound may have erased the
definition of one of them.  Then the loop gets a value that it does not see.

This cannot happen where the loop still has the operands that were read.  `steadyBounds` normalizes
the bounds of a loop in the same way but stops if it does not, so it is sound without any condition
(`steadyBounds_sound`).  In a loop that binds operands to one bound only it does not stop
(`lowerBound_sound`): without operands there is nothing to normalize.
-/
import AffineRaising.Proofs.Raise.BoundExact
import AffineRaising.Proofs.Raise.SoundPatterns

namespace AffineRaising.Raise

open AffineRaising.IR AffineRaising.IR.Store AffineRaising.Ops AffineRaising.Analysis
open AffineRaising.Transform
open AffineRaising.Affine (Map)

variable {sided : Prop} {gone : OpRef → Prop} {s t : Store} {v w : ValueRef} {root op : OpRef}
  {d : OpData}

/-! ## Setting a bound -/

/-- The other bound. -/
def otherSide : BoundSide → BoundSide
  | .lower => .upper
  | .upper => .lower

section Bounds

variable {l u : Map}

theorem operandSlice_ok {start stop : Nat} {vs : List ValueRef} (hd : s.op? op = some d)
    (h : operandSlice s op start stop = .ok vs) :
    stop ≤ d.operands.length ∧ vs = (d.operands.take stop).drop start := by
  simp only [operandSlice, except_bind_ok, operandsOf_ok] at h
  obtain ⟨_, ⟨d', hd', rfl⟩, h⟩ := h
  cases hd.symm.trans hd'
  split at h
  · cases h
    exact ⟨‹_›, rfl⟩
  · cases h

variable (hd : s.op? op = some d) (hl : mapAt d BoundSide.lower.key = some l)
  (hu : mapAt d BoundSide.upper.key = some u)

include hd hl hu

theorem boundCuts_eq : boundCuts s op = .ok (l.numInputs, l.numInputs + u.numInputs) := by
  have hmap : ∀ side : BoundSide, boundMap? s op side = .ok (mapAt d side.key) := fun side =>
    boundMap?_ok.2 ⟨d, hd, rfl⟩
  simp only [boundCuts, hmap, hl, hu]
  rfl

theorem boundOperands_ok {side : BoundSide} {vs : List ValueRef}
    (h : boundOperands s op side = .ok vs) :
    (∀ v ∈ vs, v ∈ d.operands) ∧ ∀ m, mapAt d side.key = some m → vs.length = m.numInputs := by
  simp only [boundOperands, boundCuts_eq hd hl hu, except_bind_ok, Except.ok.injEq,
    exists_eq_left'] at h
  have hslice : ∀ {start stop}, operandSlice s op start stop = .ok vs →
      (∀ v ∈ vs, v ∈ d.operands) ∧ vs.length = stop - start := by
    intro start stop h
    obtain ⟨hstop, rfl⟩ := operandSlice_ok hd h
    exact ⟨fun v hv => List.mem_of_mem_take (List.mem_of_mem_drop hv), by simp; omega⟩
  cases side with
  | lower =>
    obtain ⟨hmem, hlength⟩ := hslice h
    refine ⟨hmem, fun m hm => ?_⟩
    cases hl.symm.trans hm
    simpa using hlength
  | upper =>
    obtain ⟨hmem, hlength⟩ := hslice h
    refine ⟨hmem, fun m hm => ?_⟩
    cases hu.symm.trans hm
    simpa using hlength

/-- Setting a bound gives the loop as many operands as its maps and results take. -/
theorem setBound_respecifies {side : BoundSide} {m : Map} {vs : List ValueRef} {u' : Unit}
    (hlength : d.operands.length = l.numInputs + u.numInputs + d.results.length)
    (hrun : setBound op side m vs s = .ok (u', t)) : ∃ all,
      respecify op side.key (.map m) all s = .ok (u', t) ∧
      (∀ v ∈ all, v ∈ vs ∨ v ∈ d.operands) ∧
      (∀ other, mapAt d (otherSide side).key = some other →
        all.length = vs.length + other.numInputs + d.results.length) ∧
      ∃ rest inits, boundOperands s op (otherSide side) = .ok rest ∧
        (vs = [] → all = rest ++ inits) := by
  rw [setBound, Edit.query_bind] at hrun
  obtain ⟨inits, hinits, hrun⟩ := hrun
  simp only [loopInits, boundCuts_eq hd hl hu, except_bind_ok, Except.ok.injEq, exists_eq_left',
    operandsOf_ok] at hinits
  obtain ⟨_, ⟨d', hd', rfl⟩, hinits⟩ := hinits
  cases hd.symm.trans hd'
  obtain ⟨_, hinits⟩ := operandSlice_ok hd hinits
  have hkept : ∀ v ∈ inits, v ∈ d.operands := fun v hv =>
    List.mem_of_mem_take (List.mem_of_mem_drop (hinits ▸ hv))
  have hinits : inits.length = d.results.length := by
    rw [hinits]
    simp
    omega
  cases side with
  | lower =>
    simp only at hrun
    rw [Edit.query_bind] at hrun
    obtain ⟨upper, hupper, hrun⟩ := hrun
    obtain ⟨hmem, hsize⟩ := boundOperands_ok hd hl hu hupper
    refine ⟨_, hrun, fun v hv => ?_, fun other hother => ?_, upper, inits, hupper, fun hnil => ?_⟩
    · simp only [List.mem_append] at hv
      exact hv.elim (·.imp_right (hmem v)) fun hv => .inr (hkept v hv)
    · have := hsize other hother
      cases hu.symm.trans hother
      simp
      omega
    · rw [hnil]
      rfl
  | upper =>
    simp only at hrun
    rw [Edit.query_bind] at hrun
    obtain ⟨lower, hlower, hrun⟩ := hrun
    obtain ⟨hmem, hsize⟩ := boundOperands_ok hd hl hu hlower
    refine ⟨_, hrun, fun v hv => ?_, fun other hother => ?_, lower, inits, hlower, fun hnil => ?_⟩
    · simp only [List.mem_append] at hv
      exact hv.elim (·.symm.imp_right (hmem v)) fun hv => .inr (hkept v hv)
    · have := hsize other hother
      cases hl.symm.trans hother
      simp
      omega
    · rw [hnil, List.append_nil]

end Bounds

/-- Next to a bound without operands, the other bound has the first ones. -/
theorem boundOperands_beside {side : BoundSide} {m m' : Map} {rest inits : List ValueRef}
    (hd : s.op? op = some d) (hm : mapAt d side.key = some m) (hzero : m.numInputs = 0)
    (hm' : mapAt d (otherSide side).key = some m') (hrest : rest.length = m'.numInputs)
    (hoperands : d.operands = rest ++ inits) :
    boundOperands s op (otherSide side) = .ok rest := by
  have hslice : ∀ {start stop}, start = 0 → stop = rest.length →
      operandSlice s op start stop = .ok rest := by
    rintro _ _ rfl rfl
    rw [operandSlice, (operandsOf_ok.2 ⟨d, hd, rfl⟩ : s.operandsOf op = .ok d.operands)]
    simp [hoperands, pure, Except.pure, bind, Except.bind]
  cases side with
  | lower =>
    rw [boundOperands, boundCuts_eq hd hm hm']
    exact hslice hzero (by omega)
  | upper =>
    rw [boundOperands, boundCuts_eq hd hm' hm]
    exact hslice rfl hrest.symm

/-- A bound whose map takes nothing has no operands. -/
theorem boundOperands_none {l u : Map} (hd : s.op? op = some d)
    (hl : mapAt d BoundSide.lower.key = some l) (hu : mapAt d BoundSide.upper.key = some u)
    (hlength : l.numInputs + u.numInputs ≤ d.operands.length) (hzero : u.numInputs = 0) :
    boundOperands s op .upper = .ok [] := by
  have hslice : operandSlice s op l.numInputs (l.numInputs + u.numInputs) = .ok [] := by
    rw [operandSlice, (operandsOf_ok.2 ⟨d, hd, rfl⟩ : s.operandsOf op = .ok d.operands)]
    simp only [bind, Except.bind, pure, Except.pure, if_pos hlength]
    simp [hzero]
  rw [boundOperands, boundCuts_eq hd hl hu]
  exact hslice

/-- The operands of a bound are read off the entry of the loop. -/
theorem boundOperands_congr (hd : s.op? op = some d) (hd' : t.op? op = some d) (side : BoundSide) :
    boundOperands t op side = boundOperands s op side := by
  have hop : t.op op = s.op op := (op_ok.2 hd').trans (op_ok.2 hd).symm
  simp only [boundOperands, boundCuts, boundMap?, operandSlice, Store.attr?, Store.operandsOf, hop]

theorem mem_of_boundOperands {side : BoundSide} {vs : List ValueRef} (hd : s.op? op = some d)
    (h : boundOperands s op side = .ok vs) : ∀ v ∈ vs, v ∈ d.operands := by
  have hslice : ∀ {start stop}, operandSlice s op start stop = .ok vs →
      ∀ v ∈ vs, v ∈ d.operands := by
    intro start stop h
    obtain ⟨_, rfl⟩ := operandSlice_ok hd h
    exact fun v hv => List.mem_of_mem_take (List.mem_of_mem_drop hv)
  simp only [boundOperands, except_bind_ok] at h
  obtain ⟨cuts, _, h⟩ := h
  cases side with
  | lower => exact hslice h
  | upper => exact hslice h

theorem otherSide_key (side : BoundSide) : (otherSide side).key ≠ side.key := by
  cases side <;> decide

/-- What holds of the maps of both bounds, given one and the other. -/
theorem exists_bounds {e : OpData} {side : BoundSide} {m m' : Map} {P : Map → Map → Prop}
    (hm : mapAt e side.key = some m) (hm' : mapAt e (otherSide side).key = some m')
    (hlower : side = .lower → P m m') (hupper : side = .upper → P m' m) :
    ∃ lower upper, mapAt e BoundSide.lower.key = some lower ∧
      mapAt e BoundSide.upper.key = some upper ∧ P lower upper := by
  cases side with
  | lower => exact ⟨m, m', hm, hm', hlower rfl⟩
  | upper => exact ⟨m', m, hm', hm, hupper rfl⟩

/-! ## Normalizing a bound -/

theorem OneSided.of_bounds {e : OpData} {side : BoundSide} {m m' : Map}
    (hm : mapAt e side.key = some m) (hm' : mapAt e (otherSide side).key = some m')
    (h : m.numInputs = 0 ∨ m'.numInputs = 0) : OneSided e := by
  intro _ lower upper hlower hupper
  cases side with
  | lower =>
    cases hm.symm.trans hlower
    cases hm'.symm.trans hupper
    exact h
  | upper =>
    cases hm.symm.trans hupper
    cases hm'.symm.trans hlower
    exact h.symm

/-- Without operands there is nothing to fold, and normalizing leaves everything as it is. -/
theorem normalizeMap_still {m : Map} {limit : Nat} :
    normalizeMap op limit ⟨m, []⟩ = Compose.ask (canonicalize · ⟨m.simplify, []⟩) := by
  cases limit <;> rfl

theorem mem_of_forwardedOperand? {b : Binding} (h : forwardedOperand? b = some v) :
    v ∈ b.operands := by
  unfold forwardedOperand? at h
  split at h
  · exact List.mem_of_getElem? h
  · exact List.mem_of_getElem? h
  · cases h

theorem SelectsBetween.feeds {l r : ValueRef} {isMin : Bool} (h : SelectsBetween s v l r isMin) :
    Feeds s v l ∧ Feeds s v r := by
  obtain ⟨select, k, sd, _, _, _, _, _, hv, hsd, _, _, hl, hr, _⟩ := h
  exact ⟨⟨select, k, sd, hv, hsd, List.mem_of_getElem? hl⟩,
    ⟨select, k, sd, hv, hsd, List.mem_of_getElem? hr⟩⟩

/-- The leaves of a choice are on the chain of its definition. -/
theorem Flattened.chain {t : MinMax} (h : Flattened s v t) : ∀ w ∈ t.leaves, Chain s v w := by
  induction h with
  | leaf v =>
    intro w hw
    rw [List.mem_singleton.1 hw]
    exact .refl
  | join hselects _ _ ihl ihr =>
    intro w hw
    rcases List.mem_append.1 hw with hw | hw
    · exact .head hselects.feeds.1 (ihl w hw)
    · exact .head hselects.feeds.2 (ihr w hw)

/-- What `normalizeBound` does in its transaction. -/
def boundBody (limit : Nat) (op : OpRef) (side : BoundSide) (b : Binding) : Compose Change := do
  let expanded ← Compose.ask (expandBound? · side b)
  let new ← normalizeMap op limit (expanded.getD b)
  let map := new.map.dropRepeatedResults
  if map = b.map && new.operands = b.operands then return .none
  Compose.lift (setBound op side map new.operands)
  return .inPlace

section Loops

variable (hs : Sound sided root gone (fun _ => False) s) (hx : Nested s root op)

include hs hx

/-- The loop can look at what a bound is expanded to; without operands it is not expanded. -/
theorem expanded_looks {side : BoundSide} {b : Binding} {expanded : Option Binding}
    (hb : ∀ v ∈ b.operands, Looks op ([], s) v) (h : expandBound? s side b = .ok expanded) :
    (∀ v ∈ (expanded.getD b).operands, Looks op ([], s) v) ∧
      (b.operands = [] → expanded.getD b = b) := by
  cases expanded with
  | none => exact ⟨hb, fun _ => rfl⟩
  | some b' =>
    obtain ⟨v, l, r, tl, tr, hv, hselects, hl, hr, _, rfl⟩ := expandBound?_some h
    have hmem := mem_of_forwardedOperand? hv
    refine ⟨fun w hw => ?_, fun hnil => absurd (hnil ▸ hmem) List.not_mem_nil⟩
    refine (hb v hmem).chain hs.underway hx ?_
    rcases List.mem_append.1 hw with hw | hw
    · exact .head hselects.feeds.1 (hl.chain w hw)
    · exact .head hselects.feeds.2 (hr.chain w hw)

/-- A bound is normalized with operands that the loop can look at; if it is to be one-sided there
are none, or the other bound takes none.  Then the loop is still a loop with its other bound, and
without operands the other bound keeps its own. -/
theorem boundBody_concludes {side : BoundSide} {b : Binding} {limit : Nat}
    (hd : s.op? op = some d) (hname : d.name = forName)
    (hb : ∀ v ∈ b.operands, Looks op ([], s) v)
    (hother : sided → b.operands = [] ∨
      ∃ m, mapAt d (otherSide side).key = some m ∧ m.numInputs = 0)
    {P : Change → Store → Prop} (hP : ∀ t' d', Asked sided root op .inPlace t' →
      t'.op? op = some d' → d'.name = forName →
      mapAt d' (otherSide side).key = mapAt d (otherSide side).key →
      (b.operands = [] → (∃ m, mapAt d' side.key = some m ∧ m.numInputs = 0) ∧
        boundOperands t' op (otherSide side) = boundOperands s op (otherSide side)) →
      P .inPlace t') :
    Concludes root gone op P ([], s) (boundBody limit op side b) := by
  refine .ask_bind fun expanded hexpanded => ?_
  obtain ⟨hlooks, hsame⟩ := expanded_looks hs hx hb hexpanded
  refine .bind (Q := fun new c => (Bound op (expanded.getD b) new c ∧
    new.map.numInputs = new.operands.length) ∧ (b.operands = [] → c = ([], s)))
    (fun r J' t hrun => ?_) fun new c hprepares hnew => ?_
  · obtain ⟨hprepares, hnormal⟩ := normalizeMap_sound hs.underway hx limit hlooks r J' t hrun
    refine ⟨hprepares, fun y hy => ⟨hnormal y hy, fun hnil => ?_⟩⟩
    have heq : expanded.getD b = ⟨b.map, []⟩ := by
      rw [hsame hnil, ← hnil]
    rw [heq, normalizeMap_still, Compose.ask_ok] at hrun
    obtain ⟨_, _, _, rfl, rfl⟩ := hrun
    rfl
  obtain ⟨⟨hbound, hnum⟩, hstill⟩ := hnew
  obtain ⟨hc, hxc⟩ := hprepares.sound hs.underway hx
  obtain ⟨e, he, hfixed⟩ := hprepares.fixed hs.underway hx hd
  have hename : e.name = forName := (congrArg (·.name) hfixed).trans hname
  have hattrs : e.attrs = d.attrs := congrArg (·.attrs) hfixed
  have hfits := hc.sound.fitting op e (hxc.ne_root hc.sound.linked hc.sound.top)
    (hc.sound.tidy.not_gone hxc) he
  obtain ⟨l, u, hl, hu, hlength⟩ := hfits.suits.loop hename
  obtain ⟨m', hm'⟩ : ∃ m', mapAt e (otherSide side).key = some m' := by
    cases side with
    | lower => exact ⟨u, hu⟩
    | upper => exact ⟨l, hl⟩
  have hmd : mapAt d (otherSide side).key = some m' := by rw [mapAt, ← hattrs, ← mapAt, hm']
  have hnil : b.operands = [] → new.operands = [] := fun hnil =>
    hbound.2 (by rw [hsame hnil, hnil])
  have hzero : b.operands = [] → new.map.dropRepeatedResults.numInputs = 0 := fun hempty => by
    rw [hnil hempty] at hnum
    exact hnum
  refine .ite (fun _ => .giveUp) fun _ => .inPlace hc hxc fun u' t hrun => ?_
  obtain ⟨all, hrun, hmem, hsize, rest, inits, hrest, hall⟩ :=
    setBound_respecifies he hl hu hlength hrun
  have hset := mapAt_insert e side.key new.map.dropRepeatedResults
  have hkept :=
    (mapAt_insert_other e (.map new.map.dropRepeatedResults) (otherSide_key side)).trans hm'
  refine ⟨_, _, all, e, hrun, he, fun v hv => ?_, ⟨?_, fun hsided => ?_⟩,
    fun t' d' hasked hd' hfixed' hoperands => ?_⟩
  · rcases hmem v hv with hv | hv
    · exact hbound.1 v hv
    · exact .of_sees hc.sound.linked (hc.sound.visible op e v hxc he hv)
  · exact .of_loop hename (exists_bounds hset hkept
      (fun _ => (hsize m' hm').trans (by rw [← hnum]; rfl))
      (fun _ => (hsize m' hm').trans (by rw [← hnum, Nat.add_comm new.map.numInputs]; rfl)))
  · refine .of_bounds hset hkept ((hother hsided).imp hzero ?_)
    rintro ⟨m₀, hm₀, hnone⟩
    cases hmd.symm.trans hm₀
    exact hnone
  · have hattrs' : ∀ key, mapAt d' key =
        mapAt { e with attrs := e.attrs.insert side.key (.map new.map.dropRepeatedResults) } key :=
      fun key => by rw [mapAt, mapAt, show d'.attrs = _ from congrArg (·.attrs) hfixed']; rfl
    have hset' := (hattrs' _).trans hset
    have hkept' := (hattrs' _).trans hkept
    refine hP t' d' hasked hd' ((congrArg (·.name) hfixed').trans hename) (hkept'.trans hmd.symm)
      fun hempty => ⟨⟨_, hset', hzero hempty⟩, ?_⟩
    have hrestlength := (boundOperands_ok he hl hu hrest).2 m' hm'
    rw [hstill hempty] at hrest
    rw [hrest]
    exact boundOperands_beside hd' hset' (hzero hempty) hkept' hrestlength
      (hoperands.trans (hall (hnil hempty)))

end Loops

/-! ## Normalizing both bounds -/

/-- Normalizes the bounds of a loop like `normalizeBounds`, but faults where normalizing the lower
bound has replaced an operand of the upper one. -/
def steadyBounds (limit : Nat) : Pattern := onName forName fun op => do
  match ← query (boundMap? · op .lower), ← query (boundMap? · op .upper) with
  | some lower, some upper =>
    let lowerOperands ← query (boundOperands · op .lower)
    let upperOperands ← query (boundOperands · op .upper)
    let first ← normalizeBound limit op .lower ⟨lower, lowerOperands⟩
    if (← query (boundOperands · op .upper)) ≠ upperOperands then
      throw (.missingOperand op lower.numInputs)
    let second ← normalizeBound limit op .upper ⟨upper, upperOperands⟩
    if first = .none && second = .none then return .none else return .inPlace
  | _, _ => return .none

section Both

variable (hs : Sound sided root gone (fun _ => False) s) (hx : Nested s root op)

include hs hx

/-- After the lower bound of a loop was normalized it is still a loop of a sound module.  If it
binds operands to one bound only, it still does, and its upper bound has kept its own. -/
theorem lowerBound_sound {limit : Nat} {lower upper : Map} {los ups : List ValueRef} {c : Change}
    (hd : s.op? op = some d) (hname : d.name = forName)
    (hlower : mapAt d BoundSide.lower.key = some lower)
    (hupper : mapAt d BoundSide.upper.key = some upper)
    (hlos : boundOperands s op .lower = .ok los) (hups : boundOperands s op .upper = .ok ups)
    (h : normalizeBound limit op .lower ⟨lower, los⟩ s = .ok (c, t)) :
    Asked sided root op .none t ∧ ∃ e, t.op? op = some e ∧ e.name = forName ∧
      (sided → boundOperands t op .upper = .ok ups ∧
        (ups = [] ∨ ∃ m, mapAt e BoundSide.lower.key = some m ∧ m.numInputs = 0)) := by
  obtain ⟨_, hlsize⟩ := boundOperands_ok hd hlower hupper hlos
  obtain ⟨_, husize⟩ := boundOperands_ok hd hlower hupper hups
  have hnil : ∀ {m : Map} {vs : List ValueRef}, vs.length = m.numInputs → m.numInputs = 0 →
    vs = [] :=
    fun hsize hzero => List.length_eq_zero_iff.1 (hsize.trans hzero)
  have hone : sided → lower.numInputs = 0 ∨ upper.numInputs = 0 := fun hsided =>
    (hs.fitting op d (hx.ne_root hs.linked hs.top) (hs.tidy.not_gone hx) hd).oneSided hsided hname
      lower upper hlower hupper
  refine transaction_concludes hs hx (P := fun _ t => Asked sided root op .none t ∧
    ∃ e, t.op? op = some e ∧ e.name = forName ∧ (sided → boundOperands t op .upper = .ok ups ∧
      (ups = [] ∨ ∃ m, mapAt e BoundSide.lower.key = some m ∧ m.numInputs = 0)))
    (fun gone' t hleft => ?_) (boundBody_concludes hs hx hd hname
      (fun v hv => looks_operand hs hx hd (mem_of_boundOperands hd hlos v hv))
      (fun hsided => ?_) fun t e hasked he hname' hkept hempty => ?_) h
  · have hd' := hleft.restores.op? op d hd
    refine ⟨.of_leftover hs hx hleft, d, hd', hname, fun hsided => ⟨?_, ?_⟩⟩
    · rw [boundOperands_congr hd hd', hups]
    · exact (hone hsided).symm.imp (hnil (husize upper hupper)) fun hzero => ⟨lower, hlower, hzero⟩
  · exact (hone hsided).imp (hnil (hlsize lower hlower)) fun hzero => ⟨upper, hupper, hzero⟩
  · refine ⟨hasked, e, he, hname', fun hsided => ?_⟩
    obtain ⟨⟨gone', ht⟩, hxt⟩ := hasked
    rcases hone hsided with hzero | hzero
    · obtain ⟨hlower', hother⟩ := hempty (hnil (hlsize lower hlower) hzero)
      exact ⟨hother.trans hups, .inr hlower'⟩
    · have hfits := ht.fitting op e (hxt.ne_root ht.linked ht.top) (ht.tidy.not_gone hxt) he
      obtain ⟨l, u, hl, hu, hlength⟩ := hfits.suits.loop hname'
      cases (hu.symm.trans hkept).trans hupper
      rw [hnil (husize upper hupper) hzero]
      exact ⟨boundOperands_none he hl hu (by omega) hzero, .inl rfl⟩

/-- The bounds of a loop are normalized soundly, if the loop still has the operands of the second
one when its turn comes. -/
theorem steadyBounds_sound (limit : Nat) : AsksSoundly sided root op s (steadyBounds limit op) := by
  refine onName_sound hs hx fun d hd hname => .query fun lower? hlower =>
    .query fun upper? hupper => ?_
  split
  · rename_i lower upper
    obtain ⟨d', hd', hlower⟩ := boundMap?_ok.1 hlower
    cases hd.symm.trans hd'
    obtain ⟨d', hd', hupper⟩ := boundMap?_ok.1 hupper
    cases hd.symm.trans hd'
    refine .query fun los hlos => .query fun ups hups => ?_
    intro c t h
    obtain ⟨first, s₁, hfirst, h⟩ := Edit.bind_ok.1 h
    obtain ⟨⟨⟨gone₁, hs₁⟩, hx₁⟩, d₁, hd₁, hname₁, hsteady⟩ :=
      lowerBound_sound hs hx hd hname hlower hupper hlos hups hfirst
    obtain ⟨ups', hups', h⟩ := Edit.query_bind.1 h
    split at h
    · cases h
    · rename_i hsame
      cases not_not.1 hsame
      obtain ⟨second, s₂, hsecond, h⟩ := Edit.bind_ok.1 h
      have hend : Asked sided root op .none s₂ :=
        transaction_concludes hs₁ hx₁ (P := fun _ t => Asked sided root op .none t)
          (fun _ _ => .of_leftover hs₁ hx₁) (boundBody_concludes hs₁ hx₁ hd₁ hname₁
            (fun v hv => looks_operand hs₁ hx₁ hd₁ (mem_of_boundOperands hd₁ hups' v hv))
            (fun hsided => (hsteady hsided).2) fun _ _ hasked _ _ _ _ => hasked) hsecond
      simp only [Edit.ite_run, Edit.pure_run] at h
      split at h <;>
      · cases h
        exact hend
  · exact asksSoundly_none hs hx

end Both

end AffineRaising.Raise
