/-
# AffineRaising.Proofs.Raise.SoundPatterns — patterns that keep a module sound.

Applications, accesses and casts are replaced by operations whose operands the old one could look
at, and conditions are changed in place.  Each binds as many operands as it takes: what a
normalization comes to does, and the rest is kept.

That a new operation binds as many operands as it takes is decided by its entry alone (`Fitted`), so
the lemmas `suits_…` come first, one for each operation that a pattern creates.  That its operands
are visible follows from the fact that they are among what the old operation could look at (`Looks`)
when the composition ended, and that the new operation is put where the old one stands.
-/
import AffineRaising.Proofs.Raise.SoundTransaction

namespace AffineRaising.Raise

open AffineRaising.IR AffineRaising.IR.Store AffineRaising.Ops AffineRaising.Analysis
open AffineRaising.Transform
open AffineRaising.Affine (Map ConstraintSet)

variable {sided : Prop} {gone : OpRef → Prop} {a : Journal × Store} {s t : Store} {v w : ValueRef}
  {root op x : OpRef} {d : OpData}

/-! ## What new operations bind -/

section Entries

variable {m : Map} {operands : List ValueRef}

theorem suits_apply (ty : Ty) (s : Store) (h : m.numInputs = operands.length) :
    Fitted sided ((applySpec m operands ty).entry s) :=
  .of_name (.of_apply rfl ⟨m, rfl, h⟩) (by simp only [OpSpec.entry, applySpec]; decide)

theorem suits_affineLoad (memory : ValueRef) (ty : Ty) (s : Store)
    (h : m.numInputs = operands.length) :
    Fitted sided ((affineLoadSpec memory m operands ty).entry s) :=
  have hkind : AccessKind.ofName? ((affineLoadSpec memory m operands ty).entry s).name =
      some .load := by
    simp only [OpSpec.entry, affineLoadSpec]
    decide
  .of_name (.of_access hkind ⟨m, rfl, h⟩) (by simp only [OpSpec.entry, affineLoadSpec]; decide)

theorem suits_affineStore (value memory : ValueRef) (s : Store)
    (h : m.numInputs = operands.length) :
    Fitted sided ((affineStoreSpec value memory m operands).entry s) :=
  have hkind : AccessKind.ofName? ((affineStoreSpec value memory m operands).entry s).name =
      some .store := by
    simp only [OpSpec.entry, affineStoreSpec]
    decide
  .of_name (.of_access hkind ⟨m, rfl, h⟩) (by simp only [OpSpec.entry, affineStoreSpec]; decide)

theorem suits_constant (ty : Ty) (value : Int64) (s : Store) :
    Fitted sided ((constantSpec ty value).entry s) := by
  refine .of_name (.of_name ?_ ?_ ?_ ?_ (.of_name ?_ ?_)) ?_ <;>
    simp only [OpSpec.entry, constantSpec] <;> decide

/-- The access that takes the place of one with other operands of its map. -/
def accessSpec (d : OpData) (leading : List ValueRef) (m : Map) (operands : List ValueRef) :
    OpSpec :=
  { name := d.name, operands := leading ++ operands, resultTypes := d.resultTypes,
    attrs := d.attrs.insert "map" (.map m) }

/-- An access with other operands of its map takes as many as its new map has inputs. -/
theorem suits_access {kind : AccessKind} (hkind : AccessKind.ofName? d.name = some kind)
    {leading : List ValueRef} (hleading : leading.length = kind.mapStart) (s : Store)
    (h : m.numInputs = operands.length) :
    Fitted sided ((accessSpec d leading m operands).entry s) := by
  refine .of_name (.of_access hkind ⟨m, mapAt_insert d "map" m, ?_⟩) fun hn => ?_
  · simp [OpSpec.entry, accessSpec, h, hleading]
  · rw [show d.name = forName from hn] at hkind
    cases hkind

end Entries

/-! ## What the transactions do -/

section Bodies

variable (limit : Nat) (op : OpRef)

/-- What `raiseApply` does in its transaction. -/
def applyBody (map : Map) (operands : List ValueRef) : Compose Change := do
  let b ← normalizeMap op limit ⟨map, operands⟩
  let new := b.map.dropRepeatedResults
  if new = map then return .none
  let result ← Compose.ask (·.result op 0)
  let ty ← Compose.ask (·.typeOf result)
  return .replaceBy (← Compose.lift (createOp (applySpec new b.operands ty)))

/-- What `raiseSubscripts` does in its transaction. -/
def subscriptsBody (indices : List ValueRef) (build : Binding → OpSpec) : Compose Change := do
  let b ← normalizeMap op limit ⟨Map.symbolIdentity indices.length, indices⟩
  return .replaceBy (← Compose.lift (createOp (build b)))

/-- What `normalizeAccess` does in its transaction. -/
def accessBody (map : Map) (leading operands : List ValueRef) : Compose Change := do
  let b ← normalizeMap op limit ⟨map, operands⟩
  if b.map = map && b.operands = operands then return .none
  let d ← Compose.ask (·.op op)
  return .replaceBy (← Compose.lift (createOp (accessSpec d leading b.map b.operands)))

/-- What `normalizeCondition` does in its transaction. -/
def conditionBody (set : ConstraintSet) (operands : List ValueRef) : Compose Change := do
  let b ← normalizeSet op limit ⟨set, operands⟩
  if b.set = set && b.operands = operands then return .none
  Compose.lift (setCondition op b.set b.operands)
  return .inPlace

end Bodies

section Patterns

variable (hs : Sound sided root gone (fun _ => False) s) (hx : Nested s root op)

include hs hx

/-! ## Operands -/

/-- An operation can look at its own operands. -/
theorem looks_operand (hd : s.op? op = some d) (hv : v ∈ d.operands) : Looks op ([], s) v :=
  .of_sees hs.linked (hs.visible op d v hx hd hv)

/-- Asking for nothing keeps everything. -/
theorem asksSoundly_none : AsksSoundly sided root op s (pure .none) := .pure ⟨⟨gone, hs⟩, hx⟩

/-- A pattern for one name has to be sound at operations of this name only. -/
theorem onName_sound {name : OpName} {pattern : Pattern}
    (h : ∀ d, s.op? op = some d → d.name = name → AsksSoundly sided root op s (pattern op)) :
    AsksSoundly sided root op s (onName name pattern op) := by
  refine .query fun named hnamed => .ite (fun htrue => ?_) fun _ => asksSoundly_none hs hx
  obtain ⟨d, hd, hname⟩ := isNamed_ok.1 hnamed
  exact h d hd (by simpa [htrue] using hname)

/-! ## Applications and accesses -/

/-- The composed map is applied to what the old application could look at. -/
theorem applyBody_concludes (limit : Nat) {map : Map} {operands : List ValueRef}
    (hlooks : ∀ v ∈ operands, Looks op ([], s) v) :
    Concludes root gone op (Asked sided root op) ([], s) (applyBody limit op map operands) := by
  refine .bind (normalizeMap_sound hs.underway hx limit hlooks)
    fun b c hprepares ⟨hbound, hnum⟩ => ?_
  obtain ⟨hc, hxc⟩ := hprepares.sound hs.underway hx
  refine .ite (fun _ => .giveUp) fun _ => .ask_bind fun result _ => .ask_bind fun ty _ => ?_
  exact .replaceBy hc hxc rfl hbound.1 (suits_apply ty c.2 hnum)

theorem looks_operandsOf {vs : List ValueRef} (h : s.operandsOf op = .ok vs) :
    ∀ v ∈ vs, Looks op ([], s) v := by
  obtain ⟨d, hd, rfl⟩ := operandsOf_ok.1 h
  exact fun v hv => looks_operand hs hx hd hv

theorem raiseApply_sound (limit : Nat) : AsksSoundly sided root op s (raiseApply limit op) := by
  refine onName_sound hs hx fun d hd _ => .query fun map? _ => ?_
  cases map? with
  | none => exact asksSoundly_none hs hx
  | some map =>
    exact .query fun operands hoperands => transaction_sound hs hx
      (applyBody_concludes hs hx limit (looks_operandsOf hs hx hoperands))

/-- The new access is made of the composed map and of operands that the old access kept. -/
theorem subscriptsBody_concludes (limit : Nat) {indices : List ValueRef} {build : Binding → OpSpec}
    (hindices : ∀ v ∈ indices, Looks op ([], s) v) (hregions : ∀ b, (build b).regions = [])
    (hbuild : ∀ b c, (∀ v, Looks op ([], s) v → Looks op c v) → (∀ w ∈ b.operands, Looks op c w) →
      ∀ w ∈ (build b).operands, Looks op c w)
    (hfits : ∀ b s, b.map.numInputs = b.operands.length →
      Fitted sided ((build b).entry s)) :
    Concludes root gone op (Asked sided root op) ([], s)
      (subscriptsBody limit op indices build) := by
  refine .bind (normalizeMap_sound hs.underway hx limit hindices)
    fun b c hprepares ⟨hbound, hnum⟩ => ?_
  obtain ⟨hc, hxc⟩ := hprepares.sound hs.underway hx
  exact .replaceBy hc hxc (hregions b)
    (hbuild b c (fun v hv => hprepares.looks hs.underway hx hv) hbound.1) (hfits b c.2 hnum)

theorem looks_slot {i : Nat} (h : s.operand op i = .ok v) : Looks op ([], s) v := by
  obtain ⟨d, hd, hv⟩ := operand_ok.1 h
  exact looks_operand hs hx hd (List.mem_of_getElem? hv)

theorem looks_from {start : Nat} {vs : List ValueRef} (h : operandsFrom s op start = .ok vs) :
    ∀ v ∈ vs, Looks op ([], s) v := by
  simp only [operandsFrom, except_bind_ok, operandsOf_ok] at h
  obtain ⟨_, ⟨d, hd, rfl⟩, h⟩ := h
  split at h
  · cases h
    exact fun v hv => looks_operand hs hx hd (List.mem_of_mem_drop hv)
  · cases h

/-- A load keeps its memory. -/
theorem loadBody_concludes (limit : Nat) {indices : List ValueRef} {memory : ValueRef} {ty : Ty}
    (hindices : operandsFrom s op 1 = .ok indices) (hmemory : s.operand op 0 = .ok memory) :
    Concludes root gone op (Asked sided root op) ([], s)
      (subscriptsBody limit op indices fun b => affineLoadSpec memory b.map b.operands ty) := by
  refine subscriptsBody_concludes hs hx limit (looks_from hs hx hindices) (fun _ => rfl)
    (fun b c hlater hb w hw => ?_) fun b s' hnum => suits_affineLoad memory _ s' hnum
  rcases List.mem_cons.1 hw with rfl | hw
  · exact hlater _ (looks_slot hs hx hmemory)
  · exact hb w hw

theorem raiseLoad_sound (limit : Nat) : AsksSoundly sided root op s (raiseLoad limit op) := by
  refine onName_sound hs hx fun d hd _ => .query fun indices hindices => .query fun valid _ =>
    .ite (fun _ => asksSoundly_none hs hx) fun _ => .query fun memory hmemory =>
      .query fun d' _ => ?_
  split
  · exact asksSoundly_none hs hx
  · exact transaction_sound hs hx (loadBody_concludes hs hx limit hindices hmemory)

/-- A store keeps its value and its memory. -/
theorem storeBody_concludes (limit : Nat) {indices : List ValueRef} {value memory : ValueRef}
    (hindices : operandsFrom s op 2 = .ok indices) (hvalue : s.operand op 0 = .ok value)
    (hmemory : s.operand op 1 = .ok memory) :
    Concludes root gone op (Asked sided root op) ([], s)
      (subscriptsBody limit op indices fun b => affineStoreSpec value memory b.map b.operands) := by
  refine subscriptsBody_concludes hs hx limit (looks_from hs hx hindices) (fun _ => rfl)
    (fun b c hlater hb w hw => ?_) fun b s' hnum => suits_affineStore value memory s' hnum
  rcases List.mem_cons.1 hw with rfl | hw
  · exact hlater _ (looks_slot hs hx hvalue)
  rcases List.mem_cons.1 hw with rfl | hw
  · exact hlater _ (looks_slot hs hx hmemory)
  · exact hb w hw

theorem raiseStore_sound (limit : Nat) : AsksSoundly sided root op s (raiseStore limit op) :=
  onName_sound hs hx fun _ _ _ => .query fun _ hindices => .query fun _ _ =>
    .ite (fun _ => asksSoundly_none hs hx) fun _ => .query fun _ hvalue => .query fun _ hmemory =>
      transaction_sound hs hx (storeBody_concludes hs hx limit hindices hvalue hmemory)

/-- An access keeps its operands in front of those of its map. -/
theorem accessBody_concludes (limit : Nat) {kind : AccessKind} {map : Map}
    (hd : s.op? op = some d) (hkind : AccessKind.ofName? d.name = some kind)
    (hlong : kind.mapStart ≤ d.operands.length) :
    Concludes root gone op (Asked sided root op) ([], s)
      (accessBody limit op map (d.operands.take kind.mapStart)
        (d.operands.drop kind.mapStart)) := by
  refine .bind (normalizeMap_sound hs.underway hx limit fun v hv =>
    looks_operand hs hx hd (List.mem_of_mem_drop hv)) fun b c hprepares ⟨hbound, hnum⟩ => ?_
  obtain ⟨hc, hxc⟩ := hprepares.sound hs.underway hx
  refine .ite (fun _ => .giveUp) fun _ => .ask_bind fun d' hd' => ?_
  obtain ⟨e, he, hfixed⟩ := hprepares.fixed hs.underway hx hd
  cases (op_ok.1 hd').symm.trans he
  have hname : d'.name = d.name := congrArg (·.name) hfixed
  refine .replaceBy hc hxc rfl (fun w hw => ?_)
    (suits_access (hname ▸ hkind) (by simp [hlong]) c.2 hnum)
  rcases List.mem_append.1 hw with hw | hw
  · exact hprepares.looks hs.underway hx (looks_operand hs hx hd (List.mem_of_mem_take hw))
  · exact hbound.1 w hw

theorem normalizeAccess_sound (limit : Nat) :
    AsksSoundly sided root op s (normalizeAccess limit op) := by
  refine .query fun d hd => ?_
  split
  · rename_i kind map hkind hmap
    refine .ite (fun _ => asksSoundly_none hs hx) fun hsizes => transaction_sound hs hx ?_
    refine accessBody_concludes hs hx limit (op_ok.1 hd) hkind ?_
    simp only [Bool.or_eq_true, decide_eq_true_eq, not_or] at hsizes
    omega
  · exact asksSoundly_none hs hx

/-! ## Casts -/

/-- A cast of a constant becomes a constant, and a cast back is replaced by what was cast. -/
theorem foldIndexCast_sound : AsksSoundly sided root op s (foldIndexCast op) := by
  refine onName_sound hs hx fun d hd _ => .query fun input hinput => .query fun result _ =>
    .query fun ty _ => .query fun inner? hinner => ?_
  cases inner? with
  | none => exact asksSoundly_none hs hx
  | some inner =>
    refine .query fun kind _ => ?_
    split
    · refine .query fun source hsource => .query fun sourceTy _ => .ite (fun _ => ?_)
        fun _ => asksSoundly_none hs hx
      refine .pure ⟨⟨gone, hs⟩, hx, List.nodup_singleton _, fun v hv => ?_⟩
      cases List.mem_singleton.1 hv
      -- what the inner cast is applied to is seen wherever its result is
      obtain ⟨k, hk⟩ := definingOp?_some hinner
      obtain ⟨e, he, hsource⟩ := operand_ok.1 hsource
      obtain ⟨d', hd', hinput⟩ := operand_ok.1 hinput
      exact hs.visible.computedFrom_seen hs.linked hs.top hx
        (hs.visible op d' input hx hd' (List.mem_of_getElem? hinput))
        ⟨inner, k, inner, e, hk, .refl, he, List.mem_of_getElem? hsource, .inl rfl⟩
    · refine .query fun value _ => ?_
      cases value with
      | none => exact asksSoundly_none hs hx
      | some value =>
        refine .query fun inputTy _ => .ite (fun _ => ?_) fun _ => asksSoundly_none hs hx
        intro c t h
        obtain ⟨new, s₁, hcreate, h⟩ := Edit.bind_ok.1 h
        cases h
        exact created_asked (u := ()) hs.underway hx rfl (fun _ hv => absurd hv List.not_mem_nil)
          (suits_constant ty value s) hcreate rfl
    · exact asksSoundly_none hs hx

/-! ## Conditions -/

/-- A condition changes in place; the branches stay. -/
theorem conditionBody_concludes (limit : Nat) {set : ConstraintSet} {operands : List ValueRef}
    (hd : s.op? op = some d) (hname : d.name = affineIfName)
    (hlooks : ∀ v ∈ operands, Looks op ([], s) v) :
    Concludes root gone op (Asked sided root op) ([], s) (conditionBody limit op set operands) := by
  refine .bind (normalizeSet_sound hs.underway hx limit hlooks)
    fun b c hprepares ⟨hbound, hnum⟩ => .ite (fun _ => .giveUp) fun _ => ?_
  obtain ⟨hc, hxc⟩ := hprepares.sound hs.underway hx
  obtain ⟨e, he, hfixed⟩ := hprepares.fixed hs.underway hx hd
  have hename : e.name = affineIfName := (congrArg (·.name) hfixed).trans hname
  exact .inPlace hc hxc fun u t hrun => ⟨_, _, _, e, hrun, he, hbound,
    .of_name (.of_condition hename ⟨b.set, setAt_insert e "condition" b.set, hnum⟩)
      (by rw [hename]; decide), fun _ _ hasked _ _ _ => hasked⟩

theorem normalizeCondition_sound (limit : Nat) :
    AsksSoundly sided root op s (normalizeCondition limit op) := by
  refine onName_sound hs hx fun d hd hname => .query fun set? _ => ?_
  cases set? with
  | none => exact asksSoundly_none hs hx
  | some set =>
    exact .query fun operands hoperands => transaction_sound hs hx
      (conditionBody_concludes hs hx limit hd hname (looks_operandsOf hs hx hoperands))

end Patterns

end AffineRaising.Raise
