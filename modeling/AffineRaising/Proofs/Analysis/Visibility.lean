/-
# AffineRaising.Proofs.Analysis.Visibility — what the checks of a module find.

The visibility check climbs from a user to the block of a definition and compares positions there.
In a store without cycles this decides exactly whether the user sees the value:
`valueDominates_ok`.  From this follows when the checks have nothing to complain about
(`visibilityFlaws_eq_nil`, `useFlaws_eq_nil`, `arityFlaws_eq_nil`), and what holds of a module where
they have nothing.
-/
import AffineRaising.Analysis.Validity
import AffineRaising.Proofs.Analysis.Nesting

namespace AffineRaising.Analysis

open AffineRaising.IR AffineRaising.IR.Store

variable {s : Store} {root o u x y : OpRef} {v : ValueRef} {b : BlockRef} {i : Nat}

/-! ## Positions -/

theorem idxOf?_lt_iff {l : List OpRef} (hnd : l.Nodup) {i j : Nat} (hy : l.idxOf? y = some i)
    (hx : l.idxOf? x = some j) : i < j ↔ [y, x].Sublist l := by
  obtain ⟨hi, hgety, _⟩ := List.idxOf?_eq_some_iff.1 hy
  obtain ⟨hj, hgetx, _⟩ := List.idxOf?_eq_some_iff.1 hx
  have hsplit : l = l.take j ++ x :: l.drop (j + 1) := by
    rw [← hgetx, ← List.drop_eq_getElem_cons hj, List.take_append_drop]
  constructor
  · intro hlt
    have hmem : y ∈ l.take j := by
      rw [← hgety, List.mem_take_iff_getElem]
      exact ⟨i, by omega, rfl⟩
    rw [hsplit]
    exact pair_sublist_of_mem hmem List.mem_cons_self
  · intro hpair
    rw [hsplit] at hnd hpair
    have hmem : y ∈ l.take j := mem_front_of_pair hnd hpair
    obtain ⟨k, hk, hgetk⟩ := List.mem_take_iff_getElem.1 hmem
    rw [← hsplit] at hnd
    have hki : k = i := (hnd.getElem_inj_iff).1 (hgetk.trans hgety.symm)
    omega

/-! ## Visibility -/

theorem opParent_of_mem (hl : Linked s) {bd : BlockData} (hb : s.block? b = some bd)
    (ho : o ∈ bd.ops) : s.opParent o = some (some b) :=
  (hl.ops.mem_iff (by simp [opsIn, hb]) o).1 ho

theorem sees_argument_iff (hl : Linked s) {k : Nat}
    (hv : s.originOf v = some (.argument b k)) :
    Sees s v x ↔ ∃ a, Within s a x ∧ s.opParent a = some (some b) := by
  constructor
  · rintro ⟨a, hw, ⟨b', k', bd, hv', hb', ha⟩ | ⟨o, k', hv', _⟩⟩
    · cases hv.symm.trans hv'
      exact ⟨a, hw, opParent_of_mem hl hb' ha⟩
    · cases hv.symm.trans hv'
  · rintro ⟨a, hw, hp⟩
    obtain ⟨d, hd, hp⟩ := Option.map_eq_some_iff.1 hp
    obtain ⟨bd, hbd, ha⟩ := hl.mem_of_parent hd hp
    exact ⟨a, hw, .inl ⟨b, k, bd, hv, hbd, ha⟩⟩

/-- What sees a result is enclosed by an operation behind the definition, in the same block. -/
theorem sees_result_iff (hl : Linked s) {k : Nat} (hv : s.originOf v = some (.result o k)) :
    Sees s v x ↔ ∃ b a, s.opParent o = some (some b) ∧ Within s a x ∧
      s.opParent a = some (some b) ∧ Precedes s o a := by
  constructor
  · intro h
    obtain ⟨a, hw, b, bd, hb, hpair⟩ := h.reaches hv
    exact ⟨b, a, opParent_of_mem hl hb (left_mem_of_pair hpair), hw,
      opParent_of_mem hl hb (right_mem_of_pair hpair), b, bd, hb, hpair⟩
  · rintro ⟨_, a, _, hw, _, hoa⟩
    exact ⟨a, hw, .inr ⟨o, k, hv, hoa⟩⟩

theorem StandsAt.lt_iff (hl : Linked s) {j : Nat} (ho : StandsAt s o b i)
    (hx : StandsAt s x b j) : i < j ↔ Precedes s o x := by
  obtain ⟨od, hod, hop⟩ := opParent_eq_some.1 ho.parent
  obtain ⟨bd, hbd, -⟩ := hl.mem_of_parent hod hop
  have hi := Except.ok.inj ((position?_attached ho.parent hbd).symm.trans ho.position)
  have hj := Except.ok.inj ((position?_attached hx.parent hbd).symm.trans hx.position)
  rw [idxOf?_lt_iff (hl.ops_nodup hbd) hi hj]
  constructor
  · exact fun hpair => ⟨b, bd, hbd, hpair⟩
  · rintro ⟨b', bd', hb', hpair⟩
    cases ho.parent.symm.trans (opParent_of_mem hl hb' (left_mem_of_pair hpair))
    cases hbd.symm.trans hb'
    exact hpair

/-- The rest of the visibility check once the block of the definition is known. -/
def visibleFrom (s : Store) (v : ValueRef) (user : OpRef) (block : BlockRef) :
    Except Fault Bool := do
  match ← ancestorIn? s block user with
  | none => return false
  | some anchor =>
    match (← s.value v).origin with
    | .argument _ _ => return true
    | .result definition _ =>
      if definition = anchor then return false
      match ← s.position? definition, ← s.position? anchor with
      | some d, some a => return decide (d < a)
      | _, _ => return false

theorem valueDominates_eq {home : Option BlockRef} (hhome : s.homeBlock? v = .ok home) :
    valueDominates s v x = home.elim (.ok false) (visibleFrom s v x) := by
  rw [valueDominates, hhome]
  cases home <;> rfl

/-- The operation leads out to number `n` of a block or farther behind. -/
def LeadsBehind (s : Store) (u : OpRef) (b : BlockRef) (n : Nat) : Prop :=
  ∃ a k, Relation.ReflTransGen (StepsOut s) u a ∧ StandsAt s a b k ∧ n ≤ k

/-- An argument is visible where its block is crossed. -/
theorem visibleFrom_argument (hf : Forest s) {e : ValueData} {n : Nat} {d : OpData}
    (hv : s.value? v = some e) (he : e.origin = .argument b n) (hd : s.op? u = some d) :
    ∃ w, visibleFrom s v u b = .ok w ∧ (w = true ↔ LeadsBehind s u b 0) := by
  obtain ⟨a?, ha, hanchor⟩ := hf.ancestorIn?_ok b hd
  rw [visibleFrom, ha]
  cases a? with
  | none =>
    refine ⟨false, rfl, iff_of_false Bool.false_ne_true ?_⟩
    rintro ⟨a, k, hua, hplace, -⟩
    cases (hanchor a).2 ⟨hua, hplace.parent⟩
  | some a =>
    obtain ⟨hua, hparent⟩ := (hanchor a).1 rfl
    obtain ⟨-, k, -, -, hplace⟩ := hf.standsAt hparent
    refine ⟨true, ?_, iff_of_true rfl ⟨a, k, hua, hplace, Nat.zero_le k⟩⟩
    simp only [except_bind_ok, value_ok, Except.ok.injEq, exists_eq_left']
    exact ⟨e, hv, by rw [he]; rfl⟩

/-- A result is visible where its block is crossed behind its definition. -/
theorem visibleFrom_result (hf : Forest s) {e : ValueData} {n : Nat} {d : OpData}
    (hv : s.value? v = some e) (he : e.origin = .result o n) (ho : StandsAt s o b i)
    (hd : s.op? u = some d) :
    ∃ w, visibleFrom s v u b = .ok w ∧ (w = true ↔ LeadsBehind s u b (i + 1)) := by
  obtain ⟨a?, ha, hanchor⟩ := hf.ancestorIn?_ok b hd
  rw [visibleFrom, ha]
  cases a? with
  | none =>
    refine ⟨false, rfl, iff_of_false Bool.false_ne_true ?_⟩
    rintro ⟨a, k, hua, hplace, -⟩
    cases (hanchor a).2 ⟨hua, hplace.parent⟩
  | some a =>
    obtain ⟨hua, hparent⟩ := (hanchor a).1 rfl
    obtain ⟨-, k, -, -, hplace⟩ := hf.standsAt hparent
    have hbehind : LeadsBehind s u b (i + 1) ↔ i < k := by
      constructor
      · rintro ⟨a', k', hua', hplace', hle⟩
        cases (hanchor a').2 ⟨hua', hplace'.parent⟩
        obtain ⟨-, rfl⟩ := hplace.unique hplace'
        exact hle
      · exact fun hlt => ⟨a, k, hua, hplace, hlt⟩
    rw [hbehind]
    refine ⟨decide (i < k), ?_, decide_eq_true_iff⟩
    simp only [except_bind_ok, value_ok, Except.ok.injEq, exists_eq_left']
    refine ⟨e, hv, ?_⟩
    by_cases hoa : o = a
    · subst hoa
      obtain ⟨-, rfl⟩ := ho.unique hplace
      simp [he]
    · simp only [he, hoa, if_false, except_bind_ok]
      exact ⟨_, ho.position, _, hplace.position, rfl⟩

/-- The visibility check decides whether an operation sees a value. -/
theorem valueDominates_ok (hl : Linked s) (hac : Acyclic s) {d : OpData} {e : ValueData}
    (hd : s.op? x = some d) (hv : s.value? v = some e) :
    ∃ w, valueDominates s v x = .ok w ∧ (w = true ↔ Sees s v x) := by
  have hf := forest_of_linked hl hac
  have horigin : s.originOf v = some e.origin := by simp [originOf, hv]
  cases he : e.origin with
  | argument b k =>
    rw [he] at horigin
    obtain ⟨w, hw, hiff⟩ := visibleFrom_argument hf hv he hd
    refine ⟨w, (valueDominates_eq (homeBlock?_argument horigin)).trans hw, ?_⟩
    rw [hiff, sees_argument_iff hl horigin]
    constructor
    · rintro ⟨a, i, hout, hplace, -⟩
      exact ⟨a, (stepsOut_iff_within hl).1 hout, hplace.parent⟩
    · rintro ⟨a, hin, hparent⟩
      obtain ⟨-, i, -, -, hplace⟩ := hf.standsAt hparent
      exact ⟨a, i, (stepsOut_iff_within hl).2 hin, hplace, Nat.zero_le i⟩
  | result o k =>
    rw [he] at horigin
    obtain ⟨od, hod⟩ := hf.definer hv he
    have hparent : s.opParent o = some od.parent := by simp [opParent, hod]
    rw [valueDominates_eq (homeBlock?_result horigin hod), sees_result_iff hl horigin]
    cases hop : od.parent with
    | none =>
      refine ⟨false, rfl, ?_⟩
      rw [hop] at hparent
      simp [hparent]
    | some b =>
      rw [hop] at hparent
      obtain ⟨-, i, -, -, hplace⟩ := hf.standsAt hparent
      obtain ⟨w, hw, hiff⟩ := visibleFrom_result hf hv he hplace hd
      refine ⟨w, hw, hiff.trans ⟨?_, ?_⟩⟩
      · rintro ⟨a, j, hout, ha, hlt⟩
        exact ⟨b, a, hparent, (stepsOut_iff_within hl).1 hout, ha.parent,
          (hplace.lt_iff hl ha).1 hlt⟩
      · rintro ⟨b', a, hparent', hin, hap, hoa⟩
        cases hparent.symm.trans hparent'
        obtain ⟨-, j, -, -, ha⟩ := hf.standsAt hap
        exact ⟨a, j, (stepsOut_iff_within hl).2 hin, ha, (hplace.lt_iff hl ha).2 hoa⟩

/-- The visibility check finds a value visible exactly if it is seen. -/
theorem valueDominates_iff (hl : Linked s) (hac : Acyclic s) {d : OpData} (hd : s.op? x = some d) :
    valueDominates s v x = .ok true ↔ Sees s v x := by
  constructor
  · intro h
    obtain ⟨e, he⟩ : ∃ e, s.value? v = some e := by
      simp only [valueDominates, homeBlock?, except_bind_ok, value_ok] at h
      obtain ⟨_, ⟨e, he, _⟩, _⟩ := h
      exact ⟨e, he⟩
    obtain ⟨w, hw, hiff⟩ := valueDominates_ok hl hac hd he
    cases hw.symm.trans h
    exact hiff.1 rfl
  · intro h
    obtain ⟨e, he⟩ : ∃ e, s.value? v = some e := by
      obtain ⟨a, _, ⟨b, k, _, hv, _⟩ | ⟨o, k, hv, _⟩⟩ := h
      all_goals
        obtain ⟨e, he, _⟩ := Option.map_eq_some_iff.1 hv
        exact ⟨e, he⟩
    obtain ⟨w, hw, hiff⟩ := valueDominates_ok hl hac hd he
    rw [hw, hiff.2 h]

/-- Where every operand in the body is seen by its user, the visibility check finds nothing. -/
theorem visibilityFlaws_eq_nil (hl : Linked s) (hac : Acyclic s) {d : OpData}
    (hd : s.op? root = some d)
    (hsees : ∀ x d v, InBody s root x → s.op? x = some d → v ∈ d.operands → Sees s v x) :
    visibilityFlaws s root = .ok [] := by
  obtain ⟨os, hos, hbody⟩ := bodyOps_ok hl hac hd
  obtain ⟨flaws, hflaws, hnil⟩ := mapM_flatten_nil (l := os) (g := hiddenOperands s) fun x hx => by
    obtain ⟨xd, hxd⟩ := op?_of_inBody hl ((hbody x).1 hx)
    simp only [hiddenOperands, except_bind_ok, op_ok]
    refine ⟨xd, hxd, [], filterM_eq_nil fun p hp => ?_, rfl⟩
    have hmem : p.1 ∈ xd.operands := List.fst_mem_of_mem_zipIdx hp
    rw [(valueDominates_iff hl hac hxd).2 (hsees x xd p.1 ((hbody x).1 hx) hxd hmem)]
    rfl
  simp only [visibilityFlaws, except_bind_ok, except_pure, Except.ok.injEq]
  exact ⟨os, hos, flaws, hflaws, hnil⟩

/-- Where the visibility check finds nothing, every operand in the body is seen by its user. -/
theorem sees_of_visibilityFlaws (hl : Linked s) (hac : Acyclic s)
    (h : visibilityFlaws s root = .ok []) (hx : InBody s root x) {d : OpData}
    (hd : s.op? x = some d) (hv : v ∈ d.operands) : Sees s v x := by
  obtain ⟨rd, hrd, _⟩ := id hx
  obtain ⟨os, hos, hbody⟩ := bodyOps_ok hl hac hrd
  simp only [visibilityFlaws, except_bind_ok, except_pure, Except.ok.injEq] at h
  obtain ⟨os', hos', flaws, hflaws, hnil⟩ := h
  cases hos.symm.trans hos'
  have hhidden := of_mapM_flatten_nil hflaws hnil x ((hbody x).2 hx)
  simp only [hiddenOperands, except_bind_ok, op_ok] at hhidden
  obtain ⟨d', hd', hidden, hhidden, hmap⟩ := hhidden
  cases hd.symm.trans hd'
  cases List.map_eq_nil_iff.1 (Except.ok.inj hmap)
  obtain ⟨i, hi⟩ := List.mem_iff_getElem?.1 hv
  have htest := of_filterM_eq_nil hhidden (v, i) (List.mem_zipIdx_iff_getElem?.2 hi)
  simp only [except_bind_ok, except_pure, Except.ok.injEq] at htest
  obtain ⟨w, hw, hnot⟩ := htest
  rw [Bool.not_eq_false'] at hnot
  exact (valueDominates_iff hl hac hd).1 (hnot ▸ hw)

/-! ## Uses -/

/-- The value is an operand or a result of the operation, or an argument of one of its blocks. -/
def Mentions (s : Store) (x : OpRef) (v : ValueRef) : Prop :=
  ∃ d, s.op? x = some d ∧ (v ∈ d.operands ∨ v ∈ d.results ∨
    ∃ b bd, Holds s x b ∧ s.block? b = some bd ∧ v ∈ bd.args)

theorem regionArgs_ok (hl : Linked s) {d : OpData} (hd : s.op? x = some d) :
    ∃ vs, regionArgs s x = .ok vs ∧
      ∀ v, v ∈ vs ↔ ∃ b bd, Holds s x b ∧ s.block? b = some bd ∧ v ∈ bd.args := by
  obtain ⟨rds, hrds⟩ := mapM_total (f := s.region) (l := d.regions) fun r hr => by
    obtain ⟨rd, hrd, _⟩ := region?_of_op hl hd hr
    exact ⟨rd, region_ok.2 hrd⟩
  have hmem := mem_of_mapM_ok hrds
  refine ⟨(rds.flatMap (·.blocks)).flatMap s.argsOf, ?_, fun v => ?_⟩
  · simp only [regionArgs, except_bind_ok, op_ok, except_pure, Except.ok.injEq]
    exact ⟨d, hd, rds, hrds, rfl⟩
  · simp only [List.mem_flatMap]
    constructor
    · rintro ⟨b, ⟨rd, hrd, hb⟩, hv⟩
      obtain ⟨r, hr, hrrd⟩ := (hmem rd).1 hrd
      rw [region_ok] at hrrd
      obtain ⟨bd, hbd, _⟩ := block?_of_region hl hrrd hb
      rw [argsOf_eq hbd] at hv
      exact ⟨b, bd, ⟨d, hd, r, hr, rd, hrrd, hb⟩, hbd, hv⟩
    · rintro ⟨b, bd, ⟨d', hd', r, hr, rd, hrd, hb⟩, hbd, hv⟩
      cases hd.symm.trans hd'
      exact ⟨b, ⟨rd, (hmem rd).2 ⟨r, hr, region_ok.2 hrd⟩, hb⟩, by rwa [argsOf_eq hbd]⟩

theorem mentionedValues_ok (hl : Linked s) {d : OpData} (hd : s.op? x = some d) :
    ∃ vs, mentionedValues s x = .ok vs ∧ ∀ v, v ∈ vs ↔ Mentions s x v := by
  obtain ⟨args, hargs, hmem⟩ := regionArgs_ok hl hd
  refine ⟨d.operands ++ s.resultsOf x ++ args, ?_, fun v => ?_⟩
  · simp only [mentionedValues, except_bind_ok, operandsOf_ok, except_pure, Except.ok.injEq]
    exact ⟨d.operands, ⟨d, hd, rfl⟩, args, hargs, rfl⟩
  · rw [List.mem_append, List.mem_append, hmem, resultsOf_eq hd, or_assoc]
    constructor
    · exact fun h => ⟨d, hd, h⟩
    · rintro ⟨d', hd', h⟩
      cases hd.symm.trans hd'
      exact h

/-- No use is missing if those of all operands are recorded. -/
theorem missingUses_eq_nil {d : OpData}
    (hrecorded : ∀ i v, d.operands[i]? = some v → (⟨x, i⟩ : Use) ∈ s.usesOf v) :
    missingUses s x d = [] := by
  rw [missingUses, List.filterMap_eq_nil_iff]
  intro p hp
  have hmem := hrecorded p.2 p.1 (List.mem_zipIdx_iff_getElem?.1 hp)
  simp [hmem]

/-- No use is stale if all users are among the operations that are checked. -/
theorem staleUses_eq_nil {os : List OpRef} (hp : PointsBack s)
    (hos : ∀ u ∈ s.usesOf v, u.user ∈ os) : staleUses s os v = .ok [] := by
  simp only [staleUses, except_bind_ok, except_pure, Except.ok.injEq, List.map_eq_nil_iff]
  refine ⟨[], filterM_eq_nil fun u hu => ?_, rfl⟩
  have hslot := hp v u hu
  obtain ⟨d, hd, hoperand⟩ := Option.bind_eq_some_iff.1 hslot
  have hback : pointsBack s os v u = .ok true := by
    simp only [pointsBack, List.contains_iff_mem, hos u hu, if_true, except_bind_ok,
      operandsOf_ok, except_pure, Except.ok.injEq, beq_iff_eq]
    exact ⟨d.operands, ⟨d, hd, rfl⟩, hoperand⟩
  rw [hback]
  rfl

/-- Where recorded uses name operands, the uses of all operands of the body are recorded, and what
the body mentions is used only in the body, the check of uses finds nothing. -/
theorem useFlaws_eq_nil (hl : Linked s) (hac : Acyclic s) (hp : PointsBack s) {d : OpData}
    (hd : s.op? root = some d)
    (hrecorded : ∀ x d i v, InBody s root x → s.op? x = some d → d.operands[i]? = some v →
      (⟨x, i⟩ : Use) ∈ s.usesOf v)
    (hclosed : ∀ x v u, InBody s root x → Mentions s x v → u ∈ s.usesOf v →
      InBody s root u.user) :
    useFlaws s root = .ok [] := by
  obtain ⟨os, hos, hbody⟩ := bodyOps_ok hl hac hd
  have hop := fun x hx => op?_of_inBody hl ((hbody x).1 hx)
  obtain ⟨missing, hmissing, hnoneMissing⟩ := mapM_flatten_nil (l := os.eraseDups)
      (g := fun x => do return missingUses s x (← s.op x)) fun x hx => by
    have hx := List.mem_eraseDups.1 hx
    obtain ⟨xd, hxd⟩ := hop x hx
    simp only [except_bind_ok, op_ok, except_pure, Except.ok.injEq]
    exact ⟨xd, hxd, missingUses_eq_nil fun i v => hrecorded x xd i v ((hbody x).1 hx) hxd⟩
  obtain ⟨values, hvalues⟩ := mapM_total (l := os) (f := mentionedValues s) fun x hx => by
    obtain ⟨xd, hxd⟩ := hop x hx
    obtain ⟨vs, hvs, _⟩ := mentionedValues_ok hl hxd
    exact ⟨vs, hvs⟩
  obtain ⟨stale, hstale, hnoneStale⟩ := mapM_flatten_nil (l := values.flatten.eraseDups)
      (g := staleUses s os) fun v hv => by
    obtain ⟨vs, hvs, hv⟩ := List.mem_flatten.1 (List.mem_eraseDups.1 hv)
    obtain ⟨x, hx, hxvs⟩ := (mem_of_mapM_ok hvalues vs).1 hvs
    obtain ⟨xd, hxd⟩ := hop x hx
    obtain ⟨vs', hvs', hmem⟩ := mentionedValues_ok hl hxd
    cases hxvs.symm.trans hvs'
    refine staleUses_eq_nil hp fun u huse => (hbody u.user).2 ?_
    exact hclosed x v u ((hbody x).1 hx) ((hmem v).1 hv) huse
  simp only [useFlaws, except_bind_ok, except_pure, Except.ok.injEq]
  exact ⟨os, hos, missing, hmissing, values, hvalues, stale, hstale, by
    rw [hnoneMissing, hnoneStale, List.append_nil]⟩

section CleanUses

variable (hl : Linked s) (hac : Acyclic s) (h : useFlaws s root = .ok []) (hx : InBody s root x)

include hl hac h hx

/-- Where the check of uses finds nothing, every operand in the body has its use. -/
theorem recorded_of_useFlaws {d : OpData} (hd : s.op? x = some d) (hv : d.operands[i]? = some v) :
    (⟨x, i⟩ : Use) ∈ s.usesOf v := by
  obtain ⟨rd, hrd, _⟩ := id hx
  obtain ⟨os, hos, hbody⟩ := bodyOps_ok hl hac hrd
  simp only [useFlaws, except_bind_ok, except_pure, Except.ok.injEq] at h
  obtain ⟨os', hos', missing, hmissing, values, _, stale, _, hnil⟩ := h
  cases hos.symm.trans hos'
  have hnone := of_mapM_flatten_nil hmissing (List.append_eq_nil_iff.1 hnil).1 x
    (List.mem_eraseDups.2 ((hbody x).2 hx))
  simp only [except_bind_ok, op_ok, Except.ok.injEq] at hnone
  obtain ⟨d', hd', hnone⟩ := hnone
  cases hd.symm.trans hd'
  rw [missingUses, List.filterMap_eq_nil_iff] at hnone
  have hslot := hnone (v, i) (List.mem_zipIdx_iff_getElem?.2 hv)
  by_contra hmem
  simp [hmem] at hslot

/-- Where the check of uses finds nothing, what the body mentions is used only in the body. -/
theorem inBody_of_useFlaws (hv : Mentions s x v) {u : Use} (hu : u ∈ s.usesOf v) :
    InBody s root u.user := by
  obtain ⟨rd, hrd, _⟩ := id hx
  obtain ⟨os, hos, hbody⟩ := bodyOps_ok hl hac hrd
  simp only [useFlaws, except_bind_ok, except_pure, Except.ok.injEq] at h
  obtain ⟨os', hos', missing, _, values, hvalues, stale, hstale, hnil⟩ := h
  cases hos.symm.trans hos'
  obtain ⟨xd, hxd⟩ := op?_of_inBody hl hx
  obtain ⟨vs, hvs, hmem⟩ := mentionedValues_ok hl hxd
  have hmention : v ∈ values.flatten := List.mem_flatten.2
    ⟨vs, (mem_of_mapM_ok hvalues vs).2 ⟨x, (hbody x).2 hx, hvs⟩, (hmem v).2 hv⟩
  have hnone := of_mapM_flatten_nil hstale (List.append_eq_nil_iff.1 hnil).2 v
    (List.mem_eraseDups.2 hmention)
  simp only [staleUses, except_bind_ok, except_pure, Except.ok.injEq, List.map_eq_nil_iff] at hnone
  obtain ⟨_, hfilter, rfl⟩ := hnone
  have htest := of_filterM_eq_nil hfilter u hu
  simp only [except_bind_ok, Except.ok.injEq] at htest
  obtain ⟨w, hw, hnot⟩ := htest
  rw [Bool.not_eq_false'] at hnot
  rw [hnot, pointsBack] at hw
  by_contra hout
  rw [if_neg (by simpa [hbody] using hout)] at hw
  cases hw

end CleanUses

/-! ## Arities -/

/-- The check of arities reads nothing but the entry of the operation. -/
theorem affineArity_congr {t : Store} {d : OpData} (hs : s.op? x = some d) (ht : t.op? x = some d) :
    affineArity t x = affineArity s x := by
  have hop : t.op x = s.op x := (op_ok.2 ht).trans (op_ok.2 hs).symm
  have hresults : t.resultsOf x = s.resultsOf x := (resultsOf_eq ht).trans (resultsOf_eq hs).symm
  simp only [affineArity, loopArity, Ops.opMap?, Ops.boundMap?, Ops.conditionSet?, attr?, hop,
    hresults]

theorem arityFlaws_eq_nil (hl : Linked s) (hac : Acyclic s) {d : OpData} (hd : s.op? root = some d)
    (harity : ∀ x, InBody s root x → affineArity s x = .ok []) : arityFlaws s root = .ok [] := by
  obtain ⟨os, hos, hbody⟩ := bodyOps_ok hl hac hd
  obtain ⟨flaws, hflaws, hnil⟩ := mapM_flatten_nil (l := os) (g := affineArity s) fun x hx =>
    harity x ((hbody x).1 hx)
  simp only [arityFlaws, except_bind_ok, except_pure, Except.ok.injEq]
  exact ⟨os, hos, flaws, hflaws, hnil⟩

theorem affineArity_of_arityFlaws (hl : Linked s) (hac : Acyclic s)
    (h : arityFlaws s root = .ok []) (hx : InBody s root x) : affineArity s x = .ok [] := by
  obtain ⟨rd, hrd, _⟩ := id hx
  obtain ⟨os, hos, hbody⟩ := bodyOps_ok hl hac hrd
  simp only [arityFlaws, except_bind_ok, except_pure, Except.ok.injEq] at h
  obtain ⟨os', hos', flaws, hflaws, hnil⟩ := h
  cases hos.symm.trans hos'
  exact of_mapM_flatten_nil hflaws hnil x ((hbody x).2 hx)

/-! ## The whole check -/

theorem check_eq_clean : check s root = .ok ⟨[], [], []⟩ ↔
    useFlaws s root = .ok [] ∧ visibilityFlaws s root = .ok [] ∧ arityFlaws s root = .ok [] := by
  simp only [check, except_bind_ok, except_pure, Except.ok.injEq, Report.mk.injEq]
  constructor
  · rintro ⟨_, huses, _, hvisible, _, harity, rfl, rfl, rfl⟩
    exact ⟨huses, hvisible, harity⟩
  · rintro ⟨huses, hvisible, harity⟩
    exact ⟨_, huses, _, hvisible, _, harity, rfl, rfl, rfl⟩

end AffineRaising.Analysis
