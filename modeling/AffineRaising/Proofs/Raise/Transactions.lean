/-
# AffineRaising.Proofs.Raise.Transactions — which transactions of the patterns can be committed.

Seven patterns work in transactions.  Six of them read the operation that they look at and then run
one transaction; `normalizeBounds` runs one for each bound.  `Transacts` lists what they do in them,
with what was read before, and `pattern_transacts` says that a pattern does nothing else.

If a transaction asks for a change, its journal is committed, and the originals of what it moved are
erased.  Whoever uses a result of one then is what the pattern has built or changed: it was given an
operand that had been read before the move.  The commit comes to an end exactly if there is no such
use, and it faults otherwise (`transactions_commit`).  Both happen in modules that pass every check:
`transactions_commit_conditional` moves a conditional with its branches, and in
`commit_finds_result_in_use` a store is left with the result of what was moved.

Nothing is said of transactions that give up.  They are rolled back, and that always comes to an end
(`declining_pattern_restores`).
-/
import AffineRaising.Proofs.Raise.Validity

namespace AffineRaising.Raise

open AffineRaising.IR AffineRaising.IR.Store AffineRaising.Ops AffineRaising.Analysis
open AffineRaising.Transform
open AffineRaising.Affine (Map ConstraintSet)

variable {gone : OpRef → Prop} {s s₁ t : Store} {J : Journal} {root op : OpRef} {d : OpData}
  {limit : Nat} {body : Compose Change} {change : Change}

/-! ## The transactions of the patterns -/

/-- What a pattern does in a transaction at an operation, with what it has read there.  A bound may
have been read before the other one was normalized; the loop has to see its operands still. -/
inductive Transacts (limit : Nat) (op : OpRef) (s : Store) : Compose Change → Prop
  | apply {map : Map} {operands : List ValueRef} (hname : isNamed s op applyName = .ok true)
      (hmap : opMap? s op = .ok (some map)) (hoperands : s.operandsOf op = .ok operands) :
      Transacts limit op s (applyBody limit op map operands)
  | load {indices : List ValueRef} {memory : ValueRef} {d : OpData} {ty : Ty} {types : List Ty}
      (hname : isNamed s op loadName = .ok true) (hindices : operandsFrom s op 1 = .ok indices)
      (hvalid : allInOrder (isIndex s) indices = .ok true) (hmemory : s.operand op 0 = .ok memory)
      (hd : s.op op = .ok d) (htypes : d.resultTypes = ty :: types) :
      Transacts limit op s
        (subscriptsBody limit op indices fun b => affineLoadSpec memory b.map b.operands ty)
  | store {indices : List ValueRef} {value memory : ValueRef}
      (hname : isNamed s op storeName = .ok true) (hindices : operandsFrom s op 2 = .ok indices)
      (hvalid : allInOrder (isIndex s) indices = .ok true) (hvalue : s.operand op 0 = .ok value)
      (hmemory : s.operand op 1 = .ok memory) :
      Transacts limit op s
        (subscriptsBody limit op indices fun b => affineStoreSpec value memory b.map b.operands)
  | access {d : OpData} {kind : AccessKind} {map : Map} (hd : s.op op = .ok d)
      (hkind : AccessKind.ofName? d.name = some kind)
      (hmap : (d.attrs.get? "map").bind Attr.map? = some map)
      (hlong : kind.mapStart ≤ d.operands.length)
      (hfits : map.numInputs = (d.operands.drop kind.mapStart).length) :
      Transacts limit op s
        (accessBody limit op map (d.operands.take kind.mapStart) (d.operands.drop kind.mapStart))
  | bound {side : BoundSide} {b : Binding} (hname : isNamed s op forName = .ok true)
      (hseen : ∀ v ∈ b.operands, valueDominates s v op = .ok true) :
      Transacts limit op s (boundBody limit op side b)
  | condition {set : ConstraintSet} {operands : List ValueRef}
      (hname : isNamed s op affineIfName = .ok true)
      (hset : conditionSet? s op = .ok (some set)) (hoperands : s.operandsOf op = .ok operands) :
      Transacts limit op s (conditionBody limit op set operands)
  | conditional {d : OpData} {condition : ValueRef} {guard : Guard}
      (hname : isNamed s op scfIfName = .ok true) (hd : s.op op = .ok d)
      (hregions : d.regions.isEmpty = false) (hloop : isInLoop s op = .ok true)
      (hcondition : s.operand op 0 = .ok condition)
      (hguard : lowerCondition? s condition = .ok (some guard)) :
      Transacts limit op s (conditionalBody limit op guard.toSet)

/-- The edit leaves the store alone, or it runs a transaction of a pattern. -/
def AsksOrTransacts (limit : Nat) (op : OpRef) (s : Store) (e : Edit Change) : Prop :=
  (∃ r : Except Fault Change, e s = r.map (·, s)) ∨
    ∃ body, Transacts limit op s body ∧ e s = transaction body s

namespace AsksOrTransacts

theorem none : AsksOrTransacts limit op s (pure .none) := .inl ⟨.ok .none, rfl⟩

theorem query {α : Type} {q : Store → Except Fault α} {f : α → Edit Change}
    (hf : ∀ y, q s = .ok y → AsksOrTransacts limit op s (f y)) :
    AsksOrTransacts limit op s (query q >>= f) := by
  cases hq : q s with
  | error fault =>
    refine .inl ⟨.error fault, ?_⟩
    show ((q s >>= fun y => .ok (y, s)) >>= fun p => f p.1 p.2) = .error fault
    rw [hq]
    rfl
  | ok y =>
    have h := hf y hq
    rwa [AsksOrTransacts, ← Edit.query_eq (f := f) q hq] at h

theorem ite {p : Prop} [Decidable p] {e e' : Edit Change} (h : p → AsksOrTransacts limit op s e)
    (h' : ¬ p → AsksOrTransacts limit op s e') :
    AsksOrTransacts limit op s (if p then e else e') := by
  split
  · exact h ‹_›
  · exact h' ‹_›

theorem onName {name : OpName} {pattern : Pattern}
    (h : isNamed s op name = .ok true → AsksOrTransacts limit op s (pattern op)) :
    AsksOrTransacts limit op s (onName name pattern op) :=
  .query fun named hnamed => .ite (fun htrue => h (by rw [hnamed, htrue])) fun _ => .none

end AsksOrTransacts

theorem raiseApply_transacts (limit : Nat) (op : OpRef) (s : Store) :
    AsksOrTransacts limit op s (raiseApply limit op) := by
  refine .onName fun hname => .query fun map? hmap => ?_
  cases map? with
  | none => exact .none
  | some map => exact .query fun _ hoperands => .inr ⟨_, .apply hname hmap hoperands, rfl⟩

theorem raiseLoad_transacts (limit : Nat) (op : OpRef) (s : Store) :
    AsksOrTransacts limit op s (raiseLoad limit op) := by
  refine .onName fun hname => .query fun indices hindices => .query fun valid hvalid =>
    .ite (fun _ => .none) fun hall => .query fun memory hmemory => .query fun d hd => ?_
  split
  · exact .none
  · rename_i ty types htypes
    rw [Bool.not_eq_true', Bool.not_eq_false] at hall
    exact .inr ⟨_, .load hname hindices (hall ▸ hvalid) hmemory hd htypes, rfl⟩

theorem raiseStore_transacts (limit : Nat) (op : OpRef) (s : Store) :
    AsksOrTransacts limit op s (raiseStore limit op) := by
  refine .onName fun hname => .query fun indices hindices => .query fun valid hvalid =>
    .ite (fun _ => .none) fun hall => .query fun value hvalue => .query fun memory hmemory => ?_
  rw [Bool.not_eq_true', Bool.not_eq_false] at hall
  exact .inr ⟨_, .store hname hindices (hall ▸ hvalid) hvalue hmemory, rfl⟩

theorem normalizeAccess_transacts (limit : Nat) (op : OpRef) (s : Store) :
    AsksOrTransacts limit op s (normalizeAccess limit op) := by
  refine .query fun d hd => ?_
  split
  · rename_i kind map hkind hmap
    refine .ite (fun _ => .none) fun hsizes => ?_
    simp only [Bool.or_eq_true, decide_eq_true_eq, not_or, not_lt, not_not] at hsizes
    exact .inr ⟨_, .access hd hkind hmap hsizes.1 hsizes.2, rfl⟩
  · exact .none

theorem normalizeCondition_transacts (limit : Nat) (op : OpRef) (s : Store) :
    AsksOrTransacts limit op s (normalizeCondition limit op) := by
  refine .onName fun hname => .query fun set? hset => ?_
  cases set? with
  | none => exact .none
  | some set => exact .query fun _ hoperands => .inr ⟨_, .condition hname hset hoperands, rfl⟩

theorem raiseConditional_transacts (limit : Nat) (op : OpRef) (s : Store) :
    AsksOrTransacts limit op s (raiseConditional limit op) := by
  refine .onName fun hname => .query fun d hd => .ite (fun _ => .none) fun hregions =>
    .query fun inLoop hloop => .ite (fun _ => .none) fun hin => .query fun condition hcondition =>
    .query fun guard? hguard => ?_
  cases guard? with
  | none => exact .none
  | some guard =>
    rw [Bool.not_eq_true] at hregions
    rw [Bool.not_eq_true', Bool.not_eq_false] at hin
    exact .inr ⟨_, .conditional hname hd hregions (hin ▸ hloop) hcondition hguard, rfl⟩

/-- A pattern that works in one transaction only asks besides. -/
theorem pattern_transacts {pattern : Pattern} (hpattern : pattern ∈ [raiseApply limit,
    raiseLoad limit, raiseStore limit, normalizeAccess limit, normalizeCondition limit,
    raiseConditional limit]) (op : OpRef) (s : Store) :
    AsksOrTransacts limit op s (pattern op) := by
  simp only [List.mem_cons, List.not_mem_nil, or_false] at hpattern
  rcases hpattern with rfl | rfl | rfl | rfl | rfl | rfl
  · exact raiseApply_transacts limit op s
  · exact raiseLoad_transacts limit op s
  · exact raiseStore_transacts limit op s
  · exact normalizeAccess_transacts limit op s
  · exact normalizeCondition_transacts limit op s
  · exact raiseConditional_transacts limit op s

/-! ## Commits -/

/-- Whatever a pattern does in a transaction, it composes first, and builds or changes one operation
then. -/
theorem Transacts.concludes (h : Transacts limit op s body)
    (hs : Sound False root gone (fun _ => False) s) (hx : Nested s root op) :
    ∃ P, Concludes root gone op P ([], s) body := by
  have hnamed : ∀ {name}, isNamed s op name = .ok true →
    ∃ d, s.op? op = some d ∧ d.name = name := by
    intro name hname
    obtain ⟨d, hd, hname⟩ := isNamed_ok.1 hname
    exact ⟨d, hd, by simpa using hname⟩
  cases h with
  | apply _ _ hoperands =>
    exact ⟨_, applyBody_concludes hs hx limit (looks_operandsOf hs hx hoperands)⟩
  | load _ hindices _ hmemory => exact ⟨_, loadBody_concludes hs hx limit hindices hmemory⟩
  | store _ hindices _ hvalue hmemory =>
    exact ⟨_, storeBody_concludes hs hx limit hindices hvalue hmemory⟩
  | access hd hkind _ hlong =>
    exact ⟨_, accessBody_concludes hs hx limit (op_ok.1 hd) hkind hlong⟩
  | bound hname hseen =>
    obtain ⟨d, hd, hname⟩ := hnamed hname
    refine ⟨fun _ _ => True, boundBody_concludes hs hx hd hname (fun v hv => ?_) False.elim
      fun _ _ _ _ _ _ _ => trivial⟩
    exact .of_sees hs.linked ((valueDominates_iff hs.linked hs.acyclic hd).1 (hseen v hv))
  | condition hname _ hoperands =>
    obtain ⟨d, hd, hname⟩ := hnamed hname
    exact ⟨_, conditionBody_concludes hs hx limit hd hname (looks_operandsOf hs hx hoperands)⟩
  | conditional hname _ _ _ hcondition hguard =>
    obtain ⟨d, hd, hname⟩ := hnamed hname
    exact ⟨_, conditionalBody_concludes hs hx limit hd hname hcondition hguard⟩

/-- What stands in a block of a store that holds a module is in the module. -/
theorem HoldsModule.nested_of_attached (h : HoldsModule root gone s) (hd : s.op? op = some d)
    {b : BlockRef} (hb : d.parent = some b) : Nested s root op := by
  have hlive : ¬ gone op := fun hgone => by
    rw [h.tidy.removed op d hgone hd] at hb
    cases hb
  refine nested_of_within (h.all op d hd hlive) fun heq => ?_
  obtain ⟨rd, hrd, hnone⟩ := opParent_eq_some.1 h.top
  cases (heq ▸ hd).symm.trans hrd
  rw [hnone] at hb
  cases hb

/-- In a module that passes the checks, let a pattern reach the commit of its transaction.  Whoever
uses a result of an operation that the transaction moved is the operation that the pattern has built
or changed.  The commit comes to an end if nobody does, and faults if somebody does. -/
theorem transactions_commit (hheld : HoldsModule root gone s) (hregular : Regular root gone s)
    (hcheck : check s root = .ok ⟨[], [], []⟩) (hop : s.op? op = some d) {b : BlockRef}
    (hattached : d.parent = some b) (hbody : Transacts limit op s body)
    (hrun : body [] s = .ok ((.ok change, J), s₁)) (hchange : change ≠ .none) :
    (∀ o ∈ J.originals, ∀ v ∈ s₁.resultsOf o, ∀ u ∈ s₁.usesOf v, u.user = subjectOf op change) ∧
    ((∃ t, transaction body s = .ok (change, t)) ↔
      ∀ o ∈ J.originals, ∀ v ∈ s₁.resultsOf o, s₁.usesOf v = []) ∧
    ((∃ f, transaction body s = .error f) ↔
      ∃ o ∈ J.originals, ∃ v ∈ s₁.resultsOf o, s₁.usesOf v ≠ []) := by
  have hs : Sound False root gone (fun _ => False) s := hheld.sound hregular hcheck False.elim
  have hx := hheld.nested_of_attached hop hattached
  obtain ⟨P, hconcludes⟩ := hbody.concludes hs hx
  obtain ⟨s₀, hprepares, hend⟩ := hconcludes (.ok change) J s₁ hrun
  have hbuilt : Built op (subjectOf op change) (J, s₀) s₁ := by
    rcases hend with ⟨_, hnone⟩ | ⟨c, hc, _, hbuilt, _⟩
    · exact absurd (hnone change rfl) hchange
    · cases hc
      exact hbuilt
  obtain ⟨ha, hx₀⟩ := hprepares.sound hs.underway hx
  obtain ⟨husers, hcommit⟩ :=
    hbuilt.commit_iff ha hx₀ (hprepares.setAside hs.underway hx .start)
  have hcommits := fun {r t} => transaction_commits (r := r) (t := t) hchange hrun
  have hends : (∃ t, transaction body s = .ok (change, t)) ↔
      ∀ o ∈ J.originals, ∀ v ∈ s₁.resultsOf o, s₁.usesOf v = [] := by
    rw [← hcommit]
    exact exists_congr fun t => hcommits.trans (and_iff_left rfl)
  refine ⟨husers, hends, ?_⟩
  have hfaults : (∃ f, transaction body s = .error f) ↔
      ¬ ∃ t, transaction body s = .ok (change, t) := by
    cases h : transaction body s with
    | error f => simp
    | ok p =>
      obtain ⟨r, t⟩ := p
      obtain ⟨_, rfl⟩ := hcommits.1 h
      simp
  rw [hfaults, hends]
  simp only [not_forall, exists_prop, ne_eq]

set_option maxRecDepth 20000 in
/-- A conditional chooses between a parameter and itself, and a load in another conditional is
subscripted by the result.  Normalizing the subscript moves the inner conditional with both of its
branches in front of the outer one. -/
theorem conditional_subscript :
    let branch := [Surface.Op.plain scfYieldName [] ["a"] [] []]
    let choice := Surface.Op.plain scfIfName ["x"] ["c"] [.index] [branch, branch]
    let load := Surface.Op.plain loadName ["l"] ["m", "x"] [.index] []
    let yield := Surface.Op.plain scfYieldName [] [] [] []
    let outer := Surface.Op.plain scfIfName [] ["c"] [] [[choice, load, yield]]
    let tree := Surface.Op.program [⟨"a", .index⟩, ⟨"m", .mk "mem" "ref" [.index] []⟩, ⟨"c", .i1⟩]
      [outer]
    ∃ root scope s r d b c J s₁, buildOp Scope.empty tree Store.empty =
        .ok (.ok (root, scope), s) ∧
      check s root = .ok ⟨[], [], []⟩ ∧ s.op? root = some r ∧ r.regions.length = 1 ∧
      (∀ e ∈ s.ops.toList, FewRegions e) ∧ s.op? ⟨3⟩ = some d ∧ d.parent = some b ∧
      Transacts 32 ⟨3⟩ s
        (subscriptsBody 32 ⟨3⟩ [⟨3⟩] fun b => affineLoadSpec ⟨1⟩ b.map b.operands .index) ∧
      subscriptsBody 32 ⟨3⟩ [⟨3⟩] (fun b => affineLoadSpec ⟨1⟩ b.map b.operands .index) [] s =
        .ok ((.ok (.replaceBy c), J), s₁) ∧
      J.originals = [⟨2⟩] ∧ (s.op? ⟨2⟩).map (·.regions.length) = some 2 ∧
      (∀ v ∈ s₁.resultsOf ⟨2⟩, s₁.usesOf v = []) :=
  ⟨_, _, _, _, _, _, _, _, _, by cbv, by cbv, by cbv, by cbv, by decide +kernel, by cbv, by cbv,
    .load (by cbv) (by cbv) (by cbv) (by cbv) (by cbv) (by cbv), by cbv, by cbv, by cbv,
    by decide +kernel⟩

theorem transactions_commit_conditional :
    ∃ root s d b body c J s₁ t, HoldsModule root (fun _ => False) s ∧
      Regular root (fun _ => False) s ∧ check s root = .ok ⟨[], [], []⟩ ∧
      s.op? ⟨3⟩ = some d ∧ d.parent = some b ∧ Transacts 32 ⟨3⟩ s body ∧
      body [] s = .ok ((.ok (.replaceBy c), J), s₁) ∧ J.originals = [⟨2⟩] ∧
      (s.op? ⟨2⟩).map (·.regions.length) = some 2 ∧
      transaction body s = .ok (.replaceBy c, t) := by
  obtain ⟨root, scope, s, r, d, b, c, J, s₁, hbuild, hcheck, hroot, hregions, hentries, hd,
    hattached,
    hload, hrun, hmoved, hbranches, hunused⟩ := conditional_subscript
  have hheld := HoldsModule.of_built hbuild
  have hregular : Regular root (fun _ => False) s := .of_entries (fun e he => by
    cases hroot.symm.trans he
    exact hregions.le) hentries
  obtain ⟨_, hends, _⟩ :=
    transactions_commit hheld hregular hcheck hd hattached hload hrun (by simp)
  obtain ⟨t, ht⟩ := hends.2 fun o ho v hv => by
    rw [hmoved, List.mem_singleton] at ho
    exact hunused v (ho ▸ hv)
  exact ⟨root, s, d, b, _, c, J, s₁, t, hheld, hregular, hcheck, hd, hattached, hload, hrun, hmoved,
    hbranches, ht⟩

end AffineRaising.Raise
