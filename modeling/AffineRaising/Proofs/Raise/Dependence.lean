/-
# AffineRaising.Proofs.Raise.Dependence — what symbols depend on.

A symbol is told by looking at definitions: at the operands of arithmetic, at the condition of a
conditional, and at the operations in its branches.  Whatever is looked at is a symbol again
(`Examined.found`), so a symbol varies with no affine loop as far as it depends on nothing else
(`symbol_varies_with_no_loop`).  But not everything is looked at: a conditional that yields an
induction variable passes for a symbol (`yielded_induction_variable_passes`).
-/
import AffineRaising.Proofs.Raise.LostPlace

namespace AffineRaising.Raise

open AffineRaising.IR AffineRaising.IR.Store AffineRaising.Ops AffineRaising.Analysis

variable {s : Store} {o z : OpRef} {v w : ValueRef} {n : Nat}

/-! ## What the tests say -/

theorem isSymbolWith_true {symbolOp : OpRef → Except Fault Bool}
    (h : isSymbolWith symbolOp s v = .ok true) :
    isTopLevel s v = .ok true ∨ ∃ o k, s.originOf v = some (.result o k) ∧
      (symbolOp o = .ok true ∨ isScopeSymbol s v = .ok true) := by
  simp only [isSymbolWith, except_bind_ok] at h
  obtain ⟨top, htop, h⟩ := h
  cases top with
  | true => exact .inl htop
  | false =>
    simp only [Bool.false_eq_true, if_false, except_bind_ok] at h
    obtain ⟨o?, ho, h⟩ := h
    cases o? with
    | none => simp at h
    | some o =>
      obtain ⟨k, hk⟩ := definingOp?_some ho
      simp only [except_bind_ok] at h
      obtain ⟨symbol, hsymbol, h⟩ := h
      cases symbol with
      | true => exact .inr ⟨o, k, hk, .inl hsymbol⟩
      | false => exact .inr ⟨o, k, hk, .inr h⟩

theorem isScopeSymbolFuel_true (h : isScopeSymbolFuel s n v = .ok true) :
    isTopLevel s v = .ok true ∨ ∃ o k d, s.originOf v = some (.result o k) ∧ s.op? o = some d ∧
      (d.name = ArithKind.const.opName ∨ d.name = applyName ∧
        ∃ m, ∀ w ∈ d.operands, isScopeSymbolFuel s m w = .ok true) := by
  cases n with
  | zero => cases h
  | succ n =>
    simp only [isScopeSymbolFuel, except_bind_ok] at h
    obtain ⟨top, htop, h⟩ := h
    cases top with
    | true => exact .inl htop
    | false =>
      simp only [Bool.false_eq_true, if_false, except_bind_ok] at h
      obtain ⟨o?, ho, h⟩ := h
      cases o? with
      | none => simp at h
      | some o =>
        obtain ⟨k, hk⟩ := definingOp?_some ho
        simp only [except_bind_ok] at h
        obtain ⟨isConst, hconst, h⟩ := h
        obtain ⟨d, hd, hname⟩ := isNamed_ok.1 hconst
        refine .inr ⟨o, k, d, hk, hd, ?_⟩
        cases isConst with
        | true => exact .inl (beq_iff_eq.1 hname)
        | false =>
          simp only [Bool.false_eq_true, if_false, except_bind_ok] at h
          obtain ⟨isApply, happly, h⟩ := h
          obtain ⟨d', hd', hname'⟩ := isNamed_ok.1 happly
          cases hd.symm.trans hd'
          cases isApply with
          | false => simp at h
          | true =>
            simp only [if_true, except_bind_ok] at h
            obtain ⟨operands, hoperands, hall⟩ := h
            obtain ⟨d'', hd'', rfl⟩ := operandsOf_ok.1 hoperands
            cases hd.symm.trans hd''
            exact .inr ⟨beq_iff_eq.1 hname', n, allInOrder_true hall⟩

/-- Every operation in the branches satisfies the test or ends its branch. -/
theorem branchesSatisfy_true {test : OpRef → Except Fault Bool}
    (h : branchesSatisfy test s o = .ok true) (hz : Child s o z) :
    isYield s z = .ok true ∨ test z = .ok true := by
  simp only [branchesSatisfy, except_bind_ok] at h
  obtain ⟨os, hos, hall⟩ := h
  have hz := allInOrder_true hall z ((mem_childOps hos).2 hz)
  simp only [except_bind_ok] at hz
  obtain ⟨yields, hyields, hz⟩ := hz
  cases yields with
  | true => exact .inl hyields
  | false => exact .inr hz

/-- What was found at an operation that computes a symbol, with one step less for what it uses. -/
inductive Computes (s : Store) (n : Nat) (o : OpRef) (d : OpData) : Prop
  | constant : ArithKind.ofName? d.name = some .const → Computes s n o d
  | arithmetic (kind : ArithKind) : ArithKind.ofName? d.name = some kind → kind ≠ .const →
      (∀ w ∈ d.operands, isSymbolWith (computesSymbolFuel s n) s w = .ok true) → Computes s n o d
  | scfIf (c : ValueRef) : ArithKind.ofName? d.name = none → d.name = scfIfName →
      d.operands[0]? = some c → isSymbolWith (computesSymbolFuel s n) s c = .ok true →
      (∀ z, Child s o z → isYield s z = .ok true ∨ computesSymbolFuel s n z = .ok true) →
      Computes s n o d
  | affineIf : ArithKind.ofName? d.name = none → d.name = affineIfName →
      (∀ w ∈ d.operands, isSymbolWith (computesSymbolFuel s n) s w = .ok true) →
      (∀ z, Child s o z → isYield s z = .ok true ∨ computesSymbolFuel s n z = .ok true) →
      Computes s n o d

theorem computesSymbolFuel_true (h : computesSymbolFuel s n o = .ok true) :
    ∃ m d, n = m + 1 ∧ s.op? o = some d ∧ Computes s m o d := by
  cases n with
  | zero => cases h
  | succ n =>
    simp only [computesSymbolFuel, except_bind_ok] at h
    obtain ⟨kind, hkind, h⟩ := h
    obtain ⟨d, hd, hname⟩ := arithKind?_ok.1 hkind
    refine ⟨n, d, rfl, hd, ?_⟩
    have hoperands : ∀ {test : ValueRef → Except Fault Bool}, (do
        allInOrder test (← s.operandsOf o)) = .ok true → ∀ w ∈ d.operands, test w = .ok true := by
      intro test hall
      simp only [except_bind_ok] at hall
      obtain ⟨operands, hoperands, hall⟩ := hall
      obtain ⟨d', hd', rfl⟩ := operandsOf_ok.1 hoperands
      cases hd.symm.trans hd'
      exact allInOrder_true hall
    split at h
    · exact .constant hname
    · simp at h
    · rename_i kind hconst _
      exact .arithmetic kind hname (fun heq => hconst (by rw [heq])) (hoperands h)
    · simp only [except_bind_ok] at h
      obtain ⟨isScf, hscf, h⟩ := h
      obtain ⟨d', hd', hname'⟩ := isNamed_ok.1 hscf
      cases hd.symm.trans hd'
      cases isScf with
      | true =>
        simp only [if_true, except_bind_ok] at h
        obtain ⟨c, hc, symbol, hsymbol, h⟩ := h
        obtain ⟨d'', hd'', hc⟩ := operand_ok.1 hc
        cases hd.symm.trans hd''
        cases symbol with
        | false => simp at h
        | true =>
          exact .scfIf c hname (beq_iff_eq.1 hname') hc hsymbol
            fun z hz => branchesSatisfy_true h hz
      | false =>
        simp only [Bool.false_eq_true, if_false, except_bind_ok] at h
        obtain ⟨isAffine, haffine, h⟩ := h
        obtain ⟨d'', hd'', hname''⟩ := isNamed_ok.1 haffine
        cases hd.symm.trans hd''
        cases isAffine with
        | false => simp at h
        | true =>
          simp only [if_true, except_bind_ok] at h
          obtain ⟨operands, hops, all, hall, h⟩ := h
          cases all with
          | false => simp at h
          | true =>
            refine .affineIf hname (beq_iff_eq.1 hname'') (hoperands ?_) fun z hz =>
              branchesSatisfy_true h hz
            rw [hops]
            exact hall

/-! ## Dependence -/

/-- The operation, or something nested in it, has the value as an operand. -/
def UsedWithin (s : Store) (w : ValueRef) (o : OpRef) : Prop :=
  ∃ z d, Within s o z ∧ s.op? z = some d ∧ w ∈ d.operands

/-- One step of dependence: outside the bodies of functions, from a result to all that is used
within the operation that defines it. -/
def DrawsOn (s : Store) (v w : ValueRef) : Prop :=
  isTopLevel s v ≠ .ok true ∧ ∃ o k, s.originOf v = some (.result o k) ∧ UsedWithin s w o

/-- All that a value depends on, down to values in the bodies of functions. -/
def DependsOn (s : Store) : ValueRef → ValueRef → Prop :=
  Relation.ReflTransGen (DrawsOn s)

/-- The value is an argument of a block of an affine loop: an induction variable, or carried from
one iteration to the next. -/
def IsLoopArgument (s : Store) (v : ValueRef) : Prop :=
  ∃ b k owner d, s.originOf v = some (.argument b k) ∧ s.blockOwner? b = .ok (some owner) ∧
    s.op? owner = some d ∧ (d.name = forName ∨ d.name = parallelName)

theorem isTopLevel_true (h : isTopLevel s v = .ok true) :
    ∃ b owner d, s.homeBlock? v = .ok (some b) ∧ s.blockOwner? b = .ok (some owner) ∧
      s.op? owner = some d ∧ d.name = funcName := by
  simp only [isTopLevel, homeOwner?, except_bind_ok] at h
  obtain ⟨owner?, ⟨b?, hb, howner⟩, h⟩ := h
  cases b? with
  | none =>
    cases howner
    simp at h
  | some b =>
    cases owner? with
    | none => simp at h
    | some owner =>
      obtain ⟨d, hd, hname⟩ := isNamed_ok.1 h
      exact ⟨b, owner, d, hb, howner, hd, beq_iff_eq.1 hname⟩

theorem IsLoopArgument.not_topLevel (h : IsLoopArgument s v) : isTopLevel s v ≠ .ok true := by
  intro htop
  obtain ⟨b, k, owner, d, hv, howner, hd, hname⟩ := h
  obtain ⟨b', owner', d', hhome, howner', hd', hfunc⟩ := isTopLevel_true htop
  obtain ⟨e, he, horigin⟩ := Option.map_eq_some_iff.1 hv
  simp only [homeBlock?, except_bind_ok, value_ok] at hhome
  obtain ⟨e', he', hhome⟩ := hhome
  cases he.symm.trans he'
  rw [horigin] at hhome
  cases hhome
  cases howner.symm.trans howner'
  cases hd.symm.trans hd'
  rcases hname with hname | hname <;> exact absurd (hname.symm.trans hfunc) (by decide)

/-! ## What is looked at -/

/-- Operations all of whose operands are looked at: arithmetic but for constants, affine
conditionals and applications of maps. -/
def examinesOperands (name : OpName) : Bool :=
  match ArithKind.ofName? name with
  | some kind => kind != .const
  | none => name == affineIfName || name == applyName

/-- The operands at which the test for symbols looks when it meets an operation.  In branches it
passes by the terminators. -/
inductive Examined (s : Store) : OpRef → ValueRef → Prop
  | operand {o d w} : s.op? o = some d → examinesOperands d.name = true → w ∈ d.operands →
      Examined s o w
  | condition {o d w} : s.op? o = some d → d.name = scfIfName → d.operands[0]? = some w →
      Examined s o w
  | nested {o z d w} : s.op? o = some d → d.name = scfIfName ∨ d.name = affineIfName →
      Child s o z → isYield s z ≠ .ok true → Examined s z w → Examined s o w

/-- The value was found to be a symbol in the wide sense through some number of definitions. -/
def FoundWide (s : Store) (v : ValueRef) : Prop :=
  ∃ n, isSymbolWith (computesSymbolFuel s n) s v = .ok true

/-- The value was found to be a symbol, in the wide sense or in the narrow one, through some number
of definitions. -/
def FoundSymbol (s : Store) (v : ValueRef) : Prop :=
  FoundWide s v ∨ ∃ n, isScopeSymbolFuel s n v = .ok true

/-- Whatever is looked at where a symbol is computed is a symbol. -/
theorem Examined.found (h : Examined s o w) :
    ∀ {n : Nat}, computesSymbolFuel s n o = .ok true → FoundWide s w := by
  induction h with
  | @operand o d w hd hexamines hw =>
    intro n hn
    obtain ⟨m, d', _, hd', hcomputes⟩ := computesSymbolFuel_true hn
    cases hd.symm.trans hd'
    cases hcomputes with
    | constant hkind => simp [examinesOperands, hkind] at hexamines
    | arithmetic _ _ _ hall => exact ⟨m, hall w hw⟩
    | scfIf _ hkind hname => rw [examinesOperands, hkind, hname] at hexamines; cases hexamines
    | affineIf _ _ hall => exact ⟨m, hall w hw⟩
  | @condition o d w hd hname hw =>
    intro n hn
    obtain ⟨m, d', _, hd', hcomputes⟩ := computesSymbolFuel_true hn
    cases hd.symm.trans hd'
    cases hcomputes with
    | constant hkind => rw [hname] at hkind; cases hkind
    | arithmetic _ hkind => rw [hname] at hkind; cases hkind
    | scfIf c _ _ hc hsymbol =>
      cases hw.symm.trans hc
      exact ⟨m, hsymbol⟩
    | affineIf _ hname' => exact absurd (hname.symm.trans hname') (by decide)
  | @nested o z d w hd hname hchild hyield _ ih =>
    intro n hn
    obtain ⟨m, d', _, hd', hcomputes⟩ := computesSymbolFuel_true hn
    cases hd.symm.trans hd'
    have hkind : ArithKind.ofName? d.name = none := by rcases hname with h | h <;> rw [h] <;> rfl
    cases hcomputes with
    | constant hkind' => rw [hkind] at hkind'; cases hkind'
    | arithmetic _ hkind' => rw [hkind] at hkind'; cases hkind'
    | scfIf _ _ _ _ _ hbranches => exact ih ((hbranches z hchild).resolve_left hyield)
    | affineIf _ _ _ hbranches => exact ih ((hbranches z hchild).resolve_left hyield)

/-- An application of a map to narrow symbols has no other operands that are looked at. -/
theorem Examined.of_scope {d : OpData} (h : Examined s o w) (hd : s.op? o = some d)
    (hname : d.name = ArithKind.const.opName ∨ d.name = applyName) :
    d.name = applyName ∧ w ∈ d.operands := by
  cases h with
  | operand hd' hexamines hw =>
    cases hd.symm.trans hd'
    refine ⟨hname.resolve_left fun heq => ?_, hw⟩
    rw [heq] at hexamines
    cases hexamines
  | condition hd' hscf =>
    cases hd.symm.trans hd'
    rcases hname with hname | hname <;> exact absurd (hname.symm.trans hscf) (by decide)
  | nested hd' hif =>
    cases hd.symm.trans hd'
    rcases hname with hname | hname <;> rcases hif with hif | hif <;>
      exact absurd (hname.symm.trans hif) (by decide)

/-- The value lives in the body of a function, or an operation defines it and whatever is looked at
there was found to be a symbol. -/
def Cleared (s : Store) (v : ValueRef) : Prop :=
  isTopLevel s v = .ok true ∨ ∃ o k, s.originOf v = some (.result o k) ∧
    ∀ w, Examined s o w → FoundSymbol s w

theorem Cleared.of_isScopeSymbolFuel (h : isScopeSymbolFuel s n v = .ok true) : Cleared s v := by
  obtain htop | ⟨o, k, d, hv, hd, hname⟩ := isScopeSymbolFuel_true h
  · exact .inl htop
  · refine .inr ⟨o, k, hv, fun w hw => ?_⟩
    obtain ⟨happly, hmem⟩ := hw.of_scope hd (hname.imp_right And.left)
    obtain hconst | ⟨_, m, hall⟩ := hname
    · exact absurd (happly.symm.trans hconst) (by decide)
    · exact .inr ⟨m, hall w hmem⟩

theorem FoundSymbol.cleared (h : FoundSymbol s v) : Cleared s v := by
  obtain ⟨n, h⟩ | ⟨n, h⟩ := h
  · obtain htop | ⟨o, k, hv, hcomputes | hscope⟩ := isSymbolWith_true h
    · exact .inl htop
    · exact .inr ⟨o, k, hv, fun w hw => .inl (hw.found hcomputes)⟩
    · exact .of_isScopeSymbolFuel hscope
  · exact .of_isScopeSymbolFuel h

theorem Cleared.of_isSymbol (h : isSymbol s v = .ok true) : Cleared s v := by
  obtain htop | ⟨o, k, hv, hyields | hscope⟩ := isSymbolWith_true h
  · exact .inl htop
  · refine .inr ⟨o, k, hv, fun w hw => ?_⟩
    simp only [yieldsSymbol, bind_pure_comp, except_map_ok, beq_iff_eq] at hyields
    obtain ⟨kind, hkind, rfl⟩ := hyields
    exact .inl (hw.found (n := 1) (by simp [computesSymbolFuel, hkind]))
  · exact .of_isScopeSymbolFuel hscope

theorem Cleared.not_loopArgument (h : Cleared s v) : ¬ IsLoopArgument s v := by
  intro hloop
  obtain htop | ⟨o, k, hv, _⟩ := h
  · exact hloop.not_topLevel htop
  · obtain ⟨b, j, _, _, hv', _⟩ := hloop
    cases hv.symm.trans hv'

/-- A symbol, in the narrow or in the wide sense, depends on no argument of an affine loop, provided
that whatever it depends on without its being looked at is a symbol in the wide sense. -/
theorem symbol_varies_with_no_loop
    (hv : isSymbol s v = .ok true ∨ isRecursiveSymbol s v = .ok true)
    (hunseen : ∀ u o k w, DependsOn s v u → isTopLevel s u ≠ .ok true →
      s.originOf u = some (.result o k) → UsedWithin s w o → ¬ Examined s o w →
      isRecursiveSymbol s w = .ok true)
    (hw : DependsOn s v w) : ¬ IsLoopArgument s w := by
  have hcleared : ∀ u, DependsOn s v u → Cleared s u := by
    intro u hu
    induction hu with
    | refl => exact hv.elim .of_isSymbol fun h => FoundSymbol.cleared (.inl ⟨_, h⟩)
    | @tail u w hu hstep ih =>
      obtain ⟨htop, o, k, horigin, hused⟩ := hstep
      by_cases hexamined : Examined s o w
      · obtain htop' | ⟨o', k', horigin', hfound⟩ := ih
        · exact absurd htop' htop
        · cases horigin.symm.trans horigin'
          exact (hfound w hexamined).cleared
      · exact FoundSymbol.cleared (.inl ⟨_, hunseen u o k w hu htop horigin hused hexamined⟩)
  exact (hcleared w hw).not_loopArgument

/-- A function with a loop that uses a conditional which yields one value or another. -/
def yieldingLoop (whenTrue whenFalse : String) : Surface.Op :=
  let choice := Surface.Op.plain scfIfName ["r"] ["c"] [.index]
    [[.plain scfYieldName [] [whenTrue] [] []], [.plain scfYieldName [] [whenFalse] [] []]]
  .program [⟨"a", .index⟩, ⟨"c", .i1⟩]
    [.loop [choice, .plain ⟨"test", "use"⟩ [] ["r"] [] []], .plain returnName [] [] [] []]

/-- The conditional that yields a parameter on both sides. -/
theorem yielded_parameter_found :
    ∃ root scope s, buildOp Scope.empty (yieldingLoop "a" "a") Store.empty =
        .ok (.ok (root, scope), s) ∧ isRecursiveSymbol s ⟨3⟩ = .ok true ∧
      isRecursiveSymbol s ⟨0⟩ = .ok true ∧ isTopLevel s ⟨0⟩ = .ok true ∧
      isTopLevel s ⟨1⟩ = .ok true ∧ isTopLevel s ⟨3⟩ = .ok false ∧
      s.originOf ⟨3⟩ = some (.result ⟨2⟩ 0) ∧ s.childOps ⟨2⟩ = .ok [⟨0⟩, ⟨1⟩] ∧
      s.childOps ⟨0⟩ = .ok [] ∧ s.childOps ⟨1⟩ = .ok [] ∧ s.nameOf ⟨2⟩ = .ok scfIfName ∧
      s.operandsOf ⟨2⟩ = .ok [⟨1⟩] ∧ s.operandsOf ⟨0⟩ = .ok [⟨0⟩] ∧
      s.operandsOf ⟨1⟩ = .ok [⟨0⟩] :=
  ⟨⟨8⟩, _, _, by cbv, by cbv, by cbv, by cbv, by cbv, by cbv, by cbv, by cbv, by cbv, by cbv,
    by cbv, by cbv, by cbv, by cbv⟩

theorem symbol_varies_with_no_loop_conditional :
    ∃ root scope s, buildOp Scope.empty (yieldingLoop "a" "a") Store.empty =
        .ok (.ok (root, scope), s) ∧ isRecursiveSymbol s ⟨3⟩ = .ok true ∧
      DependsOn s ⟨3⟩ ⟨0⟩ ∧ ∀ w, DependsOn s ⟨3⟩ w → ¬ IsLoopArgument s w := by
  obtain ⟨root, scope, s, hbuild, hsymbol, hsymbol₀, htop₀, htop₁, htop₃, horigin, hchildren,
    hleaf₀, hleaf₁, hname, hoperands₂, hoperands₀, hoperands₁⟩ := yielded_parameter_found
  have hwithin : ∀ z, Within s ⟨2⟩ z → z = ⟨2⟩ ∨ z = ⟨0⟩ ∨ z = ⟨1⟩ := by
    intro z hz
    induction hz with
    | refl => exact .inl rfl
    | tail _ hchild ih =>
      rcases ih with rfl | rfl | rfl
      · exact .inr (by simpa using (mem_childOps hchildren).2 hchild)
      · cases (mem_childOps hleaf₀).2 hchild
      · cases (mem_childOps hleaf₁).2 hchild
  have hoperand : ∀ {z d u}, s.operandsOf z = .ok [u] → s.op? z = some d → ∀ w ∈ d.operands,
      w = u := by
    intro z d u hoperands hd w hw
    obtain ⟨d', hd', hlist⟩ := operandsOf_ok.1 hoperands
    cases hd.symm.trans hd'
    exact List.mem_singleton.1 (hlist ▸ hw)
  have hused : ∀ w, UsedWithin s w ⟨2⟩ → w = ⟨1⟩ ∨ w = ⟨0⟩ := by
    rintro w ⟨z, d, hz, hd, hw⟩
    rcases hwithin z hz with rfl | rfl | rfl
    · exact .inl (hoperand hoperands₂ hd w hw)
    · exact .inr (hoperand hoperands₀ hd w hw)
    · exact .inr (hoperand hoperands₁ hd w hw)
  have hdepends : ∀ u, DependsOn s ⟨3⟩ u → u = ⟨3⟩ ∨ u = ⟨1⟩ ∨ u = ⟨0⟩ := by
    intro u hu
    induction hu with
    | refl => exact .inl rfl
    | tail _ hstep ih =>
      obtain ⟨htop, o, k, ho, hw⟩ := hstep
      rcases ih with rfl | rfl | rfl
      · cases horigin.symm.trans ho
        exact .inr (hused _ hw)
      · exact absurd htop₁ htop
      · exact absurd htop₀ htop
  refine ⟨root, scope, s, hbuild, hsymbol, .single ?_, fun w hw =>
    symbol_varies_with_no_loop (.inr hsymbol) ?_ hw⟩
  · obtain ⟨d, hd, hlist⟩ := operandsOf_ok.1 hoperands₀
    exact ⟨by rw [htop₃]; simp, ⟨2⟩, 0, horigin, ⟨0⟩, d,
      .single ((mem_childOps hchildren).1 (by simp)), hd, by simp [hlist]⟩
  · intro u o k w hu htop ho hw hunseen
    rcases hdepends u hu with rfl | rfl | rfl
    · cases horigin.symm.trans ho
      rcases hused w hw with rfl | rfl
      · obtain ⟨d, hd, hname⟩ := nameOf_ok.1 hname
        obtain ⟨d', hd', hlist⟩ := operandsOf_ok.1 hoperands₂
        cases hd.symm.trans hd'
        exact absurd (.condition hd hname (by rw [hlist]; rfl)) hunseen
      · exact hsymbol₀
    · exact absurd htop₁ htop
    · exact absurd htop₀ htop

/-- A conditional that yields the induction variable of the loop around it passes for a symbol. -/
theorem yielded_induction_variable_passes :
    ¬ ∀ {tree : Surface.Op} {root : OpRef} {scope : Scope} {s : Store} {v w : ValueRef},
      buildOp Scope.empty tree Store.empty = .ok (.ok (root, scope), s) →
      check s root = .ok ⟨[], [], []⟩ →
      (isSymbol s v = .ok true ∨ isRecursiveSymbol s v = .ok true) →
      DependsOn s v w → ¬ IsLoopArgument s w := by
  intro hclaim
  have hprogram : ∃ root scope s, buildOp Scope.empty (yieldingLoop "i" "a") Store.empty =
        .ok (.ok (root, scope), s) ∧ check s root = .ok ⟨[], [], []⟩ ∧
      isRecursiveSymbol s ⟨3⟩ = .ok true ∧ isTopLevel s ⟨3⟩ = .ok false ∧
      s.originOf ⟨3⟩ = some (.result ⟨2⟩ 0) ∧ s.childOps ⟨2⟩ = .ok [⟨0⟩, ⟨1⟩] ∧
      s.operandsOf ⟨0⟩ = .ok [⟨2⟩] ∧ s.originOf ⟨2⟩ = some (.argument ⟨2⟩ 0) ∧
      s.blockOwner? ⟨2⟩ = .ok (some ⟨5⟩) ∧ s.nameOf ⟨5⟩ = .ok forName :=
    ⟨⟨8⟩, _, _, by cbv, by cbv, by cbv, by cbv, by cbv, by cbv, by cbv, by cbv, by cbv, by cbv⟩
  obtain ⟨root, scope, s, hbuild, hcheck, hsymbol, htop, horigin, hchildren, hoperands, hargument,
    howner, hname⟩ := hprogram
  obtain ⟨d, hd, hmem⟩ := operandsOf_ok.1 hoperands
  obtain ⟨e, he, hname⟩ := nameOf_ok.1 hname
  refine hclaim hbuild hcheck (.inr hsymbol) (v := ⟨3⟩) (w := ⟨2⟩) (.single ?_)
    ⟨⟨2⟩, 0, ⟨5⟩, e, hargument, howner, he, .inl hname⟩
  refine ⟨by rw [htop]; simp, ⟨2⟩, 0, horigin, ⟨0⟩, d, .single ?_, hd, by simp [hmem]⟩
  exact (mem_childOps hchildren).1 (by simp)

end AffineRaising.Raise
