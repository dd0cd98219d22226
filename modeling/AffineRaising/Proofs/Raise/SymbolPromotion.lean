/-
# AffineRaising.Proofs.Raise.SymbolPromotion — symbols in the wide sense can be promoted.

What can be lifted is promoted to a value in the body of a function: its free operands first, one
after the other, and then its definition, to the latest of the places behind them
(`promoteFuel_lifts`).  A symbol in the wide sense can be lifted if the test for symbols has looked
at all that it draws on, if the narrow symbols among that are in the body of a function, and if no
operand loses its definition while another one is promoted (`recursive_symbol_promotes`).  None of
this is part of the test: a sum with a constant of the loop is a symbol in the wide sense, and its
promotion is not a symbol (`promoted_sum_stays_in_loop`).
-/
import AffineRaising.Proofs.Raise.Anchor
import AffineRaising.Proofs.Raise.Dependence

namespace AffineRaising.Raise

open AffineRaising.IR AffineRaising.IR.Store AffineRaising.Ops AffineRaising.Analysis

variable {removed : OpRef → Prop} {J : Journal} {s t : Store} {v u w : ValueRef} {x o : OpRef}
  {n : Nat}

/-! ## Answers to the queries -/

theorem isSymbol_of_isTopLevel (h : isTopLevel s v = .ok true) : isSymbol s v = .ok true := by
  simp only [isSymbol, isSymbolWith, except_bind_ok]
  exact ⟨true, h, rfl⟩

theorem staysPut_of_isSymbol {r : Bool} (h : isSymbol s v = .ok r) :
    staysPut s false v = .ok r := by
  simp only [staysPut, except_bind_ok]
  exact ⟨r, h, by cases r <;> rfl⟩

theorem isSymbolWith_of_result {symbolOp : OpRef → Except Fault Bool} {k : Nat} {r : Bool}
    (htop : isTopLevel s v = .ok false) (hv : s.originOf v = some (.result x k))
    (hop : symbolOp x = .ok r) :
    isSymbolWith symbolOp s v = if r then .ok true else isScopeSymbol s v := by
  unfold isSymbolWith
  rw [htop, definingOp?_of_result hv]
  show (symbolOp x >>= fun b => if b then pure true else isScopeSymbol s v) = _
  rw [hop]
  rfl

/-- What is computed outside the bodies of functions is a symbol only if it is a constant or comes
from a map that is applied. -/
theorem not_isSymbol {k : Nat} {d : OpData} (htop : isTopLevel s v = .ok false)
    (hv : s.originOf v = some (.result x k)) (hd : s.op? x = some d)
    (hconst : d.name ≠ ArithKind.const.opName) (happly : d.name ≠ applyName) :
    isSymbol s v = .ok false := by
  have hdefined := definingOp?_of_result hv
  have hscope : isScopeSymbol s v = .ok false := by
    simp only [isScopeSymbol, Store.depthBound, isScopeSymbolFuel, except_bind_ok]
    refine ⟨false, htop, ?_⟩
    simp only [Bool.false_eq_true, if_false, except_bind_ok]
    refine ⟨some x, hdefined, ?_⟩
    simp only [except_bind_ok]
    refine ⟨false, isNamed_ok.2 ⟨d, hd, beq_eq_false_iff_ne.2 hconst⟩, ?_⟩
    simp only [Bool.false_eq_true, if_false, except_bind_ok]
    exact ⟨false, isNamed_ok.2 ⟨d, hd, beq_eq_false_iff_ne.2 happly⟩, rfl⟩
  have hyields : yieldsSymbol s x = .ok false := by
    simp only [yieldsSymbol, bind_pure_comp, except_map_ok]
    refine ⟨_, arithKind?_ok.2 ⟨d, hd, rfl⟩, beq_eq_false_iff_ne.2 fun hkind => ?_⟩
    obtain ⟨d', hd', hname⟩ := isNamed_ok.1 (isNamed_of_kind hd hkind)
    cases hd.symm.trans hd'
    exact hconst (beq_iff_eq.1 hname)
  exact (isSymbolWith_of_result htop hv hyields).trans hscope

/-- What is to be moved is not a symbol where it is. -/
theorem Movable.isSymbol (h : Movable s x) (hl : Linked s) (hout : Outside s x) {k : Nat}
    (hv : s.originOf v = some (.result x k)) : Raise.isSymbol s v = .ok false := by
  obtain ⟨⟨d, hd, hconst, happly⟩, _⟩ := h
  exact not_isSymbol (hout.isTopLevel hl hv) hv hd hconst happly

theorem isReadOnly_of_not_mayWrite (hl : Linked s) {cap : Nat} {rank : OpRef → Nat}
    (hr : RanksUpTo s cap rank) {d : OpData} (hd : s.op? x = some d) (hx : rank x ≤ cap)
    (h : ¬ MayWrite s x) : isReadOnly s x = .ok true := by
  obtain ⟨r, hreads⟩ := isReadOnly_answers hl hr hd hx
  rw [hreads, effectsWithin_eq_true _ hreads fun z e hw he => ?_]
  simp only [bne_iff_ne, ne_eq]
  exact fun heffect => h ⟨z, e, hw, he, heffect⟩

/-! ## Promotion of what can be lifted -/

section Run

variable {spine : BlockRef → Prop} {anchor : OpRef → Prop} {top : Nat}

/-- Promotion of what can be lifted and may be met through at most `n` definitions. -/
def PromoteLifts (spine : BlockRef → Prop) (anchor : OpRef → Prop) (top n : Nat)
    (promote : ValueRef → Draft (Option ValueRef)) : Prop :=
  ∀ {v J s rank}, Staged spine anchor top rank s → Met spine top n rank s v →
    Liftable anchor s v → ∃ p J' t rank', promote v J s = .ok ((some p, J'), t) ∧
      (∃ a, anchor a ∧ Offered t p a) ∧ Later spine anchor top (Lifts s v) rank rank' s t

theorem Met.isLow {rank : OpRef → Nat} (h : Met spine top n rank s v) : Low top rank s v := by
  obtain ⟨e, he⟩ := h.rooted.value?
  exact ⟨⟨e.origin, by rw [originOf, he, Option.map_some]⟩, h.low⟩

/-- Values none of which loses its definition while an earlier one is promoted become available, at
places in front of anchors. -/
theorem availabilityWith_lifts {promote : ValueRef → Draft (Option ValueRef)}
    (hpromote : PromoteLifts spine anchor top n promote) {vs : List ValueRef} :
    ∀ {J : Journal} {s : Store} {rank : OpRef → Nat}, Staged spine anchor top rank s →
      (∀ v ∈ vs, Met spine top n rank s v ∧ Liftable anchor s v) →
      vs.Pairwise (fun u w => DefinedElsewhere (Lifts s u) s w) →
      ∃ ps J' t rank', availabilityWith promote false vs J s = .ok ((some ps, J'), t) ∧
        ps.length = vs.length ∧ (∀ p ∈ ps, AtAnchor anchor t p) ∧
        Later spine anchor top (fun y => ∃ v ∈ vs, Lifts s v y) rank rank' s t := by
  induction vs with
  | nil =>
    intro J s rank hs _ _
    exact ⟨[], J, s, rank, rfl, rfl, by simp, .refl hs⟩
  | cons v vs ih =>
    intro J s rank hs hvs hpairs
    obtain ⟨helse, hpairs⟩ := List.pairwise_cons.1 hpairs
    obtain ⟨hmet, hlift⟩ := hvs v List.mem_cons_self
    have hlinked := hs.consistent.linked
    obtain ⟨e, he⟩ := hmet.rooted.value?
    -- the first value is promoted, or it is an argument and there already
    obtain ⟨p, J₁, s₁, rank₁, hfirst, ⟨a, ha, hp⟩, hlater⟩ : ∃ p J₁ s₁ rank₁,
        availabilityWith promote false (v :: vs) J s =
          availabilityFrom promote false vs (some p) J₁ s₁ ∧
        (∃ a, anchor a ∧ Offered s₁ p a) ∧
        Later spine anchor top (Lifts s v) rank rank₁ s s₁ := by
      obtain ⟨o?, ho⟩ := definingOp?_answers he
      obtain ⟨stays, hstays⟩ :=
        staysPut_answers hlinked hs.consistent.grounded hs.ranks false he hmet.low
      unfold availabilityWith
      rw [Draft.ask_eq _ ho, Draft.ask_eq _ hstays]
      cases o? with
      | some o =>
        obtain ⟨p, J₁, s₁, rank₁, hp, hoffered, hlater⟩ := hpromote (J := J) hs hmet hlift
        refine ⟨p, J₁, s₁, rank₁, ?_, hoffered, hlater⟩
        exact Draft.bind_eq hp
      | none =>
        cases hlift with
        | @ready a _ ha hoffered =>
          have hsymbol := staysPut_of_isSymbol (isSymbol_of_isTopLevel (hs.isTopLevel ha hoffered))
          cases hstays.symm.trans hsymbol
          exact ⟨v, J, s, rank, rfl, ⟨a, ha, hoffered⟩, .refl hs⟩
        | moved hv => cases ho.symm.trans (definingOp?_of_result hv)
    obtain ⟨q, hq, hplace⟩ := afterDefinition?_of_offered hlater.staged.consistent.linked ha hp
    have hmem : ∀ u ∈ vs, Met spine top n rank s u ∧ Liftable anchor s u := fun u hu =>
      hvs u (List.mem_cons_of_mem v hu)
    -- of the others, nothing else has to be moved than before
    have hlifts : ∀ u ∈ vs, ∀ y, Lifts s₁ u y → Lifts s u y := fun u hu y hy =>
      hlater.lifts u y (hmem u hu).1.isLow (helse u hu) hy
    have hpairs₁ : vs.Pairwise fun u w => DefinedElsewhere (Lifts s₁ u) s₁ w := by
      refine hpairs.imp_of_mem fun {u w} hu hw huw => ?_
      intro y k hk hy
      exact hlater.definedElsewhere (hmem w hw).1.isLow huw y k hk (hlifts u hu y hy)
    obtain ⟨ps, J₂, s₂, rank₂, hrest, hlength, hplaces, hlater₂⟩ := ih (J := J₁) hlater.staged
      (fun u hu => ⟨(hmem u hu).1.carried hlater.carried,
        hlater.liftable u (hmem u hu).1.isLow (helse u hu) (hmem u hu).2⟩) hpairs₁
    refine ⟨q :: ps, J₂, s₂, rank₂, ?_, by simp [hlength], ?_, ?_⟩
    · rw [hfirst, availabilityFrom, Draft.ask_eq _ hq]
      exact Draft.bind_eq hrest
    · intro r hr
      rcases List.mem_cons.1 hr with rfl | hr
      · exact hlater₂.place r hplace
      · exact hplaces r hr
    · refine .trans hlinked (hlater.mono fun y hy => ⟨v, List.mem_cons_self, hy⟩) (hlater₂.mono ?_)
      rintro y ⟨u, hu, hy⟩
      exact ⟨u, List.mem_cons_of_mem v hu, hlifts u hu y hy⟩

/-- Promotion of what can be lifted. -/
theorem promoteFuel_lifts (spine : BlockRef → Prop) (anchor : OpRef → Prop) (top n : Nat) :
    PromoteLifts spine anchor top n (promoteFuel false n) := by
  induction n with
  | zero =>
    intro v J s rank _ hmet
    exact absurd hmet.fuel (Nat.not_lt_zero _)
  | succ n ih =>
    intro v J s rank hs hmet hlift
    have hlinked := hs.consistent.linked
    unfold promoteFuel
    cases hlift with
    | @ready a _ ha hoffered =>
      have hstays := staysPut_of_isSymbol (isSymbol_of_isTopLevel (hs.isTopLevel ha hoffered))
      rw [Draft.ask_eq _ hstays]
      exact ⟨v, J, s, rank, rfl, ⟨a, ha, hoffered⟩, .refl hs⟩
    | @moved _ x k hv hout hmovable hsome hall hunshared =>
      obtain ⟨⟨d, hd, hconst, _⟩, hreads⟩ := id hmovable
      have hseated := hmet.rooted.definingOp? (definingOp?_of_result hv)
      have hrank : valueRank s rank v = rank x := by rw [valueRank, hv]
      have htop : rank x ≤ top := hrank ▸ hmet.low
      have hfuel : rank x < n + 1 := hrank ▸ hmet.fuel
      obtain ⟨free, hfree, hnodup, hmem⟩ :=
        freeOperands_iff hlinked hs.acyclic hs.consistent.grounded hd
      have hnext : ∀ u ∈ free, Met spine top n rank s u ∧ Liftable anchor s u := by
        intro u hu
        have hu := (hmem u).1 hu
        exact ⟨hs.free_met hseated htop (by omega) hu, hall u hu⟩
      obtain ⟨ps, J₁, s₁, rank₁, havail, hlength, hplaces, hlater⟩ :=
        availabilityWith_lifts ih (J := J) hs hnext (hnodup.imp_of_mem fun {u w} hu hw huw =>
          fun y j hj => hunshared u w y j ((hmem u).1 hu) ((hmem w).1 hw) huw hj)
      -- the definition has not been moved with its operands
      have hstays : ¬ ∃ u ∈ free, Lifts s u x := by
        rintro ⟨u, hu, hlifts⟩
        have hlt := ((hmem u).1 hu).valueRank_lt hs.ranks htop
        have hle := hlifts.rank_le hs.ranks (Nat.le_trans hlt.le htop)
        omega
      have hne : ps ≠ [] := by
        obtain ⟨u, hu⟩ := hsome
        have hpos := List.length_pos_of_mem ((hmem u).2 hu)
        rw [← hlength] at hpos
        exact List.length_pos_iff.1 hpos
      obtain ⟨p, hp⟩ := hlater.staged.latest? hne hplaces
      obtain ⟨c, J₂, s₂, rank₂, hhoist, hlater₂, hresults, hoffered⟩ := hlater.staged.hoist
        (hplaces p (latest?_mem hp)) (hlater.carried.seated x hseated)
        (hlater.carried.rank x d hd ▸ htop) (hlater.outside x hout hstays)
        (hlater.reads x hreads) J₁
      obtain ⟨w, hw⟩ : ∃ w, (s₂.resultsOf c).head? = some w := by
        have hresult := getElem?_resultsOf hlater.staged.consistent.linked
          (hlater.carried.originOf v _ hv)
        have hpos := List.length_pos_of_mem (List.mem_of_getElem? hresult)
        rw [← hresults] at hpos
        exact ⟨_, List.head?_eq_some_head (List.length_pos_iff.1 hpos)⟩
      refine ⟨w, J₂, s₂, rank₂, ?_, hoffered w (List.mem_of_head? hw), ?_⟩
      · rw [Draft.ask_eq _ (staysPut_of_isSymbol (hmovable.isSymbol hlinked hout hv))]
        simp only [Bool.false_eq_true, if_false]
        rw [Draft.ask_eq _ (definingOp?_of_result hv)]
        simp only
        rw [Draft.ask_eq _ (isNamed_ok.2 ⟨d, hd, beq_eq_false_iff_ne.2 hconst⟩)]
        simp only [Bool.false_eq_true, if_false]
        rw [Draft.ask_eq _ (isReadOnly_of_not_mayWrite hlinked hs.ranks hd htop hreads)]
        simp only [Bool.not_true, Bool.false_eq_true, if_false]
        rw [Draft.ask_eq _ hfree, Draft.bind_eq havail]
        simp only
        rw [Draft.ask_eq _ hp]
        simp only
        rw [Draft.bind_eq hhoist]
        simp only
        rw [Draft.lift_eq (e := get) rfl, hw]
        rfl
      · refine .trans hlinked (hlater.mono ?_) (hlater₂.mono ?_)
        · rintro y ⟨u, hu, hy⟩
          exact .free hv hout ((hmem u).1 hu) hy
        · rintro y rfl
          exact .self hv hout

end Run

/-! ## What was found to be a symbol -/

/-- Arithmetic and the terminators of branches have no regions. -/
def Flat (s : Store) : Prop :=
  ∀ x d, s.op? x = some d → (ArithKind.ofName? d.name).isSome = true ∨
    d.name = scfYieldName ∨ d.name = affineYieldName → d.regions = []

theorem within_of_flat {z : OpRef} {d : OpData} (hd : s.op? o = some d) (hflat : d.regions = [])
    (hw : Within s o z) : z = o := by
  rcases Relation.ReflTransGen.cases_head hw with heq | ⟨y, hy, _⟩
  · exact heq.symm
  · obtain ⟨d', hd', r, hr, _⟩ := hy
    cases hd.symm.trans hd'
    rw [hflat] at hr
    cases hr

/-- What computes a symbol does not write, like all that is nested in it. -/
theorem not_mayWrite_of_computes (hflat : Flat s) (n : Nat) :
    ∀ {o : OpRef}, computesSymbolFuel s n o = .ok true → ¬ MayWrite s o := by
  -- arithmetic and terminators
  have hleaf : ∀ {o d}, s.op? o = some d → (ArithKind.ofName? d.name).isSome = true ∨
      d.name = scfYieldName ∨ d.name = affineYieldName → ¬ MayWrite s o := by
    rintro o d hd hname ⟨z, e, hw, he, heffect⟩
    cases within_of_flat hd (hflat o d hd hname) hw
    cases hd.symm.trans he
    rcases hname with hkind | hname | hname
    · simp [Effect.ofName, hkind] at heffect
    · rw [hname] at heffect
      exact absurd heffect (by decide)
    · rw [hname] at heffect
      exact absurd heffect (by decide)
  induction n with
  | zero => intro o h; cases h
  | succ n ih =>
    intro o h
    obtain ⟨_, d, hn, hd, hcomputes⟩ := computesSymbolFuel_true h
    cases hn
    have hbranches : Effect.ofName d.name = .pure →
        (∀ z, Child s o z → isYield s z = .ok true ∨ computesSymbolFuel s n z = .ok true) →
        ¬ MayWrite s o := by
      rintro hpure hall ⟨z, e, hw, he, heffect⟩
      rcases Relation.ReflTransGen.cases_head hw with rfl | ⟨y, hy, hw⟩
      · cases hd.symm.trans he
        rw [hpure] at heffect
        cases heffect
      · rcases hall y hy with hyield | hcomputes
        · simp only [isYield, bind_pure_comp, except_map_ok, nameOf_ok, Bool.or_eq_true,
            beq_iff_eq] at hyield
          obtain ⟨_, ⟨dy, hdy, rfl⟩, hname⟩ := hyield
          exact hleaf hdy (.inr hname) ⟨z, e, hw, he, heffect⟩
        · exact ih hcomputes ⟨z, e, hw, he, heffect⟩
    cases hcomputes with
    | constant hkind => exact hleaf hd (.inl (by rw [hkind]; rfl))
    | arithmetic _ hkind => exact hleaf hd (.inl (by rw [hkind]; rfl))
    | scfIf _ _ hname _ _ hall => exact hbranches (by rw [hname]; decide) hall
    | affineIf _ hname _ hall => exact hbranches (by rw [hname]; decide) hall

/-- Constants and what is a symbol by its scope are symbols. -/
theorem isSymbol_of_scope {k : Nat} {d : OpData} (hv : s.originOf v = some (.result x k))
    (hd : s.op? x = some d) (htop : isTopLevel s v = .ok false)
    (hscope : ArithKind.ofName? d.name = some .const ∨ isScopeSymbol s v = .ok true) :
    isSymbol s v = .ok true := by
  have hyields : yieldsSymbol s x = .ok (ArithKind.ofName? d.name == some .const) := by
    simp only [yieldsSymbol, bind_pure_comp, except_map_ok]
    exact ⟨_, arithKind?_ok.2 ⟨d, hd, rfl⟩, rfl⟩
  rw [isSymbol, isSymbolWith_of_result htop hv hyields]
  rcases hscope with hkind | hscope
  · rw [hkind]
    rfl
  · rw [hscope, ite_self]

/-- The operation has free operands, and each of them was looked at, or would pass, as a symbol.
Those that are symbols as they are stand in the body of a function, and none of them loses its
definition while another one is lifted. -/
structure Portable (s : Store) (x : OpRef) : Prop where
  free : ∃ u, Free s x u
  found : ∀ u, Free s x u → Examined s x u ∨ isRecursiveSymbol s u = .ok true
  topLevel : ∀ u, Free s x u → isSymbol s u = .ok true → isTopLevel s u = .ok true
  unshared : Unshared s x

/-- The operations around one that stand in bodies of functions. -/
def Encloses (s : Store) (o a : OpRef) : Prop :=
  Within s a o ∧ ∃ d b, s.op? a = some d ∧ d.parent = some b ∧ InFunction s b

/-- A free operand in the body of a function is offered to something around there. -/
theorem offered_of_isTopLevel (hl : Linked s) (hsees : SeesOperands removed s)
    (hlive : ¬ removed x) (hseated : Seated (Spine s o) s x) (hout : Outside s x)
    (hu : Free s x u) (htop : isTopLevel s u = .ok true) :
    ∃ a, Encloses s o a ∧ Offered s u a := by
  obtain ⟨z, d, hw, hd, hmem, hfree⟩ := hu
  obtain ⟨a, haz, hoffered⟩ := hsees.sees z d u (hsees.not_removed_within hl hlive hw) hd hmem
  obtain ⟨b, bd, hlives, hbd, hab⟩ := lives_of_offered hl hoffered
  obtain ⟨da, hda, hparent⟩ := hl.op?_of_mem hbd hab
  have hin : InFunction s b := by
    obtain ⟨top, htop', hiff⟩ := hlives.isTopLevel hl
    cases htop.symm.trans htop'
    exact hiff.1 rfl
  have hax : a ≠ x := by
    rintro rfl
    obtain ⟨d', b', hd', hparent', hnot⟩ := hout
    cases hda.symm.trans hd'
    cases hparent.symm.trans hparent'
    exact hnot hin
  rcases within_or_within hl haz hw with haw | hxa
  · rcases Relation.ReflTransGen.cases_tail haw with heq | ⟨q, haq, hqx⟩
    · exact absurd heq.symm hax
    · -- the block of the operation is around the one where the spine starts
      obtain ⟨b', bd', hholds, hbd', hmem'⟩ := child_iff.1 hqx
      obtain ⟨dx, hdx, hspine⟩ := hseated
      obtain ⟨dx', hdx', hb'⟩ := hl.op?_of_mem hbd' hmem'
      cases hdx.symm.trans hdx'
      obtain ⟨a', bd'', ha'o, hbd'', ha'⟩ := hspine b' hb'
      have hqa' := (child_iff_holds hl hbd'' ha').2 hholds
      exact ⟨a, ⟨(haq.tail hqa').trans ha'o, da, b, hda, hparent, hin⟩, hoffered⟩
  · -- then the value would be at home inside the operation
    obtain ⟨q, hxq, hqa⟩ := Relation.TransGen.tail'_iff.1
      ((Relation.reflTransGen_iff_eq_or_transGen.1 hxa).resolve_left hax)
    exact absurd ⟨b, q, hlives, (child_iff_holds hl hbd hab).1 hqa, hxq⟩ hfree

/-- What computes a symbol can be lifted if nothing stands in the way of moving it and what it draws
on. -/
theorem liftable_of_computes (hflat : Flat s) {rank : OpRef → Nat} {top : Nat}
    (hf : Framed (Spine s o) top rank s) (hsees : SeesOperands removed s)
    (hlive : ∀ x, rank x ≤ top → ¬ removed x) (m : Nat) :
    ∀ {v : ValueRef} {x : OpRef} {k n : Nat}, rank x < m → s.originOf v = some (.result x k) →
      Seated (Spine s o) s x → rank x ≤ top → Outside s x →
      computesSymbolFuel s n x = .ok true → isSymbol s v ≠ .ok true →
      (∀ y, Lifts s v y → Portable s y) → Liftable (Encloses s o) s v := by
  have hl := hf.consistent.linked
  have hg := hf.consistent.grounded
  induction m with
  | zero => intro v x k n hm; omega
  | succ m ih =>
    intro v x k n hm hv hseated hrank hout hn hnot hportable
    obtain ⟨_, d, hfuel, hd, hcomputes⟩ := computesSymbolFuel_true hn
    have hconst : ArithKind.ofName? d.name ≠ some .const := fun hkind =>
      hnot (isSymbol_of_scope hv hd (hout.isTopLevel hl hv) (.inl hkind))
    have hmovable : Movable s x := by
      refine ⟨⟨d, hd, fun hname => hconst (by rw [hname]; rfl), fun hname => ?_⟩,
        not_mayWrite_of_computes hflat n hn⟩
      cases hcomputes with
      | constant hkind => exact hconst hkind
      | arithmetic _ hkind => rw [hname] at hkind; cases hkind
      | scfIf _ _ hname' => exact absurd (hname.symm.trans hname') (by decide)
      | affineIf _ hname' => exact absurd (hname.symm.trans hname') (by decide)
    have hx := hportable x (.self hv hout)
    refine .moved hv hout hmovable hx.free (fun u hu => ?_) hx.unshared
    obtain ⟨n', hfound⟩ : FoundWide s u :=
      (hx.found u hu).elim (fun hu => hu.found hn) fun hu => ⟨_, hu⟩
    obtain ⟨z, dz, hw, hdz, huz, _⟩ := id hu
    obtain ⟨a, _, hoffered⟩ :=
      hsees.sees z dz u (hsees.not_removed_within hl (hlive x hrank) hw) hdz huz
    obtain ⟨b, bd, hlives, _⟩ := lives_of_offered hl hoffered
    obtain ⟨isTop, htop, hiff⟩ := hlives.isTopLevel hl
    cases isTop with
    | true =>
      obtain ⟨a, ha, hoffered⟩ := offered_of_isTopLevel hl hsees (hlive x hrank)
        hseated hout hu htop
      exact .ready ha hoffered
    | false =>
      have hnotSymbol : isSymbol s u ≠ .ok true := fun hsymbol => by
        have htop' := hx.topLevel u hu hsymbol
        rw [htop] at htop'
        cases htop'
      obtain htop' | ⟨y, j, hy, hfound⟩ := isSymbolWith_true hfound
      · rw [htop] at htop'
        cases htop'
      obtain ⟨dy, hdy⟩ := op?_of_result hl hy
      rcases hfound with hcomputes | hscope
      · have hmet := hf.free_met (n := rank x) hseated hrank (Nat.le_refl _) hu
        have hlt : rank y < rank x := by
          have hlt := hu.valueRank_lt hf.ranks hrank
          rwa [valueRank, hy] at hlt
        refine ih (by omega) hy (hmet.rooted.definingOp? (definingOp?_of_result hy)) (by omega) ?_
          hcomputes hnotSymbol fun y' hy' => hportable y' (.free hv hout hu hy')
        obtain ⟨_, hy'⟩ | ⟨_, _, e, hy', he, hparent⟩ := hlives
        · cases hy.symm.trans hy'
        · cases hy.symm.trans hy'
          exact ⟨e, b, he, hparent, fun hin => by cases hiff.2 hin⟩
      · exact absurd (isSymbol_of_scope hy hdy htop (.inr hscope)) hnotSymbol

/-- The stage for a promotion from an operation outside the bodies of functions. -/
theorem Staged.of_sees (hg : Grounded s) (hkept : Kept s removed) (hac : Acyclic s)
    (hsees : SeesOperands removed s) (hsized : Sized s) {cap : Nat} {rank : OpRef → Nat}
    (hr : RanksUpTo s cap rank) (hlive : ∀ x, rank x ≤ cap ↔ ¬ removed x) (ho : ¬ removed o)
    (hout : Outside s o) : Staged (Spine s o) (Encloses s o) (rank o) rank s := by
  have hcap : rank o ≤ cap := (hlive o).2 ho
  have hs : Consistent s := ⟨⟨removed, hkept⟩, hg⟩
  refine { Framed.of_sees hs hac hsees hsized hr hlive ho with
    kept := ⟨removed, hkept, fun x hx => (hlive x).1 (Nat.le_trans hx hcap)⟩
    stands := ?_, higher := ?_, chain := ?_ }
  · rintro a ⟨hao, d, b, hd, hparent, hin⟩
    obtain ⟨bd, hbd, hmem⟩ := hs.linked.mem_of_parent hd hparent
    exact ⟨d, b, hd, hparent, ⟨a, bd, hao, hbd, hmem⟩, hin⟩
  · rintro a ⟨hao, d, b, hd, hparent, hin⟩
    rcases Relation.ReflTransGen.cases_head hao with rfl | ⟨y, hay, hyo⟩
    · obtain ⟨d', b', hd', hparent', hnot⟩ := hout
      cases hd.symm.trans hd'
      cases hparent.symm.trans hparent'
      exact absurd hin hnot
    · have hya := hr.falls a y ((hlive a).2 (hsees.not_removed hd hparent)) (.inr hay)
      have hy : rank y ≤ cap := by
        have ha := (hlive a).2 (hsees.not_removed hd hparent)
        omega
      exact Nat.lt_of_le_of_lt (hr.within_le hy hyo) hya
  · exact fun a a' ha ha' => within_or_within hs.linked ha.1 ha'.1

/-! ## Modules that were checked -/

/-- A symbol in the wide sense of a module that passes the check is promoted to a symbol, unless it
draws on something that stands in the way of moving it: an operation without free operands, a
value at which the test for symbols did not look, a narrow symbol outside the bodies of functions,
or an operand that has to be moved with another one.  The module may stand among what was removed
from it; the value is one of its own. -/
theorem recursive_symbol_promotes {gone : OpRef → Prop} {root : OpRef}
    (h : HoldsModule root gone s) (hcheck : check s root = .ok ⟨[], [], []⟩)
    (hmodule : ∀ d, s.op? root = some d → d.name = moduleName ∧ d.regions.length ≤ 1)
    (hflat : Flat s) (hlive : ∀ o k, s.originOf v = some (.result o k) → ¬ gone o)
    (hv : isRecursiveSymbol s v = .ok true)
    (hportable : isSymbol s v ≠ .ok true → ∀ y, Lifts s v y → Portable s y) (J : Journal) :
    ∃ p J' t, promote v false J s = .ok ((some p, J'), t) ∧ isSymbol t p = .ok true := by
  have hl := h.consistent.linked
  have hac := h.acyclic
  have hsees := h.seesOperands (check_eq_clean.1 hcheck).2.1 fun d hd => (hmodule d hd).2
  have hpromote : promote v false J s = promoteFuel false s.depthBound v J s :=
    Draft.lift_eq (e := get) rfl
  rw [hpromote]
  by_cases hsymbol : isSymbol s v = .ok true
  · refine ⟨v, J, s, ?_, hsymbol⟩
    unfold Store.depthBound promoteFuel
    rw [Draft.ask_eq _ (staysPut_of_isSymbol hsymbol)]
    rfl
  obtain htop | ⟨o, k, hvo, hfound⟩ := isSymbolWith_true hv
  · exact absurd (isSymbol_of_isTopLevel htop) hsymbol
  obtain ⟨e, he⟩ := op?_of_result hl hvo
  have ho := hlive o k hvo
  -- a module does not compute anything
  have hne : o ≠ root := by
    rintro rfl
    obtain ⟨hname, _⟩ := hmodule e he
    rcases hfound with hcomputes | hscope
    · obtain ⟨_, _, _, hd, hcomputes⟩ := computesSymbolFuel_true hcomputes
      cases he.symm.trans hd
      cases hcomputes with
      | constant hkind => rw [hname] at hkind; cases hkind
      | arithmetic _ hkind => rw [hname] at hkind; cases hkind
      | scfIf _ _ hname' => exact absurd (hname.symm.trans hname') (by decide)
      | affineIf _ hname' => exact absurd (hname.symm.trans hname') (by decide)
    · obtain htop | ⟨_, _, _, hv', hd, hname'⟩ := isScopeSymbolFuel_true hscope
      · exact hsymbol (isSymbol_of_isTopLevel htop)
      · cases hvo.symm.trans hv'
        cases he.symm.trans hd
        rcases hname' with hname' | ⟨hname', _⟩
        · exact absurd (hname.symm.trans hname') (by decide)
        · exact absurd (hname.symm.trans hname') (by decide)
  obtain ⟨b, hparent⟩ := h.attached he ho hne
  have hout : Outside s o := by
    refine ⟨e, b, he, hparent, fun hin => hsymbol (isSymbol_of_isTopLevel ?_)⟩
    obtain ⟨top, htop, hiff⟩ := Lives.isTopLevel hl (.inr ⟨o, k, e, hvo, he, hparent⟩)
    rw [htop, hiff.2 hin]
  rcases hfound with hcomputes | hscope
  · obtain ⟨cap, rank, hr, hcap, _⟩ := hsees.exists_ranks hl hac
    have hstaged : Staged (Spine s o) (Encloses s o) (rank o) rank s :=
      .of_sees h.tidy.grounded h.tidy.kept hac hsees h.sized hr hcap ho hout
    have hseated : Seated (Spine s o) s o := .self hl he
    have htop : rank o ≤ cap := (hcap o).2 ho
    have hlift := liftable_of_computes hflat hstaged.toFramed hsees
      (fun x hx => (hcap x).1 (Nat.le_trans hx htop)) _ (Nat.lt_succ_self _) hvo hseated
      (Nat.le_refl _) hout hcomputes hsymbol (hportable hsymbol)
    have hrank : valueRank s rank v = rank o := by rw [valueRank, hvo]
    have hmet : Met (Spine s o) (rank o) s.depthBound rank s v :=
      ⟨.inr ⟨o, k, hvo, hseated⟩, hrank.trans_lt (Nat.lt_of_le_of_lt htop hr.bound), hrank.le⟩
    obtain ⟨p, J', t, rank', hrun, ⟨a, ha, hoffered⟩, hlater⟩ :=
      promoteFuel_lifts _ _ _ _ (J := J) hstaged hmet hlift
    exact ⟨p, J', t, hrun, isSymbol_of_isTopLevel (hlater.staged.isTopLevel ha hoffered)⟩
  · exact absurd (isSymbol_of_scope hvo he (hout.isTopLevel hl hvo) (.inr hscope)) hsymbol

theorem Flat.of_all (h : s.ops.all (fun d => d.regions.isEmpty ||
      !((ArithKind.ofName? d.name).isSome || d.name == scfYieldName ||
        d.name == affineYieldName)) = true) : Flat s := by
  intro x d hd hname
  have hmem : d ∈ s.ops := Array.mem_of_getElem? hd
  have hx := Array.all_eq_true_iff_forall_mem.1 h d hmem
  rw [Bool.or_eq_true, List.isEmpty_iff] at hx
  refine hx.resolve_right fun hnot => ?_
  rcases hname with hname | hname | hname <;> simp [hname] at hnot

theorem free_iff (hs : Consistent s) (hac : Acyclic s) {d : OpData} (hd : s.op? x = some d)
    {free : List ValueRef} (h : freeOperands s x = .ok free) : Free s x u ↔ u ∈ free := by
  obtain ⟨free', hfree', _, hmem⟩ := freeOperands_iff hs.linked hac hs.grounded hd
  cases h.symm.trans hfree'
  exact (hmem u).symm

/-- A loop over a sum of parameters and a conditional that yields it or a parameter. -/
theorem conditional_found :
    let sum := Surface.Op.plain ArithKind.add.opName ["x"] ["a", "a"] [.index] []
    let choice := Surface.Op.plain scfIfName ["r"] ["c"] [.index]
      [[.plain scfYieldName [] ["x"] [] []], [.plain scfYieldName [] ["a"] [] []]]
    let tree := Surface.Op.program [⟨"a", .index⟩, ⟨"c", .i1⟩]
      [.loop [sum, choice, .plain ⟨"test", "use"⟩ [] ["r"] [] []], .plain returnName [] [] [] []]
    ∃ root scope s d e e', buildOp Scope.empty tree Store.empty = .ok (.ok (root, scope), s) ∧
      check s root = .ok ⟨[], [], []⟩ ∧ s.op? root = some d ∧ d.name = moduleName ∧
      d.regions.length = 1 ∧ Flat s ∧
      (isRecursiveSymbol s ⟨4⟩ = .ok true ∧ isSymbol s ⟨4⟩ = .ok false) ∧
      (s.originOf ⟨0⟩ = some (.argument ⟨1⟩ 0) ∧ s.originOf ⟨1⟩ = some (.argument ⟨1⟩ 1) ∧
        s.originOf ⟨3⟩ = some (.result ⟨0⟩ 0) ∧ s.originOf ⟨4⟩ = some (.result ⟨3⟩ 0)) ∧
      (s.op? ⟨0⟩ = some e ∧ freeOperands s ⟨0⟩ = .ok [⟨0⟩]) ∧
      (s.op? ⟨3⟩ = some e' ∧ freeOperands s ⟨3⟩ = .ok [⟨1⟩, ⟨3⟩, ⟨0⟩]) ∧
      (isTopLevel s ⟨0⟩ = .ok true ∧ isTopLevel s ⟨1⟩ = .ok true ∧
        isRecursiveSymbol s ⟨3⟩ = .ok true ∧ isSymbol s ⟨3⟩ = .ok false) :=
  ⟨⟨9⟩, _, _, _, _, _, by cbv, by cbv, by cbv, by cbv, by cbv, Flat.of_all (by cbv),
    ⟨by cbv, by cbv⟩, ⟨by cbv, by cbv, by cbv, by cbv⟩, ⟨by cbv, by cbv⟩, ⟨by cbv, by cbv⟩,
    ⟨by cbv, by cbv, by cbv, by cbv⟩⟩

theorem recursive_symbol_promotes_conditional :
    ∃ root s, HoldsModule root (fun _ => False) s ∧
      check s root = .ok ⟨[], [], []⟩ ∧ isRecursiveSymbol s ⟨4⟩ = .ok true ∧
      isSymbol s ⟨4⟩ = .ok false ∧
      ∃ p J t, promote ⟨4⟩ false [] s = .ok ((some p, J), t) ∧ isSymbol t p = .ok true := by
  obtain ⟨root, scope, s, d, e₀, e₃, hbuild, hcheck, hroot, hname, hregions, hflat,
    ⟨hsymbol, hnarrow⟩, ⟨hv₀, hv₁, hv₃, hv₄⟩, ⟨he₀, hfree₀⟩, ⟨he₃, hfree₃⟩,
    htop₀, htop₁, hsymbol₃, hnarrow₃⟩ := conditional_found
  have hfree₀ : ∀ {u}, Free s ⟨0⟩ u ↔ u ∈ [⟨0⟩] :=
    free_iff (Consistent.of_built hbuild) (acyclic_of_read hbuild) he₀ hfree₀
  have hfree₃ : ∀ {u}, Free s ⟨3⟩ u ↔ u ∈ [⟨1⟩, ⟨3⟩, ⟨0⟩] :=
    free_iff (Consistent.of_built hbuild) (acyclic_of_read hbuild) he₃ hfree₃
  have hsum : ∀ {u}, Free s ⟨0⟩ u → u = ⟨0⟩ := fun hu => by simpa using hfree₀.1 hu
  have hchoice : ∀ {u}, Free s ⟨3⟩ u → u = ⟨1⟩ ∨ u = ⟨3⟩ ∨ u = ⟨0⟩ := fun hu => by
    simpa using hfree₃.1 hu
  -- parameters are never moved
  have hparameter : ∀ {u b k y}, s.originOf u = some (.argument b k) → ¬ Lifts s u y := by
    intro u b k y hu hlifts
    obtain ⟨x, j, hu', _⟩ := hlifts.outside_definition
    cases hu.symm.trans hu'
  have hwide : ∀ {u}, isTopLevel s u = .ok true → isRecursiveSymbol s u = .ok true := by
    intro u htop
    simp only [isRecursiveSymbol, isSymbolWith, except_bind_ok]
    exact ⟨true, htop, rfl⟩
  have hlifts₃ : ∀ {y}, Lifts s ⟨3⟩ y → y = ⟨0⟩ := by
    intro y hlifts
    cases hlifts with
    | self hv => cases hv₃.symm.trans hv; rfl
    | free hv _ hu hlifts =>
      cases hv₃.symm.trans hv
      rw [hsum hu] at hlifts
      exact absurd hlifts (hparameter hv₀)
  have hlifts₄ : ∀ {y}, Lifts s ⟨4⟩ y → y = ⟨0⟩ ∨ y = ⟨3⟩ := by
    intro y hlifts
    cases hlifts with
    | self hv => cases hv₄.symm.trans hv; exact .inr rfl
    | free hv _ hu hlifts =>
      cases hv₄.symm.trans hv
      rcases hchoice hu with rfl | rfl | rfl
      · exact absurd hlifts (hparameter hv₁)
      · exact .inl (hlifts₃ hlifts)
      · exact absurd hlifts (hparameter hv₀)
  have hportable₀ : Portable s ⟨0⟩ := by
    refine ⟨⟨⟨0⟩, hfree₀.2 (by simp)⟩, fun u hu => ?_, fun u hu _ => ?_,
      fun u w y k hu hw hne => ?_⟩
    · rw [hsum hu]
      exact .inr (hwide htop₀)
    · rw [hsum hu]
      exact htop₀
    · exact absurd ((hsum hu).trans (hsum hw).symm) hne
  have hportable₃ : Portable s ⟨3⟩ := by
    refine ⟨⟨⟨0⟩, hfree₃.2 (by simp)⟩, fun u hu => ?_, fun u hu hsym => ?_,
      fun u w y k hu hw hne hwy hlifts => ?_⟩
    · rcases hchoice hu with rfl | rfl | rfl
      · exact .inr (hwide htop₁)
      · exact .inr hsymbol₃
      · exact .inr (hwide htop₀)
    · rcases hchoice hu with rfl | rfl | rfl
      · exact htop₁
      · rw [hnarrow₃] at hsym
        cases hsym
      · exact htop₀
    · rcases hchoice hu with rfl | rfl | rfl
      · exact hparameter hv₁ hlifts
      · rcases hchoice hw with rfl | rfl | rfl
        · cases hv₁.symm.trans hwy
        · exact hne rfl
        · cases hv₀.symm.trans hwy
      · exact hparameter hv₀ hlifts
  have hmodule : ∀ d', s.op? root = some d' → d'.name = moduleName ∧ d'.regions.length ≤ 1 :=
    fun d' hd' => by
      cases hroot.symm.trans hd'
      exact ⟨hname, Nat.le_of_eq hregions⟩
  have hs := HoldsModule.of_built hbuild
  refine ⟨root, s, hs, hcheck, hsymbol, hnarrow, recursive_symbol_promotes hs hcheck hmodule hflat
    (fun _ _ _ => False.elim) hsymbol (fun _ y hy => ?_) []⟩
  rcases hlifts₄ hy with rfl | rfl
  · exact hportable₀
  · exact hportable₃

/-- A promotion may leave its result where it was: a sum with a constant goes no further than the
constant, which stays in its loop. -/
theorem promoted_sum_stays_in_loop :
    ¬ ∀ {tree : Surface.Op} {root : OpRef} {scope : Scope} {s : Store} {d : OpData} {v : ValueRef}
        {J : Journal},
      buildOp Scope.empty tree Store.empty = .ok (.ok (root, scope), s) →
      check s root = .ok ⟨[], [], []⟩ → s.op? root = some d → d.name = moduleName →
      d.regions.length = 1 → Flat s → isRecursiveSymbol s v = .ok true →
      ∃ p J' t, promote v false J s = .ok ((some p, J'), t) ∧ isSymbol t p = .ok true := by
  intro hclaim
  have hprogram :
      let constant := Surface.Op.mk ⟨["k"], "arith", "const", none, [], [], [], none,
        [("value", .int 3)], [.index]⟩ []
      let sum := Surface.Op.plain ArithKind.add.opName ["x"] ["a", "k"] [.index] []
      let tree := Surface.Op.program [⟨"a", .index⟩]
        [.loop [constant, sum, .plain ⟨"test", "use"⟩ [] ["x"] [] []],
          .plain returnName [] [] [] []]
      ∃ root scope s d J t, buildOp Scope.empty tree Store.empty = .ok (.ok (root, scope), s) ∧
        check s root = .ok ⟨[], [], []⟩ ∧ s.op? root = some d ∧ d.name = moduleName ∧
        d.regions.length = 1 ∧ Flat s ∧ isRecursiveSymbol s ⟨3⟩ = .ok true ∧
        promote ⟨3⟩ false [] s = .ok ((some ⟨4⟩, J), t) ∧ isSymbol t ⟨4⟩ = .ok false :=
    ⟨⟨7⟩, _, _, _, _, _, by cbv, by cbv, by cbv, by cbv, by cbv, Flat.of_all (by cbv), by cbv,
      by cbv, by cbv⟩
  obtain ⟨root, scope, s, d, J, t, hbuild, hcheck, hroot, hname, hregions, hflat, hsymbol, hrun,
    hnot⟩ := hprogram
  obtain ⟨p, J', t', hrun', hp⟩ := hclaim (J := []) hbuild hcheck hroot hname hregions hflat hsymbol
  rw [hrun] at hrun'
  cases hrun'
  rw [hnot] at hp
  cases hp

end AffineRaising.Raise
