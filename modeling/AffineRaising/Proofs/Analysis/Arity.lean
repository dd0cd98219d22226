/-
# AffineRaising.Proofs.Analysis.Arity — operations that bind what their maps take.

The check of arities reads the name, the attributes and the numbers of operands and results of an
operation: it finds nothing exactly if these suit each other (`affineArity_eq_nil_iff`).
-/
import AffineRaising.Proofs.Analysis.Visibility

namespace AffineRaising.Analysis

open AffineRaising.IR AffineRaising.IR.Store AffineRaising.Ops
open AffineRaising.Affine (Map ConstraintSet)

variable {s : Store} {o : OpRef} {d e : OpData}

/-- The map under a key. -/
def mapAt (d : OpData) (key : String) : Option Map := (d.attrs.get? key).bind Attr.map?

/-- The constraint set under a key. -/
def setAt (d : OpData) (key : String) : Option ConstraintSet :=
  (d.attrs.get? key).bind Attr.constraints?

/-- A structured conditional has no more than two branches, and their terminator has no regions. -/
structure FewRegions (d : OpData) : Prop where
  branches : d.name = scfIfName → d.regions.length ≤ 2
  terminator : d.name = scfYieldName → d.regions.length = 0

/-- The operation binds as many operands as its map, bounds or set takes; a loop has a result for
each initial value, and structured operations have the regions that they should. -/
structure Suits (d : OpData) : Prop where
  apply : d.name = applyName → ∃ m, mapAt d "map" = some m ∧ m.numInputs = d.operands.length
  access : ∀ kind, AccessKind.ofName? d.name = some kind →
    ∃ m, mapAt d "map" = some m ∧ m.numInputs = d.operands.length - kind.mapStart
  loop : d.name = forName → ∃ lower upper, mapAt d BoundSide.lower.key = some lower ∧
    mapAt d BoundSide.upper.key = some upper ∧
    d.operands.length = lower.numInputs + upper.numInputs + d.results.length
  condition : d.name = affineIfName →
    ∃ set, setAt d "condition" = some set ∧ set.numInputs = d.operands.length
  regions : FewRegions d

/-- What counts is the name, the attributes and the numbers of operands, results and regions. -/
theorem Suits.congr (h : Suits d) (hname : e.name = d.name) (hattrs : e.attrs = d.attrs)
    (hoperands : e.operands.length = d.operands.length)
    (hresults : e.results.length = d.results.length)
    (hregions : e.regions.length = d.regions.length) : Suits e where
  apply hn := by
    rw [mapAt, hattrs, hoperands]
    exact h.apply (hname ▸ hn)
  access kind hk := by
    rw [mapAt, hattrs, hoperands]
    exact h.access kind (hname ▸ hk)
  loop hn := by
    rw [mapAt, mapAt, hattrs, hoperands, hresults]
    exact h.loop (hname ▸ hn)
  condition hn := by
    rw [setAt, hattrs, hoperands]
    exact h.condition (hname ▸ hn)
  regions := by
    refine ⟨fun hn => ?_, fun hn => ?_⟩ <;> rw [hregions]
    · exact h.regions.branches (hname ▸ hn)
    · exact h.regions.terminator (hname ▸ hn)

/-! ### One kind at a time -/

theorem FewRegions.of_name (hbranches : d.name ≠ scfIfName) (hterminator : d.name ≠ scfYieldName) :
    FewRegions d :=
  ⟨fun hn => absurd hn hbranches, fun hn => absurd hn hterminator⟩

namespace Suits

/-- An operation suits if it is none of those that bind a map or set, and not structured. -/
theorem of_name (happly : d.name ≠ applyName) (haccess : AccessKind.ofName? d.name = none)
    (hloop : d.name ≠ forName) (hcondition : d.name ≠ affineIfName) (hregions : FewRegions d) :
    Suits d where
  apply hn := absurd hn happly
  access kind hk := by
    rw [haccess] at hk
    cases hk
  loop hn := absurd hn hloop
  condition hn := absurd hn hcondition
  regions := hregions

theorem of_apply (hname : d.name = applyName)
    (h : ∃ m, mapAt d "map" = some m ∧ m.numInputs = d.operands.length) : Suits d where
  apply _ := h
  access kind hk := by
    rw [hname, show AccessKind.ofName? applyName = none by decide] at hk
    cases hk
  loop hn := absurd (hname.symm.trans hn) (by decide)
  condition hn := absurd (hname.symm.trans hn) (by decide)
  regions := .of_name (by rw [hname]; decide) (by rw [hname]; decide)

theorem of_access {kind : AccessKind} (hkind : AccessKind.ofName? d.name = some kind)
    (h : ∃ m, mapAt d "map" = some m ∧ m.numInputs = d.operands.length - kind.mapStart) :
    Suits d := by
  have hne : ∀ {n : OpName}, AccessKind.ofName? n = none → d.name ≠ n := by
    rintro n hn rfl
    rw [hkind] at hn
    cases hn
  exact {
    apply := fun hn => absurd hn (hne (by decide))
    access := fun kind' hk => by
      cases hkind.symm.trans hk
      exact h
    loop := fun hn => absurd hn (hne (by decide))
    condition := fun hn => absurd hn (hne (by decide))
    regions := .of_name (hne (by decide)) (hne (by decide)) }

theorem of_loop (hname : d.name = forName) (h : ∃ lower upper,
    mapAt d BoundSide.lower.key = some lower ∧ mapAt d BoundSide.upper.key = some upper ∧
      d.operands.length = lower.numInputs + upper.numInputs + d.results.length) : Suits d where
  apply hn := absurd (hname.symm.trans hn) (by decide)
  access kind hk := by
    rw [hname, show AccessKind.ofName? forName = none by decide] at hk
    cases hk
  loop _ := h
  condition hn := absurd (hname.symm.trans hn) (by decide)
  regions := .of_name (by rw [hname]; decide) (by rw [hname]; decide)

theorem of_condition (hname : d.name = affineIfName)
    (h : ∃ set, setAt d "condition" = some set ∧ set.numInputs = d.operands.length) : Suits d where
  apply hn := absurd (hname.symm.trans hn) (by decide)
  access kind hk := by
    rw [hname, show AccessKind.ofName? affineIfName = none by decide] at hk
    cases hk
  loop hn := absurd (hname.symm.trans hn) (by decide)
  condition _ := h
  regions := .of_name (by rw [hname]; decide) (by rw [hname]; decide)

end Suits

/-! ### Attributes that are set -/

theorem get?_insert (key k : String) (value : Attr) (dict : Dict) :
    (dict.insert key value).get? k = if k = key then some value else dict.get? k := by
  induction dict with
  | nil => simp [Dict.insert, Dict.get?]
  | cons e dict ih =>
    obtain ⟨k', v⟩ := e
    by_cases heq : key = k'
    · subst heq
      simp only [Dict.insert, if_true, Dict.get?]
      split <;> rfl
    by_cases hlt : key < k'
    · simp only [Dict.insert, if_neg heq, if_pos hlt, Dict.get?]
    · simp only [Dict.insert, if_neg heq, if_neg hlt, Dict.get?, ih]
      by_cases hk : k = k'
      · simp [hk, Ne.symm heq]
      · simp [hk]

theorem mapAt_insert (d : OpData) (key : String) (m : Map) :
    mapAt { d with attrs := d.attrs.insert key (.map m) } key = some m := by
  rw [mapAt, get?_insert, if_pos rfl]
  rfl

theorem mapAt_insert_other (d : OpData) {key k : String} (value : Attr) (hne : k ≠ key) :
    mapAt { d with attrs := d.attrs.insert key value } k = mapAt d k := by
  rw [mapAt, get?_insert, if_neg hne, mapAt]

theorem setAt_insert (d : OpData) (key : String) (set : ConstraintSet) :
    setAt { d with attrs := d.attrs.insert key (.constraints set) } key = some set := by
  rw [setAt, get?_insert, if_pos rfl]
  rfl

/-! ## The check -/

theorem expectArity_eq_nil {name : OpName} {key : String} {expected : Option Nat} {actual : Nat} :
    expectArity o name key expected actual = [] ↔ expected = some actual := by
  cases expected with
  | none => simp [expectArity]
  | some n => simp [expectArity]

theorem loopArity_eq_nil_iff (hd : s.op? o = some d) : loopArity s o d = .ok [] ↔
    ∃ lower upper, mapAt d BoundSide.lower.key = some lower ∧
      mapAt d BoundSide.upper.key = some upper ∧
      d.operands.length = lower.numInputs + upper.numInputs + d.results.length := by
  have hmap : ∀ side : BoundSide, boundMap? s o side = .ok (mapAt d side.key) := fun side => by
    simp only [boundMap?, attr?, op_ok.2 hd]
    rfl
  have hresults : s.resultsOf o = d.results := resultsOf_eq hd
  simp only [loopArity, hmap, hresults, except_bind_ok, Except.ok.injEq, exists_eq_left']
  cases mapAt d BoundSide.lower.key with
  | none => cases mapAt d BoundSide.upper.key <;> simp
  | some lower =>
    cases mapAt d BoundSide.upper.key with
    | none => simp
    | some upper =>
      simp only [except_pure, Except.ok.injEq, List.append_eq_nil_iff, expectArity_eq_nil,
        Option.some.injEq]
      constructor
      · rintro ⟨h, h'⟩
        exact ⟨lower, upper, rfl, rfl, by omega⟩
      · rintro ⟨_, _, rfl, rfl, h⟩
        omega

/-- What the check of arities reads of an operation. -/
theorem affineArity_eq (hd : s.op? o = some d) : affineArity s o =
    if d.name = applyName then
      .ok (expectArity o d.name "map" ((mapAt d "map").map (·.numInputs)) d.operands.length)
    else match AccessKind.ofName? d.name with
      | some kind => .ok (expectArity o d.name "map" ((mapAt d "map").map (·.numInputs))
          (d.operands.length - kind.mapStart))
      | none =>
        if d.name = forName then loopArity s o d
        else if d.name = affineIfName then .ok (expectArity o d.name "condition"
          ((setAt d "condition").map (·.numInputs)) d.operands.length)
        else .ok [] := by
  have hmap : opMap? s o = .ok (mapAt d "map") := by
    simp only [opMap?, attr?, op_ok.2 hd]
    rfl
  have hset : conditionSet? s o = .ok (setAt d "condition") := by
    simp only [conditionSet?, attr?, op_ok.2 hd]
    rfl
  simp only [affineArity, op_ok.2 hd, hmap, hset]
  rfl

/-- The check of arities finds nothing in an operation exactly if it suits. -/
theorem affineArity_eq_nil_iff (hd : s.op? o = some d) (hregions : FewRegions d) :
    affineArity s o = .ok [] ↔ Suits d := by
  rw [affineArity_eq hd]
  by_cases happly : d.name = applyName
  · rw [if_pos happly, Except.ok.injEq, expectArity_eq_nil, Option.map_eq_some_iff]
    exact ⟨.of_apply happly, fun h => h.apply happly⟩
  rw [if_neg happly]
  cases haccess : AccessKind.ofName? d.name with
  | some kind =>
    rw [Except.ok.injEq, expectArity_eq_nil, Option.map_eq_some_iff]
    exact ⟨.of_access haccess, fun h => h.access kind haccess⟩
  | none =>
    by_cases hloop : d.name = forName
    · simp only [if_pos hloop, loopArity_eq_nil_iff hd]
      exact ⟨.of_loop hloop, fun h => h.loop hloop⟩
    by_cases hcondition : d.name = affineIfName
    · simp only [if_neg hloop, if_pos hcondition, Except.ok.injEq, expectArity_eq_nil,
        Option.map_eq_some_iff]
      exact ⟨.of_condition hcondition, fun h => h.condition hcondition⟩
    · simp only [if_neg hloop, if_neg hcondition]
      exact iff_of_true trivial (.of_name happly haccess hloop hcondition hregions)

end AffineRaising.Analysis
