/-
# AffineRaising.Proofs.Store.View — what runs of edits say about the tables.

A run of an edit is an equation `e s = .ok (a, t)`.  This module opens such equations: one lemma for
each way in which edits are put together, and the views `op?`, `block?`, `region?`, `value?`,
`slot?` through which all later statements read a store, with one lemma for each update of a table.

Every edit is a state transformer that can fault, so a proof about it starts by taking its equation
apart into the equations of its parts; `bind_ok`, `query_ok` and their likes do this as simp lemmas,
in one direction only, from a run to the runs of its parts.  What an edit did is then a chain of
table updates, and the views read such a chain from the outside in: an update changes the entry that
it names (`op?_setOp` and its likes, which need that there was one) and leaves all other views alone
(section `Frames`).

The use lists are the one table that grows when it is written, so `usesOf_setUses` has no such
hypothesis.
-/
import AffineRaising.IR.Edit

namespace AffineRaising.IR

variable {α β : Type} {s t : Store}

/-! ## Runs -/

namespace Edit

/-- A run of two edits is a run of the first one and then of the second one. -/
@[simp] theorem bind_ok {e : Edit α} {f : α → Edit β} {b : β} :
    (e >>= f) s = .ok (b, t) ↔ ∃ a s', e s = .ok (a, s') ∧ f a s' = .ok (b, t) := by
  show (e s >>= fun p => f p.1 p.2) = .ok (b, t) ↔ _
  cases e s with
  | error err => simp [bind, Except.bind]
  | ok p =>
    obtain ⟨a, s'⟩ := p
    constructor
    · intro h
      exact ⟨a, s', rfl, h⟩
    · rintro ⟨a', s'', h, h'⟩
      cases h
      exact h'

@[simp] theorem map_ok {e : Edit α} {f : α → β} {b : β} :
    (f <$> e) s = .ok (b, t) ↔ ∃ a, e s = .ok (a, t) ∧ f a = b := by
  show (e s >>= fun p => .ok (f p.1, p.2)) = .ok (b, t) ↔ _
  cases e s with
  | error err => simp [bind, Except.bind]
  | ok p =>
    obtain ⟨a, s'⟩ := p
    constructor
    · intro h
      cases h
      exact ⟨a, rfl, rfl⟩
    · rintro ⟨a', h, rfl⟩
      cases h
      rfl

@[simp] theorem discard_ok {e : Edit α} {u : Unit} :
    (discard e) s = .ok (u, t) ↔ ∃ a, e s = .ok (a, t) := by
  show ((fun _ => ()) <$> e) s = .ok (u, t) ↔ _
  simp

/-- A query changes nothing, so what follows runs on the same store. -/
@[simp high] theorem query_bind {q : Store → Except Fault α} {f : α → Edit β} {b : β} :
    (query q >>= f) s = .ok (b, t) ↔ ∃ a, q s = .ok a ∧ f a s = .ok (b, t) := by
  show ((q s >>= fun a => .ok (a, s)) >>= fun p => f p.1 p.2) = .ok (b, t) ↔ _
  cases q s <;> simp [bind, Except.bind]

@[simp high] theorem get_bind {f : Store → Edit β} : ((get : Edit Store) >>= f) s = f s s := rfl

@[simp high] theorem modify_bind {g : Store → Store} {f : PUnit → Edit β} :
    ((modify g : Edit PUnit) >>= f) s = f ⟨⟩ (g s) := rfl

@[simp high] theorem set_bind {s' : Store} {f : PUnit → Edit β} :
    ((set s' : Edit PUnit) >>= f) s = f ⟨⟩ s' := rfl

@[simp high] theorem throw_bind {e : Fault} {f : α → Edit β} :
    ((throw e : Edit α) >>= f) s = .error e := rfl

@[simp] theorem pure_run {a : α} : (pure a : Edit α) s = .ok (a, s) := rfl

@[simp] theorem throw_run {f : Fault} : (throw f : Edit α) s = .error f := rfl

@[simp] theorem query_ok {q : Store → Except Fault α} {a : α} :
    query q s = .ok (a, t) ↔ q s = .ok a ∧ s = t := by
  show ((q s) >>= fun a => .ok (a, s)) = .ok (a, t) ↔ _
  cases q s <;> simp [bind, Except.bind]

@[simp] theorem get_run : (get : Edit Store) s = .ok (s, s) := rfl

@[simp] theorem modify_run {f : Store → Store} : (modify f : Edit PUnit) s = .ok (⟨⟩, f s) := rfl

@[simp] theorem set_run {s' : Store} : (set s' : Edit PUnit) s = .ok (⟨⟩, s') := rfl

@[simp] theorem ite_run {c : Prop} [Decidable c] {e e' : Edit α} :
    (if c then e else e') s = if c then e s else e' s := by
  split <;> rfl

/-- Every run of the edit that comes to an end keeps `P`. -/
def Keeps (P : Store → Prop) (e : Edit α) : Prop :=
  ∀ s a t, P s → e s = .ok (a, t) → P t

namespace Keeps

variable {P : Store → Prop}

/-- What makes no edit keeps everything. -/
theorem pure (a : α) : Keeps P (pure a) := by
  intro s b t hs h
  cases h
  exact hs

theorem query (q : Store → Except Fault α) : Keeps P (query q) := by
  intro s a t hs h
  rw [query_ok] at h
  exact h.2 ▸ hs

theorem get : Keeps P (get : Edit Store) := by
  intro s a t hs h
  cases h
  exact hs

/-- If the parts of an edit keep a property, the whole keeps it. -/
theorem bind {e : Edit α} {f : α → Edit β} (he : Keeps P e) (hf : ∀ a, Keeps P (f a)) :
    Keeps P (e >>= f) := by
  intro s b t hs h
  rw [bind_ok] at h
  obtain ⟨a, s', ha, hrest⟩ := h
  exact hf a s' b t (he s a s' hs ha) hrest

end Keeps

end Edit

@[simp] theorem except_bind_ok {ε γ δ : Type} {x : Except ε γ} {f : γ → Except ε δ} {b : δ} :
    (x >>= f) = .ok b ↔ ∃ a, x = .ok a ∧ f a = .ok b := by
  cases x <;> simp [bind, Except.bind]

@[simp] theorem except_map_ok {ε γ δ : Type} {x : Except ε γ} {f : γ → δ} {b : δ} :
    (f <$> x) = .ok b ↔ ∃ a, x = .ok a ∧ f a = b := by
  cases x <;> simp [Functor.map, Except.map]

@[simp] theorem except_pure {ε γ : Type} {a : γ} : (pure a : Except ε γ) = .ok a := rfl

@[simp] theorem except_throw {ε γ : Type} {e : ε} : (throw e : Except ε γ) = .error e := rfl

/-! ## Views -/

namespace Store

/-- The entry of an operation. -/
def op? (s : Store) (o : OpRef) : Option OpData := s.ops[o.index]?

/-- The entry of a block. -/
def block? (s : Store) (b : BlockRef) : Option BlockData := s.blocks[b.index]?

/-- The entry of a region. -/
def region? (s : Store) (r : RegionRef) : Option RegionData := s.regions[r.index]?

/-- The entry of a value. -/
def value? (s : Store) (v : ValueRef) : Option ValueData := s.values[v.index]?

/-- The value in an operand slot. -/
def slot? (s : Store) (u : Use) : Option ValueRef :=
  (s.op? u.user).bind fun d => d.operands[u.slot]?

@[simp] theorem op_ok {o : OpRef} {d : OpData} : s.op o = .ok d ↔ s.op? o = some d := by
  unfold op op?
  split <;> simp_all

@[simp] theorem block_ok {b : BlockRef} {d : BlockData} :
    s.block b = .ok d ↔ s.block? b = some d := by
  unfold block block?
  split <;> simp_all

@[simp] theorem region_ok {r : RegionRef} {d : RegionData} :
    s.region r = .ok d ↔ s.region? r = some d := by
  unfold region region?
  split <;> simp_all

@[simp] theorem value_ok {v : ValueRef} {d : ValueData} :
    s.value v = .ok d ↔ s.value? v = some d := by
  unfold value value?
  split <;> simp_all

/-- The operands that a query finds are those of the entry. -/
theorem operandsOf_ok {o : OpRef} {l : List ValueRef} :
    s.operandsOf o = .ok l ↔ ∃ d, s.op? o = some d ∧ d.operands = l := by
  simp only [operandsOf, bind_pure_comp, except_map_ok, op_ok]

theorem nameOf_ok {o : OpRef} {n : OpName} :
    s.nameOf o = .ok n ↔ ∃ d, s.op? o = some d ∧ d.name = n := by
  simp only [nameOf, bind_pure_comp, except_map_ok, op_ok]

/-- An attribute is asked for by its key; the operation has to be there, the key need not. -/
theorem attr?_ok {o : OpRef} {key : String} {a : Option Attr} :
    s.attr? o key = .ok a ↔ ∃ d, s.op? o = some d ∧ d.attrs.get? key = a := by
  simp only [attr?, bind_pure_comp, except_map_ok, op_ok]

theorem definingOp?_ok {v : ValueRef} {o : Option OpRef} :
    s.definingOp? v = .ok o ↔ ∃ d, s.value? v = some d ∧ d.origin.op? = o := by
  simp only [definingOp?, bind_pure_comp, except_map_ok, value_ok]

/-- There is an operand at a position if the operation is there and has that many. -/
theorem operand_ok {o : OpRef} {i : Nat} {v : ValueRef} :
    s.operand o i = .ok v ↔ ∃ d, s.op? o = some d ∧ d.operands[i]? = some v := by
  simp only [operand, except_bind_ok, op_ok]
  constructor
  · rintro ⟨d, hd, h⟩
    refine ⟨d, hd, ?_⟩
    cases hv : d.operands[i]? with
    | none => simp [hv] at h
    | some w =>
      simp only [hv, except_pure, Except.ok.injEq] at h
      rw [h]
  · rintro ⟨d, hd, h⟩
    exact ⟨d, hd, by rw [h]; rfl⟩

theorem resultsOf_eq {o : OpRef} {d : OpData} (h : s.op? o = some d) :
    s.resultsOf o = d.results := by
  unfold resultsOf
  unfold op? at h
  rw [h]

theorem argsOf_eq {b : BlockRef} {d : BlockData} (h : s.block? b = some d) :
    s.argsOf b = d.args := by
  unfold argsOf
  unfold block? at h
  rw [h]

theorem slot?_eq {o : OpRef} {i : Nat} {d : OpData} (h : s.op? o = some d) :
    s.slot? ⟨o, i⟩ = d.operands[i]? := by
  simp [slot?, h]

/-! ## Updates of a table -/

/-- Writing the entry of an operation that is there changes this entry and no other one. -/
theorem op?_setOp {o x : OpRef} {d e : OpData} (h : s.op? o = some d) :
    (s.setOp o e).op? x = if x = o then some e else s.op? x := by
  unfold op? at *
  have hlt : o.index < s.ops.size := (Array.getElem?_eq_some_iff.1 h).1
  obtain ⟨i⟩ := o
  obtain ⟨j⟩ := x
  simp only [setOp, Array.getElem?_setIfInBounds, OpRef.mk.injEq]
  by_cases hij : j = i
  · subst hij
    simpa using hlt
  · simp [hij, Ne.symm hij]

/-- Writing the entry of a block that is there changes this entry and no other one. -/
theorem block?_setBlock {b x : BlockRef} {d e : BlockData} (h : s.block? b = some d) :
    (s.setBlock b e).block? x = if x = b then some e else s.block? x := by
  unfold block? at *
  have hlt : b.index < s.blocks.size := (Array.getElem?_eq_some_iff.1 h).1
  obtain ⟨i⟩ := b
  obtain ⟨j⟩ := x
  simp only [setBlock, Array.getElem?_setIfInBounds, BlockRef.mk.injEq]
  by_cases hij : j = i
  · subst hij
    simpa using hlt
  · simp [hij, Ne.symm hij]

/-- Writing the entry of a region that is there changes this entry and no other one. -/
theorem region?_setRegion {r x : RegionRef} {d e : RegionData} (h : s.region? r = some d) :
    (s.setRegion r e).region? x = if x = r then some e else s.region? x := by
  unfold region? at *
  have hlt : r.index < s.regions.size := (Array.getElem?_eq_some_iff.1 h).1
  obtain ⟨i⟩ := r
  obtain ⟨j⟩ := x
  simp only [setRegion, Array.getElem?_setIfInBounds, RegionRef.mk.injEq]
  by_cases hij : j = i
  · subst hij
    simpa using hlt
  · simp [hij, Ne.symm hij]

/-- A table that grows as far as it is written reads as if empty lists stood behind its end. -/
theorem getD_setGrowing {γ : Type} (table : Array (List γ)) (i j : Nat) (entry : List γ) :
    (setGrowing table i entry).getD j [] = if j = i then entry else table.getD j [] := by
  unfold setGrowing
  by_cases h : i < table.size
  · simp only [h, if_true, Array.getD_eq_getD_getElem?, Array.getElem?_setIfInBounds]
    by_cases hij : j = i
    · simp [hij]
    · simp [hij, Ne.symm hij]
  · simp only [h, if_false, Array.getD_eq_getD_getElem?, Array.getElem?_push,
      Array.getElem?_append, Array.size_append, Array.size_replicate, Array.getElem?_replicate]
    have hsize : table.size + (i - table.size) = i := by omega
    rw [hsize]
    by_cases hij : j = i
    · simp [hij]
    · by_cases hj : j < table.size
      · simp [hij, hj]
      · simp only [hij, hj, if_false]
        split <;> simp_all

@[simp] theorem usesOf_setUses (s : Store) (v w : ValueRef) (us : List Use) :
    (s.setUses v us).usesOf w = if w = v then us else s.usesOf w := by
  obtain ⟨i⟩ := v
  obtain ⟨j⟩ := w
  simp only [usesOf, setUses, getD_setGrowing, ValueRef.mk.injEq]

section Frames

variable (s : Store) (o : OpRef) (d : OpData) (b : BlockRef) (bd : BlockData) (r : RegionRef)
  (rd : RegionData) (v : ValueRef) (us : List Use)

@[simp] theorem block?_setOp (x : BlockRef) : (s.setOp o d).block? x = s.block? x := rfl
@[simp] theorem region?_setOp (x : RegionRef) : (s.setOp o d).region? x = s.region? x := rfl
@[simp] theorem value?_setOp (x : ValueRef) : (s.setOp o d).value? x = s.value? x := rfl
@[simp] theorem usesOf_setOp (x : ValueRef) : (s.setOp o d).usesOf x = s.usesOf x := rfl
@[simp] theorem op?_setBlock (x : OpRef) : (s.setBlock b bd).op? x = s.op? x := rfl
@[simp] theorem region?_setBlock (x : RegionRef) : (s.setBlock b bd).region? x = s.region? x := rfl
@[simp] theorem value?_setBlock (x : ValueRef) : (s.setBlock b bd).value? x = s.value? x := rfl
@[simp] theorem usesOf_setBlock (x : ValueRef) : (s.setBlock b bd).usesOf x = s.usesOf x := rfl
@[simp] theorem op?_setRegion (x : OpRef) : (s.setRegion r rd).op? x = s.op? x := rfl
@[simp] theorem block?_setRegion (x : BlockRef) : (s.setRegion r rd).block? x = s.block? x := rfl
@[simp] theorem value?_setRegion (x : ValueRef) : (s.setRegion r rd).value? x = s.value? x := rfl
@[simp] theorem usesOf_setRegion (x : ValueRef) : (s.setRegion r rd).usesOf x = s.usesOf x := rfl
@[simp] theorem op?_setUses (x : OpRef) : (s.setUses v us).op? x = s.op? x := rfl
@[simp] theorem block?_setUses (x : BlockRef) : (s.setUses v us).block? x = s.block? x := rfl
@[simp] theorem region?_setUses (x : RegionRef) : (s.setUses v us).region? x = s.region? x := rfl
@[simp] theorem value?_setUses (x : ValueRef) : (s.setUses v us).value? x = s.value? x := rfl

end Frames

@[simp] theorem usesOf_addUse (s : Store) (v w : ValueRef) (u : Use) :
    (s.addUse v u).usesOf w = if w = v then s.usesOf v ++ [u] else s.usesOf w := by
  simp [addUse]

@[simp] theorem usesOf_dropUses (s : Store) (v w : ValueRef) (drop : Use → Bool) :
    (s.dropUses v drop).usesOf w =
      if w = v then (s.usesOf v).filter fun u => !drop u else s.usesOf w := by
  simp [dropUses]

end Store

end AffineRaising.IR
