/-
# AffineRaising.Proofs.Store.Padding — the same program in a longer table.

What an edit takes out of a program stays in the tables, so two stores can hold the same program and
differ in what was left behind.  A padding says where the tables of one store have entries that the
other does not have; references move by the length of the gap in front of them.  `Padded` relates
two such stores.  Queries and edits cannot tell them apart: what a run finds and does in the one, it
finds and does in the other, with all references moved (`Moved`, `Edit.Moved`).

Successors are left out.  Nothing reads them but copies and the printer, and a successor need not be
a block of the store.
-/
import AffineRaising.Proofs.Analysis.Nesting
import AffineRaising.Proofs.Store.Restore

namespace AffineRaising.IR

open Store AffineRaising.Analysis

/-! ## References -/

/-- A run of entries that one table has and another one has not. -/
structure Gap where
  start : Nat
  length : Nat

namespace Gap

/-- The place of an entry in the longer table. -/
def move (g : Gap) (i : Nat) : Nat := if i < g.start then i else i + g.length

theorem move_of_lt {g : Gap} {i : Nat} (h : i < g.start) : g.move i = i := if_pos h

theorem move_inj {g : Gap} {i j : Nat} : g.move i = g.move j ↔ i = j := by
  unfold move
  split <;> split <;> omega

/-- The gap lies in a table of `n` entries and makes it one of `m`. -/
structure Fits (g : Gap) (n m : Nat) : Prop where
  start_le : g.start ≤ n
  size : m = n + g.length

/-- What is behind the end of one table goes to the same distance behind the end of the other. -/
theorem Fits.move_add {g : Gap} {n m : Nat} (h : g.Fits n m) (k : Nat) :
    g.move (n + k) = m + k := by
  have hle := h.start_le
  have hsize := h.size
  unfold move
  split <;> omega

/-- An entry is in the one table if its image is in the other. -/
theorem Fits.move_lt_iff {g : Gap} {n m i : Nat} (h : g.Fits n m) : g.move i < m ↔ i < n := by
  have hle := h.start_le
  have hsize := h.size
  unfold move
  split <;> omega

/-- Both tables may grow by the same number of entries. -/
theorem Fits.grow {g : Gap} {n m : Nat} (h : g.Fits n m) (k : Nat) : g.Fits (n + k) (m + k) := by
  have hle := h.start_le
  have hsize := h.size
  exact ⟨by omega, by omega⟩

/-- New entries go behind both tables. -/
theorem Fits.getElem?_append {α : Type} {g : Gap} {m : α → α} {table longer : Array α}
    (h : g.Fits table.size longer.size) (new : List α)
    (hold : ∀ i : Nat, longer[g.move i]? = table[i]?.map m) (i : Nat) :
    (longer ++ (new.map m).toArray)[g.move i]? = (table ++ new.toArray)[i]?.map m := by
  by_cases hi : i < table.size
  · rw [Array.getElem?_append_left hi, Array.getElem?_append_left (h.move_lt_iff.2 hi), hold]
  · obtain ⟨k, rfl⟩ : ∃ k, i = table.size + k := ⟨i - table.size, by omega⟩
    rw [h.move_add, Array.getElem?_append_right (by omega), Array.getElem?_append_right (by omega)]
    simp

end Gap

/-- Gaps in the tables of a store. -/
structure Padding where
  ops : Gap
  values : Gap
  blocks : Gap
  regions : Gap

namespace Padding

variable (σ : Padding)

def op (o : OpRef) : OpRef := ⟨σ.ops.move o.index⟩

def value (v : ValueRef) : ValueRef := ⟨σ.values.move v.index⟩

def block (b : BlockRef) : BlockRef := ⟨σ.blocks.move b.index⟩

def region (r : RegionRef) : RegionRef := ⟨σ.regions.move r.index⟩

def origin : Origin → Origin
  | .result o i => .result (σ.op o) i
  | .argument b i => .argument (σ.block b) i

def use (u : Use) : Use := ⟨σ.op u.user, u.slot⟩

def valueData (d : ValueData) : ValueData := ⟨σ.origin d.origin, d.ty⟩

def blockData (d : BlockData) : BlockData :=
  ⟨d.args.map σ.value, d.argTypes, d.ops.map σ.op, d.parent.map σ.region⟩

def regionData (d : RegionData) : RegionData :=
  ⟨d.blocks.map σ.block, d.parent.map σ.op⟩

/-- New values by old ones, both moved. -/
def pairs (m : Renaming) : Renaming := m.map (Prod.map σ.value σ.value)

variable {σ}

/-- Different operations go to different places, and so do values, blocks, regions and uses. -/
@[simp] theorem op_inj {a b : OpRef} : σ.op a = σ.op b ↔ a = b := by
  cases a
  cases b
  simp [op, Gap.move_inj]

@[simp] theorem value_inj {a b : ValueRef} : σ.value a = σ.value b ↔ a = b := by
  cases a
  cases b
  simp [value, Gap.move_inj]

@[simp] theorem block_inj {a b : BlockRef} : σ.block a = σ.block b ↔ a = b := by
  cases a
  cases b
  simp [block, Gap.move_inj]

@[simp] theorem region_inj {a b : RegionRef} : σ.region a = σ.region b ↔ a = b := by
  cases a
  cases b
  simp [region, Gap.move_inj]

@[simp] theorem use_inj {a b : Use} : σ.use a = σ.use b ↔ a = b := by
  cases a
  cases b
  simp [use]

theorem value_beq (a b : ValueRef) : (σ.value a == σ.value b) = (a == b) :=
  Bool.eq_iff_iff.2 (by simp)

theorem op_injective : Function.Injective σ.op := fun _ _ => op_inj.1

theorem value_injective : Function.Injective σ.value := fun _ _ => value_inj.1

/-- The origin of a moved value is the moved origin. -/
@[simp] theorem origin_op? (x : Origin) : (σ.origin x).op? = x.op?.map σ.op := by
  cases x <;> rfl

end Padding

/-! ## Lists of moved references -/

/-- A moved reference stands in a list of moved ones where the reference stood. -/
theorem idxOf?_map {α β : Type} [DecidableEq α] [DecidableEq β] {f : α → β}
    (hf : Function.Injective f) (l : List α) (a : α) : (l.map f).idxOf? (f a) = l.idxOf? a := by
  induction l with
  | nil => rfl
  | cons b l ih => simp [List.idxOf?_cons, ih, hf.eq_iff]

theorem contains_map {α β : Type} [DecidableEq α] [DecidableEq β] {f : α → β}
    (hf : Function.Injective f) (l : List α) (a : α) :
    (l.map f).contains (f a) = l.contains a := by
  simp [List.contains_eq_mem, hf.eq_iff]

/-- Taking a reference out of a list and moving the list can be done in either order. -/
theorem filter_ne_map {α β : Type} [DecidableEq α] [DecidableEq β] {f : α → β}
    (hf : Function.Injective f) (l : List α) (a : α) :
    (l.map f).filter (· != f a) = (l.filter (· != a)).map f := by
  rw [List.filter_map]
  congr 1
  refine List.filter_congr fun b _ => ?_
  simp [bne, hf.eq_iff]

/-! ## Stores -/

/-- The entries of an operation in the two stores, successors apart. -/
structure Like (σ : Padding) (d e : OpData) : Prop where
  name : e.name = d.name
  operands : e.operands = d.operands.map σ.value
  results : e.results = d.results.map σ.value
  resultTypes : e.resultTypes = d.resultTypes
  attrs : e.attrs = d.attrs
  regions : e.regions = d.regions.map σ.region
  parent : e.parent = d.parent.map σ.block

/-- The second store holds what the first one holds, with references moved, and has more entries
only where the gaps are. -/
structure Padded (σ : Padding) (s t : Store) : Prop where
  op? : ∀ o, Option.Rel (Like σ) (s.op? o) (t.op? (σ.op o))
  block? : ∀ b, t.block? (σ.block b) = (s.block? b).map σ.blockData
  region? : ∀ r, t.region? (σ.region r) = (s.region? r).map σ.regionData
  value? : ∀ v, t.value? (σ.value v) = (s.value? v).map σ.valueData
  usesOf : ∀ v, t.usesOf (σ.value v) = (s.usesOf v).map σ.use
  opsFit : σ.ops.Fits s.ops.size t.ops.size
  valuesFit : σ.values.Fits s.values.size t.values.size
  blocksFit : σ.blocks.Fits s.blocks.size t.blocks.size
  regionsFit : σ.regions.Fits s.regions.size t.regions.size

variable {σ : Padding} {s t : Store}

/-! ### A store that restores another one -/

/-- The gaps between the tables of a store and longer ones. -/
def Padding.between (s t : Store) : Padding where
  ops := ⟨s.ops.size, t.ops.size - s.ops.size⟩
  values := ⟨s.values.size, t.values.size - s.values.size⟩
  blocks := ⟨s.blocks.size, t.blocks.size - s.blocks.size⟩
  regions := ⟨s.regions.size, t.regions.size - s.regions.size⟩

section Between

/-- A table at the start of another one: entries up to the gap are the same, and there is nothing
behind it. -/
theorem getElem?_move {α : Type} (table longer : Array α)
    (h : ∀ (i : Nat) a, table[i]? = some a → longer[i]? = some a) (i : Nat) :
    longer[Gap.move ⟨table.size, longer.size - table.size⟩ i]? = table[i]? ∧
      Gap.Fits ⟨table.size, longer.size - table.size⟩ table.size longer.size := by
  have hsize : table.size ≤ longer.size := by
    rcases Nat.eq_zero_or_pos table.size with hzero | hpos
    · omega
    · have hlast := h (table.size - 1) table[table.size - 1] (Array.getElem?_eq_getElem (by omega))
      have hlt := (Array.getElem?_eq_some_iff.1 hlast).1
      omega
  refine ⟨?_, Nat.le_refl _, (Nat.add_sub_cancel' hsize).symm⟩
  by_cases hi : i < table.size
  · rw [Gap.move_of_lt hi, h i table[i] (Array.getElem?_eq_getElem hi),
      Array.getElem?_eq_getElem hi]
  · have hbehind : longer.size ≤ i + (longer.size - table.size) := by omega
    rw [Gap.move, if_neg hi, Array.getElem?_eq_none hbehind, Array.getElem?_eq_none (by omega)]

/-- What is in the shorter store keeps its reference, and so do values, blocks and regions. -/
theorem between_op {o : OpRef} {d : OpData} (h : s.op? o = some d) :
    (Padding.between s t).op o = o :=
  congrArg OpRef.mk (Gap.move_of_lt (Array.getElem?_eq_some_iff.1 h).1)

theorem between_value {v : ValueRef} {d : ValueData} (h : s.value? v = some d) :
    (Padding.between s t).value v = v :=
  congrArg ValueRef.mk (Gap.move_of_lt (Array.getElem?_eq_some_iff.1 h).1)

theorem between_block {b : BlockRef} {d : BlockData} (h : s.block? b = some d) :
    (Padding.between s t).block b = b :=
  congrArg BlockRef.mk (Gap.move_of_lt (Array.getElem?_eq_some_iff.1 h).1)

theorem between_region {r : RegionRef} {d : RegionData} (h : s.region? r = some d) :
    (Padding.between s t).region r = r :=
  congrArg RegionRef.mk (Gap.move_of_lt (Array.getElem?_eq_some_iff.1 h).1)

theorem map_eq_self {α : Type} {f : α → α} {l : List α} (h : ∀ a ∈ l, f a = a) : l.map f = l := by
  conv_rhs => rw [← List.map_id l]
  exact List.map_congr_left h

/-- What a linked store holds keeps its references in a longer one. -/
theorem between_opData (hl : Linked s) (hg : Grounded s) {o : OpRef} {d : OpData}
    (hd : s.op? o = some d) : Like (Padding.between s t) d d where
  name := rfl
  operands := (map_eq_self fun v hv => (hg o d v hd hv).elim fun _ => between_value).symm
  results := by
    refine (map_eq_self fun v hv => ?_).symm
    obtain ⟨k, hk⟩ := List.mem_iff_getElem?.1 hv
    have horigin := (hl.results.mem_iff (a := o) (by simp [resultsIn, hd]) k v).1 hk
    obtain ⟨a, ha, _⟩ := Option.map_eq_some_iff.1 horigin
    exact between_value ha
  resultTypes := rfl
  attrs := rfl
  regions := by
    refine (map_eq_self fun r hr => ?_).symm
    obtain ⟨rd, hrd, _⟩ := region?_of_op hl hd hr
    exact between_region hrd
  parent := by
    cases hparent : d.parent with
    | none => rfl
    | some b =>
      have hholder : s.opParent o = some (some b) := by simp [opParent, hd, hparent]
      obtain ⟨l, hl⟩ := hl.ops.holder hholder
      obtain ⟨bd, hbd, _⟩ := Option.map_eq_some_iff.1 hl
      rw [Option.map_some, between_block hbd]

/-- The entry of a block names only what is there, so it stays the same. -/
theorem between_blockData (hl : Linked s) {b : BlockRef} {d : BlockData}
    (hd : s.block? b = some d) : (Padding.between s t).blockData d = d := by
  have hargs : d.args.map (Padding.between s t).value = d.args := by
    refine map_eq_self fun v hv => ?_
    obtain ⟨k, hk⟩ := List.mem_iff_getElem?.1 hv
    have horigin := (hl.args.mem_iff (a := b) (by simp [argsIn, hd]) k v).1 hk
    obtain ⟨a, ha, _⟩ := Option.map_eq_some_iff.1 horigin
    exact between_value ha
  have hops : d.ops.map (Padding.between s t).op = d.ops := by
    refine map_eq_self fun o ho => ?_
    have hparent := (hl.ops.mem_iff (a := b) (by simp [opsIn, hd]) o).1 ho
    obtain ⟨e, he, _⟩ := Option.map_eq_some_iff.1 hparent
    exact between_op he
  have hparent : d.parent.map (Padding.between s t).region = d.parent := by
    cases hp : d.parent with
    | none => rfl
    | some r =>
      have hholder : s.blockParent b = some (some r) := by simp [blockParent, hd, hp]
      obtain ⟨l, hl⟩ := hl.blocks.holder hholder
      obtain ⟨rd, hrd, _⟩ := Option.map_eq_some_iff.1 hl
      rw [Option.map_some, between_region hrd]
  rw [Padding.blockData, hargs, hops, hparent]

theorem between_regionData (hl : Linked s) {r : RegionRef} {d : RegionData}
    (hd : s.region? r = some d) : (Padding.between s t).regionData d = d := by
  have hblocks : d.blocks.map (Padding.between s t).block = d.blocks := by
    refine map_eq_self fun b hb => ?_
    obtain ⟨bd, hbd, _⟩ := block?_of_region hl hd hb
    exact between_block hbd
  have hparent : d.parent.map (Padding.between s t).op = d.parent := by
    cases hp : d.parent with
    | none => rfl
    | some o =>
      have hholder : s.regionParent r = some (some o) := by simp [regionParent, hd, hp]
      obtain ⟨l, hl⟩ := hl.regions.holder hholder
      obtain ⟨e, he, _⟩ := Option.map_eq_some_iff.1 hl
      rw [Option.map_some, between_op he]
  rw [Padding.regionData, hblocks, hparent]

theorem between_valueData (hl : Linked s) {v : ValueRef} {d : ValueData}
    (hd : s.value? v = some d) : (Padding.between s t).valueData d = d := by
  obtain ⟨origin, ty⟩ := d
  cases origin with
  | result o k =>
    obtain ⟨e, he⟩ := op?_of_result hl (v := v) (o := o) (k := k) (by simp [originOf, hd])
    simp only [Padding.valueData, Padding.origin, between_op he]
  | argument b k =>
    obtain ⟨e, he⟩ := block?_of_argument hl (v := v) (b := b) (k := k) (by simp [originOf, hd])
    simp only [Padding.valueData, Padding.origin, between_block he]

/-- A store that restores another one holds the same program. -/
theorem Restores.padded (h : Restores s t) (hl : Linked s) (hs : Grounded s) (hps : PointsBack s)
    (ht : Grounded t) (hpt : PointsBack t) : Padded (Padding.between s t) s t := by
  have hops := getElem?_move s.ops t.ops fun i => h.op? ⟨i⟩
  have hblocks := getElem?_move s.blocks t.blocks fun i => h.block? ⟨i⟩
  have hregions := getElem?_move s.regions t.regions fun i => h.region? ⟨i⟩
  have hvalues := getElem?_move s.values t.values fun i => h.value? ⟨i⟩
  have hvalue : ∀ v, t.value? ((Padding.between s t).value v) = s.value? v := fun v =>
    (hvalues v.index).1
  refine ⟨fun o => ?_, fun b => ?_, fun r => ?_, fun v => ?_, fun v => ?_, (hops 0).2,
    (hvalues 0).2, (hblocks 0).2, (hregions 0).2⟩
  · have hsame : t.op? ((Padding.between s t).op o) = s.op? o := (hops o.index).1
    rw [hsame]
    cases hd : s.op? o with
    | none => exact .none
    | some d => exact .some (between_opData hl hs hd)
  · refine (hblocks b.index).1.trans ?_
    cases hd : s.block? b with
    | none => exact hd
    | some d => rw [Option.map_some, between_blockData hl hd]; exact hd
  · refine (hregions r.index).1.trans ?_
    cases hd : s.region? r with
    | none => exact hd
    | some d => rw [Option.map_some, between_regionData hl hd]; exact hd
  · rw [hvalue]
    cases hd : s.value? v with
    | none => rfl
    | some d => rw [Option.map_some, between_valueData hl hd]
  · cases hd : s.value? v with
    | none => rw [hs.usesOf_eq_nil hps hd, ht.usesOf_eq_nil hpt ((hvalue v).trans hd), List.map_nil]
    | some d =>
      rw [between_value hd, h.usesOf v d hd]
      refine (map_eq_self fun u hu => ?_).symm
      -- users are operations of the store
      obtain ⟨e, he, _⟩ := Option.bind_eq_some_iff.1 (hps v u hu)
      rw [Padding.use, between_op he]

end Between

end AffineRaising.IR
