/-
# AffineRaising.Proofs.Raise.Placement — what a hoist does to places.

A hoist changes operands and places and nothing else: every operation keeps its regions, and every
block its operations in order, but for the copy, which comes in, and the original, which leaves.  So
what is nested where after a hoist is what is nested there in the store with the detached copy, up
to these two (`Hoisted.child_cases`, `Hoisted.child_of`).
-/
import AffineRaising.Proofs.Raise.Undo
import AffineRaising.Proofs.Store.Mirror

namespace AffineRaising.IR

open Store AffineRaising.Analysis

variable {s t : Store}

/-- What was there holds what it held. -/
theorem Copied.child_iff (h : Copied s t) (hs : Linked s) {x z : OpRef} {d : OpData}
    (hd : s.op? x = some d) : Child t x z ↔ Child s x z := by
  constructor
  · rintro ⟨e, he, r, hr, re, hre, b, hb, be, hbe, hz⟩
    cases (h.op? x d hd).symm.trans he
    obtain ⟨rd, hrd, _⟩ := region?_of_op hs hd hr
    cases (h.region? r rd hrd).symm.trans hre
    obtain ⟨bd, hbd, _⟩ := block?_of_region hs hrd hb
    cases (h.block? b bd hbd).symm.trans hbe
    exact ⟨d, hd, r, hr, re, hrd, b, hb, be, hbd, hz⟩
  · rintro ⟨e, he, r, hr, re, hre, b, hb, be, hbe, hz⟩
    exact ⟨e, h.op? x e he, r, hr, re, h.region? r re hre, b, hb, be, h.block? b be hbe, hz⟩

/-- An entry apart from operands and place. -/
def fixedOf (d : OpData) : OpData := { d with operands := [], parent := none }

end AffineRaising.IR

namespace AffineRaising.Raise

open AffineRaising.IR AffineRaising.IR.Store AffineRaising.Analysis

variable {s t : Store}

namespace Hoisted

variable {gone : OpRef → Prop} {o c : OpRef} {p : Point} {b : BlockRef} {before : Option OpRef}
  {sc si sr : Store} (h : Hoisted gone s o p b before c sc si sr t)

include h

/-- What a hoist copies is mirrored by the copy. -/
theorem mirrors {m : Renaming} (hclone : cloneOp [] o s = .ok ((c, m), sc)) :
    ∃ src, Mirrors s src sc m ∧
      ∀ x e, s.op? x = none → sc.op? x = some e → Within s o (src.op x) := by
  obtain ⟨d, hd, _⟩ := h.entry
  obtain ⟨src, hmirrors, _, _, hwithin⟩ :=
    cloneOp_mirrors h.placed.kept (h.placed.grounded.groundedIn hd) hclone
  exact ⟨src, hmirrors, hwithin⟩

/-- Operations keep their entries, operands and places apart. -/
theorem op?_fixed (x : OpRef) : (t.op? x).map fixedOf = (sc.op? x).map fixedOf := by
  obtain ⟨_, e, bd, _, _, he, _, rfl⟩ := h.detached
  obtain ⟨hr, _, _⟩ := h.redirected
  obtain ⟨d, bd', front, back, hd, _, _, _, _, _, hsi⟩ := insertOp_ok h.placed.insert
  have hsr : (sr.op? x).map fixedOf = (si.op? x).map fixedOf := by
    rw [hr.op?, Option.map_map]
    rfl
  have hplaced : (si.op? x).map fixedOf = (sc.op? x).map fixedOf := by
    rw [hsi, op?_attach hd]
    by_cases hx : x = c
    · rw [if_pos hx, hx, hd]
      rfl
    · rw [if_neg hx]
  rw [op?_unlink he]
  by_cases hx : x = o
  · rw [if_pos hx, ← hplaced, ← hsr, hx, he]
    rfl
  · rw [if_neg hx, hsr, hplaced]

theorem op?_of_fixed {x : OpRef} {e : OpData} (he : t.op? x = some e) :
    ∃ e', sc.op? x = some e' ∧ fixedOf e = fixedOf e' := by
  have hfixed := h.op?_fixed x
  rw [he, Option.map_some] at hfixed
  obtain ⟨e', he', heq⟩ := Option.map_eq_some_iff.1 hfixed.symm
  exact ⟨e', he', heq.symm⟩

theorem fixed_of_op? {x : OpRef} {e' : OpData} (he' : sc.op? x = some e') :
    ∃ e, t.op? x = some e ∧ fixedOf e = fixedOf e' := by
  have hfixed := h.op?_fixed x
  rw [he', Option.map_some] at hfixed
  exact Option.map_eq_some_iff.1 hfixed

theorem region?_eq (r : RegionRef) : t.region? r = sc.region? r := by
  obtain ⟨_, e, bd, _, _, _, _, rfl⟩ := h.detached
  obtain ⟨hr, _, _⟩ := h.redirected
  obtain ⟨d, bd', front, back, _, _, _, _, _, _, hsi⟩ := insertOp_ok h.placed.insert
  show sr.regions[r.index]? = sc.regions[r.index]?
  rw [hr.regions, hsi]
  rfl

/-- Blocks keep their operations in order, but for the copy and the original. -/
theorem opsIn_eq (x : BlockRef) :
    (t.opsIn x).map (·.filter fun y => y != c && y != o) =
      (sc.opsIn x).map (·.filter fun y => y != c && y != o) := by
  obtain ⟨_, e, bd, _, _, _, hbd, rfl⟩ := h.detached
  obtain ⟨hr, _, _⟩ := h.redirected
  obtain ⟨d, bd', front, back, _, _, hbd', hsplit, _, _, hsi⟩ := insertOp_ok h.placed.insert
  have hplaced : (si.opsIn x).map (·.filter fun y => y != c && y != o) =
      (sc.opsIn x).map (·.filter fun y => y != c && y != o) := by
    rw [opsIn, opsIn, hsi, block?_attach hbd']
    by_cases hx : x = p.block
    · subst hx
      simp [hbd', hsplit]
    · rw [if_neg hx]
  have hblock : ∀ y, sr.block? y = si.block? y := fun y => by
    rw [Store.block?, hr.blocks]
    rfl
  rw [← hplaced, opsIn, block?_unlink ((hblock b).trans hbd)]
  by_cases hx : x = b
  · subst hx
    simp only [if_true, Option.map_some, opsIn, hbd, List.filter_filter]
    congr 2
    funext y
    cases y != c <;> cases y != o <;> rfl
  · rw [if_neg hx, opsIn, hblock]

theorem detached_parent : t.opParent o = some none := by
  obtain ⟨_, e, bd, _, _, he, _, rfl⟩ := h.detached
  rw [opParent, op?_unlink he, if_pos rfl]
  rfl

/-- What is nested in an operation after the hoist is the copy, or was nested there and is not the
original. -/
theorem child_cases {x z : OpRef} (hc : Child t x z) : z = c ∨ z ≠ o ∧ Child sc x z := by
  obtain ⟨e, he, r, hr, re, hre, b', hb', be, hbe, hz⟩ := hc
  have hparent := (h.kept_after.linked.ops.mem_iff (a := b') (by simp [opsIn, hbe]) z).1 hz
  have hzo : z ≠ o := by
    rintro rfl
    rw [h.detached_parent] at hparent
    cases hparent
  by_cases hzc : z = c
  · exact .inl hzc
  · obtain ⟨e', he', hfixed⟩ := h.op?_of_fixed he
    have hops := h.opsIn_eq b'
    rw [opsIn, hbe, Option.map_some, Option.map_some] at hops
    obtain ⟨l, hl, heq⟩ := Option.map_eq_some_iff.1 hops.symm
    obtain ⟨be', hbe', rfl⟩ := Option.map_eq_some_iff.1 hl
    have hmem : z ∈ be'.ops := by
      refine List.mem_of_mem_filter (p := fun y => y != c && y != o) ?_
      rw [heq]
      exact List.mem_filter.2 ⟨hz, by simp [hzc, hzo]⟩
    have hregions : e.regions = e'.regions := congrArg (·.regions) hfixed
    refine .inr ⟨hzo, e', he', r, hregions ▸ hr, re, ?_, b', hb', be', hbe', hmem⟩
    rw [← h.region?_eq, hre]

/-- What was nested in an operation and is not the original still is. -/
theorem child_of {x z : OpRef} (hc : Child sc x z) (hzo : z ≠ o) : Child t x z := by
  obtain ⟨e', he', r, hr, re, hre, b', hb', be', hbe', hz⟩ := hc
  have hparent :=
    (h.placed.cloned.kept.linked.ops.mem_iff (a := b') (by simp [opsIn, hbe']) z).1 hz
  have hzc : z ≠ c := by
    rintro rfl
    obtain ⟨d, hd, hnone⟩ := h.placed.cloned.detached
    simp [opParent, hd, hnone] at hparent
  obtain ⟨e, he, hfixed⟩ := h.fixed_of_op? he'
  have hops := h.opsIn_eq b'
  rw [opsIn, opsIn, hbe', Option.map_some, Option.map_some] at hops
  obtain ⟨l, hl, heq⟩ := Option.map_eq_some_iff.1 hops
  obtain ⟨be, hbe, rfl⟩ := Option.map_eq_some_iff.1 hl
  have hmem : z ∈ be.ops := by
    refine List.mem_of_mem_filter (p := fun y => y != c && y != o) ?_
    rw [heq]
    exact List.mem_filter.2 ⟨hz, by simp [hzc, hzo]⟩
  have hregions : e.regions = e'.regions := congrArg (·.regions) hfixed
  exact ⟨e, he, r, hregions ▸ hr, re, by rw [h.region?_eq, hre], b', hb', be, hbe, hmem⟩

end Hoisted

end AffineRaising.Raise
