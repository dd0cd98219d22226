/-
# AffineRaising.Proofs.Raise.Writes — a promotion moves no write.

What a promotion hoists at most reads memory.  So the operations that may write, themselves or by
what is nested in them, stay in their blocks and keep their order, and nothing that came into being
may write: `promotion_moves_no_write`.  Reads have no such protection.  A load is moved in front of
a store that comes before it, because nothing is looked at on the way:
`promotion_moves_read_across_write`.
-/
import AffineRaising.Proofs.Raise.Placement
import AffineRaising.Proofs.Raise.Promoted

namespace AffineRaising.Raise

open AffineRaising.IR AffineRaising.IR.Store AffineRaising.Ops AffineRaising.Analysis

variable {J J' : Journal} {s s₁ t : Store}

/-! ## Effects -/

/-- The operation, or one nested in it, has the effect. -/
def HasEffect (s : Store) (effect : Effect) (o : OpRef) : Prop :=
  ∃ x d, Within s o x ∧ s.op? x = some d ∧ Effect.ofName d.name = effect

/-- The operation, or one nested in it, may write memory. -/
abbrev MayWrite (s : Store) (o : OpRef) : Prop := HasEffect s .write o

/-- The check of effects goes through all that is nested, so what passes it does not write. -/
theorem not_mayWrite_of_isReadOnly {o : OpRef} (h : isReadOnly s o = .ok true) :
    ¬ MayWrite s o := by
  rintro ⟨x, d, hw, hx, heffect⟩
  have haccepts := effectsWithin_sound _ h hw hx
  rw [heffect] at haccepts
  cases haccepts

/-! ## A hoist -/

namespace Hoisted

variable {gone : OpRef → Prop} {o c : OpRef} {p : Point} {b : BlockRef} {before : Option OpRef}
  {sc si sr : Store} {m : Renaming} (h : Hoisted gone s o p b before c sc si sr t)
  (hclone : cloneOp [] o s = .ok ((c, m), sc))

include h

/-- A hoist changes no names. -/
theorem name_eq {x : OpRef} {e e' : OpData} (he : t.op? x = some e) (he' : sc.op? x = some e') :
    e.name = e'.name := by
  have hfixed := h.op?_fixed x
  rw [he, he', Option.map_some, Option.map_some] at hfixed
  exact congrArg (·.name) (Option.some.inj hfixed)

include hclone

/-- What is nested in something new is new. -/
theorem within_new {x z : OpRef} (hx : s.op? x = none) (hw : Within t x z) : s.op? z = none := by
  obtain ⟨src, hmirrors, _⟩ := h.mirrors hclone
  induction hw with
  | refl => exact hx
  | tail _ hchild ih =>
    rcases h.child_cases hchild with rfl | ⟨_, hchild⟩
    · exact h.placed.cloned.new
    · exact (hmirrors.child h.placed.cloned.copied h.placed.kept.linked
        h.placed.cloned.kept.linked ih hchild).1

variable (hreads : ¬ MayWrite s o)

include hreads

/-- New operations have the names of what they were copied from. -/
theorem not_mayWrite_new {x : OpRef} (hx : s.op? x = none) : ¬ MayWrite t x := by
  rintro ⟨z, e, hw, he, heffect⟩
  have hz := h.within_new hclone hx hw
  obtain ⟨src, hmirrors, hwithin⟩ := h.mirrors hclone
  obtain ⟨e', he', _⟩ := h.op?_of_fixed he
  obtain ⟨d, hd, halike⟩ := hmirrors.ops z e' hz he'
  rw [h.name_eq he he', halike.name] at heffect
  exact hreads ⟨src.op z, d, hwithin z e' hz he', hd, heffect⟩

/-- The same operations may write. -/
theorem mayWrite_iff (x : OpRef) : MayWrite t x ↔ MayWrite s x := by
  have hcopied := h.placed.cloned.copied
  have hl := h.placed.kept.linked
  constructor
  · rintro ⟨z, e, hw, he, heffect⟩
    -- what leads to a write is old
    have hold : ∀ y, Within t y z → ∃ dy, s.op? y = some dy := by
      intro y hy
      cases hsy : s.op? y with
      | some dy => exact ⟨dy, rfl⟩
      | none => exact absurd ⟨z, e, hy, he, heffect⟩ (h.not_mayWrite_new hclone hreads hsy)
    have hwithin : Within s x z := by
      induction hw using Relation.ReflTransGen.head_induction_on with
      | refl => exact .refl
      | @head a y hchild hrest ih =>
        obtain ⟨da, hda⟩ := hold a (.head hchild hrest)
        obtain ⟨dy, hdy⟩ := hold y hrest
        rcases h.child_cases hchild with heq | ⟨_, hchild⟩
        · exact absurd heq (h.placed.old_ne hdy)
        · exact .head ((hcopied.child_iff hl hda).1 hchild) ih
    obtain ⟨dz, hdz⟩ := hold z .refl
    rw [h.name_eq he (hcopied.op? z dz hdz)] at heffect
    exact ⟨z, dz, hwithin, hdz, heffect⟩
  · rintro ⟨z, dz, hw, hdz, heffect⟩
    obtain ⟨e, he, _⟩ := h.fixed_of_op? (hcopied.op? z dz hdz)
    rw [← h.name_eq he (hcopied.op? z dz hdz)] at heffect
    refine ⟨z, e, ?_, he, heffect⟩
    induction hw using Relation.ReflTransGen.head_induction_on with
    | refl => exact .refl
    | @head a y hchild hrest ih =>
      obtain ⟨da, hda⟩ := op?_of_child hchild
      have hyo : y ≠ o := by
        rintro rfl
        exact hreads ⟨z, dz, hrest, hdz, by rwa [← h.name_eq he (hcopied.op? z dz hdz)]⟩
      exact .head (h.child_of ((hcopied.child_iff hl hda).2 hchild) hyo) ih

end Hoisted

/-! ## Runs -/

open Classical in
/-- The operations of a block that may write memory, in order. -/
noncomputable def writersIn (s : Store) (b : BlockRef) : List OpRef :=
  ((s.opsIn b).getD []).filter fun x => MayWrite s x

/-- Only members of the block are listed. -/
theorem mem_writersIn {b : BlockRef} {x : OpRef} :
    x ∈ writersIn s b ↔ MayWrite s x ∧ ∃ d, s.block? b = some d ∧ x ∈ d.ops := by
  cases hb : s.block? b with
  | none => simp [writersIn, opsIn, hb]
  | some d => simp [writersIn, opsIn, hb, and_comm]

/-- Between two stores no write moved: the same operations may write, so none of those that came
does, and in every block they are the same in the same order. -/
structure WritesStay (s t : Store) : Prop where
  same : ∀ x, MayWrite t x ↔ MayWrite s x
  order : ∀ b, writersIn t b = writersIn s b

theorem WritesStay.refl (s : Store) : WritesStay s s := ⟨fun _ => .rfl, fun _ => rfl⟩

/-- What stays in two steps stays. -/
theorem WritesStay.trans (h : WritesStay s s₁) (h' : WritesStay s₁ t) : WritesStay s t :=
  ⟨fun x => (h'.same x).trans (h.same x), fun b => (h'.order b).trans (h.order b)⟩

theorem MayWrite.op? {x : OpRef} (h : MayWrite s x) : ∃ d, s.op? x = some d := by
  obtain ⟨z, d, hw, hd, _⟩ := h
  rcases Relation.ReflTransGen.cases_head hw with rfl | ⟨y, hy, _⟩
  · exact ⟨d, hd⟩
  · exact op?_of_child hy

/-- The copy has the effects of the original, so hoisting what only reads moves no write. -/
theorem Hoisted.writesStay {gone : OpRef → Prop} {o c : OpRef} {p : Point} {b : BlockRef}
    {before : Option OpRef} {sc si sr : Store} {m : Renaming}
    (h : Hoisted gone s o p b before c sc si sr t) (hclone : cloneOp [] o s = .ok ((c, m), sc))
    (hreads : ¬ MayWrite s o) : WritesStay s t := by
  have hcopied := h.placed.cloned.copied
  have hl := h.placed.kept.linked
  have hsame := h.mayWrite_iff hclone hreads
  refine ⟨hsame, fun x => ?_⟩
  classical
  -- neither the copy nor the original writes, and apart from these the block is what it was
  have hneither : ∀ y, MayWrite s y → (y != c && y != o) = true := by
    intro y hy
    obtain ⟨d, hd⟩ := hy.op?
    have hyo : y ≠ o := fun heq => hreads (heq ▸ hy)
    simp [h.placed.old_ne hd, hyo]
  have hdrop : ∀ l : Option (List OpRef), (l.getD []).filter (fun y => MayWrite s y) =
      ((l.map (·.filter fun y => y != c && y != o)).getD []).filter fun y => MayWrite s y := by
    intro l
    cases l with
    | none => rfl
    | some l =>
      simp only [Option.map_some, Option.getD_some, List.filter_filter]
      refine List.filter_congr fun y _ => ?_
      by_cases hy : MayWrite s y
      · simp [hy, hneither y hy]
      · simp [hy]
  have hcopy : writersIn t x = ((sc.opsIn x).getD []).filter fun y => MayWrite s y := by
    unfold writersIn
    simp only [hsame]
    rw [hdrop, h.opsIn_eq, ← hdrop]
  rw [hcopy, writersIn]
  cases hb : s.block? x with
  | some d => rw [opsIn, opsIn, hb, hcopied.block? x d hb]
  | none =>
    -- the operations of a new block are new
    have hnone : s.opsIn x = none := by rw [opsIn, hb, Option.map_none]
    rw [hnone, Option.getD_none, List.filter_nil, List.filter_eq_nil_iff]
    intro y hy hwrites
    obtain ⟨d, hd⟩ := MayWrite.op? (by simpa using hwrites)
    cases hsc : sc.block? x with
    | none => simp [opsIn, hsc] at hy
    | some e =>
      have hin : sc.opsIn x = some e.ops := by rw [opsIn, hsc, Option.map_some]
      rw [hin, Option.getD_some] at hy
      have hparent := (h.placed.cloned.kept.linked.ops.mem_iff hin y).1 hy
      rw [opParent, hcopied.op? y d hd] at hparent
      obtain ⟨l, hl⟩ := hl.ops.holder (b := y) (a := x) (by rw [opParent, hd]; exact hparent)
      rw [hnone] at hl
      cases hl

/-- The entry names only operations that do not write. -/
def Entry.Harmless (s : Store) : Entry → Prop
  | .hoisted source _ _ clone => ¬ MayWrite s source ∧ ¬ MayWrite s clone
  | .inserted op => ¬ MayWrite s op

/-- An entry stays harmless while no write moves. -/
theorem Entry.Harmless.later {e : Entry} (h : e.Harmless s) (hs : WritesStay s t) :
    e.Harmless t := by
  cases e with
  | hoisted source block before clone =>
    exact ⟨fun hw => h.1 ((hs.same source).1 hw), fun hw => h.2 ((hs.same clone).1 hw)⟩
  | inserted op => exact fun hw => h ((hs.same op).1 hw)

/-- From a consistent store a run leads to another one, moves no write, and adds harmless entries to
the journal. -/
def Quiet (x y : Journal × Store) : Prop :=
  Consistent x.2 → Consistent y.2 ∧ WritesStay x.2 y.2 ∧
    ∃ moved, y.1 = x.1 ++ moved ∧ ∀ e ∈ moved, e.Harmless y.2

namespace Quiet

theorem refl (x : Journal × Store) : Quiet x x :=
  fun hx => ⟨hx, .refl _, [], (List.append_nil _).symm, by simp⟩

/-- Runs without writes follow one another. -/
theorem trans {x y z : Journal × Store} (h : Quiet x y) (h' : Quiet y z) : Quiet x z := by
  intro hx
  obtain ⟨hy, hwrites, moved, hmoved, hharmless⟩ := h hx
  obtain ⟨hz, hwrites', moved', hmoved', hharmless'⟩ := h' hy
  refine ⟨hz, hwrites.trans hwrites', moved ++ moved', ?_, fun e he => ?_⟩
  · rw [hmoved', hmoved, List.append_assoc]
  · rcases List.mem_append.1 he with he | he
    · exact (hharmless e he).later hwrites'
    · exact hharmless' e he

theorem of_reflTransGen {x y : Journal × Store} (h : Relation.ReflTransGen Quiet x y) :
    Quiet x y := by
  induction h with
  | refl => exact refl x
  | tail _ hlast ih => exact ih.trans hlast

end Quiet

/-- A hoist of what only reads is quiet. -/
theorem hoist_quiet {o : OpRef} {p : Point} {r : Option OpRef} (hreads : ¬ MayWrite s o)
    (h : hoist o p J s = .ok ((r, J'), t)) : Quiet (J, s) (J', t) := by
  intro hs
  cases r with
  | none =>
    obtain ⟨_, _, ⟨_, _, rfl, rfl⟩ | ⟨_, _, _, _, _, _, _, _, _, _, _, _, _, hr, _⟩⟩ := hoist_ok h
    · exact Quiet.refl _ hs
    · cases hr
  | some c =>
    obtain ⟨⟨gone, hk⟩, hg⟩ := hs
    obtain ⟨b, before, sc, si, sr, m, hhoisted, hclone, hJ⟩ := hoist_hoisted hk hg h
    have hwrites := hhoisted.writesStay hclone hreads
    refine ⟨hhoisted.consistent, hwrites, [.hoisted o b before c], hJ, fun e he => ?_⟩
    rw [List.mem_singleton.1 he]
    exact ⟨fun hw => hreads ((hwrites.same o).1 hw),
      hhoisted.not_mayWrite_new hclone hreads hhoisted.placed.cloned.new⟩

/-- Operands are promoted one by one. -/
theorem availabilityWith_quiet {promote : ValueRef → Draft (Option ValueRef)} {forIndex : Bool}
    (hpromote : ∀ v, Draft.Follows Quiet (promote v)) (vs : List ValueRef) :
    Draft.Follows Quiet (availabilityWith promote forIndex vs) := by
  induction vs with
  | nil => exact .pure _
  | cons v vs ih =>
    have hrest : ∀ available,
        Draft.Follows Quiet (availabilityFrom promote forIndex vs available) := by
      intro available
      cases available with
      | none => exact .pure _
      | some a =>
        refine .bind (.ask _) fun p => ?_
        cases p with
        | none => exact .pure _
        | some p =>
          refine .bind ih fun ps => ?_
          cases ps with
          | none => exact .pure _
          | some ps => exact .pure _
    unfold availabilityWith
    exact .bind (.ask _) fun _ => .bind (.ask _) fun _ =>
      .ite (.bind (hpromote v) hrest) (.ite (hrest (some v)) (hrest none))

/-- By induction on the steps: what is hoisted was checked to only read. -/
theorem promoteFuel_quiet {forIndex : Bool} (n : Nat) :
    ∀ v, Draft.Follows Quiet (promoteFuel forIndex n v) := by
  induction n with
  | zero => exact fun v => .throw _
  | succ n ih =>
    intro v J s r J' t h
    obtain ⟨rfl, rfl, _⟩ | ⟨o, free, points, J₁, s₁, _, hreads, _, havail, hrest⟩ :=
      promoteFuel_ok h
    · exact .refl
    · have hinputs := availabilityWith_quiet ih free J s _ J₁ s₁ havail
      obtain ⟨rfl, rfl, _⟩ | ⟨ps, p, clone, rfl, _, hhoist, _⟩ := hrest
      · exact hinputs
      · refine .single fun hs => ?_
        -- while its inputs were made available, the definition kept its effects
        obtain ⟨_, hwrites, _⟩ := Quiet.of_reflTransGen hinputs hs
        have hreads₁ : ¬ MayWrite s₁ o := fun hw =>
          not_mayWrite_of_isReadOnly hreads ((hwrites.same o).1 hw)
        exact (Quiet.of_reflTransGen hinputs).trans (hoist_quiet hreads₁ hhoist) hs

/-- A promotion from a consistent store moves no write.  The same operations may write before and
after it, so neither what it hoisted nor what it made does; and in every block the operations that
may write are the same in the same order. -/
theorem promotion_moves_no_write {v : ValueRef} {forIndex : Bool} {r : Option ValueRef}
    (hs : Consistent s) (h : promote v forIndex J s = .ok ((r, J'), t)) :
    (∀ x, MayWrite t x ↔ MayWrite s x) ∧ (∀ b, writersIn t b = writersIn s b) ∧
      ∃ moved, J' = J ++ moved ∧ ∀ e ∈ moved, e.Harmless t := by
  simp only [promote, Draft.bind_ok, Draft.lift_ok, Edit.get_run] at h
  obtain ⟨_, _, _, ⟨hget, rfl⟩, h⟩ := h
  cases hget
  obtain ⟨_, hwrites, hmoved⟩ :=
    Quiet.of_reflTransGen (promoteFuel_quiet s.depthBound v J s r J' t h) hs
  exact ⟨hwrites.same, hwrites.order, hmoved⟩

/-! ## A load behind a store -/

/-- A store, and behind it a conditional one branch of which loads: the load is promoted to the
start of the function. -/
theorem load_promoted :
    let store := Surface.Op.plain storeName [] ["a", "m", "a"] [] []
    let load := Surface.Op.plain loadName ["x"] ["m", "a"] [.index] []
    let yield := fun value => Surface.Op.plain scfYieldName [] [value] [] []
    let conditional := Surface.Op.plain scfIfName ["r"] ["c"] [.index]
      [[load, yield "x"], [yield "a"]]
    let tree := Surface.Op.program [⟨"a", .index⟩, ⟨"m", .mk "mem" "ref" [.index] []⟩, ⟨"c", .i1⟩]
      [store, conditional]
    ∃ root scope s t, buildOp Scope.empty tree Store.empty = .ok (.ok (root, scope), s) ∧
      check s root = .ok ⟨[], [], []⟩ ∧
      promote ⟨3⟩ false [] s = .ok ((some ⟨5⟩, [.hoisted ⟨1⟩ ⟨2⟩ (some ⟨2⟩) ⟨7⟩]), t) ∧
      s.nameOf ⟨0⟩ = .ok storeName ∧ s.nameOf ⟨1⟩ = .ok loadName ∧
      s.childOps ⟨4⟩ = .ok [⟨1⟩, ⟨2⟩, ⟨3⟩] ∧ s.opsIn ⟨1⟩ = some [⟨0⟩, ⟨4⟩] ∧
      t.opsIn ⟨1⟩ = some [⟨7⟩, ⟨0⟩, ⟨4⟩] :=
  ⟨⟨6⟩, _, _, _, by cbv, by cbv, by cbv, by cbv, by cbv, by cbv, by cbv, by cbv⟩

theorem hasEffect_of_nameOf {o : OpRef} {name : OpName} (h : s.nameOf o = .ok name) :
    HasEffect s (Effect.ofName name) o := by
  simp only [Store.nameOf, bind_pure_comp, except_map_ok, op_ok] at h
  obtain ⟨d, hd, rfl⟩ := h
  exact ⟨o, d, .refl, hd, rfl⟩

theorem promotion_moves_no_write_load :
    ∃ s J t, Consistent s ∧ promote ⟨3⟩ false [] s = .ok ((some ⟨5⟩, J), t) ∧ J ≠ [] ∧
      (∀ e ∈ J, e.Harmless t) ∧ ⟨0⟩ ∈ writersIn t ⟨1⟩ := by
  obtain ⟨root, scope, s, t, hbuild, _, hrun, hstore, _, _, hops, _⟩ := load_promoted
  have hs := Consistent.of_built hbuild
  obtain ⟨_, horder, moved, hmoved, hharmless⟩ := promotion_moves_no_write hs hrun
  refine ⟨s, _, t, hs, hrun, by simp, ?_, ?_⟩
  · rw [hmoved]
    exact hharmless
  · rw [horder, mem_writersIn]
    obtain ⟨d, hd, hmem⟩ := Option.map_eq_some_iff.1 hops
    exact ⟨hasEffect_of_nameOf hstore, d, hd, by simp [hmem]⟩

/-- In a program that passes every check, a promotion can move an operation that reads memory: from
behind an operation of the same block that may write, to a place in front of it. -/
theorem promotion_moves_read_across_write :
    ¬ ∀ {tree : Surface.Op} {root : OpRef} {scope : Scope} {s t : Store} {v : ValueRef}
        {forIndex : Bool} {r : Option ValueRef} {J : Journal} {source clone writer holder : OpRef}
        {block block' : BlockRef} {before : Option OpRef} {ops : List OpRef},
      buildOp Scope.empty tree Store.empty = .ok (.ok (root, scope), s) →
      check s root = .ok ⟨[], [], []⟩ → promote v forIndex [] s = .ok ((r, J), t) →
      .hoisted source block before clone ∈ J → HasEffect s .read source → MayWrite s writer →
      Within s holder source → t.opsIn block' = some ops →
      ¬ [clone, writer, holder].Sublist ops := by
  intro hclaim
  obtain ⟨root, scope, s, t, hbuild, hcheck, hrun, hstore, hload, hchild, _, hops⟩ := load_promoted
  have hwithin : Within s ⟨4⟩ ⟨1⟩ := .single (child_of_childOps hchild List.mem_cons_self)
  exact hclaim hbuild hcheck hrun List.mem_cons_self (hasEffect_of_nameOf hload)
    (hasEffect_of_nameOf hstore) hwithin hops (List.Sublist.refl _)

end AffineRaising.Raise
