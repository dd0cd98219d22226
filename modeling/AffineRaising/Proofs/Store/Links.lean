/-
# AffineRaising.Proofs.Store.Links — members and holders name each other.

Blocks hold operations, regions hold blocks, operations hold regions, and every member names its
holder.  `Links` states for one such pair of tables that the two directions agree and that no member
is listed twice; `Store.Linked` states it for the three pairs, together with the fact that values
name the results and arguments they are.  Every edit keeps a store linked.
-/
import AffineRaising.Proofs.Store.Spec

namespace AffineRaising.IR

/-! ## One pair of tables -/

/-- Lists of members and names of holders agree.  `children a` is missing where there is no holder
`a`, and `parent b` where there is no member `b`. -/
structure Links {A B : Type} (children : A → Option (List B)) (parent : B → Option (Option A)) :
    Prop where
  mem_iff : ∀ {a l}, children a = some l → ∀ b, b ∈ l ↔ parent b = some (some a)
  holder : ∀ {b a}, parent b = some (some a) → ∃ l, children a = some l
  nodup : ∀ {a l}, children a = some l → l.Nodup

namespace Links

variable {A B : Type} {children children' : A → Option (List B)}
  {parent parent' : B → Option (Option A)}

/-- What agrees still agrees if both directions stay. -/
theorem congr (h : Links children parent) (hc : ∀ a, children' a = children a)
    (hp : ∀ b, parent' b = parent b) : Links children' parent' := by
  have hc : children' = children := funext hc
  have hp : parent' = parent := funext hp
  rw [hc, hp]
  exact h

/-- A member without holder finds a place in a list. -/
theorem insert [DecidableEq A] [DecidableEq B] (h : Links children parent) {a : A} {b : B}
    {front back : List B} (ha : children a = some (front ++ back)) (hb : parent b = some none)
    (hc : ∀ x, children' x = if x = a then some (front ++ b :: back) else children x)
    (hp : ∀ x, parent' x = if x = b then some (some a) else parent x) :
    Links children' parent' := by
  have hnew : b ∉ front ++ back := by
    rw [h.mem_iff ha, hb]
    simp
  refine ⟨?_, ?_, ?_⟩
  · intro x l hx y
    rw [hc] at hx
    rw [hp]
    by_cases hxa : x = a
    · subst hxa
      rw [if_pos rfl] at hx
      cases hx
      by_cases hyb : y = b
      · simp [hyb]
      · rw [if_neg hyb, ← h.mem_iff ha]
        simp [hyb]
    · rw [if_neg hxa] at hx
      by_cases hyb : y = b
      · subst hyb
        have hnot : y ∉ l := by
          rw [h.mem_iff hx, hb]
          simp
        simp [hnot, Ne.symm hxa]
      · rw [if_neg hyb]
        exact h.mem_iff hx y
  · intro y x hy
    rw [hp] at hy
    rw [hc]
    by_cases hxa : x = a
    · exact ⟨_, if_pos hxa⟩
    · rw [if_neg hxa]
      by_cases hyb : y = b
      · rw [if_pos hyb] at hy
        exact absurd (by simpa using hy.symm) hxa
      · rw [if_neg hyb] at hy
        exact h.holder hy
  · intro x l hx
    rw [hc] at hx
    by_cases hxa : x = a
    · rw [if_pos hxa] at hx
      cases hx
      rw [List.perm_middle.nodup_iff, List.nodup_cons]
      exact ⟨hnew, h.nodup ha⟩
    · rw [if_neg hxa] at hx
      exact h.nodup hx

/-- Some members leave their holders. -/
theorem remove [DecidableEq B] (h : Links children parent) (gone : List B)
    (hc : ∀ x, children' x = (children x).map (·.filter (· ∉ gone)))
    (hp : ∀ x, parent' x = if x ∈ gone then (parent x).map fun _ => none else parent x) :
    Links children' parent' := by
  refine ⟨?_, ?_, ?_⟩
  · intro a l ha b
    rw [hc] at ha
    obtain ⟨l, hl, rfl⟩ := Option.map_eq_some_iff.1 ha
    rw [List.mem_filter, h.mem_iff hl, hp]
    by_cases hb : b ∈ gone
    · cases parent b <;> simp [hb]
    · simp [hb]
  · intro b a hb
    rw [hp] at hb
    rw [hc]
    by_cases hg : b ∈ gone
    · rw [if_pos hg] at hb
      obtain ⟨_, _, hx⟩ := Option.map_eq_some_iff.1 hb
      cases hx
    · rw [if_neg hg] at hb
      obtain ⟨l, hl⟩ := h.holder hb
      exact ⟨_, by rw [hl]; rfl⟩
  · intro a l ha
    rw [hc] at ha
    obtain ⟨l, hl, rfl⟩ := Option.map_eq_some_iff.1 ha
    exact (h.nodup hl).filter _

/-- A new holder takes members that nobody holds. -/
theorem create [DecidableEq A] [DecidableEq B] (h : Links children parent) {a : A} {l : List B}
    (ha : children a = none) (hl : ∀ b ∈ l, parent b = some none) (hnd : l.Nodup)
    (hc : ∀ x, children' x = if x = a then some l else children x)
    (hp : ∀ x, parent' x = if x ∈ l then some (some a) else parent x) :
    Links children' parent' := by
  refine ⟨?_, ?_, ?_⟩
  · intro x l' hx y
    rw [hc] at hx
    rw [hp]
    by_cases hxa : x = a
    · subst hxa
      rw [if_pos rfl] at hx
      cases hx
      by_cases hy : y ∈ l
      · simp [hy]
      · have hno : parent y ≠ some (some x) := by
          intro hpy
          obtain ⟨_, hl'⟩ := h.holder hpy
          rw [ha] at hl'
          cases hl'
        simp [hy, hno]
    · rw [if_neg hxa] at hx
      by_cases hy : y ∈ l
      · have hnot : y ∉ l' := by
          rw [h.mem_iff hx, hl y hy]
          simp
        simp [hy, hnot, Ne.symm hxa]
      · rw [if_neg hy]
        exact h.mem_iff hx y
  · intro y x hy
    rw [hp] at hy
    rw [hc]
    by_cases hxa : x = a
    · exact ⟨_, if_pos hxa⟩
    · rw [if_neg hxa]
      by_cases hyl : y ∈ l
      · rw [if_pos hyl] at hy
        exact absurd (by simpa using hy.symm) hxa
      · rw [if_neg hyl] at hy
        exact h.holder hy
  · intro x l' hx
    rw [hc] at hx
    by_cases hxa : x = a
    · rw [if_pos hxa] at hx
      cases hx
      exact hnd
    · rw [if_neg hxa] at hx
      exact h.nodup hx

/-- A new member has no holder. -/
theorem newMember [DecidableEq B] (h : Links children parent) {b : B} (hb : parent b = none)
    (hc : ∀ x, children' x = children x)
    (hp : ∀ x, parent' x = if x = b then some none else parent x) : Links children' parent' := by
  refine ⟨?_, ?_, ?_⟩
  · intro a l ha y
    rw [hc] at ha
    rw [h.mem_iff ha, hp]
    by_cases hy : y = b
    · subst hy
      simp [hb]
    · simp [hy]
  · intro y a hy
    rw [hp] at hy
    rw [hc]
    by_cases hyb : y = b
    · rw [if_pos hyb] at hy
      cases hy
    · rw [if_neg hyb] at hy
      exact h.holder hy
  · intro a l ha
    rw [hc] at ha
    exact h.nodup ha

/-- A holder gives up all its members. -/
theorem release [DecidableEq A] [DecidableEq B] (h : Links children parent) {a : A} {l : List B}
    (ha : children a = some l) (hc : ∀ x, children' x = if x = a then some [] else children x)
    (hp : ∀ x, parent' x = if x ∈ l then (parent x).map fun _ => none else parent x) :
    Links children' parent' := by
  refine h.remove l (fun x => ?_) hp
  rw [hc]
  by_cases hx : x = a
  · subst hx
    rw [if_pos rfl, ha]
    simp
  · rw [if_neg hx]
    cases hl : children x with
    | none => rfl
    | some l' =>
      have hkeep : l'.filter (· ∉ l) = l' := by
        apply List.filter_eq_self.2
        intro b hb
        have hbx := (h.mem_iff hl b).1 hb
        have hnot : b ∉ l := by
          rw [h.mem_iff ha, hbx]
          simpa using hx
        simpa using hnot
      rw [Option.map_some, hkeep]

end Links

/-! ## Linked stores -/

namespace Store

/-- The operations of a block. -/
def opsIn (s : Store) (b : BlockRef) : Option (List OpRef) := (s.block? b).map (·.ops)

/-- The block of an operation. -/
def opParent (s : Store) (o : OpRef) : Option (Option BlockRef) := (s.op? o).map (·.parent)

/-- The blocks of a region. -/
def blocksIn (s : Store) (r : RegionRef) : Option (List BlockRef) := (s.region? r).map (·.blocks)

/-- The region of a block. -/
def blockParent (s : Store) (b : BlockRef) : Option (Option RegionRef) :=
  (s.block? b).map (·.parent)

/-- The regions of an operation. -/
def regionsIn (s : Store) (o : OpRef) : Option (List RegionRef) := (s.op? o).map (·.regions)

/-- The operation of a region. -/
def regionParent (s : Store) (r : RegionRef) : Option (Option OpRef) := (s.region? r).map (·.parent)

/-- The results of an operation. -/
def resultsIn (s : Store) (o : OpRef) : Option (List ValueRef) := (s.op? o).map (·.results)

/-- The arguments of a block. -/
def argsIn (s : Store) (b : BlockRef) : Option (List ValueRef) := (s.block? b).map (·.args)

/-- The origin of a value. -/
def originOf (s : Store) (v : ValueRef) : Option Origin := (s.value? v).map (·.origin)

/-- An argument becomes available in its block. -/
theorem homeBlock?_argument {s : Store} {v : ValueRef} {b : BlockRef} {k : Nat}
    (h : s.originOf v = some (.argument b k)) : s.homeBlock? v = .ok (some b) := by
  obtain ⟨e, he, horigin⟩ := Option.map_eq_some_iff.1 h
  simp only [homeBlock?, except_bind_ok, value_ok]
  exact ⟨e, he, by rw [horigin]; rfl⟩

/-- A result becomes available in the block of its operation, if that is in one. -/
theorem homeBlock?_result {s : Store} {v : ValueRef} {o : OpRef} {k : Nat} {d : OpData}
    (h : s.originOf v = some (.result o k)) (hd : s.op? o = some d) :
    s.homeBlock? v = .ok d.parent := by
  obtain ⟨e, he, horigin⟩ := Option.map_eq_some_iff.1 h
  simp only [homeBlock?, except_bind_ok, value_ok]
  refine ⟨e, he, ?_⟩
  simp only [horigin, except_bind_ok, op_ok]
  exact ⟨d, hd, rfl⟩

/-- The values of a family of lists have the origins that name their places.  `place` is one of the
two kinds of origin. -/
structure Defines {A : Type} (lists : A → Option (List ValueRef))
    (origin : ValueRef → Option Origin) (place : A → Nat → Origin) : Prop where
  mem_iff : ∀ {a l}, lists a = some l → ∀ k v, l[k]? = some v ↔ origin v = some (place a k)
  holder : ∀ {v a k}, origin v = some (place a k) → ∃ l, lists a = some l

/-- Members and holders name each other, and so do values and what defines them. -/
structure Linked (s : Store) : Prop where
  ops : Links s.opsIn s.opParent
  blocks : Links s.blocksIn s.blockParent
  regions : Links s.regionsIn s.regionParent
  results : Defines s.resultsIn s.originOf .result
  args : Defines s.argsIn s.originOf .argument

/-- Lists and origins that did not change still agree. -/
theorem Defines.congr {A : Type} {lists lists' : A → Option (List ValueRef)}
    {origin origin' : ValueRef → Option Origin} {place : A → Nat → Origin}
    (h : Defines lists origin place) (hl : ∀ a, lists' a = lists a)
    (ho : ∀ v, origin' v = origin v) : Defines lists' origin' place := by
  have hl : lists' = lists := funext hl
  have ho : origin' = origin := funext ho
  rw [hl, ho]
  exact h

/-- The part of an entry that names other entries, operands and successors apart. -/
def linksOf (d : OpData) : Option BlockRef × List RegionRef × List ValueRef :=
  (d.parent, d.regions, d.results)

variable {s t : Store}

/-- Only the operation table changed, and no operation changed its place, regions or results. -/
theorem Linked.of_ops (h : Linked s) (hblocks : t.blocks = s.blocks)
    (hregions : t.regions = s.regions) (hvalues : t.values = s.values)
    (hops : ∀ o, (t.op? o).map linksOf = (s.op? o).map linksOf) : Linked t := by
  have hparent : ∀ o, t.opParent o = s.opParent o := fun o => by
    simpa [Option.map_map, Function.comp_def, linksOf, opParent] using
      congrArg (Option.map Prod.fst) (hops o)
  have hregs : ∀ o, t.regionsIn o = s.regionsIn o := fun o => by
    simpa [Option.map_map, Function.comp_def, linksOf, regionsIn] using
      congrArg (Option.map fun p => p.2.1) (hops o)
  have hresults : ∀ o, t.resultsIn o = s.resultsIn o := fun o => by
    simpa [Option.map_map, Function.comp_def, linksOf, resultsIn] using
      congrArg (Option.map fun p => p.2.2) (hops o)
  have hb : ∀ b, t.block? b = s.block? b := fun b => by simp only [block?, hblocks]
  have hr : ∀ r, t.region? r = s.region? r := fun r => by simp only [region?, hregions]
  have hv : ∀ v, t.value? v = s.value? v := fun v => by simp only [value?, hvalues]
  refine ⟨h.ops.congr (fun b => ?_) hparent, h.blocks.congr (fun r => ?_) (fun b => ?_),
    h.regions.congr hregs (fun r => ?_), h.results.congr hresults (fun v => ?_),
    h.args.congr (fun b => ?_) (fun v => ?_)⟩
  · simp only [opsIn, hb]
  · simp only [blocksIn, hr]
  · simp only [blockParent, hb]
  · simp only [regionParent, hr]
  · simp only [originOf, hv]
  · simp only [argsIn, hb]
  · simp only [originOf, hv]

theorem Linked.setOp (h : Linked s) {o : OpRef} {d d' : OpData} (hd : s.op? o = some d)
    (hlinks : linksOf d' = linksOf d) : Linked (s.setOp o d') := by
  refine h.of_ops rfl rfl rfl (fun x => ?_)
  rw [op?_setOp hd]
  by_cases hx : x = o
  · subst hx
    simp [hd, hlinks]
  · simp [hx]

end Store

open Store

variable {s t : Store}

/-- What an operation lists as its result says so itself. -/
theorem originOf_of_mem_results (hl : Linked s) {o : OpRef} {v : ValueRef}
    (hv : v ∈ s.resultsOf o) : ∃ k, s.originOf v = some (.result o k) := by
  cases hd : s.op? o with
  | none =>
    unfold Store.op? at hd
    simp [Store.resultsOf, hd] at hv
  | some d =>
    rw [resultsOf_eq hd] at hv
    obtain ⟨k, hk⟩ := List.mem_iff_getElem?.1 hv
    exact ⟨k, (hl.results.mem_iff (a := o) (by simp [resultsIn, hd]) k v).1 hk⟩

/-! ## Every edit keeps a store linked -/

theorem Store.Linked.empty : Linked Store.empty := by
  have hop : ∀ o, Store.empty.op? o = none := fun o => by simp [Store.empty, op?]
  have hblock : ∀ b, Store.empty.block? b = none := fun b => by simp [Store.empty, block?]
  have hregion : ∀ r, Store.empty.region? r = none := fun r => by simp [Store.empty, region?]
  have hvalue : ∀ v, Store.empty.value? v = none := fun v => by simp [Store.empty, value?]
  refine ⟨⟨?_, ?_, ?_⟩, ⟨?_, ?_, ?_⟩, ⟨?_, ?_, ?_⟩, ⟨?_, ?_⟩, ⟨?_, ?_⟩⟩ <;>
    simp [opsIn, opParent, blocksIn, blockParent, regionsIn, regionParent, resultsIn, argsIn,
      originOf, hop, hblock, hregion, hvalue]

/-- An operation in no block may join one. -/
theorem Store.Linked.attach (h : Linked s) {o : OpRef} {d : OpData} {b : BlockRef} {bd : BlockData}
    {front back : List OpRef} (hd : s.op? o = some d) (hp : d.parent = none)
    (hb : s.block? b = some bd) (hsplit : bd.ops = front ++ back) :
    Linked (s.attach o d b bd (front ++ o :: back)) := by
  have hop := @op?_attach s o d b bd hd (front ++ o :: back)
  have hblock := @block?_attach s o d b bd hb (front ++ o :: back)
  have hops : s.opsIn b = some (front ++ back) := by simp [opsIn, hb, hsplit]
  have hparent : s.opParent o = some none := by simp [opParent, hd, hp]
  refine ⟨h.ops.insert hops hparent (fun x => ?_) (fun x => ?_),
    h.blocks.congr (fun r => rfl) (fun x => ?_), h.regions.congr (fun x => ?_) (fun r => rfl),
    h.results.congr (fun x => ?_) (fun v => rfl), h.args.congr (fun x => ?_) (fun v => rfl)⟩
  · rw [opsIn, hblock]
    split <;> simp [opsIn]
  · rw [opParent, hop]
    split <;> simp [opParent]
  · rw [blockParent, hblock]
    split <;> simp_all [blockParent]
  · rw [regionsIn, hop]
    split <;> simp_all [regionsIn]
  · rw [resultsIn, hop]
    split <;> simp_all [resultsIn]
  · rw [argsIn, hblock]
    split <;> simp_all [argsIn]

theorem Store.Linked.insertOp (h : Linked s) {b : BlockRef} {before : Option OpRef} {o : OpRef}
    {u : Unit} (hrun : insertOp b before o s = .ok (u, t)) : Linked t := by
  obtain ⟨d, bd, front, back, hd, hp, hb, hsplit, _, _, rfl⟩ := insertOp_ok hrun
  exact h.attach hd hp hb hsplit

/-- An operation may leave its block. -/
theorem Store.Linked.unlink (h : Linked s) {o : OpRef} {d : OpData} {b : BlockRef} {bd : BlockData}
    (hd : s.op? o = some d) (hp : d.parent = some b) (hb : s.block? b = some bd) :
    Linked (s.unlink o d b bd) := by
  have hop := @op?_unlink s o d b bd hd
  have hblock := @block?_unlink s o d b bd hb
  refine ⟨h.ops.remove [o] (fun x => ?_) (fun x => ?_),
    h.blocks.congr (fun r => rfl) (fun x => ?_), h.regions.congr (fun x => ?_) (fun r => rfl),
    h.results.congr (fun x => ?_) (fun v => rfl), h.args.congr (fun x => ?_) (fun v => rfl)⟩
  · -- the operation stood in no other block
    rw [opsIn, hblock, opsIn]
    by_cases hx : x = b
    · subst hx
      simp only [if_true, hb, Option.map_some, Option.some.injEq]
      apply List.filter_congr
      intro y _
      by_cases hy : y = o <;> simp [hy]
    · rw [if_neg hx]
      cases hbx : s.block? x with
      | none => rfl
      | some xd =>
        have hnot : o ∉ xd.ops := by
          rw [h.ops.mem_iff (a := x) (by simp [opsIn, hbx])]
          simp [opParent, hd, hp, Ne.symm hx]
        have hkeep : xd.ops.filter (· ∉ [o]) = xd.ops := by
          apply List.filter_eq_self.2
          intro y hy
          have : y ≠ o := fun h => hnot (h ▸ hy)
          simpa using this
        rw [Option.map_some, Option.map_some, hkeep]
  · rw [opParent, hop]
    by_cases hx : x = o
    · subst hx
      simp [opParent, hd]
    · simp [hx, opParent]
  · rw [blockParent, hblock]
    split <;> simp_all [blockParent]
  · rw [regionsIn, hop]
    split <;> simp_all [regionsIn]
  · rw [resultsIn, hop]
    split <;> simp_all [resultsIn]
  · rw [argsIn, hblock]
    split <;> simp_all [argsIn]

theorem Store.Linked.detach (h : Linked s) {o : OpRef} {u : Unit}
    (hrun : detach o s = .ok (u, t)) : Linked t := by
  obtain ⟨d, hd, ⟨_, rfl⟩ | ⟨b, bd, hp, hb, rfl⟩⟩ := detach_ok hrun
  · exact h
  · exact h.unlink hd hp hb

/-! ### New entries -/

/-- The next values have the next numbers. -/
theorem nextValues_getElem? (s : Store) (n k : Nat) (v : ValueRef) :
    (s.nextValues n)[k]? = some v ↔ k < n ∧ v.index = s.values.size + k := by
  obtain ⟨i⟩ := v
  simp only [Store.nextValues, List.getElem?_map]
  by_cases hk : k < n
  · simp [hk, eq_comm]
  · simp [hk]

/-- Old values keep their origins, and the new ones have those that they were made with. -/
theorem originOf_append {es : List ValueData} (h : t.values = s.values ++ es.toArray)
    (v : ValueRef) : t.originOf v = if v.index < s.values.size then s.originOf v
      else (es[v.index - s.values.size]?).map (·.origin) := by
  simp only [originOf, value?, h, Array.getElem?_append]
  split <;> simp

/-- Only what is in the table has an origin. -/
theorem originOf_lt {v : ValueRef} {x : Origin} (h : s.originOf v = some x) :
    v.index < s.values.size := by
  obtain ⟨d, hd, _⟩ := Option.map_eq_some_iff.1 h
  exact (Array.getElem?_eq_some_iff.1 hd).1

theorem resultEntries_origin (o : OpRef) (types : List Ty) (k : Nat) :
    ((resultEntries o types)[k]?).map (·.origin) =
      if k < types.length then some (.result o k) else none := by
  simp only [resultEntries, List.getElem?_map, List.getElem?_zipIdx, Option.map_map]
  by_cases hk : k < types.length <;> simp [hk]

theorem argEntries_origin (b : BlockRef) (types : List Ty) (k : Nat) :
    ((argEntries b types)[k]?).map (·.origin) =
      if k < types.length then some (.argument b k) else none := by
  simp only [argEntries, List.getElem?_map, List.getElem?_zipIdx, Option.map_map]
  by_cases hk : k < types.length <;> simp [hk]

/-- A new holder defines the next values. -/
theorem Store.Defines.create {A : Type} [DecidableEq A] {lists lists' : A → Option (List ValueRef)}
    {place : A → Nat → Origin} (h : Defines lists s.originOf place) {a : A} {n : Nat}
    (hinj : ∀ {x k y j}, place x k = place y j → x = y ∧ k = j) (hnew : lists a = none)
    (hl : ∀ x, lists' x = if x = a then some (s.nextValues n) else lists x)
    (ho : ∀ v, t.originOf v = if v.index < s.values.size then s.originOf v
      else if v.index - s.values.size < n then some (place a (v.index - s.values.size)) else none) :
    Defines lists' t.originOf place := by
  have hfresh : ∀ v k, s.originOf v ≠ some (place a k) := fun v k hv => by
    obtain ⟨l, hl⟩ := h.holder hv
    rw [hnew] at hl
    cases hl
  refine ⟨?_, ?_⟩
  · intro x l hx k v
    rw [hl] at hx
    rw [ho]
    by_cases hxa : x = a
    · subst hxa
      rw [if_pos rfl] at hx
      cases hx
      rw [nextValues_getElem?]
      by_cases hv : v.index < s.values.size
      · have := hfresh v k
        simp only [hv, if_true, this, iff_false, not_and]
        omega
      · by_cases hk : v.index - s.values.size < n
        · simp only [hv, hk, if_false, if_true, Option.some.injEq]
          constructor
          · rintro ⟨_, hvk⟩
            rw [hvk]
            congr 1
            omega
          · intro hplace
            have := (hinj hplace).2
            omega
        · simp only [hv, hk, if_false, reduceCtorEq, iff_false]
          omega
    · rw [if_neg hxa] at hx
      rw [h.mem_iff hx]
      by_cases hv : v.index < s.values.size
      · simp [hv]
      · have hno : s.originOf v ≠ some (place x k) := fun hs => hv (originOf_lt hs)
        have hother : ∀ j, place a j ≠ place x k := fun j hj => hxa (hinj hj).1.symm
        by_cases hk : v.index - s.values.size < n <;> simp [hv, hk, hno, hother]
  · intro v x k hv
    rw [hl]
    by_cases hxa : x = a
    · exact ⟨_, if_pos hxa⟩
    · rw [if_neg hxa]
      rw [ho] at hv
      by_cases hlt : v.index < s.values.size
      · exact h.holder (by simpa [hlt] using hv)
      · by_cases hk : v.index - s.values.size < n
        · simp only [hlt, hk, if_false, if_true, Option.some.injEq] at hv
          exact absurd (hinj hv).1.symm hxa
        · simp [hlt, hk] at hv

/-- New values of the other kind define nothing here. -/
theorem Store.Defines.skip {A : Type} {lists lists' : A → Option (List ValueRef)}
    {place : A → Nat → Origin} (h : Defines lists s.originOf place)
    (hl : ∀ x, lists' x = lists x) {new : ValueRef → Option Origin}
    (ho : ∀ v, t.originOf v = if v.index < s.values.size then s.originOf v else new v)
    (hnew : ∀ v a k, new v ≠ some (place a k)) : Defines lists' t.originOf place := by
  refine ⟨?_, ?_⟩
  · intro x l hx k v
    rw [hl] at hx
    rw [ho, h.mem_iff hx]
    by_cases hv : v.index < s.values.size
    · simp [hv]
    · have hno : s.originOf v ≠ some (place x k) := fun hs => hv (originOf_lt hs)
      simp [hv, hno, hnew]
  · intro v x k hv
    rw [hl]
    rw [ho] at hv
    by_cases hlt : v.index < s.values.size
    · exact h.holder (by simpa [hlt] using hv)
    · rw [if_neg hlt] at hv
      exact absurd hv (hnew v x k)

theorem op?_next (s : Store) : s.op? ⟨s.ops.size⟩ = none := by
  simp [Store.op?]

theorem block?_next (s : Store) : s.block? ⟨s.blocks.size⟩ = none := by
  simp [Store.block?]

theorem region?_next (s : Store) : s.region? ⟨s.regions.size⟩ = none := by
  simp [Store.region?]

/-- A new operation is in no block, owns its regions and defines its results. -/
theorem Created.linked {spec : OpSpec} {o : OpRef} (hc : Created s spec o t) (h : Linked s) :
    Linked t := by
  have hblock : ∀ b, t.block? b = s.block? b := fun b => by simp only [Store.block?, hc.blocks]
  have hnone : s.op? o = none := by rw [hc.eq_next, op?_next]
  have horigin : ∀ v, t.originOf v = if v.index < s.values.size then s.originOf v
      else if v.index - s.values.size < spec.resultTypes.length then
        some (.result o (v.index - s.values.size)) else none := fun v => by
    rw [originOf_append hc.values, resultEntries_origin]
  refine ⟨h.ops.newMember (b := o) ?_ (fun b => ?_) (fun x => ?_),
    h.blocks.congr (fun r => ?_) (fun b => ?_),
    h.regions.create (a := o) (l := spec.regions) ?_ (fun r hr => ?_) hc.nodup (fun x => ?_)
      (fun r => ?_),
    h.results.create (a := o) (fun hp => by simpa using hp) ?_ (fun x => ?_) horigin,
    h.args.skip (fun b => ?_) horigin (fun v b k => ?_)⟩
  · simp [opParent, hnone]
  · simp only [opsIn, hblock]
  · rw [opParent, hc.op?]
    split <;> simp [opParent, OpSpec.entry]
  · rw [blocksIn, hc.region?, blocksIn]
    split
    · cases s.region? r <;> rfl
    · rfl
  · simp only [blockParent, hblock]
  · simp [regionsIn, hnone]
  · obtain ⟨d, hd, hp⟩ := hc.unowned r hr
    simp [regionParent, hd, hp]
  · rw [regionsIn, hc.op?]
    split <;> simp [regionsIn, OpSpec.entry]
  · rw [regionParent, hc.region?]
    split
    · rename_i hr
      obtain ⟨d, hd, _⟩ := hc.unowned r hr
      simp [hd]
    · rfl
  · simp [resultsIn, hnone]
  · rw [resultsIn, hc.op?]
    split <;> simp [resultsIn, OpSpec.entry]
  · simp only [argsIn, hblock]
  · split <;> simp

/-- A new block is in no region and defines its arguments. -/
theorem BlockCreated.linked {types : List Ty} {b : BlockRef} (hc : BlockCreated s types b t)
    (h : Linked s) : Linked t := by
  have hop : ∀ o, t.op? o = s.op? o := fun o => by simp only [Store.op?, hc.ops]
  have hregion : ∀ r, t.region? r = s.region? r := fun r => by
    simp only [Store.region?, hc.regions]
  have hnone : s.block? b = none := by rw [hc.eq_next, block?_next]
  have horigin : ∀ v, t.originOf v = if v.index < s.values.size then s.originOf v
      else if v.index - s.values.size < types.length then
        some (.argument b (v.index - s.values.size)) else none := fun v => by
    rw [originOf_append hc.values, argEntries_origin]
  refine ⟨h.ops.create (a := b) (l := []) ?_ (by simp) List.nodup_nil (fun x => ?_) (fun o => ?_),
    h.blocks.newMember (b := b) ?_ (fun r => ?_) (fun x => ?_),
    h.regions.congr (fun o => ?_) (fun r => ?_),
    h.results.skip (fun o => ?_) horigin (fun v o k => ?_),
    h.args.create (a := b) (fun hp => by simpa using hp) ?_ (fun x => ?_) horigin⟩
  · simp [opsIn, hnone]
  · rw [opsIn, hc.block?]
    split <;> simp [opsIn]
  · simp [opParent, hop]
  · simp [blockParent, hnone]
  · simp only [blocksIn, hregion]
  · rw [blockParent, hc.block?]
    split <;> simp [blockParent]
  · simp only [regionsIn, hop]
  · simp only [regionParent, hregion]
  · simp only [resultsIn, hop]
  · split <;> simp
  · simp [argsIn, hnone]
  · rw [argsIn, hc.block?]
    split <;> simp [argsIn]

/-- A new region owns its blocks. -/
theorem RegionCreated.linked {bs : List BlockRef} {r : RegionRef} (hc : RegionCreated s bs r t)
    (h : Linked s) : Linked t := by
  have hop : ∀ o, t.op? o = s.op? o := fun o => by simp only [Store.op?, hc.ops]
  have hvalue : ∀ v, t.value? v = s.value? v := fun v => by simp only [Store.value?, hc.values]
  have hnone : s.region? r = none := by rw [hc.eq_next, region?_next]
  refine ⟨h.ops.congr (fun b => ?_) (fun o => ?_),
    h.blocks.create (a := r) (l := bs) ?_ (fun b hb => ?_) hc.nodup (fun x => ?_) (fun b => ?_),
    h.regions.newMember (b := r) ?_ (fun o => ?_) (fun x => ?_),
    h.results.congr (fun o => ?_) (fun v => ?_), h.args.congr (fun b => ?_) (fun v => ?_)⟩
  · rw [opsIn, hc.block?, opsIn]
    split
    · cases s.block? b <;> rfl
    · rfl
  · simp only [opParent, hop]
  · simp [blocksIn, hnone]
  · obtain ⟨d, hd, hp⟩ := hc.unowned b hb
    simp [blockParent, hd, hp]
  · rw [blocksIn, hc.region?]
    split <;> simp [blocksIn]
  · rw [blockParent, hc.block?]
    split
    · rename_i hb
      obtain ⟨d, hd, _⟩ := hc.unowned b hb
      simp [hd]
    · rfl
  · simp [regionParent, hnone]
  · simp only [regionsIn, hop]
  · rw [regionParent, hc.region?]
    split <;> simp [regionParent]
  · simp only [resultsIn, hop]
  · simp only [originOf, hvalue]
  · rw [argsIn, hc.block?, argsIn]
    split
    · cases s.block? b <;> rfl
    · rfl
  · simp only [originOf, hvalue]

/-! ### Edits of entries -/

/-- Operands are not links. -/
theorem OperandsSet.linked {o : OpRef} {d : OpData} {operands : List ValueRef}
    (hs : OperandsSet s o d operands t) (hd : s.op? o = some d) (h : Linked s) : Linked t := by
  refine h.of_ops hs.blocks hs.regions hs.values (fun x => ?_)
  rw [OperandsSet.op? hd hs]
  by_cases hx : x = o
  · subst hx
    simp [hd, linksOf]
  · simp [hx]

/-- Uses that go over change no links. -/
theorem Redirected.linked {us : List Use} {new : ValueRef} (hr : Redirected s us new t)
    (h : Linked s) : Linked t := by
  refine h.of_ops hr.blocks hr.regions hr.values (fun x => ?_)
  rw [hr.op?, Option.map_map]
  rfl

theorem UsesDropped.linked {o : OpRef} {d : OpData} (hu : UsesDropped s o d t) (h : Linked s) :
    Linked t :=
  h.of_ops hu.blocks hu.regions hu.values fun x => by simp only [Store.op?, hu.ops]

theorem Store.Linked.setUses (h : Linked s) (v : ValueRef) (us : List Use) :
    Linked (s.setUses v us) :=
  h.of_ops rfl rfl rfl fun _ => rfl

/-- Replacing a value changes no links. -/
theorem Store.Linked.replaceAllUses (h : Linked s) {old new : ValueRef} {u : Unit}
    (hrun : replaceAllUses old new s = .ok (u, t)) : Linked t := by
  obtain ⟨_, rfl⟩ | ⟨_, hr⟩ := replaceAllUses_ok hrun
  · exact h
  · exact hr.linked (h.setUses old [])

/-- Regions that are given up have no owner. -/
theorem Store.Linked.takeRegions (h : Linked s) {o : OpRef} {rs : List RegionRef}
    (hrun : takeRegions o s = .ok (rs, t)) : Linked t := by
  obtain ⟨d, hd, _, hf⟩ := takeRegions_ok hrun
  have hop : ∀ x, t.op? x = if x = o then some { d with regions := [] } else s.op? x := fun x => by
    rw [← op?_setOp (e := { d with regions := [] }) hd]
    simp only [Store.op?, hf.ops]
  have hblock : ∀ b, t.block? b = s.block? b := fun b => by
    simp only [Store.block?, hf.blocks]
    rfl
  have hvalue : ∀ v, t.value? v = s.value? v := fun v => by
    simp only [Store.value?, hf.values]
    rfl
  refine ⟨h.ops.congr (fun b => ?_) (fun x => ?_), h.blocks.congr (fun r => ?_) (fun b => ?_),
    h.regions.release (a := o) (l := d.regions) ?_ (fun x => ?_) (fun r => ?_),
    h.results.congr (fun x => ?_) (fun v => ?_), h.args.congr (fun b => ?_) (fun v => ?_)⟩
  · simp only [opsIn, hblock]
  · rw [opParent, hop]
    split <;> simp_all [opParent]
  · rw [blocksIn, hf.region?, blocksIn, region?_setOp]
    split
    · cases s.region? r <;> rfl
    · rfl
  · simp only [blockParent, hblock]
  · simp [regionsIn, hd]
  · rw [regionsIn, hop]
    split <;> simp [regionsIn]
  · rw [regionParent, hf.region?, regionParent, region?_setOp]
    split
    · cases s.region? r <;> rfl
    · rfl
  · rw [resultsIn, hop]
    split <;> simp_all [resultsIn]
  · simp only [originOf, hvalue]
  · simp only [argsIn, hblock]
  · simp only [originOf, hvalue]

end AffineRaising.IR
