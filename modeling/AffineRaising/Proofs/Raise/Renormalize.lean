/-
# AffineRaising.Proofs.Raise.Renormalize — normalizing again.

The loop of a composition ends where nothing can be folded, or with a step that changes nothing.
Such a step moves nothing either: every operand that is not kept as it is, is replaced by values of
lower ranks or by new ones, so the highest of them could not be among the operands again
(`composeStep_rests`).  So what a normalization returns is normal, and normalizing it again returns
it: `normalizing_again_changes_nothing`.  One case is left out.  Canonicalizing moves dimensions
that are symbols to symbol positions, where more can be folded of a symbol behind whose casts an
induction variable stands (`normalized_pair_folds_again`).
-/
import AffineRaising.Proofs.Raise.LostPlace
import AffineRaising.Proofs.Raise.PieceInputs
import AffineRaising.Proofs.Raise.RepeatedComposition

namespace AffineRaising.Raise

open AffineRaising.IR AffineRaising.IR.Store AffineRaising.Ops AffineRaising.Analysis
open AffineRaising.Affine (Expr Map)

variable {s t : Store} {J J' : Journal} {p p' : Positions} {u v w : ValueRef} {e : Expr}
  {isDim : Bool} {cap : Nat} {rank rank' : OpRef → Nat}

/-! ## Ranks while operations move -/

/-- The store is sound, and every operation of rank `cap` at most computes with results of
operations of lower ranks.  What stands in a block is of such a rank; what was removed need not be.
-/
structure Orderly (s : Store) (cap : Nat) (rank : OpRef → Nat) : Prop where
  consistent : Consistent s
  acyclic : Acyclic s
  sized : Sized s
  pos : ∀ o d, s.op? o = some d → 0 < rank o
  falls : ∀ o p, rank o ≤ cap → ComputesWith s o p → rank p < rank o
  attached : ∀ o d b, s.op? o = some d → d.parent = some b → rank o ≤ cap

/-- The value is there, and its definition is of rank `cap` at most. -/
def Ranked (cap : Nat) (rank : OpRef → Nat) (s : Store) (v : ValueRef) : Prop :=
  Present s v ∧ valueRank s rank v ≤ cap

/-- All values that are there keep their ranks, and no new one is of a rank above `cap`. -/
structure KeepsRanks (cap : Nat) (s t : Store) (rank rank' : OpRef → Nat) : Prop where
  old : ∀ v, Present s v → valueRank t rank' v = valueRank s rank v
  new : ∀ v, Present t v → ¬ Present s v → valueRank t rank' v ≤ cap

theorem KeepsRanks.ranked (h : KeepsRanks cap s t rank rank')
    (hv : Present s v → valueRank s rank v ≤ cap) (ht : Present t v) : Ranked cap rank' t v := by
  refine ⟨ht, ?_⟩
  by_cases hs : Present s v
  · rw [h.old v hs]
    exact hv hs
  · exact h.new v ht hs

/-- A copy is of the rank of its original, and so is what was copied with it. -/
theorem Orderly.copy_le (hs : Orderly s cap rank) {outside : ValueRef → Prop} {sc : Store}
    {o c x : OpRef} {src : Source} {m : Renaming} {d e : OpData} {b : BlockRef}
    (hcopy : CopyOf outside s o c sc src m) (hd : s.op? o = some d) (hparent : d.parent = some b)
    (hx : s.op? x = none) (he : sc.op? x = some e) : rank (src.op x) ≤ cap := by
  obtain ⟨_, hw⟩ := hcopy.within hcopy.new (hcopy.within_new he hx)
  rw [hcopy.root] at hw
  rcases Relation.ReflTransGen.cases_tail hw with heq | ⟨q, _, hq⟩
  · exact heq ▸ hs.attached o d b hd hparent
  · obtain ⟨b', bd, _, hb, hmem⟩ := child_iff.1 hq
    obtain ⟨d', hd', hparent'⟩ := hcopy.linked.op?_of_mem hb hmem
    exact hs.attached _ d' b' hd' hparent'

/-- With the sources' ranks for the copies, a hoist keeps all in order. -/
theorem Orderly.hoist (hs : Orderly s cap rank) (h : HoistStep (J, s) (J', t)) :
    ∃ rank', Orderly t cap rank' ∧ KeepsRanks cap s t rank rank' := by
  obtain ⟨o, p, c, hblock, hrun⟩ := h
  obtain ⟨⟨gone, hk⟩, hg⟩ := hs.consistent
  obtain ⟨b, before, sc, si, sr, m, h, hclone, _⟩ := hoist_hoisted hk hg hrun
  obtain ⟨d, hd, hparent⟩ := h.entry
  obtain ⟨src, hcopy⟩ : ∃ src, CopyOf (fun _ => True) s o c sc src m :=
    cloneOp_copyOf hk (hg.groundedIn hd) hs.acyclic hs.sized (fun _ _ _ _ _ _ => .inl trivial)
      hclone
  refine ⟨fun x => rank (src.op x), ⟨h.consistent, h.acyclic hblock hclone hs.acyclic,
    h.sized hs.sized hclone, ?_, ?_, ?_⟩, ?_, ?_⟩
  · intro x e he
    obtain ⟨e', he', _⟩ := h.op?_of_fixed he
    obtain ⟨d', hd'⟩ := hcopy.source_exists he'
    exact hs.pos _ d' hd'
  · exact fun x y hx hxy => hs.falls _ _ hx (h.computesWith hg hcopy hxy)
  · intro x e b' he hb'
    cases hx : s.op? x with
    | some dx =>
      obtain ⟨e', he', _, _, hp⟩ := h.op? hx
      cases he.symm.trans he'
      rw [hp] at hb'
      split at hb'
      · cases hb'
      · rw [hcopy.source_old hx]
        exact hs.attached x dx b' hx hb'
    | none =>
      obtain ⟨e', he', _⟩ := h.op?_of_fixed he
      exact hs.copy_le hcopy hd hparent hx he'
  · rintro v ⟨a, ha⟩
    have horigin : s.originOf v = some a.origin := by rw [originOf, ha, Option.map_some]
    rw [valueRank, valueRank, h.originOf_old horigin, horigin]
    cases hresult : a.origin with
    | argument b k => rfl
    | result y k =>
      obtain ⟨dy, hdy⟩ := op?_of_result hk.linked (hresult ▸ horigin)
      exact congrArg rank (hcopy.source_old hdy)
  · rintro v ⟨a, ha⟩ hnew
    have horigin : sc.originOf v = some a.origin := by
      rw [← h.originOf_eq, originOf, ha, Option.map_some]
    rw [valueRank, h.originOf_eq, horigin]
    cases hresult : a.origin with
    | argument b k => exact Nat.zero_le _
    | result y k =>
      rw [hresult] at horigin
      have hvnew : s.value? v = none := Option.eq_none_iff_forall_ne_some.2 fun e he => hnew ⟨e, he⟩
      obtain ⟨e, he⟩ := op?_of_result hcopy.linked_after horigin
      exact hs.copy_le hcopy hd hparent ((hcopy.origin_new hvnew).1 y k horigin) he

theorem Orderly.hoists {x y : Journal × Store} (hx : Orderly x.2 cap rank) (h : Hoists x y) :
    ∃ rank', Orderly y.2 cap rank' ∧ KeepsRanks cap x.2 y.2 rank rank' := by
  induction h with
  | refl => exact ⟨rank, hx, fun _ _ => rfl, fun _ hv hnew => absurd hv hnew⟩
  | tail hhoists hstep ih =>
    obtain ⟨rank₁, hordered, hkeeps⟩ := ih
    obtain ⟨rank₂, hordered', hkeeps'⟩ := hordered.hoist hstep
    have hadvance := Hoists.advances hhoists hx.consistent
    refine ⟨rank₂, hordered', fun v hv => ?_, fun v hv hnew => ?_⟩
    · exact (hkeeps'.old v (hadvance.present v hv)).trans (hkeeps.old v hv)
    · exact (hkeeps'.ranked (fun hv' => hkeeps.new v hv' hnew) hv).2

theorem Orderly.lt_of_computed (hs : Orderly s cap rank) (hv : valueRank s rank v ≤ cap)
    (h : Relation.TransGen (Feeds s) v w) : valueRank s rank w < valueRank s rank v := by
  have hfeeds : ∀ {a b}, valueRank s rank a ≤ cap → Feeds s a b →
      valueRank s rank b < valueRank s rank a := by
    rintro a b hle ⟨o, k, d, ha, hd, hb⟩
    rw [valueRank.eq_def s rank a, ha] at hle ⊢
    unfold valueRank
    split
    · rename_i p j hp
      exact hs.falls o p hle ⟨d, b, j, hd, hb, hp⟩
    · exact hs.pos o d hd
  induction h with
  | single h => exact hfeeds hv h
  | tail _ h ih => exact Nat.lt_trans (hfeeds (Nat.le_trans ih.le hv) h) ih

/-! ## Steps that change nothing -/

/-- An operand is left as it is, or it is replaced by values of lower ranks and by new ones. -/
theorem composeOperand_moves (hs : Orderly s cap rank) (hv : valueRank s rank v ≤ cap)
    (h : composeOperand p v isDim J s = .ok ((.ok (e, p'), J'), t)) :
    (¬ NeedsHoist s v ∧ J' = J ∧ t = s ∧ ∀ w ∈ p'.operands, w ∈ p.operands ∨ w = v) ∨
      ∀ w ∈ p'.operands, w ∈ p.operands ∨ valueRank s rank w < valueRank s rank v ∨
        ¬ Present s w := by
  by_cases hneeds : NeedsHoist s v
  · obtain ⟨u, x, _, hu, hrequire, hmem⟩ := composeOperand_hoisted hneeds h
    obtain ⟨hnew, _⟩ := requireSymbol_new hs.consistent hu hrequire
    refine .inr fun w hw => ?_
    rcases hmem w hw with hw | rfl
    · exact .inl hw
    · exact .inr (.inr hnew)
  · obtain ⟨piece, a, hpiece, ha, hr, rfl, rfl⟩ := (composeOperand_iff hneeds).1 h
    cases hr
    have hmem := fun w (hw : w ∈ p'.operands) => Piece.place_operands ha hw
    rcases pieceOf?_inputs hpiece with hinputs | hbelow
    · refine .inl ⟨hneeds, rfl, rfl, fun w hw => ?_⟩
      rw [hinputs] at hmem
      exact (hmem w hw).imp_right List.mem_singleton.1
    · exact .inr fun w hw =>
        (hmem w hw).imp_right fun hw => .inl (hs.lt_of_computed hv (hbelow w hw))

/-- Some operands are moved, the others left as they are.  If none is moved, nothing is edited; and
what is bound is one of those left, or of a lower rank than one that is moved, or new. -/
theorem composeOperands_moves {numDims : Nat} {vs : List ValueRef} :
    ∀ {i : Nat} {p p' : Positions} {J J' : Journal} {s t : Store} {rank : OpRef → Nat}
      {es : List Expr}, Orderly s cap rank → (∀ v ∈ vs, Ranked cap rank s v) → vs.Nodup →
      composeOperands numDims i p vs J s = .ok ((.ok (es, p'), J'), t) →
      ∃ Moved : ValueRef → Prop,
        ((∀ v ∈ vs, ¬ Moved v) → J' = J ∧ t = s ∧ ∀ v ∈ vs, ¬ NeedsHoist s v) ∧
        ∀ w ∈ p'.operands, w ∈ p.operands ∨ (w ∈ vs ∧ ¬ Moved w) ∨
          (∃ v ∈ vs, Moved v ∧ valueRank s rank w < valueRank s rank v) ∨ ¬ Present s w := by
  induction vs with
  | nil =>
    intro i p p' J J' s t rank es _ _ _ h
    obtain ⟨h, rfl, rfl⟩ := Compose.pure_ok.1 h
    cases h
    exact ⟨fun _ => False, fun _ => ⟨rfl, rfl, nofun⟩, fun w hw => .inl hw⟩
  | cons v vs ih =>
    intro i p p' J J' s t rank es hs hvs hnodup h
    obtain ⟨hv, hnodup⟩ := List.nodup_cons.1 hnodup
    obtain ⟨⟨e, p₁⟩, J₁, s₁, hfirst, h⟩ := Compose.bind_ok.1 h
    obtain ⟨⟨es', p₂⟩, J₂, s₂, hrest, h⟩ := Compose.bind_ok.1 h
    obtain ⟨h, rfl, rfl⟩ := Compose.pure_ok.1 h
    cases h
    have hvs' : ∀ w ∈ vs, Ranked cap rank s w := fun w hw => hvs w (List.mem_cons_of_mem v hw)
    have hne : ∀ {w}, w ∈ vs → w ≠ v := fun hw heq => hv (heq ▸ hw)
    rcases composeOperand_moves hs (hvs v List.mem_cons_self).2 hfirst with
      ⟨hstays, rfl, rfl, hmem⟩ | hmem
    · -- the first operand is left as it is
      obtain ⟨Moved, hstill, hbound⟩ := ih hs hvs' hnodup hrest
      refine ⟨fun x => x ≠ v ∧ Moved x, fun hnone => ?_, fun w hw => ?_⟩
      · obtain ⟨hJ, ht, hrests⟩ := hstill fun x hx hmoved =>
          hnone x (List.mem_cons_of_mem v hx) ⟨hne hx, hmoved⟩
        exact ⟨hJ, ht, List.forall_mem_cons.2 ⟨hstays, hrests⟩⟩
      · rcases hbound w hw with hw | ⟨hw, hleft⟩ | ⟨x, hx, hmoved, hlt⟩ | hnew
        · rcases hmem w hw with hw | rfl
          · exact .inl hw
          · exact .inr (.inl ⟨List.mem_cons_self, fun hmoved => hmoved.1 rfl⟩)
        · exact .inr (.inl ⟨List.mem_cons_of_mem v hw, fun hmoved => hleft hmoved.2⟩)
        · exact .inr (.inr (.inl ⟨x, List.mem_cons_of_mem v hx, ⟨hne hx, hmoved⟩, hlt⟩))
        · exact .inr (.inr (.inr hnew))
    · -- the first operand is moved, and the ranks with it
      have hhoists : Hoists (J, s) (J₁, s₁) := composeOperand_follows p v _ J s _ _ _ hfirst
      obtain ⟨rank₁, hs₁, hkeeps⟩ := hs.hoists hhoists
      have hadvance : Advances s s₁ := hhoists.advances hs.consistent
      obtain ⟨Moved, _, hbound⟩ := ih hs₁ (fun w hw => hkeeps.ranked
        (fun _ => (hvs' w hw).2) (hadvance.present w (hvs' w hw).1)) hnodup hrest
      refine ⟨fun x => x = v ∨ Moved x,
        fun hnone => absurd (.inl rfl) (hnone v List.mem_cons_self), fun w hw => ?_⟩
      by_cases hw' : Present s w
      · rcases hbound w hw with hw | ⟨hw, hleft⟩ | ⟨x, hx, hmoved, hlt⟩ | hnew
        · rcases hmem w hw with hw | hlt | hnew
          · exact .inl hw
          · exact .inr (.inr (.inl ⟨v, List.mem_cons_self, .inl rfl, hlt⟩))
          · exact absurd hw' hnew
        · refine .inr (.inl ⟨List.mem_cons_of_mem v hw, ?_⟩)
          rintro (heq | hmoved)
          · exact hne hw heq
          · exact hleft hmoved
        · rw [hkeeps.old w hw', hkeeps.old x (hvs' x hx).1] at hlt
          exact .inr (.inr (.inl ⟨x, List.mem_cons_of_mem v hx, .inr hmoved, hlt⟩))
        · exact absurd (hadvance.present w hw') hnew
      · exact .inr (.inr (.inr hw'))

/-- What operands are replaced by is new, or of a rank that is no higher than those of operands. -/
theorem composeOperands_ranked {numDims : Nat} {vs : List ValueRef} :
    ∀ {i : Nat} {p p' : Positions} {J J' : Journal} {s t : Store} {rank : OpRef → Nat}
      {es : List Expr}, Orderly s cap rank → (∀ v ∈ vs, Ranked cap rank s v) →
      composeOperands numDims i p vs J s = .ok ((.ok (es, p'), J'), t) →
      ∀ w ∈ p'.operands, w ∈ p.operands ∨ (Present s w → valueRank s rank w ≤ cap) := by
  induction vs with
  | nil =>
    intro i p p' J J' s t rank es _ _ h w hw
    obtain ⟨h, rfl, rfl⟩ := Compose.pure_ok.1 h
    cases h
    exact .inl hw
  | cons v vs ih =>
    intro i p p' J J' s t rank es hs hvs h w hw
    obtain ⟨⟨e, p₁⟩, J₁, s₁, hfirst, h⟩ := Compose.bind_ok.1 h
    obtain ⟨⟨es', p₂⟩, J₂, s₂, hrest, h⟩ := Compose.bind_ok.1 h
    obtain ⟨h, rfl, rfl⟩ := Compose.pure_ok.1 h
    cases h
    have hv := (hvs v List.mem_cons_self).2
    have hhoists : Hoists (J, s) (J₁, s₁) := composeOperand_follows p v _ J s _ _ _ hfirst
    obtain ⟨rank₁, hs₁, hkeeps⟩ := hs.hoists hhoists
    have hadvance : Advances s s₁ := hhoists.advances hs.consistent
    have hvs₁ : ∀ u ∈ vs, Ranked cap rank₁ s₁ u := fun u hu => by
      obtain ⟨hpresent, hle⟩ := hvs u (List.mem_cons_of_mem v hu)
      exact hkeeps.ranked (fun _ => hle) (hadvance.present u hpresent)
    rcases ih hs₁ hvs₁ hrest w hw with hw | hle
    · rcases composeOperand_moves hs hv hfirst with ⟨_, _, _, hmem⟩ | hmem
      · rcases hmem w hw with hw | rfl
        · exact .inl hw
        · exact .inr fun _ => hv
      · rcases hmem w hw with hw | hlt | hnew
        · exact .inl hw
        · exact .inr fun _ => Nat.le_trans hlt.le hv
        · exact .inr fun hpresent => absurd hpresent hnew
    · refine .inr fun hpresent => ?_
      rw [← hkeeps.old w hpresent]
      exact hle (hadvance.present w hpresent)

/-- A step that leads back to the binding moves nothing: the highest operand that was moved could
only be bound for one that is higher. -/
theorem composeStep_rests {b : Binding} (hs : Orderly s cap rank)
    (hb : ∀ v ∈ b.operands, Ranked cap rank s v)
    (hnodup : b.operands.Nodup) (h : composeStep b J s = .ok ((.ok b, J'), t)) :
    J' = J ∧ t = s ∧ ∀ v ∈ b.operands, ¬ NeedsHoist s v := by
  obtain ⟨⟨es, p⟩, J₁, s₁, hoperands, h⟩ := Compose.bind_ok.1 h
  obtain ⟨m, _, h⟩ := Compose.ask_bind.1 h
  obtain ⟨b', hcanonical, hsame, rfl, rfl⟩ := Compose.ask_ok.1 h
  cases hsame
  obtain ⟨Moved, hstill, hbound⟩ := composeOperands_moves hs hb hnodup hoperands
  refine hstill fun v hv hmoved => ?_
  obtain ⟨x, ⟨hx, hxmoved⟩, hmax⟩ := Set.exists_max_image {x | x ∈ b.operands ∧ Moved x}
    (valueRank s rank) (b.operands.finite_toSet.subset fun x hx => hx.1) ⟨v, hv, hmoved⟩
  rcases hbound x (rebindFuel_operands _ hcanonical x hx) with
    hnone | ⟨_, hleft⟩ | ⟨y, hy, hymoved, hlt⟩ | hnew
  · cases hnone
  · exact hleft hxmoved
  · exact absurd (hmax y ⟨hy, hymoved⟩) (Nat.not_le.2 hlt)
  · exact hnew (hb x hx).1

/-! ## The end of the loop -/

theorem Canonical.present {b : Binding} (h : Canonical s b) : AllPresent s b.operands := by
  intro v hv
  have hconstant := h.noConstants v hv
  simp only [constantOf?, except_bind_ok] at hconstant
  obtain ⟨_, hdefinition, _⟩ := hconstant
  obtain ⟨d, hd, _⟩ := definingOp?_ok.1 hdefinition
  exact ⟨d, hd⟩

theorem composeStep_canonical {b next : Binding}
    (h : composeStep b J s = .ok ((.ok next, J'), t)) : Canonical t next := by
  obtain ⟨⟨es, p⟩, J₁, s₁, _, h⟩ := Compose.bind_ok.1 h
  obtain ⟨m, _, h⟩ := Compose.ask_bind.1 h
  obtain ⟨_, hcanonical, hnext, rfl, rfl⟩ := Compose.ask_ok.1 h
  cases hnext
  exact canonicalize_canonical hcanonical

/-- No operand that a step leads to is of a rank above those of the operands that it started from.
-/
theorem composeStep_ranked {b next : Binding} (hs : Orderly s cap rank)
    (hb : ∀ v ∈ b.operands, Ranked cap rank s v) (hkeeps : KeepsRanks cap s t rank rank')
    (h : composeStep b J s = .ok ((.ok next, J'), t)) :
    ∀ v ∈ next.operands, Ranked cap rank' t v := by
  intro v hv
  have hpresent := (composeStep_canonical h).present v hv
  obtain ⟨⟨es, p⟩, J₁, s₁, hoperands, h⟩ := Compose.bind_ok.1 h
  obtain ⟨m, _, h⟩ := Compose.ask_bind.1 h
  obtain ⟨_, hcanonical, hnext, rfl, rfl⟩ := Compose.ask_ok.1 h
  cases hnext
  rcases composeOperands_ranked hs hb hoperands v (rebindFuel_operands _ hcanonical v hv) with
    hnone | hle
  · cases hnone
  · exact hkeeps.ranked hle hpresent

/-- The loop of a composition stops at a binding: nothing can be folded, or a step has just led from
the binding to itself. -/
def Stops (b : Binding) (J : Journal) (s : Store) : Prop :=
  anyFoldable s b.map.numDims 0 b.operands = .ok false ∨
    ∃ J₀ s₀ cap rank, Orderly s₀ cap rank ∧ (∀ v ∈ b.operands, Ranked cap rank s₀ v) ∧
      anyFoldable s₀ b.map.numDims 0 b.operands = .ok true ∧
      composeStep b J₀ s₀ = .ok ((.ok b, J), s)

/-- A loop that goes on has made a step to another binding. -/
theorem composeSteps_next {b next : Binding} {J₁ : Journal} {s₁ : Store}
    (hfoldable : anyFoldable s b.map.numDims 0 b.operands = .ok true)
    (hstep : composeStep b J s = .ok ((.ok next, J₁), s₁)) (hne : next ≠ b) (left : Nat) :
    composeSteps (left + 1) b J s = composeSteps left next J₁ s₁ := by
  rw [composeSteps, Compose.ask_run, hfoldable]
  show (composeStep b J s >>= _) = _
  rw [hstep]
  show (if next = b then pure b else composeSteps left next : Compose Binding) J₁ s₁ = _
  rw [if_neg hne]

/-- A loop ends at once, with a step to where it is, or after a step to another binding. -/
theorem composeSteps_cases {b b' : Binding} {limit : Nat}
    (h : composeSteps limit b J s = .ok ((.ok b', J'), t)) :
    (b' = b ∧ J' = J ∧ t = s ∧
      (anyFoldable s b.map.numDims 0 b.operands = .ok false ∨ limit = 0)) ∨
      anyFoldable s b.map.numDims 0 b.operands = .ok true ∧
        (b' = b ∧ composeStep b J s = .ok ((.ok b, J'), t) ∨
          ∃ left next J₁ s₁, limit = left + 1 ∧ next ≠ b ∧
            composeStep b J s = .ok ((.ok next, J₁), s₁) ∧
            composeSteps left next J₁ s₁ = .ok ((.ok b', J'), t)) := by
  rw [composeSteps.eq_def] at h
  obtain ⟨foldable, hfoldable, h⟩ := Compose.ask_bind.1 h
  cases foldable with
  | false =>
    obtain ⟨hb, rfl, rfl⟩ := Compose.pure_ok.1 h
    exact .inl ⟨(Except.ok.inj hb).symm, rfl, rfl, .inl hfoldable⟩
  | true =>
    cases limit with
    | zero =>
      obtain ⟨hb, rfl, rfl⟩ := Compose.pure_ok.1 h
      exact .inl ⟨(Except.ok.inj hb).symm, rfl, rfl, .inr rfl⟩
    | succ left =>
      obtain ⟨next, J₁, s₁, hstep, h⟩ := Compose.bind_ok.1 h
      refine .inr ⟨hfoldable, ?_⟩
      by_cases hne : next = b
      · rw [if_pos hne] at h
        obtain ⟨hb, rfl, rfl⟩ := Compose.pure_ok.1 h
        exact .inl ⟨(Except.ok.inj hb).symm, hne ▸ hstep⟩
      · rw [if_neg hne] at h
        exact .inr ⟨left, next, J₁, s₁, rfl, hne, hstep, h⟩

theorem composeSteps_zero {b b' : Binding} (h : composeSteps 0 b J s = .ok ((.ok b', J'), t)) :
    b' = b := by
  rcases composeSteps_cases h with ⟨hsame, _⟩ | ⟨_, ⟨hsame, _⟩ | ⟨_, _, _, _, hleft, _⟩⟩
  · exact hsame
  · exact hsame
  · cases hleft

/-- A loop for which one more step makes no difference has stopped. -/
theorem composeSteps_stops {b' : Binding} (limit : Nat) :
    ∀ {b : Binding} {J J' : Journal} {s t : Store} {rank : OpRef → Nat}, Orderly s cap rank →
      (∀ v ∈ b.operands, Ranked cap rank s v) → composeSteps limit b J s = .ok ((.ok b', J'), t) →
      composeSteps (limit + 1) b J s = composeSteps limit b J s → Stops b' J' t := by
  induction limit with
  | zero =>
    intro b J J' s t rank hs hb hrun hmore
    rw [hrun] at hmore
    rcases composeSteps_cases hmore with
      ⟨rfl, rfl, rfl, hended | hlimit⟩ | ⟨hfoldable, ⟨rfl, hstep⟩ | ⟨left, next, J₁, s₁, hleft, hne,
        _, hrest⟩⟩
    · exact .inl hended
    · cases hlimit
    · exact .inr ⟨J, s, cap, rank, hs, hb, hfoldable, hstep⟩
    · -- the loop without a step would have come to the next binding
      cases hleft
      exact absurd ((composeSteps_zero hrest).symm.trans (composeSteps_zero hrun)) hne
  | succ limit ih =>
    intro b J J' s t rank hs hb hrun hmore
    rcases composeSteps_cases hrun with
      ⟨rfl, rfl, rfl, hended | hlimit⟩ | ⟨hfoldable, ⟨rfl, hstep⟩ | ⟨left, next, J₁, s₁, hleft, hne,
        hstep, hrest⟩⟩
    · exact .inl hended
    · cases hlimit
    · exact .inr ⟨J, s, cap, rank, hs, hb, hfoldable, hstep⟩
    · cases hleft
      have hhoists : Hoists (J, s) (J₁, s₁) := composeStep_follows b J s _ _ _ hstep
      obtain ⟨rank₁, hs₁, hkeeps⟩ := hs.hoists hhoists
      rw [composeSteps_next hfoldable hstep hne, composeSteps_next hfoldable hstep hne] at hmore
      exact ih hs₁ (composeStep_ranked hs hb hkeeps hstep) hrest hmore

/-! ## Normal bindings -/

/-- A binding that a normalization leaves as it is: canonical, with operands that are valid at their
positions and indices, and with nothing to fold or nothing that a step changes. -/
structure Normal (s : Store) (b : Binding) : Prop extends Canonical s b where
  validDims : ∀ v ∈ b.operands.take b.map.numDims, isInvalidAt s v true = .ok false
  validSymbols : ∀ v ∈ b.operands.drop b.map.numDims, isInvalidAt s v false = .ok false
  indices : ∀ v ∈ b.operands, ∃ ty, s.typeOf v = .ok ty ∧ ty.isIndex = true
  rests : anyFoldable s b.map.numDims 0 b.operands = .ok false ∨
    anyFoldable s b.map.numDims 0 b.operands = .ok true ∧ (∀ v ∈ b.operands, ¬ NeedsHoist s v) ∧
      StepTo s b b

theorem indexOperands_indices {anchor : OpRef} {casts : List (ValueRef × ValueRef)}
    {vs : List ValueRef} (h : ∀ v ∈ vs, ∃ ty, s.typeOf v = .ok ty ∧ ty.isIndex = true) :
    indexOperands anchor casts vs J s = .ok ((.ok vs, J), s) := by
  induction vs with
  | nil => rfl
  | cons v vs ih =>
    obtain ⟨⟨ty, hty, hindex⟩, hvs⟩ := List.forall_mem_cons.1 h
    have hsettled : Indexed casts s v v := ⟨ty, hty, .inl ⟨hindex, rfl⟩⟩
    rw [indexOperands_cons]
    refine Compose.bind_ok.2 ⟨_, J, s, castOf_settled hsettled, ?_⟩
    exact Compose.bind_ok.2 ⟨vs, J, s, ih hvs, rfl⟩

theorem simplify_of_simplified {m : Map} (h : ∀ e ∈ m.results, e.simplify = e) :
    m.simplify = m := by
  have hresults : m.results.map Expr.simplify = m.results :=
    (List.map_congr_left h).trans (List.map_id _)
  rw [Map.simplify, hresults]

namespace Normal

variable {b : Binding} (h : Normal s b)

include h

theorem composeSteps (limit : Nat) (J : Journal) :
    composeSteps limit b J s = .ok ((.ok b, J), s) := by
  rw [composeSteps.eq_def]
  obtain hended | ⟨hfoldable, hstays, hstep⟩ := h.rests
  · exact Compose.ask_bind.2 ⟨false, hended, rfl⟩
  · refine Compose.ask_bind.2 ⟨true, hfoldable, ?_⟩
    cases limit with
    | zero => rfl
    | succ left =>
      have hrun : composeStep b J s = .ok ((.ok b, J), s) :=
        (composeStep_iff hstays _ _ _).2 ⟨b, hstep, rfl, rfl, rfl⟩
      exact Compose.bind_ok.2 ⟨b, J, s, hrun, by rw [if_pos rfl]; rfl⟩

theorem normalizeMap (anchor : OpRef) (limit : Nat) (J : Journal) :
    normalizeMap anchor limit b J s = .ok ((.ok b, J), s) := by
  have hchecked : checkPositions b.map.numDims 0 b.operands J s = .ok ((.ok (), J), s) :=
    checkPositions_iff.2 (firstInOrder_none.2 ⟨h.validDims, h.validSymbols⟩)
  have hmap : composeMap anchor limit b J s = .ok ((.ok b, J), s) := by
    refine Compose.bind_ok.2 ⟨b, J, s, h.composeSteps limit J, ?_⟩
    refine Compose.bind_ok.2 ⟨(), J, s, hchecked, ?_⟩
    refine Compose.bind_ok.2 ⟨b.operands, J, s, indexOperands_indices h.indices, ?_⟩
    rw [simplify_of_simplified h.simplified]
    rfl
  exact Compose.bind_ok.2 ⟨b, J, s, hmap, Compose.ask_ok.2 ⟨b, h.toCanonical.canonicalize, rfl,
    rfl, rfl⟩⟩

end Normal

/-! ## Dimensions that become symbols -/

/-- Whether there is something to fold in the value behind the casts of an operand; `otherwise` if
it is not arithmetic with a constant. -/
def foldsBehind (s : Store) (w : ValueRef) (otherwise : Except Fault Bool) : Except Fault Bool := do
  match ← s.definingOp? w with
  | none => otherwise
  | some o => if ← foldsConstant s o then return true else otherwise

theorem foldsBehind_congr {x y : Except Fault Bool} (h : foldsBehind s w x = .ok false)
    (hy : y = .ok false) : foldsBehind s w y = .ok false := by
  simp only [foldsBehind, except_bind_ok] at h ⊢
  obtain ⟨o?, ho, h⟩ := h
  refine ⟨o?, ho, ?_⟩
  cases o? with
  | none => exact hy
  | some o =>
    simp only [except_bind_ok] at h ⊢
    obtain ⟨arithmetic, harithmetic, h⟩ := h
    refine ⟨arithmetic, harithmetic, ?_⟩
    cases arithmetic with
    | true => exact h
    | false => exact hy

/-- A symbol behind whose casts no induction variable stands has no more to fold at a symbol's place
than at a dimension. -/
theorem isFoldable_symbol (h : isFoldable s v true = .ok false) (hsymbol : isSymbol s v = .ok true)
    (hstripped : ∀ w, stripIndexCasts s v = .ok w → isLoopArg s w = .ok false) :
    isFoldable s v false = .ok false := by
  have hsymbol : isSymbol s v = pure true := hsymbol
  have hbehind : (isIndex s v >>= fun _ => stripIndexCasts s v >>= fun w =>
      foldsBehind s w (pure false)) = .ok false →
      (isIndex s v >>= fun _ => stripIndexCasts s v >>= fun w =>
        foldsBehind s w (isLoopArg s w)) = .ok false := by
    intro h
    simp only [except_bind_ok] at h ⊢
    obtain ⟨index, hindex, w, hw, h⟩ := h
    exact ⟨index, hindex, w, hw, foldsBehind_congr h (hstripped w hw)⟩
  simp only [isFoldable, hsymbol, pure_bind, if_true, Bool.false_eq_true, if_false,
    except_bind_ok] at h ⊢
  obtain ⟨o?, ho, h⟩ := h
  refine ⟨o?, ho, ?_⟩
  cases o? with
  | none => exact hbehind h
  | some o =>
    simp only [except_bind_ok] at h ⊢
    obtain ⟨applied, happlied, h⟩ := h
    refine ⟨applied, happlied, ?_⟩
    cases applied with
    | true => exact h
    | false => exact hbehind h

/-- Dimensions stay where they are, or become symbols because they are symbols. -/
theorem canonicalize_positions {b b' : Binding} (h : canonicalize s b = .ok b') :
    (∀ v ∈ b'.operands.take b'.map.numDims, v ∈ b.operands.take b.map.numDims) ∧
      ∀ v ∈ b'.operands.drop b'.map.numDims, v ∈ b.operands.drop b.map.numDims ∨
        v ∈ b.operands.take b.map.numDims ∧ isSymbol s v = .ok true := by
  refine (rebindFuel_induct (P := fun c =>
    (∀ v ∈ c.operands.take c.map.numDims, v ∈ b.operands.take b.map.numDims) ∧
      ∀ v ∈ c.operands.drop c.map.numDims, v ∈ b.operands.drop b.map.numDims ∨
        v ∈ b.operands.take b.map.numDims ∧ isSymbol s v = .ok true) _ ?_ h
    ⟨fun _ hv => hv, fun _ hv => .inl hv⟩).1
  rintro c next hnext ⟨hdims, hsymbols⟩
  obtain ⟨symExprs, dimExprs, p, p', hround⟩ := rebindOnce_round hnext
  refine ⟨fun v hv => hdims v (hround.mem_take hv), fun v hv => ?_⟩
  rcases hround.mem_drop hv with hv | ⟨hv, hsymbol⟩
  · exact hsymbols v hv
  · exact .inr ⟨hdims v hv, hsymbol⟩

theorem isInvalidAt_of_symbol (h : isSymbol s v = .ok true) :
    isInvalidAt s v isDim = .ok false := by
  rw [isInvalidAt, h]
  rfl

theorem isSymbol_of_valid (h : isInvalidAt s v false = .ok false) : isSymbol s v = .ok true := by
  simp only [isInvalidAt, except_bind_ok] at h
  obtain ⟨sym, hsym, h⟩ := h
  cases sym with
  | true => exact hsym
  | false => cases h

/-- Dimensions are no symbols, so no operand of a canonical binding occurs twice if what is bound to
symbols is one. -/
theorem Canonical.nodup {b : Binding} (h : Canonical s b)
    (hsymbols : ∀ v ∈ b.operands.drop b.map.numDims, isSymbol s v = .ok true) :
    b.operands.Nodup := by
  rw [← List.take_append_drop b.map.numDims b.operands]
  refine List.nodup_append.2 ⟨h.distinctDims, h.distinctSymbols, ?_⟩
  rintro v hv w hw rfl
  cases (h.noSymbolDims v hv).symm.trans (hsymbols v hw)

/-! ## Normalizing again -/

/-- Where the loop of a composition has stopped at valid operands that are indices, canonicalizing
comes to a normal binding, unless a dimension that becomes a symbol has something to fold there. -/
theorem Stops.normal {b b' : Binding} (h : Stops b J s)
    (hvalid : firstInOrder (isInvalidAt s) b.map.numDims 0 b.operands = .ok none)
    (hindices : ∀ v ∈ b.operands, ∃ ty, s.typeOf v = .ok ty ∧ ty.isIndex = true)
    (hdims : ∀ v ∈ b.operands.take b.map.numDims, isSymbol s v = .ok true →
      ∀ w, stripIndexCasts s v = .ok w → isLoopArg s w = .ok false)
    (hcanonical : canonicalize s ⟨b.map.simplify, b.operands⟩ = .ok b') : Normal s b' := by
  obtain ⟨hvalidDims, hvalidSymbols⟩ := firstInOrder_none.1 hvalid
  obtain ⟨htake, hdrop⟩ := canonicalize_positions hcanonical
  rcases h with hended | ⟨J₀, s₀, cap, rank, hs, hpresent, hfoldable, hstep⟩
  · obtain ⟨hfoldDims, hfoldSymbols⟩ := firstInOrder_none.1 (anyFoldable_false.1 hended)
    refine { canonicalize_canonical hcanonical with
      validDims := fun v hv => hvalidDims v (htake v hv), validSymbols := fun v hv => ?_
      indices := fun v hv => hindices v (rebindFuel_operands _ hcanonical v hv)
      rests := .inl (anyFoldable_false.2 (firstInOrder_none.2
        ⟨fun v hv => hfoldDims v (htake v hv), fun v hv => ?_⟩)) }
    · rcases hdrop v hv with hv | ⟨_, hsymbol⟩
      · exact hvalidSymbols v hv
      · exact isInvalidAt_of_symbol hsymbol
    · rcases hdrop v hv with hv | ⟨hv, hsymbol⟩
      · exact hfoldSymbols v hv
      · exact isFoldable_symbol (hfoldDims v hv) hsymbol (hdims v hv hsymbol)
  · have hb := composeStep_canonical hstep
    have hnodup := hb.nodup fun v hv => isSymbol_of_valid (hvalidSymbols v hv)
    obtain ⟨rfl, rfl, hstays⟩ := composeStep_rests hs hpresent hnodup hstep
    obtain ⟨next, hto, hnext, _⟩ := (composeStep_iff hstays _ _ _).1 hstep
    cases hnext
    -- a step has canonicalized the binding already
    rw [simplify_of_simplified hb.simplified, hb.canonicalize] at hcanonical
    cases hcanonical
    exact { hb with
      validDims := hvalidDims, validSymbols := hvalidSymbols, indices := hindices
      rests := .inr ⟨hfoldable, hstays, hto⟩ }

theorem Consistent.present_chain (hs : Consistent s) (hv : Present s v) (h : Chain s v w) :
    Present s w := by
  induction h with
  | refl => exact hv
  | tail _ hfeeds _ =>
    obtain ⟨o, k, d, _, hd, hw⟩ := hfeeds
    exact hs.present_operand hd hw

/-- What a normalization returns is normal, if the loop was not cut off, made no casts necessary and
left no dimension that is a symbol with an induction variable behind its casts. -/
theorem normalizeMap_normal {anchor : OpRef} {limit : Nat} {b b₁ b' : Binding} {J₁ : Journal}
    {s₁ : Store} (hs : Orderly s cap rank) (hoperands : ∀ v ∈ b.operands, Ranked cap rank s v)
    (hloop : composeSteps limit b J s = .ok ((.ok b₁, J₁), s₁))
    (hmore : composeSteps (limit + 1) b J s = composeSteps limit b J s)
    (hindices : ∀ v ∈ b₁.operands, ∃ ty, s₁.typeOf v = .ok ty ∧ ty.isIndex = true)
    (hdims : ∀ v ∈ b₁.operands.take b₁.map.numDims, isSymbol s₁ v = .ok true →
      ∀ w, stripIndexCasts s₁ v = .ok w → isLoopArg s₁ w ≠ .ok true)
    (h : normalizeMap anchor limit b J s = .ok ((.ok b', J'), t)) : Normal t b' := by
  obtain ⟨c, J₂, s₂, hmap, h⟩ := Compose.bind_ok.1 h
  obtain ⟨_, hcanonical, hb', rfl, rfl⟩ := Compose.ask_ok.1 h
  cases hb'
  obtain ⟨b₂, J₃, s₃, hloop', hcasts, hsimplified, hchecked⟩ := composeMap_ok hmap
  cases hloop.symm.trans hloop'
  -- no cast is made
  have hsame := (indexOperands_indices hindices).symm.trans hcasts
  simp only [Except.ok.injEq, Prod.mk.injEq] at hsame
  obtain ⟨⟨hvs, rfl⟩, rfl⟩ := hsame
  have hhoists : Hoists (J, s) (J₁, s₁) := composeSteps_follows limit b J s _ _ _ hloop
  have hconsistent : Consistent s₁ := (hhoists.advances hs.consistent).consistent
  have hstops := composeSteps_stops limit hs hoperands hloop hmore
  obtain ⟨m, vs⟩ := c
  cases hsimplified
  cases hvs
  refine hstops.normal (checkPositions_iff.1 hchecked) hindices (fun v hv hsymbol w hw => ?_)
    hcanonical
  obtain ⟨ty, hty, _⟩ := hindices v (List.mem_of_mem_take hv)
  obtain ⟨a, ha, _⟩ := typeOf_ok.1 hty
  obtain ⟨a', ha'⟩ := hconsistent.present_chain ⟨a, ha⟩ (stripFuel_chain _ hw)
  obtain ⟨arg, harg⟩ := isLoopArg_answers hconsistent.linked ha'
  cases arg with
  | true => exact absurd harg (hdims v hv hsymbol w hw)
  | false => exact harg

/-- In a module that passes the check, normalizing again returns the same binding, in the same
store and without an entry in the journal, at every limit, anchor and journal.  This is so if the
first normalization was not cut off by its limit, so that one more step would have made no
difference, if the operands that its loop left were indices, and if no induction variable stood
behind the casts of a dimension that is a symbol.  The module may stand among what was removed from
it; the operands are its own values. -/
theorem normalizing_again_changes_nothing {gone : OpRef → Prop} {root : OpRef}
    (hheld : HoldsModule root gone s) (hcheck : check s root = .ok ⟨[], [], []⟩)
    (hregions : ∀ d, s.op? root = some d → d.regions.length ≤ 1) {anchor : OpRef} {limit : Nat}
    {b b₁ b' : Binding} {J₁ : Journal} {s₁ : Store}
    (hoperands : ∀ v ∈ b.operands, ∃ e, s.value? v = some e ∧
      ∀ o k, e.origin = .result o k → ¬ gone o)
    (hloop : composeSteps limit b J s = .ok ((.ok b₁, J₁), s₁))
    (hmore : composeSteps (limit + 1) b J s = composeSteps limit b J s)
    (hindices : ∀ v ∈ b₁.operands, ∃ ty, s₁.typeOf v = .ok ty ∧ ty.isIndex = true)
    (hdims : ∀ v ∈ b₁.operands.take b₁.map.numDims, isSymbol s₁ v = .ok true →
      ∀ w, stripIndexCasts s₁ v = .ok w → isLoopArg s₁ w ≠ .ok true)
    (h : normalizeMap anchor limit b J s = .ok ((.ok b', J'), t)) :
    ∀ anchor' limit' J'', normalizeMap anchor' limit' b' J'' t = .ok ((.ok b', J''), t) := by
  have hsees := hheld.seesOperands (check_eq_clean.1 hcheck).2.1 hregions
  obtain ⟨cap, rank, hr, hlive, _⟩ := hsees.exists_ranks hheld.consistent.linked hheld.acyclic
  have hs : Orderly s cap rank :=
    ⟨hheld.consistent, hheld.acyclic, hheld.sized, hr.pos,
      fun o p ho hp => hr.falls o p ho (.inl hp),
      fun o d b hd hparent => (hlive o).2 (hsees.not_removed hd hparent)⟩
  have hranked : ∀ v ∈ b.operands, Ranked cap rank s v := by
    intro v hv
    obtain ⟨e, he, hlive'⟩ := hoperands v hv
    refine ⟨⟨e, he⟩, ?_⟩
    rw [valueRank, originOf, he, Option.map_some]
    cases horigin : e.origin with
    | argument b k => exact Nat.zero_le _
    | result o k => exact (hlive o).2 (hlive' o k horigin)
  have hnormal := normalizeMap_normal hs hranked hloop hmore hindices hdims h
  exact fun anchor' limit' J'' => hnormal.normalizeMap anchor' limit' J''

/-- The sum of an induction variable and a product of parameters: the product is hoisted. -/
theorem product_normalized :
    let sum : List ValueRef → Binding := fun vs => ⟨⟨1, 1, [.bin .add (.dim 0) (.symbol 0)]⟩, vs⟩
    ∃ root scope s d J t, buildOp Scope.empty (computingLoop .mul "a") Store.empty =
        .ok (.ok (root, scope), s) ∧ check s root = .ok ⟨[], [], []⟩ ∧ s.op? root = some d ∧
      d.regions.length = 1 ∧ s.values.size = 4 ∧
      (composeSteps 8 (sum [⟨2⟩, ⟨3⟩]) [] s = .ok ((.ok (sum [⟨2⟩, ⟨4⟩]), J), t) ∧
        composeSteps 9 (sum [⟨2⟩, ⟨3⟩]) [] s = .ok ((.ok (sum [⟨2⟩, ⟨4⟩]), J), t)) ∧
      Journal.hoists J = 1 ∧
      (t.typeOf ⟨2⟩ = .ok .index ∧ t.typeOf ⟨4⟩ = .ok .index ∧ isSymbol t ⟨2⟩ = .ok false) ∧
      normalizeMap ⟨1⟩ 8 (sum [⟨2⟩, ⟨3⟩]) [] s = .ok ((.ok (sum [⟨2⟩, ⟨4⟩]), J), t) :=
  ⟨⟨6⟩, _, _, _, _, _, by cbv, by cbv, by cbv, by cbv, by cbv, ⟨by cbv, by cbv⟩, by decide,
    ⟨by cbv, by cbv, by cbv⟩, by cbv⟩

theorem normalizing_again_changes_nothing_product :
    let sum : List ValueRef → Binding := fun vs => ⟨⟨1, 1, [.bin .add (.dim 0) (.symbol 0)]⟩, vs⟩
    ∃ s J t, Journal.hoists J = 1 ∧
      normalizeMap ⟨1⟩ 8 (sum [⟨2⟩, ⟨3⟩]) [] s = .ok ((.ok (sum [⟨2⟩, ⟨4⟩]), J), t) ∧
      normalizeMap ⟨1⟩ 8 (sum [⟨2⟩, ⟨4⟩]) J t = .ok ((.ok (sum [⟨2⟩, ⟨4⟩]), J), t) := by
  obtain ⟨root, scope, s, d, J, t, hbuild, hcheck, hroot, hregions, hsize,
    ⟨hloop, hmore⟩, hhoists, ⟨hvariable, hproduct, hnot⟩, hnormalize⟩ := product_normalized
  refine ⟨s, J, t, hhoists, hnormalize, ?_⟩
  have hone : ∀ d', s.op? root = some d' → d'.regions.length ≤ 1 := fun d' hd' => by
    cases hroot.symm.trans hd'
    exact Nat.le_of_eq hregions
  refine normalizing_again_changes_nothing (.of_built hbuild) hcheck hone ?_ hloop
    (hmore.trans hloop.symm) ?_ ?_ hnormalize ⟨1⟩ 8 J
  · intro v hv
    have hlt : v.index < s.values.size := by
      simp only [List.mem_cons, List.not_mem_nil, or_false] at hv
      rcases hv with rfl | rfl <;> rw [hsize] <;> decide
    exact ⟨_, Array.getElem?_eq_getElem hlt, fun _ _ _ => False.elim⟩
  · intro v hv
    simp only [List.mem_cons, List.not_mem_nil, or_false] at hv
    rcases hv with rfl | rfl
    · exact ⟨_, hvariable, rfl⟩
    · exact ⟨_, hproduct, rfl⟩
  · intro v hv hsymbol
    cases List.mem_singleton.1 hv
    cases hnot.symm.trans hsymbol

/-- A function in a loop: `v` is `n + 3`, extended and cast, and `w` a cast of the induction
variable. -/
def functionInLoop : Surface.Op :=
  let i32 : Ty := .core "i32"
  let constant := Surface.Op.mk ⟨["c"], "arith", "const", none, [], [], [], none,
    [("value", .int 3)], [i32]⟩ []
  let body : List Surface.Op := [constant,
    .plain ArithKind.add.opName ["y"] ["n", "c"] [i32] [],
    .plain ArithKind.extU.opName ["e"] ["y"] [.core "i64"] [],
    .plain ArithKind.indexCast.opName ["v"] ["e"] [.index] [],
    .plain ArithKind.indexCast.opName ["w"] ["i"] [.index] [],
    .plain ⟨"test", "use"⟩ [] ["v", "w"] [] [], .plain returnName [] [] [] []]
  .program [⟨"a", .index⟩]
    [.loop [.mk ⟨[], "func", "func", none, [⟨"n", i32⟩], [], [], none, [], []⟩
      [.mk [.mk "body" [] body]]], .plain returnName [] [] [] []]

/-- Canonicalizing moves `w`, a symbol, from a dimension to a symbol position, where the induction
variable behind it can be folded; a step that does so folds the sum behind `v` too, behind an
extension that the search for something to fold does not look through. -/
theorem normalized_pair_folds_again :
    ¬ ∀ {tree : Surface.Op} {root anchor : OpRef} {scope : Scope} {s t s₁ : Store} {d : OpData}
        {block : BlockRef} {limit : Nat} {b b₁ b' : Binding} {J J₁ J' : Journal},
      buildOp Scope.empty tree Store.empty = .ok (.ok (root, scope), s) →
      check s root = .ok ⟨[], [], []⟩ → s.op? anchor = some d → d.parent = some block →
      b.WellBound → composeSteps limit b J s = .ok ((.ok b₁, J₁), s₁) →
      anyFoldable s₁ b₁.map.numDims 0 b₁.operands = .ok false →
      (∀ v ∈ b₁.operands, ∃ ty, s₁.typeOf v = .ok ty ∧ ty.isIndex = true) →
      normalizeMap anchor limit b J s = .ok ((.ok b', J'), t) →
      normalizeMap anchor limit b' J' t = .ok ((.ok b', J'), t) := by
  intro hclaim
  let sum : Binding := ⟨⟨1, 1, [.bin .add (.dim 0) (.symbol 0)]⟩, [⟨7⟩, ⟨6⟩]⟩
  let canonical : Binding := ⟨⟨0, 2, [.bin .add (.symbol 0) (.symbol 1)]⟩, [⟨6⟩, ⟨7⟩]⟩
  let folded : Binding :=
    ⟨⟨0, 2, [.bin .add (.bin .add (.symbol 0) (.symbol 1)) (.const 3)]⟩, [⟨8⟩, ⟨7⟩]⟩
  have hprogram : ∃ root scope s d block J t,
      buildOp Scope.empty functionInLoop Store.empty = .ok (.ok (root, scope), s) ∧
      check s root = .ok ⟨[], [], []⟩ ∧ (s.op? ⟨5⟩ = some d ∧ d.parent = some block) ∧
      composeSteps 8 sum [] s = .ok ((.ok sum, []), s) ∧
      anyFoldable s 1 0 [⟨7⟩, ⟨6⟩] = .ok false ∧
      (s.typeOf ⟨6⟩ = .ok .index ∧ s.typeOf ⟨7⟩ = .ok .index) ∧
      normalizeMap ⟨5⟩ 8 sum [] s = .ok ((.ok canonical, []), s) ∧
      normalizeMap ⟨5⟩ 8 canonical [] s = .ok ((.ok folded, J), t) :=
    ⟨⟨12⟩, _, _, _, _, _, _, by cbv, by cbv, ⟨by cbv, by cbv⟩, by cbv, by cbv, ⟨by cbv, by cbv⟩,
      by cbv, by cbv⟩
  obtain ⟨root, scope, s, d, block, J, t, hbuild, hcheck, ⟨hanchor, hparent⟩, hloop, hended,
    ⟨hv, hw⟩, hnormalize, hagain⟩ := hprogram
  have hwell : sum.WellBound :=
    ⟨rfl, by simp [sum, Expr.inRange_bin, Expr.inRange_dim, Expr.inRange_symbol]⟩
  have hindices : ∀ v ∈ sum.operands, ∃ ty, s.typeOf v = .ok ty ∧ ty.isIndex = true := by
    intro v hmem
    simp only [sum, List.mem_cons, List.not_mem_nil, or_false] at hmem
    rcases hmem with rfl | rfl
    · exact ⟨_, hw, rfl⟩
    · exact ⟨_, hv, rfl⟩
  have hsame := hclaim hbuild hcheck hanchor hparent hwell hloop hended hindices hnormalize
  have hpair := hagain.symm.trans hsame
  simp [folded, canonical] at hpair

end AffineRaising.Raise
