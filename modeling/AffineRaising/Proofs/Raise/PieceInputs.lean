/-
# AffineRaising.Proofs.Raise.PieceInputs — what is bound in place of an operand.

An operand that stays is replaced by values of its chain of definitions: the operand itself, or
values that it is computed from.  An operand that has to be hoisted is replaced by a symbol that was
not there before.
-/
import AffineRaising.Proofs.Raise.Consistency
import AffineRaising.Proofs.Raise.Frame
import AffineRaising.Proofs.Raise.RepeatedOperand

namespace AffineRaising.Raise

open AffineRaising.IR AffineRaising.IR.Store AffineRaising.Ops AffineRaising.Analysis
open AffineRaising.Affine (Expr Map)

variable {s t : Store} {J J' : Journal} {p p' : Positions} {u v w : ValueRef} {e : Expr}
  {isDim : Bool}

/-! ## Definitions that are looked at -/

theorem feeds_of_operandsOf {o : OpRef} {vs : List ValueRef} (ho : s.definingOp? v = .ok (some o))
    (hvs : s.operandsOf o = .ok vs) (hw : w ∈ vs) : Feeds s v w := by
  obtain ⟨k, hk⟩ := definingOp?_some ho
  obtain ⟨d, hd, rfl⟩ := operandsOf_ok.1 hvs
  exact ⟨o, k, d, hk, hd, hw⟩

/-- Casts are followed along the chain. -/
theorem stripFuel_chain {through : ArithKind → Bool} (n : Nat) :
    ∀ {v w : ValueRef}, stripFuel through s n v = .ok w → Chain s v w := by
  induction n with
  | zero =>
    intro v w h
    cases h
  | succ n ih =>
    intro v w h
    simp only [stripFuel, except_bind_ok] at h
    obtain ⟨o?, ho, h⟩ := h
    cases o? with
    | none =>
      cases h
      exact .refl
    | some o =>
      simp only [except_bind_ok] at h
      obtain ⟨kind?, _, h⟩ := h
      cases kind? with
      | none =>
        cases h
        exact .refl
      | some kind =>
        by_cases hk : through kind = true
        · simp only [hk, if_true, except_bind_ok, operand_ok] at h
          obtain ⟨a, ⟨d, hd, ha⟩, h⟩ := h
          obtain ⟨k, hk⟩ := definingOp?_some ho
          exact .head ⟨o, k, d, hk, hd, List.mem_of_getElem? ha⟩ (ih h)
        · simp only [if_neg hk] at h
          cases h
          exact .refl

/-- The shape of an operation on two operands is one over these. -/
theorem binaryShape?_inputs {kind : ArithKind} {a b : ValueRef} {shape : Shape}
    (h : binaryShape? s kind a b = .ok (some shape)) : ∀ w ∈ shape.inputs, w ∈ [a, b] := by
  have hscaled : ∀ {combine : Expr → Expr → Expr} {x : ValueRef} {c? : Option Expr},
      x ∈ [a, b] → scaledShape combine x c? = some shape → ∀ w ∈ shape.inputs, w ∈ [a, b] := by
    intro combine x c? hx h w hw
    obtain ⟨c, _, rfl⟩ := scaledShape_some h
    exact List.mem_singleton.1 hw ▸ hx
  have ha : a ∈ [a, b] := List.mem_cons_self
  cases kind <;> simp only [binaryShape?, except_bind_ok, except_pure, Except.ok.injEq,
    Option.some.injEq, reduceCtorEq] at h
  case add => exact h ▸ fun _ hw => hw
  case sub => exact h ▸ fun _ hw => hw
  case mul =>
    obtain ⟨c?, _, c'?, _, h⟩ := h
    cases c'? with
    | some c => exact hscaled ha (Except.ok.inj h)
    | none =>
      cases c? with
      | some c => exact hscaled (by simp) (Except.ok.inj h)
      | none => cases h
  case divU =>
    obtain ⟨c?, _, h⟩ := h
    exact hscaled ha h
  case remU =>
    obtain ⟨c?, _, h⟩ := h
    exact hscaled ha h
  all_goals
    obtain ⟨sign, _, h⟩ := h
    cases sign with
    | false => cases h
    | true =>
      simp only [if_true, except_bind_ok, Except.ok.injEq] at h
      obtain ⟨c?, _, h⟩ := h
      exact hscaled ha h

/-- The shape of a value is one over the operands of its definition. -/
theorem shape?_feeds {shape : Shape} (h : shape? s v = .ok (some shape)) :
    ∀ w ∈ shape.inputs, Feeds s v w := by
  simp only [shape?, except_bind_ok] at h
  obtain ⟨c?, _, h⟩ := h
  cases c? with
  | some c =>
    cases h
    exact nofun
  | none =>
    simp only [except_bind_ok] at h
    obtain ⟨o?, ho, h⟩ := h
    cases o? with
    | none => cases h
    | some o =>
      simp only [except_bind_ok] at h
      obtain ⟨kind?, _, vs, hvs, h⟩ := h
      split at h
      · exact fun w hw => feeds_of_operandsOf ho hvs (binaryShape?_inputs h w hw)
      · cases h

/-- An operand is folded with the shape of the value itself or of the value behind its casts. -/
theorem inlineShape?_feeds {shape : Shape} (h : inlineShape? s v u = .ok (some shape)) :
    (∀ w ∈ shape.inputs, Feeds s v w) ∨ ∀ w ∈ shape.inputs, Feeds s u w :=
  (inlineShape?_some h).imp shape?_feeds shape?_feeds

theorem appliedMap?_feeds {m : Map} {operands : List ValueRef}
    (h : appliedMap? s v = .ok (some (m, e, operands))) : ∀ w ∈ operands, Feeds s v w := by
  simp only [appliedMap?, except_bind_ok] at h
  obtain ⟨o?, ho, h⟩ := h
  cases o? with
  | none => cases h
  | some o =>
    simp only [except_bind_ok] at h
    obtain ⟨named, _, h⟩ := h
    cases named with
    | false => cases h
    | true =>
      simp only [if_true, except_bind_ok] at h
      obtain ⟨vs, hvs, m?, _, h⟩ := h
      cases m? with
      | none => cases h
      | some m' =>
        dsimp only at h
        split at h
        · split at h
          · cases h
            exact fun w hw => feeds_of_operandsOf ho hvs hw
          · cases h
        · cases h

/-! ## Operands that stay -/

/-- The values that a piece binds. -/
def Piece.inputs : Piece → List ValueRef
  | .inlined shape => shape.inputs
  | .argument v => [v]
  | .applied _ _ operands => operands
  | .whole v => [v]

theorem Positions.mem_dim (h : w ∈ (p.dim v).2.operands) : w ∈ p.operands ∨ w = v := by
  rcases List.mem_append.1 h with h | h
  · exact ((slot_spec p.dims v).2.2 w h).imp_left (List.mem_append_left _)
  · exact .inl (List.mem_append_right _ h)

theorem Positions.mem_symbol (h : w ∈ (p.symbol v).2.operands) : w ∈ p.operands ∨ w = v := by
  rcases List.mem_append.1 h with h | h
  · exact .inl (List.mem_append_left _ h)
  · exact ((slot_spec p.symbols v).2.2 w h).imp_left (List.mem_append_right _)

theorem mem_bindAll {bind : Positions → ValueRef → Expr × Positions}
    (hbind : ∀ {p v}, w ∈ (bind p v).2.operands → w ∈ p.operands ∨ w = v) {vs : List ValueRef} :
    ∀ {p : Positions}, w ∈ (bindAll bind p vs).2.operands → w ∈ p.operands ∨ w ∈ vs := by
  induction vs with
  | nil => exact .inl
  | cons v vs ih =>
    intro p h
    rcases ih h with h | h
    · rcases hbind h with h | rfl
      · exact .inl h
      · exact .inr List.mem_cons_self
    · exact .inr (List.mem_cons_of_mem v h)

/-- A piece binds its inputs, and nothing else. -/
theorem Piece.place_operands {piece : Piece} (h : piece.place p isDim = .ok (e, p'))
    (hw : w ∈ p'.operands) : w ∈ p.operands ∨ w ∈ piece.inputs := by
  cases piece with
  | inlined shape =>
    simp only [place, except_bind_ok] at h
    obtain ⟨_, _, h⟩ := h
    cases h
    exact mem_bindAll Positions.mem_symbol hw
  | argument v =>
    cases h
    exact (Positions.mem_dim hw).imp_right List.mem_singleton.2
  | applied m result operands =>
    simp only [place, except_bind_ok] at h
    obtain ⟨_, _, h⟩ := h
    cases h
    rcases mem_bindAll Positions.mem_symbol hw with hw | hw
    · exact (mem_bindAll Positions.mem_dim hw).imp_right List.mem_of_mem_take
    · exact .inr (List.mem_of_mem_drop hw)
  | whole v =>
    cases isDim with
    | true =>
      cases h
      exact (Positions.mem_dim hw).imp_right List.mem_singleton.2
    | false =>
      cases h
      exact (Positions.mem_symbol hw).imp_right List.mem_singleton.2

/-- A piece of an operand binds the operand, or values that it is computed from. -/
theorem pieceOf?_inputs {piece : Piece} (h : pieceOf? s v = .ok (some piece)) :
    piece.inputs = [v] ∨ ∀ w ∈ piece.inputs, Relation.TransGen (Feeds s) v w := by
  simp only [pieceOf?, except_bind_ok] at h
  obtain ⟨decast, hdecast, sym, _, shape?, hshape, h⟩ := h
  have hchain : Chain s v decast := stripFuel_chain _ hdecast
  have hfed : ∀ {x w}, Chain s v x → Feeds s x w → Relation.TransGen (Feeds s) v w :=
    fun hx hw => .tail' hx hw
  have hlooked : Chain s v (if sym then v else decast) := by
    cases sym with
    | true => exact .refl
    | false => exact hchain
  generalize (if sym then v else decast) = x at h hshape hlooked
  have hwhole : ∀ {piece : Piece}, piece.inputs = [x] →
      piece.inputs = [v] ∨ ∀ w ∈ piece.inputs, Relation.TransGen (Feeds s) v w := by
    intro piece hinputs
    rcases Relation.reflTransGen_iff_eq_or_transGen.1 hlooked with rfl | hbelow
    · exact .inl hinputs
    · exact .inr fun w hw => List.mem_singleton.1 (hinputs ▸ hw) ▸ hbelow
  cases shape? with
  | some shape =>
    cases h
    rcases inlineShape?_feeds hshape with hfeeds | hfeeds
    · exact .inr fun w hw => hfed hlooked (hfeeds w hw)
    · exact .inr fun w hw => hfed hchain (hfeeds w hw)
  | none =>
    simp only [except_bind_ok] at h
    obtain ⟨arg, _, h⟩ := h
    cases arg with
    | true =>
      cases h
      exact hwhole rfl
    | false =>
      simp only [Bool.false_eq_true, if_false, except_bind_ok] at h
      obtain ⟨applied, happlied, h⟩ := h
      cases applied with
      | some applied =>
        obtain ⟨m, result, operands⟩ := applied
        cases h
        exact .inr fun w hw => hfed hlooked (appliedMap?_feeds happlied w hw)
      | none =>
        simp only [except_bind_ok] at h
        obtain ⟨sym', _, h⟩ := h
        cases sym' with
        | true =>
          cases h
          exact hwhole rfl
        | false => cases h

/-! ## Operands that are hoisted -/

theorem Hoists.advances {x y : Journal × Store} (h : Hoists x y) (hx : Consistent x.2) :
    Advances x.2 y.2 := by
  induction h with
  | refl => exact .refl hx
  | tail _ hstep ih => exact ih.trans (ComposeStep.advances (.inl hstep) ih.consistent)

/-- The result of a copy was not there before the hoist. -/
theorem Hoisted.result_new {gone : OpRef → Prop} {o c : OpRef} {q : Point} {b : BlockRef}
    {before : Option OpRef} {sc si sr : Store} (h : Hoisted gone s o q b before c sc si sr t)
    (hl : Linked s) (hw : w ∈ t.resultsOf c) : ¬ Present s w := by
  rintro ⟨a, ha⟩
  obtain ⟨k, hk⟩ := originOf_of_mem_results h.kept_after.linked hw
  have horigin : s.originOf w = some a.origin := by rw [originOf, ha, Option.map_some]
  have hsame : a.origin = .result c k := Option.some.inj ((h.originOf_old horigin).symm.trans hk)
  obtain ⟨d, hd⟩ := op?_of_result hl (hsame ▸ horigin)
  cases h.placed.cloned.new.symm.trans hd

/-- What is promoted to a symbol for a value that is none was not there before. -/
theorem requireSymbol_new (hs : Consistent s) (hu : isSymbol s u = .ok false)
    (h : requireSymbol u J s = .ok ((.ok w, J'), t)) :
    ¬ Present s w ∧ isSymbol t w = .ok true := by
  obtain ⟨sym, hsym, h⟩ := Compose.ask_bind.1 h
  cases hu.symm.trans hsym
  obtain ⟨w?, J₁, s₁, hpromote, h⟩ := Compose.draft_bind.1 h
  cases w? with
  | none => cases h
  | some w' =>
    obtain ⟨sym', hsym', h⟩ := Compose.ask_bind.1 h
    cases sym' with
    | false => cases h
    | true =>
      obtain ⟨hw, rfl, rfl⟩ := Compose.pure_ok.1 h
      cases hw
      refine ⟨?_, hsym'⟩
      simp only [promote, Draft.bind_ok, Draft.lift_ok, Edit.get_run] at hpromote
      obtain ⟨_, _, _, ⟨hget, rfl⟩, hpromote⟩ := hpromote
      cases hget
      obtain ⟨rfl, rfl, hsame⟩ | ⟨o, free, points, J₂, s₂, _, _, _, havail, hrest⟩ :=
        promoteFuel_ok hpromote
      · obtain hnone | hsame := hsame
        · cases hnone
        · cases hsame
          cases hu.symm.trans hsym'
      · obtain ⟨hhoists, _⟩ := availabilityWith_ok (promoteFuel_hoists _) havail
        have hadvance : Advances s s₂ := hhoists.advances hs
        obtain ⟨_, _, hnone⟩ | ⟨ps, q, clone, _, _, hhoist, hresult⟩ := hrest
        · cases hnone
        · cases clone with
          | none => cases hresult
          | some c =>
            obtain ⟨⟨gone, hk⟩, hg⟩ := hadvance.consistent
            obtain ⟨b, before, sc, si, sr, m, hhoisted, _⟩ := hoist_hoisted hk hg hhoist
            have hmem : w ∈ s₁.resultsOf c := List.mem_of_mem_head? hresult.symm
            exact fun hpresent => hhoisted.result_new hk.linked hmem (hadvance.present w hpresent)

/-- An operand that has to be hoisted is replaced by what it, or the value behind its casts, is
promoted to. -/
theorem composeOperand_hoisted (hneeds : NeedsHoist s v)
    (h : composeOperand p v isDim J s = .ok ((.ok (e, p'), J'), t)) :
    ∃ u w, Chain s v u ∧ isSymbol s u = .ok false ∧ requireSymbol u J s = .ok ((.ok w, J'), t) ∧
      ∀ x ∈ p'.operands, x ∈ p.operands ∨ x = w := by
  rw [composeOperand_eq] at h
  simp only [NeedsHoist, pieceOf?, except_bind_ok] at hneeds
  obtain ⟨decast, hdecast, sym, hsym, shape?, hshape, hneeds⟩ := hneeds
  obtain ⟨decast', hdecast', h⟩ := Compose.ask_bind.1 h
  cases hdecast.symm.trans hdecast'
  obtain ⟨sym', hsym', h⟩ := Compose.ask_bind.1 h
  cases hsym.symm.trans hsym'
  unfold foldValue at h
  obtain ⟨shape'?, hshape', h⟩ := Compose.ask_bind.1 h
  cases hshape.symm.trans hshape'
  cases shape? with
  | some shape => cases hneeds
  | none =>
    simp only [except_bind_ok] at hneeds
    obtain ⟨arg, harg, hneeds⟩ := hneeds
    obtain ⟨arg', harg', h⟩ := Compose.ask_bind.1 h
    cases harg.symm.trans harg'
    cases arg with
    | true => cases hneeds
    | false =>
      simp only [Bool.false_eq_true, if_false, except_bind_ok] at hneeds
      obtain ⟨applied, happlied, hneeds⟩ := hneeds
      obtain ⟨applied', happlied', h⟩ := Compose.ask_bind.1 h
      cases happlied.symm.trans happlied'
      cases applied with
      | some applied => cases hneeds
      | none =>
        simp only [except_bind_ok] at hneeds
        obtain ⟨sym', hsym', hneeds⟩ := hneeds
        cases sym' with
        | true => cases hneeds
        | false =>
          obtain ⟨w, J₁, s₁, hrequire, h⟩ := Compose.bind_ok.1 h
          obtain ⟨hplaced, rfl, rfl⟩ := Compose.pure_ok.1 h
          refine ⟨_, w, ?_, hsym', hrequire, fun x hx => ?_⟩
          · cases sym with
            | true => exact .refl
            | false => exact stripFuel_chain _ hdecast
          · cases isDim with
            | true =>
              cases hplaced
              exact Positions.mem_dim hx
            | false =>
              cases hplaced
              exact Positions.mem_symbol hx

end AffineRaising.Raise
