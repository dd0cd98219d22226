/-
# AffineRaising.Proofs.Raise.RepeatedOperand — one value at two symbol positions.

A value that is bound to two symbols of a map can be bound to one of them instead, if the other one
is renamed to it.  While operands are only looked at, that makes no difference to a composition: the
second look finds the positions that the first one has made, so a step comes to the same map over
the same operands (`stepTo_merge`), and so do all steps (`composeSteps_merge`).  Casting operands,
the last thing that a composition does, makes one cast for both positions
(`indexOperands_repeated`).
-/
import AffineRaising.Proofs.Raise.CanonicalOperands
import AffineRaising.Proofs.Raise.ComposeValue
import AffineRaising.Proofs.Raise.Promoted

namespace AffineRaising.Affine

variable {f : Nat → Nat} {dims syms syms' : List Expr}

/-! ## Renamed symbols -/

/-- Renames the symbols, and rebuilds nothing. -/
def Expr.renameSymbols (f : Nat → Nat) : Expr → Expr
  | .symbol k => .symbol (f k)
  | .bin op l r => .bin op (l.renameSymbols f) (r.renameSymbols f)
  | .dim k => .dim k
  | .const c => .const c

/-- A substitution for renamed symbols is one for the symbols. -/
theorem Expr.substitute_renameSymbols (hf : ∀ k, syms'[f k]? = syms[k]?) (e : Expr) :
    ∀ {e' : Expr}, (e.renameSymbols f).substitute dims syms' = .ok e' ↔
      e.substitute dims syms = .ok e' := by
  induction e with
  | dim k => exact Iff.rfl
  | symbol k =>
    intro e'
    simp only [renameSymbols, substitute, hf k]
    cases syms[k]? <;> simp
  | const c => exact Iff.rfl
  | bin op l r ihl ihr =>
    intro e'
    simp only [renameSymbols, substitute, IR.except_bind_ok, ihl, ihr]

theorem Expr.isClosed_renameSymbols (e : Expr) : (e.renameSymbols f).isClosed = e.isClosed := by
  induction e with
  | bin op l r ihl ihr => simp only [renameSymbols, isClosed, ihl, ihr]
  | _ => rfl

theorem Expr.IsLinear.renameSymbols {e : Expr} (h : e.IsLinear) :
    (e.renameSymbols f).IsLinear := by
  induction h with
  | dim i => exact .dim i
  | symbol i => exact .symbol (f i)
  | const c => exact .const c
  | add _ _ ihl ihr => exact .add ihl ihr
  | mul hclosed _ _ ihl ihr =>
    exact .mul (by rw [isClosed_renameSymbols, isClosed_renameSymbols, hclosed]) ihl ihr

theorem Expr.InRange.renameSymbols {e : Expr} {n m m' : Nat} (h : e.InRange n m)
    (hf : ∀ k < m, f k < m') : (e.renameSymbols f).InRange n m' := by
  induction e with
  | dim i => exact inRange_dim.2 (inRange_dim.1 h)
  | symbol i => exact inRange_symbol.2 (hf i (inRange_symbol.1 h))
  | const c => exact inRange_const c
  | bin op l r ihl ihr =>
    obtain ⟨hl, hr⟩ := inRange_bin.1 h
    exact inRange_bin.2 ⟨ihl hl, ihr hr⟩

theorem Expr.renameSymbols_residue {words words' dimWords : List Int64}
    (hf : ∀ k, words'.getD (f k) 0 = words.getD k 0) (e : Expr) :
    (e.renameSymbols f).residue dimWords words' = e.residue dimWords words := by
  induction e with
  | dim i => rfl
  | symbol i => exact hf i
  | const c => rfl
  | bin op l r ihl ihr => cases op <;> simp only [renameSymbols, residue, ihl, ihr]

/-- Renames the symbols of all results. -/
def Map.renameSymbols (f : Nat → Nat) (numSymbols : Nat) (m : Map) : Map :=
  ⟨m.numDims, numSymbols, m.results.map (Expr.renameSymbols f)⟩

theorem Map.substitute_renameSymbols (hf : ∀ k, syms'[f k]? = syms[k]?) (m m' : Map)
    (n a b : Nat) : (m.renameSymbols f n).substitute dims syms' a b = .ok m' ↔
      m.substitute dims syms a b = .ok m' := by
  have hresults : ∀ (es : List Expr) {es' : List Expr},
      (es.map (Expr.renameSymbols f)).mapM (·.substitute dims syms') = .ok es' ↔
        es.mapM (·.substitute dims syms) = .ok es' := by
    intro es
    induction es with
    | nil => exact Iff.rfl
    | cons e es ih =>
      intro es'
      simp only [List.map_cons, List.mapM_cons, IR.except_bind_ok,
        Expr.substitute_renameSymbols hf, ih]
  simp only [substitute, renameSymbols, IR.except_bind_ok, hresults]

/-- Symbol `j` becomes symbol `i`, and later ones move down. -/
def mergeSymbol (i j k : Nat) : Nat :=
  if k = j then i else if j < k then k - 1 else k

theorem getElem?_mergeSymbol {α : Type} {l : List α} {i j : Nat} (hij : i < j) (h : l[i]? = l[j]?)
    (k : Nat) : (l.eraseIdx j)[mergeSymbol i j k]? = l[k]? := by
  rw [mergeSymbol, List.getElem?_eraseIdx]
  split
  · rw [‹k = j›, h]
  · split
    · rw [if_neg (by omega), Nat.sub_add_cancel (by omega)]
    · rw [if_pos (by omega)]

end AffineRaising.Affine

namespace AffineRaising.Raise

open AffineRaising.IR AffineRaising.IR.Store AffineRaising.Ops AffineRaising.Analysis
open AffineRaising.Affine (Expr Map mergeSymbol)

variable {α : Type} {s t : Store} {J J' : Journal} {v : ValueRef} {p p₁ : Positions}

/-! ## Positions are found again -/

theorem slot_again {list list₁ list₂ : List ValueRef} {k : Nat} (h : slot list v = (k, list₁))
    (hlater : list₁ <+: list₂) : slot list₂ v = (k, list₂) := by
  have hfirst : list₁.idxOf? v = some k := by
    unfold slot at h
    cases hi : list.idxOf? v with
    | some i =>
      rw [hi] at h
      cases h
      exact hi
    | none =>
      rw [hi] at h
      cases h
      have hnew : v ∉ list := List.idxOf?_eq_none_iff.1 hi
      refine List.idxOf?_eq_some_iff.2 ⟨by simp, by simp, fun j hj heq => hnew ?_⟩
      rw [List.getElem_append_left hj] at heq
      exact heq ▸ List.getElem_mem hj
  obtain ⟨more, rfl⟩ := hlater
  obtain ⟨hlt, hget, hbefore⟩ := List.idxOf?_eq_some_iff.1 hfirst
  have hagain : (list₁ ++ more).idxOf? v = some k := by
    refine List.idxOf?_eq_some_iff.2 ⟨by rw [List.length_append]; omega, ?_, fun j hj => ?_⟩
    · rw [List.getElem_append_left hlt, hget]
    · rw [List.getElem_append_left (by omega)]
      exact hbefore j hj
  rw [slot, hagain]

/-- Binding a value again, with more values bound, finds its position. -/
def FindsAgain (bind : Positions → ValueRef → Expr × Positions) : Prop :=
  ∀ (p p₁ : Positions) (v : ValueRef) (e : Expr), bind p v = (e, p₁) →
    p.Grows p₁ ∧ ∀ p₂, p₁.Grows p₂ → bind p₂ v = (e, p₂)

theorem Positions.symbol_again : FindsAgain Positions.symbol := by
  intro p p₁ v e h
  obtain ⟨hgrows, _⟩ := slot_spec p.symbols v
  simp only [Positions.symbol, Prod.mk.injEq] at h
  obtain ⟨rfl, rfl⟩ := h
  refine ⟨⟨List.prefix_rfl, hgrows⟩, fun p₂ hlater => ?_⟩
  have hagain : slot p₂.symbols v = ((slot p.symbols v).1, p₂.symbols) := slot_again rfl hlater.2
  simp only [Positions.symbol, hagain]

theorem Positions.dim_again : FindsAgain Positions.dim := by
  intro p p₁ v e h
  obtain ⟨hgrows, _⟩ := slot_spec p.dims v
  simp only [Positions.dim, Prod.mk.injEq] at h
  obtain ⟨rfl, rfl⟩ := h
  refine ⟨⟨hgrows, List.prefix_rfl⟩, fun p₂ hlater => ?_⟩
  have hagain : slot p₂.dims v = ((slot p.dims v).1, p₂.dims) := slot_again rfl hlater.1
  simp only [Positions.dim, hagain]

theorem bindAll_again {bind : Positions → ValueRef → Expr × Positions} (hbind : FindsAgain bind)
    (vs : List ValueRef) : ∀ {p p₁ : Positions} {es : List Expr}, bindAll bind p vs = (es, p₁) →
      p.Grows p₁ ∧ ∀ p₂, p₁.Grows p₂ → bindAll bind p₂ vs = (es, p₂) := by
  induction vs with
  | nil =>
    intro p p₁ es h
    cases h
    exact ⟨.refl p, fun _ _ => rfl⟩
  | cons v vs ih =>
    intro p p₁ es h
    cases h
    obtain ⟨hgrows, hfirst⟩ := hbind p _ v _ rfl
    obtain ⟨hrest, hagain⟩ := ih (rfl : bindAll bind (bind p v).2 vs = _)
    refine ⟨hgrows.trans hrest, fun p₂ hlater => ?_⟩
    rw [bindAll, hfirst p₂ (hrest.trans hlater)]
    simp only [hagain p₂ hlater]

/-! ## Operands that stay -/

/-- What a step makes of an operand that it leaves where it is. -/
inductive Piece where
  /-- Arithmetic that is folded into the map. -/
  | inlined (shape : Shape)
  /-- An induction variable. -/
  | argument (v : ValueRef)
  /-- A map that is applied to operands. -/
  | applied (m : Map) (result : Expr) (operands : List ValueRef)
  /-- A symbol. -/
  | whole (v : ValueRef)

/-- What a step makes of an operand; none of one that has to be hoisted. -/
def pieceOf? (s : Store) (v : ValueRef) : Except Fault (Option Piece) := do
  let decast ← stripCasts s v
  let sym ← isSymbol s v
  let t := if sym then v else decast
  match ← inlineShape? s t decast with
  | some shape => return some (.inlined shape)
  | none =>
    if ← isLoopArg s t then return some (.argument t)
    match ← appliedMap? s t with
    | some (m, result, operands) => return some (.applied m result operands)
    | none => if ← isSymbol s t then return some (.whole t) else return none

/-- The value cannot be bound before its computation is moved. -/
def NeedsHoist (s : Store) (v : ValueRef) : Prop := pieceOf? s v = .ok none

/-- The expression for a piece, with the positions of what it depends on. -/
def Piece.place (p : Positions) (isDim : Bool) : Piece → Except Fault (Expr × Positions)
  | .inlined shape => do
    let (syms, p) := bindAll Positions.symbol p shape.inputs
    let e ← liftAffine (shape.expr.substitute [] syms)
    return (e, p)
  | .argument v => return p.dim v
  | .applied m result operands => do
    let (dims, p) := bindAll Positions.dim p (operands.take m.numDims)
    let (syms, p) := bindAll Positions.symbol p (operands.drop m.numDims)
    let e ← liftAffine (result.substitute dims syms)
    return (e, p)
  | .whole v => return if isDim then p.dim v else p.symbol v

/-- A piece that is placed again, with more values bound, gets the same expression and binds nothing
new. -/
theorem Piece.place_again {piece : Piece} {isDim : Bool} {e : Expr}
    (h : piece.place p isDim = .ok (e, p₁)) :
    p.Grows p₁ ∧ ∀ p₂, p₁.Grows p₂ → piece.place p₂ isDim = .ok (e, p₂) := by
  cases piece with
  | inlined shape =>
    simp only [place, except_bind_ok] at h
    obtain ⟨e', he', h⟩ := h
    cases h
    obtain ⟨hgrows, hagain⟩ := bindAll_again Positions.symbol_again shape.inputs
      (rfl : bindAll Positions.symbol p shape.inputs = _)
    refine ⟨hgrows, fun p₂ hlater => ?_⟩
    simp only [place, hagain p₂ hlater, except_bind_ok]
    exact ⟨_, he', rfl⟩
  | argument v =>
    simp only [place, except_pure, Except.ok.injEq] at h ⊢
    exact Positions.dim_again _ _ _ _ h
  | applied m result operands =>
    simp only [place, except_bind_ok] at h
    obtain ⟨e', he', h⟩ := h
    cases h
    obtain ⟨hdims, hagain⟩ := bindAll_again Positions.dim_again (operands.take m.numDims)
      (rfl : bindAll Positions.dim p (operands.take m.numDims) = _)
    obtain ⟨hsyms, hagain'⟩ := bindAll_again Positions.symbol_again (operands.drop m.numDims)
      (rfl : bindAll Positions.symbol (bindAll Positions.dim p (operands.take m.numDims)).2
        (operands.drop m.numDims) = _)
    refine ⟨hdims.trans hsyms, fun p₂ hlater => ?_⟩
    simp only [place, hagain p₂ (hsyms.trans hlater), hagain' p₂ hlater, except_bind_ok]
    exact ⟨_, he', rfl⟩
  | whole v =>
    simp only [place, except_pure, Except.ok.injEq] at h ⊢
    cases isDim with
    | true => exact Positions.dim_again _ _ _ _ h
    | false => exact Positions.symbol_again _ _ _ _ h

theorem requireSymbol_bind {β : Type} {f : ValueRef → Compose β} {r : Except ComposeError β}
    (h : (requireSymbol v >>= f) J s = .ok ((r, J'), t)) :
    isSymbol s v = .ok false ∨ isSymbol s v = .ok true ∧ f v J s = .ok ((r, J'), t) := by
  rw [requireSymbol, bind_assoc] at h
  obtain ⟨sym, hsym, h⟩ := Compose.ask_bind.1 h
  cases sym with
  | false => exact .inl hsym
  | true => exact .inr ⟨hsym, by simpa using h⟩

theorem requireSymbol_then {β : Type} {f : ValueRef → Compose β} {r : Except ComposeError β}
    (hv : isSymbol s v = .ok true) (h : f v J s = .ok ((r, J'), t)) :
    (requireSymbol v >>= f) J s = .ok ((r, J'), t) := by
  rw [requireSymbol, bind_assoc]
  exact Compose.ask_bind.2 ⟨true, hv, by simpa using h⟩

/-! ### One decision at a time -/

/-- Unless the operand has to be hoisted, the computation ends exactly with the expression for its
piece, and edits nothing. -/
def Places (p : Positions) (isDim : Bool) (J : Journal) (s : Store)
    (x : Compose (Expr × Positions)) (piece? : Except Fault (Option Piece)) : Prop :=
  piece? ≠ .ok none → ∀ {r : Except ComposeError (Expr × Positions)} {J' : Journal} {t : Store},
    x J s = .ok ((r, J'), t) ↔ ∃ piece a, piece? = .ok (some piece) ∧
      piece.place p isDim = .ok a ∧ .ok a = r ∧ J = J' ∧ s = t

namespace Places

variable {isDim : Bool}

/-- Both sides ask the same question and go on with the answer. -/
theorem ask {β : Type} {q : Store → Except Fault β} {f : β → Compose (Expr × Positions)}
    {g : β → Except Fault (Option Piece)}
    (h : ∀ b, q s = .ok b → Places p isDim J s (f b) (g b)) :
    Places p isDim J s (Compose.ask q >>= f) (q s >>= g) := by
  intro hhoist r J' t
  have hrest : ∀ b, q s = .ok b → g b ≠ .ok none := fun b hb hnone =>
    hhoist (except_bind_ok.2 ⟨b, hb, hnone⟩)
  rw [Compose.ask_bind]
  constructor
  · rintro ⟨b, hb, hrun⟩
    obtain ⟨piece, a, hpiece, hplaced⟩ := (h b hb (hrest b hb)).1 hrun
    exact ⟨piece, a, except_bind_ok.2 ⟨b, hb, hpiece⟩, hplaced⟩
  · rintro ⟨piece, a, hpiece, hplaced⟩
    obtain ⟨b, hb, hpiece⟩ := except_bind_ok.1 hpiece
    exact ⟨b, hb, (h b hb (hrest b hb)).2 ⟨piece, a, hpiece, hplaced⟩⟩

/-- The piece is known, and the computation only places it. -/
theorem placing {piece : Piece} {x : Compose (Expr × Positions)}
    (h : ∀ {r J' t}, x J s = .ok ((r, J'), t) ↔
      ∃ a, piece.place p isDim = .ok a ∧ .ok a = r ∧ J = J' ∧ s = t) :
    Places p isDim J s x (.ok (some piece)) := by
  intro _ r J' t
  rw [h]
  constructor
  · rintro ⟨a, ha, hend⟩
    exact ⟨piece, a, rfl, ha, hend⟩
  · rintro ⟨_, a, hpiece, ha, hend⟩
    cases hpiece
    exact ⟨a, ha, hend⟩

/-- Substitution into the expression of a piece is the last question. -/
theorem lifted {e : Except Affine.DomainError Expr} {p₁ : Positions} {piece : Piece}
    (h : piece.place p isDim = (do return (← liftAffine e, p₁))) :
    Places p isDim J s (do return (← Compose.ask fun _ => liftAffine e, p₁))
      (.ok (some piece)) := by
  refine placing fun {r J' t} => ?_
  rw [Compose.ask_bind, h]
  constructor
  · rintro ⟨e', he', hend⟩
    exact ⟨(e', p₁), except_bind_ok.2 ⟨e', he', rfl⟩, Compose.pure_ok.1 hend⟩
  · rintro ⟨a, ha, hend⟩
    obtain ⟨e', he', ha⟩ := except_bind_ok.1 ha
    cases ha
    exact ⟨e', he', Compose.pure_ok.2 hend⟩

theorem inlined (shape : Shape) :
    Places p isDim J s (do
        let (syms, p) := bindAll Positions.symbol p shape.inputs
        return (← Compose.ask fun _ => liftAffine (shape.expr.substitute [] syms), p))
      (.ok (some (.inlined shape))) :=
  lifted rfl

theorem argument : Places p isDim J s (do return p.dim v) (.ok (some (.argument v))) := by
  refine placing fun {r J' t} => ?_
  rw [Compose.pure_ok]
  constructor
  · exact fun hend => ⟨_, rfl, hend⟩
  · rintro ⟨_, ha, hend⟩
    cases ha
    exact hend

theorem applied (m : Map) (result : Expr) (operands : List ValueRef) :
    Places p isDim J s (do
        let (dims, p) := bindAll Positions.dim p (operands.take m.numDims)
        let (syms, p) := bindAll Positions.symbol p (operands.drop m.numDims)
        return (← Compose.ask fun _ => liftAffine (result.substitute dims syms), p))
      (.ok (some (.applied m result operands))) :=
  lifted rfl

/-- What nothing else can be made of is bound as it is, if it is a symbol. -/
theorem whole : Places p isDim J s
    (do let v ← requireSymbol v; return if isDim then p.dim v else p.symbol v)
    (do if ← isSymbol s v then return some (.whole v) else return none) := by
  intro hhoist r J' t
  constructor
  · intro h
    obtain hnot | ⟨hsymbol, h⟩ := requireSymbol_bind h
    · exact (hhoist (except_bind_ok.2 ⟨false, hnot, rfl⟩)).elim
    · exact ⟨.whole v, _, except_bind_ok.2 ⟨true, hsymbol, rfl⟩, rfl, Compose.pure_ok.1 h⟩
  · rintro ⟨piece, a, hpiece, ha, hend⟩
    obtain ⟨sym, hsym, hpiece⟩ := except_bind_ok.1 hpiece
    cases sym with
    | false => cases hpiece
    | true =>
      cases hpiece
      cases ha
      exact requireSymbol_then hsym (Compose.pure_ok.2 hend)

/-- The whole computation asks what the choice of the piece asks, in the same order. -/
theorem folded (t decast : ValueRef) : Places p isDim J s (foldValue p t decast isDim) (do
    match ← inlineShape? s t decast with
    | some shape => return some (.inlined shape)
    | none =>
      if ← isLoopArg s t then return some (.argument t)
      match ← appliedMap? s t with
      | some (m, result, operands) => return some (.applied m result operands)
      | none => if ← isSymbol s t then return some (.whole t) else return none) := by
  unfold foldValue
  refine ask fun shape? _ => ?_
  cases shape? with
  | some shape => exact inlined shape
  | none =>
    refine ask fun arg _ => ?_
    cases arg with
    | true => exact argument
    | false =>
      refine ask fun applied? _ => ?_
      cases applied? with
      | some found => exact applied found.1 found.2.1 found.2.2
      | none => exact whole

end Places

/-- An operand that stays is replaced by the expression for its piece, and nothing is edited. -/
theorem composeOperand_iff {isDim : Bool} {r : Except ComposeError (Expr × Positions)}
    (hstays : ¬ NeedsHoist s v) : composeOperand p v isDim J s = .ok ((r, J'), t) ↔
      ∃ piece a, pieceOf? s v = .ok (some piece) ∧ piece.place p isDim = .ok a ∧ .ok a = r ∧
        J = J' ∧ s = t := by
  have hplaces : Places p isDim J s (composeOperand p v isDim) (pieceOf? s v) := by
    rw [composeOperand_eq]
    exact .ask (q := (stripCasts · v)) fun decast _ =>
      .ask (q := (isSymbol · v)) fun sym _ => .folded _ decast
  exact hplaces hstays

/-! ## Operand lists -/

/-- What comes after a composition that edits nothing and does not give up goes on from there. -/
theorem Compose.bind_still {β : Type} {x : Compose α} {f : α → Compose β} {P : α → Prop}
    (hx : ∀ r J' t, x J s = .ok ((r, J'), t) ↔ ∃ a, P a ∧ .ok a = r ∧ J = J' ∧ s = t)
    {r : Except ComposeError β} :
    (x >>= f) J s = .ok ((r, J'), t) ↔ ∃ a, P a ∧ f a J s = .ok ((r, J'), t) := by
  have hrun : ∀ a, P a → x J s = .ok ((.ok a, J), s) := fun a ha =>
    (hx _ _ _).2 ⟨a, ha, rfl, rfl, rfl⟩
  constructor
  · intro h
    cases r with
    | ok b =>
      obtain ⟨a, J₁, s₁, hfirst, hrest⟩ := Compose.bind_ok.1 h
      obtain ⟨a', ha, heq, rfl, rfl⟩ := (hx _ _ _).1 hfirst
      cases heq
      exact ⟨a, ha, hrest⟩
    | error e =>
      obtain hfirst | ⟨a, J₁, s₁, hfirst, hrest⟩ := Compose.bind_error.1 h
      · obtain ⟨_, _, heq, _⟩ := (hx _ _ _).1 hfirst
        cases heq
      · obtain ⟨a', ha, heq, rfl, rfl⟩ := (hx _ _ _).1 hfirst
        cases heq
        exact ⟨a, ha, hrest⟩
  · rintro ⟨a, ha, hrest⟩
    cases r with
    | ok b => exact Compose.bind_ok.2 ⟨a, J, s, hrun a ha, hrest⟩
    | error e => exact Compose.bind_error.2 (.inr ⟨a, J, s, hrun a ha, hrest⟩)

/-- The expressions for operands that stay, in order, and the positions after them; the first
operand is at position `k`. -/
inductive PlacedAll (s : Store) (numDims : Nat) :
    Nat → Positions → List ValueRef → List Expr → Positions → Prop
  | nil (k : Nat) (p : Positions) : PlacedAll s numDims k p [] [] p
  | cons {k p v vs piece e p₁ es p₂} : pieceOf? s v = .ok (some piece) →
      piece.place p (decide (k < numDims)) = .ok (e, p₁) →
      PlacedAll s numDims (k + 1) p₁ vs es p₂ → PlacedAll s numDims k p (v :: vs) (e :: es) p₂

theorem composeOperands_iff {numDims : Nat} {vs : List ValueRef}
    (hstay : ∀ v ∈ vs, ¬ NeedsHoist s v) :
    ∀ {k : Nat} {p : Positions} (r : Except ComposeError (List Expr × Positions)) (J' : Journal)
      (t : Store), composeOperands numDims k p vs J s = .ok ((r, J'), t) ↔
        ∃ a : List Expr × Positions, PlacedAll s numDims k p vs a.1 a.2 ∧ .ok a = r ∧ J = J' ∧
          s = t := by
  induction vs with
  | nil =>
    intro k p r J' t
    rw [composeOperands, Compose.pure_ok]
    constructor
    · rintro ⟨rfl, rfl, rfl⟩
      exact ⟨([], p), .nil k p, rfl, rfl, rfl⟩
    · rintro ⟨⟨es, p'⟩, hplaced, rfl, rfl, rfl⟩
      cases hplaced
      exact ⟨rfl, rfl, rfl⟩
  | cons v vs ih =>
    intro k p r J' t
    obtain ⟨hv, hvs⟩ := List.forall_mem_cons.1 hstay
    have hfirst : ∀ r J' t, composeOperand p v (decide (k < numDims)) J s = .ok ((r, J'), t) ↔
        ∃ a, (∃ piece, pieceOf? s v = .ok (some piece) ∧
          piece.place p (decide (k < numDims)) = .ok a) ∧ .ok a = r ∧ J = J' ∧ s = t := by
      intro r J' t
      rw [composeOperand_iff hv]
      constructor
      · rintro ⟨piece, a, hpiece, ha, hrest⟩
        exact ⟨a, ⟨piece, hpiece, ha⟩, hrest⟩
      · rintro ⟨a, ⟨piece, hpiece, ha⟩, hrest⟩
        exact ⟨piece, a, hpiece, ha, hrest⟩
    rw [composeOperands, Compose.bind_still hfirst]
    simp only [Compose.bind_still (ih hvs), Compose.pure_ok]
    constructor
    · rintro ⟨⟨e, p₁⟩, ⟨piece, hpiece, hplace⟩, ⟨es, p₂⟩, hplaced, rfl, rfl, rfl⟩
      exact ⟨(e :: es, p₂), .cons hpiece hplace hplaced, rfl, rfl, rfl⟩
    · rintro ⟨⟨es, p₂⟩, hplaced, rfl, rfl, rfl⟩
      cases hplaced with
      | cons hpiece hplace hplaced =>
        exact ⟨_, ⟨_, hpiece, hplace⟩, (_, p₂), hplaced, rfl, rfl, rfl⟩

namespace PlacedAll

variable {numDims k : Nat} {vs ws : List ValueRef} {es : List Expr}

theorem length (h : PlacedAll s numDims k p vs es p₁) : es.length = vs.length := by
  induction h with
  | nil => rfl
  | cons _ _ _ ih => simp [ih]

theorem grows (h : PlacedAll s numDims k p vs es p₁) : p.Grows p₁ := by
  induction h with
  | nil => exact .refl _
  | cons _ hplace _ ih => exact (Piece.place_again hplace).1.trans ih

theorem unique (h : PlacedAll s numDims k p vs es p₁) :
    ∀ {es' : List Expr} {p₂ : Positions}, PlacedAll s numDims k p vs es' p₂ →
      es' = es ∧ p₂ = p₁ := by
  induction h with
  | nil =>
    intro es' p₂ h'
    cases h'
    exact ⟨rfl, rfl⟩
  | cons hpiece hplace _ ih =>
    intro es' p₂ h'
    cases h' with
    | cons hpiece' hplace' hrest =>
      cases hpiece.symm.trans hpiece'
      cases hplace.symm.trans hplace'
      obtain ⟨rfl, rfl⟩ := ih hrest
      exact ⟨rfl, rfl⟩

/-- Behind the dimensions it does not matter at which position an operand is. -/
theorem shift (h : PlacedAll s numDims k p vs es p₁) (hk : numDims ≤ k) :
    ∀ {k' : Nat}, numDims ≤ k' → PlacedAll s numDims k' p vs es p₁ := by
  induction h with
  | nil => exact fun _ => .nil _ _
  | @cons k p v vs piece e p₁ es p₂ hpiece hplace _ ih =>
    intro k' hk'
    refine .cons hpiece ?_ (ih (by omega) (by omega))
    rw [decide_eq_false (by omega)] at hplace ⊢
    exact hplace

theorem append_iff : ∀ {vs : List ValueRef} {k : Nat} {p : Positions} {es : List Expr},
    PlacedAll s numDims k p (vs ++ ws) es p₁ ↔ ∃ es₁ es₂ p', es = es₁ ++ es₂ ∧
      PlacedAll s numDims k p vs es₁ p' ∧ PlacedAll s numDims (k + vs.length) p' ws es₂ p₁
  | [], k, p, es => by
    constructor
    · exact fun h => ⟨[], es, p, rfl, .nil k p, h⟩
    · rintro ⟨es₁, es₂, p', rfl, hnil, h⟩
      cases hnil
      exact h
  | v :: vs, k, p, es => by
    have hlength : k + (v :: vs).length = k + 1 + vs.length := by rw [List.length_cons]; omega
    rw [hlength]
    constructor
    · intro h
      cases h with
      | cons hpiece hplace hrest =>
        obtain ⟨es₁, es₂, p', rfl, hvs, hws⟩ := append_iff.1 hrest
        exact ⟨_ :: es₁, es₂, p', rfl, .cons hpiece hplace hvs, hws⟩
    · rintro ⟨es₁, es₂, p', rfl, hvs, hws⟩
      cases hvs with
      | cons hpiece hplace hrest =>
        exact .cons hpiece hplace (append_iff.2 ⟨_, es₂, p', rfl, hrest, hws⟩)

theorem split {front mid back : List ValueRef}
    (h : PlacedAll s numDims k p (front ++ v :: (mid ++ back)) es p₁) : ∃ es₁ e es₂ es₃,
      es₁.length = front.length ∧ es₂.length = mid.length ∧ es = es₁ ++ e :: (es₂ ++ es₃) := by
  obtain ⟨es₁, _, _, rfl, hfront, h⟩ := append_iff.1 h
  cases h with
  | cons _ _ h =>
    obtain ⟨es₂, es₃, _, rfl, hmid, _⟩ := append_iff.1 h
    exact ⟨es₁, _, es₂, es₃, hfront.length, hmid.length, rfl⟩

/-- The second occurrence of an operand is replaced like the first one, and binds nothing. -/
theorem repeated {front mid back : List ValueRef} (hk : numDims ≤ k + front.length) :
    PlacedAll s numDims k p (front ++ v :: (mid ++ v :: back)) es p₁ ↔
      ∃ es₁ e es₂ es₃, es₁.length = front.length ∧ es₂.length = mid.length ∧
        es = es₁ ++ e :: (es₂ ++ e :: es₃) ∧
        PlacedAll s numDims k p (front ++ v :: (mid ++ back)) (es₁ ++ e :: (es₂ ++ es₃)) p₁ := by
  constructor
  · intro h
    obtain ⟨es₁, _, q₁, rfl, hfront, h⟩ := append_iff.1 h
    cases h with
    | @cons _ _ _ _ piece e q₂ _ _ hpiece hplace h =>
      obtain ⟨es₂, _, q₃, rfl, hmid, h⟩ := append_iff.1 h
      cases h with
      | cons hpiece' hplace' hback =>
        cases hpiece.symm.trans hpiece'
        have hagain := (Piece.place_again hplace).2 _ hmid.grows
        rw [decide_eq_false (by omega)] at hagain hplace'
        cases hagain.symm.trans hplace'
        refine ⟨es₁, e, es₂, _, hfront.length, hmid.length, rfl, ?_⟩
        refine append_iff.2 ⟨es₁, _, q₁, rfl, hfront, .cons hpiece hplace ?_⟩
        exact append_iff.2 ⟨es₂, _, _, rfl, hmid, hback.shift (by omega) (by omega)⟩
  · rintro ⟨es₁, e, es₂, es₃, hlength₁, hlength₂, rfl, h⟩
    obtain ⟨fs₁, _, q₁, heq, hfront, h⟩ := append_iff.1 h
    obtain ⟨rfl, rfl⟩ := List.append_inj heq (hlength₁.trans hfront.length.symm)
    cases h with
    | @cons _ _ _ _ piece _ q₂ _ _ hpiece hplace h =>
      obtain ⟨fs₂, _, q₃, heq, hmid, hback⟩ := append_iff.1 h
      obtain ⟨rfl, rfl⟩ := List.append_inj heq (hlength₂.trans hmid.length.symm)
      refine append_iff.2 ⟨es₁, _, q₁, rfl, hfront, .cons hpiece hplace ?_⟩
      refine append_iff.2 ⟨es₂, _, q₃, rfl, hmid, .cons hpiece ?_
        (hback.shift (by omega) (by omega))⟩
      have hagain := (Piece.place_again hplace).2 _ hmid.grows
      rw [decide_eq_false (by omega)] at hagain ⊢
      exact hagain

end PlacedAll

/-! ## Steps -/

/-- One step leads from a binding whose operands all stay to the next. -/
def StepTo (s : Store) (b next : Binding) : Prop :=
  ∃ es p m, PlacedAll s b.map.numDims 0 .empty b.operands es p ∧
    b.map.substitute (es.take b.map.numDims) (es.drop b.map.numDims) p.dims.length
      p.symbols.length = .ok m ∧ canonicalize s ⟨m, p.operands⟩ = .ok next

theorem StepTo.unique {b next next' : Binding} (h : StepTo s b next) (h' : StepTo s b next') :
    next = next' := by
  obtain ⟨es, p, m, hplaced, hm, hnext⟩ := h
  obtain ⟨es', p', m', hplaced', hm', hnext'⟩ := h'
  obtain ⟨rfl, rfl⟩ := hplaced.unique hplaced'
  cases hm.symm.trans hm'
  exact Except.ok.inj (hnext.symm.trans hnext')

theorem composeStep_iff {b : Binding} (hstay : ∀ v ∈ b.operands, ¬ NeedsHoist s v)
    (r : Except ComposeError Binding) (J' : Journal) (t : Store) :
    composeStep b J s = .ok ((r, J'), t) ↔
      ∃ next, StepTo s b next ∧ .ok next = r ∧ J = J' ∧ s = t := by
  rw [composeStep, Compose.bind_still (composeOperands_iff hstay)]
  simp only [Compose.ask_bind, Compose.ask_ok, liftAffine_ok]
  constructor
  · rintro ⟨⟨es, p⟩, hplaced, m, hm, next, hnext, hend⟩
    exact ⟨next, ⟨es, p, m, hplaced, hm, hnext⟩, hend⟩
  · rintro ⟨next, ⟨es, p, m, hplaced, hm, hnext⟩, hend⟩
    exact ⟨(es, p), hplaced, m, hm, next, hnext, hend⟩

/-- Two symbols are bound to one value. -/
def Binding.Repeats (b : Binding) (i j : Nat) : Prop :=
  i < j ∧ ∃ v, b.operands[b.map.numDims + i]? = some v ∧ b.operands[b.map.numDims + j]? = some v

/-- Binds one symbol to what two were bound to: the operand of symbol `j` goes, and symbol `j` is
renamed to symbol `i`. -/
def Binding.merge (b : Binding) (i j : Nat) : Binding :=
  ⟨b.map.renameSymbols (mergeSymbol i j) (b.map.numSymbols - 1),
    b.operands.eraseIdx (b.map.numDims + j)⟩

/-- The operands around a repeated one. -/
theorem Binding.Repeats.split {b : Binding} {i j : Nat} (h : b.Repeats i j) :
    ∃ front v mid back, front.length = b.map.numDims + i ∧
      front.length + 1 + mid.length = b.map.numDims + j ∧
      b.operands = front ++ v :: (mid ++ v :: back) ∧
      (b.merge i j).operands = front ++ v :: (mid ++ back) := by
  obtain ⟨hij, v, hi, hj⟩ := h
  obtain ⟨front, rest, hoperands, hfront⟩ : ∃ front rest, b.operands = front ++ v :: rest ∧
      front.length = b.map.numDims + i := by
    obtain ⟨hlt, hget⟩ := List.getElem?_eq_some_iff.1 hi
    refine ⟨b.operands.take (b.map.numDims + i), b.operands.drop (b.map.numDims + i + 1), ?_, ?_⟩
    · rw [← hget, List.getElem_cons_drop, List.take_append_drop]
    · rw [List.length_take]
      omega
  obtain ⟨mid, back, hrest, hmid⟩ : ∃ mid back, rest = mid ++ v :: back ∧
      front.length + 1 + mid.length = b.map.numDims + j := by
    rw [hoperands, List.getElem?_append_right (by omega), hfront] at hj
    have hsucc : b.map.numDims + j - (b.map.numDims + i) = j - i - 1 + 1 := by omega
    rw [hsucc, List.getElem?_cons_succ] at hj
    obtain ⟨hlt, hget⟩ := List.getElem?_eq_some_iff.1 hj
    refine ⟨rest.take (j - i - 1), rest.drop (j - i - 1 + 1), ?_, ?_⟩
    · rw [← hget, List.getElem_cons_drop, List.take_append_drop]
    · rw [List.length_take]
      omega
  refine ⟨front, v, mid, back, hfront, hmid, by rw [hoperands, hrest], ?_⟩
  rw [merge, hoperands, hrest, ← hmid, List.eraseIdx_append_of_length_le (by omega)]
  have hsucc : front.length + 1 + mid.length - front.length = mid.length + 1 := by omega
  rw [hsucc, List.eraseIdx_cons_succ, List.eraseIdx_append_of_length_le (Nat.le_refl _),
    Nat.sub_self, List.eraseIdx_cons_zero]

/-- A step from a binding is one from the binding that binds a repeated value once. -/
theorem stepTo_merge {b next : Binding} {i j : Nat} (h : b.Repeats i j) :
    StepTo s b next ↔ StepTo s (b.merge i j) next := by
  obtain ⟨front, v, mid, back, hfront, hmid, hoperands, hmerged⟩ := h.split
  have hij := h.1
  -- the list of expressions loses the one that stands at two places
  have hsubstitute : ∀ {es₁ es₂ es₃ : List Expr} {e : Expr} {m : Map} {a c : Nat},
      es₁.length = front.length → es₂.length = mid.length →
      ((b.merge i j).map.substitute ((es₁ ++ e :: (es₂ ++ es₃)).take b.map.numDims)
        ((es₁ ++ e :: (es₂ ++ es₃)).drop b.map.numDims) a c = .ok m ↔
      b.map.substitute ((es₁ ++ e :: (es₂ ++ e :: es₃)).take b.map.numDims)
        ((es₁ ++ e :: (es₂ ++ e :: es₃)).drop b.map.numDims) a c = .ok m) := by
    intro es₁ es₂ es₃ e m a c hlength₁ hlength₂
    rw [List.take_append_of_le_length (by omega), List.take_append_of_le_length (by omega),
      List.drop_append_of_le_length (by omega), List.drop_append_of_le_length (by omega)]
    refine Map.substitute_renameSymbols (fun k => ?_) _ _ _ _ _
    have hsyms : (es₁.drop b.map.numDims).length = i := by
      rw [List.length_drop]
      omega
    have herase : es₁.drop b.map.numDims ++ e :: (es₂ ++ es₃) =
        (es₁.drop b.map.numDims ++ e :: (es₂ ++ e :: es₃)).eraseIdx j := by
      rw [List.eraseIdx_append_of_length_le (by omega), hsyms]
      have hsucc : j - i = es₂.length + 1 := by omega
      rw [hsucc, List.eraseIdx_cons_succ, List.eraseIdx_append_of_length_le (Nat.le_refl _),
        Nat.sub_self, List.eraseIdx_cons_zero]
    rw [herase]
    refine Affine.getElem?_mergeSymbol hij ?_ k
    rw [List.getElem?_append_right (by omega), List.getElem?_append_right (by omega), hsyms,
      Nat.sub_self, show j - i = es₂.length + 1 by omega, List.getElem?_cons_succ,
      List.getElem?_append_right (Nat.le_refl _), Nat.sub_self]
    rfl
  have hdims : (b.merge i j).map.numDims = b.map.numDims := rfl
  unfold StepTo
  rw [hmerged, hoperands, hdims]
  constructor
  · rintro ⟨es, p, m, hplaced, hm, hnext⟩
    obtain ⟨es₁, e, es₂, es₃, hlength₁, hlength₂, rfl, hmerge⟩ :=
      (PlacedAll.repeated (by omega)).1 hplaced
    exact ⟨_, p, m, hmerge, (hsubstitute hlength₁ hlength₂).2 hm, hnext⟩
  · rintro ⟨es, p, m, hplaced, hm, hnext⟩
    obtain ⟨es₁, e, es₂, es₃, hlength₁, hlength₂, rfl⟩ := hplaced.split
    exact ⟨_, p, m, (PlacedAll.repeated (by omega)).2
      ⟨es₁, e, es₂, es₃, hlength₁, hlength₂, rfl, hplaced⟩,
      (hsubstitute hlength₁ hlength₂).1 hm, hnext⟩

/-- A step never leads back to a binding that binds a value twice. -/
theorem StepTo.ne {b next : Binding} {i j : Nat} (hstep : StepTo s b next) (h : b.Repeats i j) :
    next ≠ b := by
  rintro rfl
  obtain ⟨_, _, _, _, _, hcanonical⟩ := hstep
  obtain ⟨hij, v, hi, hj⟩ := h
  have hnodup := (canonicalize_canonical hcanonical).distinctSymbols
  have hlt : j < (next.operands.drop next.map.numDims).length := by
    obtain ⟨hlt, _⟩ := List.getElem?_eq_some_iff.1 hj
    rw [List.length_drop]
    omega
  refine List.nodup_iff_getElem?_ne_getElem?.1 hnodup i j hij hlt ?_
  rw [List.getElem?_drop, List.getElem?_drop, hi, hj]

/-! ## Steps until nothing is left -/

/-- The first operand that a test finds; the first one is at position `k`. -/
def firstInOrder (test : ValueRef → Bool → Except Fault Bool) (numDims : Nat) :
    Nat → List ValueRef → Except Fault (Option ValueRef)
  | _, [] => return none
  | k, v :: rest => do
    if ← test v (decide (k < numDims)) then return some v
    firstInOrder test numDims (k + 1) rest

section InOrder

variable {test : ValueRef → Bool → Except Fault Bool} {numDims : Nat}

theorem firstInOrder_append {ws : List ValueRef} : ∀ (vs : List ValueRef) (k : Nat),
    firstInOrder test numDims k (vs ++ ws) = (do
      match ← firstInOrder test numDims k vs with
      | some v => return some v
      | none => firstInOrder test numDims (k + vs.length) ws)
  | [], _ => rfl
  | v :: vs, k => by
    simp only [List.cons_append, firstInOrder, firstInOrder_append vs (k + 1)]
    have hlength : k + (v :: vs).length = k + 1 + vs.length := by rw [List.length_cons]; omega
    rw [hlength]
    cases test v (decide (k < numDims)) with
    | error f => rfl
    | ok b => cases b <;> rfl

theorem firstInOrder_shift : ∀ (vs : List ValueRef) {k k' : Nat}, numDims ≤ k →
    numDims ≤ k' → firstInOrder test numDims k vs = firstInOrder test numDims k' vs
  | [], _, _, _, _ => rfl
  | v :: vs, k, k', hk, hk' => by
    simp only [firstInOrder, decide_eq_false (Nat.not_lt.2 hk), decide_eq_false (Nat.not_lt.2 hk'),
      firstInOrder_shift vs (Nat.le_succ_of_le hk) (Nat.le_succ_of_le hk')]

/-- A symbol that was passed by once is passed by again. -/
theorem firstInOrder_repeated {front mid back : List ValueRef} {k : Nat}
    (hk : numDims ≤ k + front.length) :
    firstInOrder test numDims k (front ++ v :: (mid ++ v :: back)) =
      firstInOrder test numDims k (front ++ v :: (mid ++ back)) := by
  rw [firstInOrder_append, firstInOrder_append]
  refine bind_congr fun found => ?_
  cases found with
  | some w => rfl
  | none =>
    simp only [firstInOrder, firstInOrder_append, decide_eq_false (Nat.not_lt.2 hk)]
    cases hv : test v false with
    | error f => rfl
    | ok found =>
      cases found with
      | true => rfl
      | false =>
        have hmid : ¬ k + front.length + 1 + mid.length < numDims := by omega
        simp only [decide_eq_false hmid, hv]
        refine bind_congr (x := firstInOrder test numDims (k + front.length + 1) mid)
          fun found => ?_
        cases found with
        | some w => rfl
        | none => exact firstInOrder_shift back (by omega) (by omega)

/-- Nothing is found if the test fails for the dimensions and for the symbols. -/
theorem firstInOrder_none : ∀ {vs : List ValueRef} {k : Nat},
    firstInOrder test numDims k vs = .ok none ↔
      (∀ v ∈ vs.take (numDims - k), test v true = .ok false) ∧
        ∀ v ∈ vs.drop (numDims - k), test v false = .ok false
  | [], k => by simp [firstInOrder]
  | v :: vs, k => by
    have hfirst : firstInOrder test numDims k (v :: vs) = .ok none ↔
        test v (decide (k < numDims)) = .ok false ∧
          firstInOrder test numDims (k + 1) vs = .ok none := by
      rw [firstInOrder]
      cases test v (decide (k < numDims)) with
      | error e => exact iff_of_false nofun fun h => nomatch h.1
      | ok found =>
        cases found with
        | true => exact iff_of_false nofun fun h => nomatch h.1
        | false => exact (and_iff_right rfl).symm
    rw [hfirst, firstInOrder_none]
    by_cases hk : k < numDims
    · obtain ⟨n, hn⟩ : ∃ n, numDims - k = n + 1 := ⟨numDims - k - 1, by omega⟩
      have hrest : numDims - (k + 1) = n := by omega
      rw [hn, hrest, decide_eq_true hk, List.take_succ_cons, List.drop_succ_cons,
        List.forall_mem_cons, and_assoc]
    · have hn : numDims - k = 0 := by omega
      have hrest : numDims - (k + 1) = 0 := by omega
      rw [hn, hrest, decide_eq_false hk]
      simp

end InOrder

theorem anyFoldable_eq {numDims : Nat} : ∀ (vs : List ValueRef) (k : Nat),
    anyFoldable s numDims k vs = (do return (← firstInOrder (isFoldable s) numDims k vs).isSome)
  | [], _ => rfl
  | v :: vs, k => by
    simp only [anyFoldable, firstInOrder, anyFoldable_eq vs (k + 1)]
    cases isFoldable s v (decide (k < numDims)) with
    | error f => rfl
    | ok b => cases b <;> rfl

theorem anyFoldable_false {numDims : Nat} {vs : List ValueRef} :
    anyFoldable s numDims 0 vs = .ok false ↔
      firstInOrder (isFoldable s) numDims 0 vs = .ok none := by
  rw [anyFoldable_eq]
  cases firstInOrder (isFoldable s) numDims 0 vs with
  | error e => exact iff_of_false nofun nofun
  | ok found =>
    cases found with
    | none => exact iff_of_true rfl rfl
    | some v => exact iff_of_false nofun nofun

/-- Two compositions come to the same: result or error, journal and store. -/
def SameOutcome (x y : Compose α) (J : Journal) (s : Store) : Prop :=
  ∀ r J' t, x J s = .ok ((r, J'), t) ↔ y J s = .ok ((r, J'), t)

theorem SameOutcome.bind {β : Type} {x y : Compose α} (h : SameOutcome x y J s)
    (f : α → Compose β) : SameOutcome (x >>= f) (y >>= f) J s := by
  intro r J' t
  cases r with
  | ok b => simp only [Compose.bind_ok, h _ _ _]
  | error e => simp only [Compose.bind_error, h _ _ _]

section Merge

variable {b : Binding} {i j : Nat} (h : b.Repeats i j)
  (hstay : ∀ v ∈ b.operands, ¬ NeedsHoist s v)

include h in
theorem anyFoldable_merge : anyFoldable s b.map.numDims 0 b.operands =
    anyFoldable s (b.merge i j).map.numDims 0 (b.merge i j).operands := by
  obtain ⟨front, v, mid, back, hfront, _, hoperands, hmerged⟩ := h.split
  rw [hmerged, hoperands, anyFoldable_eq, anyFoldable_eq,
    firstInOrder_repeated (show b.map.numDims ≤ 0 + front.length by omega)]
  rfl

include hstay in
theorem merge_stays : ∀ v ∈ (b.merge i j).operands, ¬ NeedsHoist s v :=
  fun v hv => hstay v ((List.eraseIdx_sublist _ _).subset hv)

include h hstay in
/-- Steps from a binding, the first of which is made, come to where those from the merged binding
come. -/
theorem composeSteps_merge (hfoldable : anyFoldable s b.map.numDims 0 b.operands = .ok true)
    (left : Nat) :
    SameOutcome (composeSteps (left + 1) b) (composeSteps (left + 1) (b.merge i j)) J s := by
  intro r J' t
  have hmerged := anyFoldable_merge h ▸ hfoldable
  have hsteps : ∀ {c : Binding} {left : Nat}, (∀ v ∈ c.operands, ¬ NeedsHoist s v) →
      anyFoldable s c.map.numDims 0 c.operands = .ok true →
      (composeSteps (left + 1) c J s = .ok ((r, J'), t) ↔ ∃ next, StepTo s c next ∧
        (if next = c then pure c else composeSteps left next) J s = .ok ((r, J'), t)) := by
    intro c left hstay hfoldable
    rw [composeSteps]
    simp only [Compose.ask_bind, hfoldable, Except.ok.injEq, exists_eq_left', Bool.not_true,
      Bool.false_eq_true, if_false, Compose.bind_still (composeStep_iff hstay)]
  rw [hsteps hstay hfoldable, hsteps (merge_stays hstay) hmerged]
  refine exists_congr fun next => ?_
  rw [stepTo_merge h]
  refine and_congr_right fun hstep => ?_
  rw [if_neg (((stepTo_merge h).2 hstep).ne h)]
  by_cases heq : next = b.merge i j
  · -- the merged binding is left as it is, now or with one more step
    rw [if_pos heq, heq]
    cases left with
    | zero =>
      rw [composeSteps]
      simp only [Compose.ask_bind, hmerged, Except.ok.injEq, exists_eq_left', Bool.not_true,
        Bool.false_eq_true, if_false]
    | succ left =>
      rw [hsteps (merge_stays hstay) hmerged]
      constructor
      · rintro ⟨next', hstep', hrun⟩
        rwa [if_pos (hstep'.unique (heq ▸ hstep))] at hrun
      · intro hrun
        exact ⟨_, heq ▸ hstep, by rwa [if_pos rfl]⟩
  · rw [if_neg heq]

end Merge

/-! ## The end of a composition -/

/-- Whether a value is not valid at a position. -/
def isInvalidAt (s : Store) (v : ValueRef) (isDim : Bool) : Except Fault Bool := do
  if ← isSymbol s v then return false
  if isDim then return !(← isLoopArg s v) else return true

theorem Compose.ask_run {β : Type} {q : Store → Except Fault α} {f : α → Compose β} :
    (Compose.ask q >>= f) J s = (do f (← q s) J s) := by
  have hask : Compose.ask q J s = (do return ((.ok (← q s), J), s)) := by
    show (((q s >>= fun a => Except.ok (a, s)) >>= fun r => Except.ok ((r.1, J), r.2)) >>= fun r =>
      Except.ok ((Except.ok r.1.1, r.1.2), r.2)) = _
    cases q s <;> rfl
  show (Compose.ask q J s >>= _) = _
  rw [hask]
  cases q s <;> rfl

/-- The check fails at the first operand that is not valid at its position, and edits nothing. -/
theorem checkPositions_eq {numDims : Nat} : ∀ (vs : List ValueRef) (k : Nat),
    checkPositions numDims k vs J s = (do
      match ← firstInOrder (isInvalidAt s) numDims k vs with
      | none => return ((.ok (), J), s)
      | some v => return ((.error (.notAffine v), J), s))
  | [], _ => rfl
  | v :: vs, k => by
    rw [checkPositions, Compose.ask_run]
    simp only [firstInOrder, isInvalidAt]
    cases isSymbol s v with
    | error e => rfl
    | ok sym =>
      cases sym with
      | true => exact checkPositions_eq vs (k + 1)
      | false =>
        by_cases hdim : k < numDims
        · rw [if_pos hdim, decide_eq_true hdim]
          show ((Compose.ask (isLoopArg · v) >>= _) J s) = _
          rw [Compose.ask_run]
          cases isLoopArg s v with
          | error e => rfl
          | ok arg =>
            cases arg with
            | true => exact checkPositions_eq vs (k + 1)
            | false => rfl
        · rw [if_neg hdim, decide_eq_false hdim]
          rfl

theorem checkPositions_iff {numDims : Nat} {vs : List ValueRef} :
    checkPositions numDims 0 vs J s = .ok ((.ok (), J), s) ↔
      firstInOrder (isInvalidAt s) numDims 0 vs = .ok none := by
  rw [checkPositions_eq]
  cases firstInOrder (isInvalidAt s) numDims 0 vs with
  | error e => exact iff_of_false nofun nofun
  | ok found =>
    cases found with
    | none => exact iff_of_true rfl rfl
    | some v => exact iff_of_false nofun nofun

/-- What a value is replaced by where casts are made: itself, or a cast that was made before. -/
def Indexed (casts : List (ValueRef × ValueRef)) (s : Store) (v c : ValueRef) : Prop :=
  ∃ ty, s.typeOf v = .ok ty ∧
    (ty.isIndex = true ∧ c = v ∨ ty.isIndex = false ∧ casts.lookup v = some c)

theorem Casts.typeOf {x y : Journal × Store} (h : Casts x y) {ty : Ty}
    (hv : x.2.typeOf v = .ok ty) : y.2.typeOf v = .ok ty := by
  induction h with
  | refl => exact hv
  | tail _ hstep ih =>
    obtain ⟨w, p, cast, s₁, _, hcreate, hinsert, _⟩ := hstep
    obtain ⟨_, _, _, _, _, _, _, _, _, _, ht⟩ := insertOp_ok hinsert
    obtain ⟨a, ha, rfl⟩ := typeOf_ok.1 ih
    refine typeOf_ok.2 ⟨a, ?_, rfl⟩
    have hlt := (Array.getElem?_eq_some_iff.1 ha).1
    rw [ht]
    show s₁.values[v.index]? = some a
    rw [(createOp_ok hcreate).values, Array.getElem?_append_left hlt]
    exact ha

/-- The outcome of a composition, with a result changed by `f`. -/
def mapOutcome {β : Type} (f : α → β)
    (x : Except Fault ((Except ComposeError α × Journal) × Store)) :
    Except Fault ((Except ComposeError β × Journal) × Store) :=
  x.map fun r => ((r.1.1.map f, r.1.2), r.2)

theorem Compose.map_eq {β : Type} (x : Compose α) (f : α → β) :
    (x >>= fun a => pure (f a)) J s = mapOutcome f (x J s) := by
  show (x J s >>= _) = _
  cases x J s with
  | error e => rfl
  | ok r =>
    obtain ⟨⟨r, J'⟩, t⟩ := r
    cases r <;> rfl

theorem mapOutcome_comm {β γ δ : Type} {f : α → β} {g : β → δ} {f' : α → γ} {g' : γ → δ}
    (h : ∀ a, g (f a) = g' (f' a))
    (x : Except Fault ((Except ComposeError α × Journal) × Store)) :
    mapOutcome g (mapOutcome f x) = mapOutcome g' (mapOutcome f' x) := by
  cases x with
  | error e => rfl
  | ok r =>
    obtain ⟨⟨r, J'⟩, t⟩ := r
    cases r with
    | error e => rfl
    | ok a =>
      show Except.ok ((Except.ok (g (f a)), J'), t) = Except.ok ((Except.ok (g' (f' a)), J'), t)
      rw [h]

theorem Compose.bind_map {β γ : Type} {x y : Compose α} {f : α → Compose γ} {g : α → Compose β}
    {h : β → γ} (hxy : x J s = y J s) (hfg : ∀ a J₁ s₁, y J s = .ok ((.ok a, J₁), s₁) →
      f a J₁ s₁ = mapOutcome h (g a J₁ s₁)) :
    (x >>= f) J s = mapOutcome h ((y >>= g) J s) := by
  show (x J s >>= _) = mapOutcome h (y J s >>= _)
  rw [hxy]
  cases hy : y J s with
  | error e => rfl
  | ok r =>
    obtain ⟨⟨r, J'⟩, t⟩ := r
    cases r with
    | error e => rfl
    | ok a => exact hfg a J' t hy

section Index

variable {anchor : OpRef} {casts casts' : List (ValueRef × ValueRef)} {c : ValueRef}

/-- What an operand is replaced by, and the casts with it. -/
def castOf (anchor : OpRef) (casts : List (ValueRef × ValueRef)) (v : ValueRef) :
    Compose (ValueRef × List (ValueRef × ValueRef)) := do
  if (← Compose.ask (·.typeOf v)).isIndex then return (v, casts)
  match casts.lookup v with
  | some c => return (c, casts)
  | none =>
    let c ← indexCastOf anchor v
    return (c, (v, c) :: casts)

theorem indexOperands_cons (v : ValueRef) (vs : List ValueRef) :
    indexOperands anchor casts (v :: vs) = castOf anchor casts v >>= fun a =>
      indexOperands anchor a.2 vs >>= fun cs => pure (a.1 :: cs) := by
  rw [indexOperands, castOf, bind_assoc]
  refine bind_congr fun ty => ?_
  cases ty.isIndex with
  | true => simp
  | false =>
    cases casts.lookup v with
    | some c => simp
    | none => simp

theorem castOf_settled (h : Indexed casts s v c) :
    castOf anchor casts v J s = .ok ((.ok (c, casts), J), s) := by
  obtain ⟨ty, hty, ⟨hindex, rfl⟩ | ⟨hother, hlookup⟩⟩ := h
  · exact Compose.ask_bind.2 ⟨ty, hty, by rw [hindex]; rfl⟩
  · exact Compose.ask_bind.2 ⟨ty, hty, by rw [hother, hlookup]; rfl⟩

theorem castOf_indexed {w : ValueRef}
    (h : castOf anchor casts w J s = .ok ((.ok (c, casts'), J'), t)) :
    Indexed casts' t w c ∧ ∀ v c', Indexed casts s v c' → Indexed casts' t v c' := by
  obtain ⟨ty, hty, h⟩ := Compose.ask_bind.1 h
  cases hindex : ty.isIndex with
  | true =>
    rw [hindex] at h
    cases h
    exact ⟨⟨ty, hty, .inl ⟨hindex, rfl⟩⟩, fun _ _ hv => hv⟩
  | false =>
    rw [hindex] at h
    simp only [Bool.false_eq_true, if_false] at h
    cases hlookup : casts.lookup w with
    | some c₀ =>
      rw [hlookup] at h
      cases h
      exact ⟨⟨ty, hty, .inr ⟨hindex, hlookup⟩⟩, fun _ _ hv => hv⟩
    | none =>
      rw [hlookup] at h
      obtain ⟨c₀, J₁, s₁, hcast, h⟩ := Compose.bind_ok.1 h
      cases h
      have hcasts : Casts (J, s) (J', t) := indexCastOf_follows anchor w J s _ _ _ hcast
      refine ⟨⟨ty, hcasts.typeOf hty, .inr ⟨hindex, by simp⟩⟩, ?_⟩
      rintro v c' ⟨ty', hty', hv⟩
      refine ⟨ty', hcasts.typeOf hty', hv.imp_right fun ⟨hother, hfound⟩ => ⟨hother, ?_⟩⟩
      have hne : v ≠ w := by
        rintro rfl
        rw [hlookup] at hfound
        cases hfound
      rw [List.lookup_cons, beq_false_of_ne hne]
      exact hfound

/-- A settled operand in a list adds what it is replaced by, and nothing else. -/
theorem indexOperands_settled {back : List ValueRef} : ∀ {mid : List ValueRef}
    {casts : List (ValueRef × ValueRef)} {J : Journal} {s : Store}, Indexed casts s v c →
      indexOperands anchor casts (mid ++ v :: back) J s =
        mapOutcome (·.insertIdx mid.length c) (indexOperands anchor casts (mid ++ back) J s)
  | [], casts, J, s, h => by
    rw [List.nil_append, indexOperands_cons, ← Compose.map_eq]
    show (castOf anchor casts v J s >>= _) = _
    rw [castOf_settled h]
    rfl
  | w :: mid, casts, J, s, h => by
    rw [List.cons_append, List.cons_append, indexOperands_cons, indexOperands_cons]
    refine Compose.bind_map rfl fun a J₁ s₁ hcast => ?_
    rw [Compose.map_eq, Compose.map_eq, indexOperands_settled ((castOf_indexed hcast).2 v c h)]
    refine mapOutcome_comm (fun cs => ?_) _
    rfl

/-- The list with the element at `i` once more, at `j`. -/
def repeatAt (i j : Nat) (l : List ValueRef) : List ValueRef :=
  match l[i]? with
  | some v => l.insertIdx j v
  | none => l

theorem repeatAt_cons (i j : Nat) (l : List ValueRef) :
    repeatAt (i + 1) (j + 1) (v :: l) = v :: repeatAt i j l := by
  rw [repeatAt, repeatAt, List.getElem?_cons_succ]
  cases l[i]? <;> rfl

/-- An operand that occurs twice is replaced twice, by the same value. -/
theorem indexOperands_repeated {mid back : List ValueRef} : ∀ {front : List ValueRef}
    {casts : List (ValueRef × ValueRef)} {J : Journal} {s : Store},
      indexOperands anchor casts (front ++ v :: (mid ++ v :: back)) J s =
        mapOutcome (repeatAt front.length (front.length + 1 + mid.length))
          (indexOperands anchor casts (front ++ v :: (mid ++ back)) J s)
  | [], casts, J, s => by
    rw [List.nil_append, List.nil_append, indexOperands_cons, indexOperands_cons]
    refine Compose.bind_map rfl fun a J₁ s₁ hcast => ?_
    rw [Compose.map_eq, Compose.map_eq, indexOperands_settled (castOf_indexed hcast).1]
    refine mapOutcome_comm (fun cs => ?_) _
    rw [List.length_nil, Nat.zero_add, Nat.add_comm]
    rfl
  | w :: front, casts, J, s => by
    rw [List.cons_append, List.cons_append, indexOperands_cons, indexOperands_cons]
    refine Compose.bind_map rfl fun a J₁ s₁ hcast => ?_
    rw [Compose.map_eq, Compose.map_eq, indexOperands_repeated]
    refine mapOutcome_comm (fun cs => ?_) _
    rw [List.length_cons, show front.length + 1 + 1 + mid.length =
      front.length + 1 + mid.length + 1 by omega, repeatAt_cons]

end Index

end AffineRaising.Raise
