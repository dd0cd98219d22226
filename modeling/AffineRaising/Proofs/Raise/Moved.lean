/-
# AffineRaising.Proofs.Raise.Moved — compositions in padded stores.

Promotion and composition run in a padded store as they run in the store itself; what they hoist,
insert and write down is moved, and so is the map that they find: `normalizeMap_moved`.

Promotion changes the store, so the two runs have to be followed edit by edit: `Draft.Moved` and
`Compose.Moved` say of two runs with a journal what `Edit.Moved` says of two edits, and ask that the
journals are moved too.  A composition may end with an error that names a value; the moved run ends
with the error that names the moved one (`ComposeError.move`).
-/
import AffineRaising.Proofs.Raise.Decline
import AffineRaising.Proofs.Raise.Padding

namespace AffineRaising.Raise

open AffineRaising.IR AffineRaising.Ops AffineRaising.Analysis AffineRaising.Transform

variable {α β γ δ : Type} {σ : Padding} {s t : Store}

/-! ## Journals -/

def Entry.move (σ : Padding) : Entry → Entry
  | .hoisted source block before clone =>
    .hoisted (σ.op source) (σ.block block) (before.map σ.op) (σ.op clone)
  | .inserted o => .inserted (σ.op o)

def Journal.move (σ : Padding) (J : Journal) : Journal := J.map (Entry.move σ)

/-- Uses of the results of one operation go over to those of the other. -/
theorem redirectResults_moved (source target : OpRef) :
    Edit.Moved σ (fun u => u) (Journal.redirectResults source target)
      (Journal.redirectResults (σ.op source) (σ.op target)) := by
  refine .get_bind fun s t h => ?_
  rw [h.resultsOf, h.resultsOf, List.zip_map]
  exact .forM fun p => replaceAllUses_moved p.1 p.2

/-- Undoing a step of a moved journal undoes the moved step. -/
theorem undo_moved (e : Entry) :
    Edit.Moved σ (fun u => u) (Journal.undo e) (Journal.undo (e.move σ)) := by
  cases e with
  | hoisted source block before clone =>
    refine .bind (redirectResults_moved clone source) fun _ => ?_
    exact .bind (insertOp_moved block before source) fun _ => eraseOp_moved clone
  | inserted o => exact eraseOp_moved o

/-- A moved journal is rolled back alike. -/
theorem rollback_moved (J : Journal) :
    Edit.Moved σ (fun u => u) (Journal.rollback J) (Journal.rollback (J.move σ)) := by
  unfold Journal.rollback Journal.move
  rw [← List.map_reverse]
  exact .forM undo_moved

/-! ## Drafts -/

/-- Where the first draft succeeds, the second one succeeds in a padded store and writes down the
moved steps. -/
def Draft.Moved (σ : Padding) (f : α → β) (d : Draft α) (d' : Draft β) : Prop :=
  ∀ J, Edit.Moved σ (Prod.map f (Journal.move σ)) (d J) (d' (J.move σ))

namespace Draft.Moved

variable {f : α → β} {g : γ → δ}

theorem pure {a : α} {b : β} (h : f a = b) : Draft.Moved σ f (pure a) (pure b) :=
  fun _ => Edit.Moved.pure (by rw [← h]; rfl)

theorem throw {e : Fault} {d' : Draft β} : Draft.Moved σ f (throw e) d' := by
  rintro J s t hst _ _ ⟨⟩

/-- Drafts that are moved part by part are moved as a whole. -/
theorem bind {d : Draft α} {d' : Draft β} {k : α → Draft γ} {k' : β → Draft δ}
    (hd : Draft.Moved σ f d d') (hk : ∀ a, Draft.Moved σ g (k a) (k' (f a))) :
    Draft.Moved σ g (d >>= k) (d' >>= k') := by
  rintro J s t hst ⟨c, J'⟩ s' h
  obtain ⟨a, J₁, s₁, ha, hc⟩ := Draft.bind_ok.1 h
  obtain ⟨t₁, ha', hst₁⟩ := hd J s t hst (a, J₁) s₁ ha
  obtain ⟨t', hc', hst'⟩ := hk a J₁ s₁ t₁ hst₁ (c, J') s' hc
  exact ⟨t', Draft.bind_ok.2 ⟨f a, J₁.move σ, t₁, ha', hc'⟩, hst'⟩

theorem ite {p q : Prop} [Decidable p] [Decidable q] {d₁ d₂ : Draft α} {d₁' d₂' : Draft β}
    (hpq : p ↔ q) (h : Draft.Moved σ f d₁ d₁') (h' : Draft.Moved σ f d₂ d₂') :
    Draft.Moved σ f (if p then d₁ else d₂) (if q then d₁' else d₂') := by
  by_cases hp : p
  · rw [if_pos hp, if_pos (hpq.1 hp)]
    exact h
  · rw [if_neg hp, if_neg fun hq => hp (hpq.2 hq)]
    exact h'

/-- An edit that is moved is a draft that is moved; it writes nothing down. -/
theorem lift {e : Edit α} {e' : Edit β} (h : Edit.Moved σ f e e') :
    Draft.Moved σ f (Draft.lift e) (Draft.lift e') := by
  rintro J s t hst ⟨a, J'⟩ s' hrun
  obtain ⟨he, rfl⟩ := Draft.lift_ok.1 hrun
  obtain ⟨t', he', hst'⟩ := h s t hst a s' he
  exact ⟨t', Draft.lift_ok.2 ⟨he', rfl⟩, hst'⟩

theorem ask {q : Store → Except Fault α} {q' : Store → Except Fault β}
    (h : ∀ s t, Padded σ s t → IR.Moved f (q s) (q' t)) :
    Draft.Moved σ f (Draft.ask q) (Draft.ask q') :=
  lift (.query h)

theorem op_bind {o : OpRef} {k : OpData → Draft α} {k' : OpData → Draft β}
    (h : ∀ d e, Like σ d e → Draft.Moved σ f (k d) (k' e)) :
    Draft.Moved σ f (Draft.ask (·.op o) >>= k) (Draft.ask (·.op (σ.op o)) >>= k') := by
  rintro J s t hst ⟨a, J'⟩ s' hrun
  obtain ⟨d, hd, hrest⟩ := Draft.ask_bind.1 hrun
  obtain ⟨e, he, hlike⟩ := hst.op_some (Store.op_ok.1 hd)
  obtain ⟨t', hrest', hst'⟩ := h d e hlike J s t hst (a, J') s' hrest
  exact ⟨t', Draft.ask_bind.2 ⟨e, Store.op_ok.2 he, hrest'⟩, hst'⟩

theorem get_bind {k : Store → Draft α} {k' : Store → Draft β}
    (h : ∀ s t, Padded σ s t → Draft.Moved σ f (k s) (k' t)) :
    Draft.Moved σ f (Draft.lift get >>= k) (Draft.lift get >>= k') :=
  fun J => Edit.Moved.get_bind fun s t hst => h s t hst J

/-- Writing down a step and the moved step keeps the journals in agreement. -/
theorem record (e : Entry) :
    Draft.Moved σ (fun u => u) (Draft.record e) (Draft.record (e.move σ)) :=
  fun _ => Edit.Moved.pure (by simp [Journal.move])

end Draft.Moved

/-! ## Promotion -/

section Queries

variable (h : Padded σ s t)

include h

theorem isDefinedInside_moved (v : ValueRef) (o : OpRef) :
    Same (isDefinedInside s v o) (isDefinedInside t (σ.value v) (σ.op o)) := by
  refine .bind (homeOwner?_moved h v) fun owner => ?_
  cases owner with
  | none => exact .pure rfl
  | some owner => exact h.isWithin o owner

theorem addFree_moved (o : OpRef) (vs : List ValueRef) : ∀ free : List ValueRef,
    Moved (List.map σ.value) (addFree s o free vs)
      (addFree t (σ.op o) (free.map σ.value) (vs.map σ.value)) := by
  induction vs with
  | nil => exact fun _ => .pure rfl
  | cons v vs ih =>
    intro free
    refine .bind (isDefinedInside_moved h v o) fun inside => ?_
    rw [contains_map Padding.value_injective]
    refine .ite .rfl ?_ (ih free)
    have hnext := ih (free ++ [v])
    rw [List.map_append] at hnext
    exact hnext

/-- The free operands are found in the same order. -/
theorem freeOperands_moved (o : OpRef) :
    Moved (List.map σ.value) (freeOperands s o) (freeOperands t (σ.op o)) := by
  refine .bind (opsUnder_moved h o) fun users => .bind (.mapM h.operandsOf) fun operands => ?_
  rw [← List.map_flatten]
  exact addFree_moved h o operands.flatten []

/-- A value stays where it is in both stores or in none. -/
theorem staysPut_moved (forIndex : Bool) (v : ValueRef) :
    Same (staysPut s forIndex v) (staysPut t forIndex (σ.value v)) :=
  .bind (isSymbol_moved h v) fun _ => .ite .rfl (.pure rfl)
    (.ite .rfl (isLoopArg_moved h v) (.pure rfl))

end Queries

/-- The places where operands are available are moved, whatever is promoted on the way. -/
theorem availabilityWith_moved {promote promote' : ValueRef → Draft (Option ValueRef)}
    (hpromote : ∀ v, Draft.Moved σ (Option.map σ.value) (promote v) (promote' (σ.value v)))
    (forIndex : Bool) (vs : List ValueRef) :
    Draft.Moved σ (Option.map (List.map (Point.move σ))) (availabilityWith promote forIndex vs)
      (availabilityWith promote' forIndex (vs.map σ.value)) := by
  induction vs with
  | nil => exact .pure rfl
  | cons v vs ih =>
    refine .bind (.ask fun s t h => h.definingOp? v) fun o => ?_
    refine .bind (.ask fun s t h => staysPut_moved h forIndex v) fun stays => ?_
    refine .ite (by simp) (.bind (hpromote v) fun available => ?_)
      (.ite .rfl (.bind (f := Option.map σ.value) (.pure rfl) fun available => ?_)
        (.bind (f := Option.map σ.value) (.pure rfl) fun available => ?_))
    all_goals
      cases available with
      | none => exact .pure rfl
      | some a =>
        refine .bind (.ask fun s t h => afterDefinition?_moved h a) fun p => ?_
        cases p with
        | none => exact .pure rfl
        | some p =>
          refine .bind ih fun ps => ?_
          cases ps with
          | none => exact .pure rfl
          | some ps => exact .pure rfl

/-- A hoist makes the moved copy at the moved place. -/
theorem hoist_moved (o : OpRef) (p : Point) :
    Draft.Moved σ (Option.map σ.op) (hoist o p) (hoist (σ.op o) (p.move σ)) := by
  refine .op_bind fun d e hlike => ?_
  rw [hlike.parent]
  cases d.parent with
  | none => exact .pure rfl
  | some block =>
    refine .bind (.ask fun s t h => h.next? o) fun before => ?_
    refine .bind (.lift (cloneOp_moved [] o)) fun clone => ?_
    refine .bind (.lift (insertOp_moved p.block p.before clone.1)) fun _ => ?_
    refine .bind (.lift (redirectResults_moved o clone.1)) fun _ => ?_
    refine .bind (.lift (detach_moved o)) fun _ => ?_
    exact .bind (.record (.hoisted o block before clone.1)) fun _ => .pure rfl

/-- A promotion follows definitions, in the padded store with as many steps or more. -/
theorem promoteFuel_moved (forIndex : Bool) (n : Nat) : ∀ (m : Nat), n ≤ m → ∀ v : ValueRef,
    Draft.Moved σ (Option.map σ.value) (promoteFuel forIndex n v)
      (promoteFuel forIndex m (σ.value v)) := by
  induction n with
  | zero => exact fun _ _ _ => .throw
  | succ n ih =>
    intro m hm v
    obtain ⟨m, rfl⟩ : ∃ k, m = k + 1 := ⟨m - 1, by omega⟩
    refine .bind (.ask fun s t h => staysPut_moved h forIndex v) fun _ => .ite .rfl (.pure rfl) ?_
    refine .bind (.ask fun s t h => h.definingOp? v) fun o => ?_
    cases o with
    | none => exact .pure rfl
    | some o =>
      refine .bind (.ask fun s t h => isNamed_moved h o _) fun _ => .ite .rfl (.pure rfl) ?_
      refine .bind (.ask fun s t h => isReadOnly_moved h o) fun _ => .ite .rfl (.pure rfl) ?_
      refine .bind (.ask fun s t h => freeOperands_moved h o) fun free => ?_
      refine .bind (availabilityWith_moved (ih m (by omega)) forIndex free) fun points => ?_
      cases points with
      | none => exact .pure rfl
      | some points =>
        refine .bind (.ask fun s t h => latest?_moved h points) fun p => ?_
        cases p with
        | none => exact .pure rfl
        | some p =>
          refine .bind (hoist_moved o p) fun clone => ?_
          cases clone with
          | none => exact .pure rfl
          | some clone =>
            refine .get_bind fun s t h => .pure ?_
            rw [h.resultsOf, List.head?_map]

/-- A promotion comes to the moved value, or gives up on both sides. -/
theorem promote_moved (v : ValueRef) (forIndex : Bool) :
    Draft.Moved σ (Option.map σ.value) (promote v forIndex) (promote (σ.value v) forIndex) :=
  .get_bind fun _ _ h => promoteFuel_moved forIndex _ _ h.depthBound_le v

/-! ## Compositions -/

def ComposeError.move (σ : Padding) : ComposeError → ComposeError
  | .unpromotable v => .unpromotable (σ.value v)
  | .notAffine v => .notAffine (σ.value v)

namespace Compose

/-- What a composition ends with, moved. -/
def moveResult (σ : Padding) (f : α → β) : Except ComposeError α → Except ComposeError β
  | .ok a => .ok (f a)
  | .error e => .error (e.move σ)

/-- Where the first composition comes to an end, given up or not, the second one comes to the moved
end in a padded store. -/
def Moved (σ : Padding) (f : α → β) (x : Compose α) (x' : Compose β) : Prop :=
  Draft.Moved σ (moveResult σ f) x x'

namespace Moved

variable {f : α → β} {g : γ → δ}

theorem pure {a : α} {b : β} (h : f a = b) : Moved σ f (pure a) (pure b) :=
  Draft.Moved.pure (congrArg Except.ok h)

theorem throw {e e' : ComposeError} (h : e.move σ = e') :
    Moved σ f (throw e) (throw e' : Compose β) :=
  Draft.Moved.pure (congrArg Except.error h)

theorem bind {x : Compose α} {x' : Compose β} {k : α → Compose γ} {k' : β → Compose δ}
    (hx : Moved σ f x x') (hk : ∀ a, Moved σ g (k a) (k' (f a))) :
    Moved σ g (x >>= k) (x' >>= k') := by
  refine Draft.Moved.bind hx fun r => ?_
  cases r with
  | error e => exact .pure rfl
  | ok a => exact hk a

theorem ite {p q : Prop} [Decidable p] [Decidable q] {x y : Compose α} {x' y' : Compose β}
    (hpq : p ↔ q) (h : Moved σ f x x') (h' : Moved σ f y y') :
    Moved σ f (if p then x else y) (if q then x' else y') :=
  Draft.Moved.ite hpq h h'

theorem draft {d : Draft α} {d' : Draft β} (h : Draft.Moved σ f d d') :
    Moved σ f (Compose.draft d) (Compose.draft d') := by
  show Draft.Moved σ (moveResult σ f) (d >>= fun a => Pure.pure (.ok a))
    (d' >>= fun a => Pure.pure (.ok a))
  exact .bind h fun _ => .pure rfl

theorem lift {e : Edit α} {e' : Edit β} (h : Edit.Moved σ f e e') :
    Moved σ f (Compose.lift e) (Compose.lift e') :=
  draft (.lift h)

theorem ask {q : Store → Except Fault α} {q' : Store → Except Fault β}
    (h : ∀ s t, Padded σ s t → IR.Moved f (q s) (q' t)) :
    Moved σ f (Compose.ask q) (Compose.ask q') :=
  draft (.ask h)

theorem op_bind {o : OpRef} {k : OpData → Compose α} {k' : OpData → Compose β}
    (h : ∀ d e, Like σ d e → Moved σ f (k d) (k' e)) :
    Moved σ f (Compose.ask (·.op o) >>= k) (Compose.ask (·.op (σ.op o)) >>= k') := by
  rintro J s t hst ⟨r, J'⟩ s' hrun
  obtain ⟨d, hd, hrest⟩ := Compose.ask_bind.1 hrun
  obtain ⟨e, he, hlike⟩ := hst.op_some (Store.op_ok.1 hd)
  obtain ⟨t', hrest', hst'⟩ := h d e hlike J s t hst (r, J') s' hrest
  exact ⟨t', Compose.ask_bind.2 ⟨e, Store.op_ok.2 he, hrest'⟩, hst'⟩

end Moved

end Compose

/-! ### Shapes -/

def Shape.move (σ : Padding) (x : Shape) : Shape := ⟨x.expr, x.inputs.map σ.value⟩

section Shapes

variable (h : Padded σ s t)

include h

/-- The form of arithmetic depends on constants and signs alone. -/
theorem binaryShape?_moved (kind : ArithKind) (a b : ValueRef) :
    Moved (Option.map (Shape.move σ)) (binaryShape? s kind a b)
      (binaryShape? t kind (σ.value a) (σ.value b)) := by
  have hscaled : ∀ (combine : Affine.Expr → Affine.Expr → Affine.Expr) (v : ValueRef)
      (c : Option Affine.Expr), (scaledShape combine v c).map (Shape.move σ) =
        scaledShape combine (σ.value v) c := fun _ _ c => by cases c <;> rfl
  have hconst : ∀ combine : Affine.Expr → Affine.Expr → Affine.Expr,
      Moved (Option.map (Shape.move σ))
        (do return scaledShape combine a (positiveConst? (← constantOf? s b)))
        (do
          let c ← constantOf? t (σ.value b)
          return scaledShape combine (σ.value a) (positiveConst? c)) := fun combine =>
    .bind (constantOf?_moved h b) fun _ => .pure (hscaled _ _ _)
  cases kind with
  | mul =>
    refine .bind (constantOf?_moved h a) fun c => .bind (constantOf?_moved h b) fun c' => ?_
    cases c' with
    | some c' => exact .pure (hscaled _ _ _)
    | none =>
      cases c with
      | none => exact .pure rfl
      | some c => exact .pure (hscaled _ _ _)
  | divS => exact .bind (isNonNegative_moved h a) fun _ => .ite .rfl (hconst _) (.pure rfl)
  | remS => exact .bind (isNonNegative_moved h a) fun _ => .ite .rfl (hconst _) (.pure rfl)
  | divU => exact hconst _
  | remU => exact hconst _
  | _ => exact .pure rfl

theorem shape?_moved (v : ValueRef) :
    Moved (Option.map (Shape.move σ)) (shape? s v) (shape? t (σ.value v)) := by
  refine .bind (constantOf?_moved h v) fun c => ?_
  cases c with
  | some c => exact .pure rfl
  | none =>
    refine .bind (h.definingOp? v) fun o => ?_
    cases o with
    | none => exact .pure rfl
    | some o =>
      refine .bind (arithKind?_moved h o) fun kind => .bind (h.operandsOf o) fun operands => ?_
      rcases kind with _ | kind
      · exact .pure rfl
      · rcases operands with _ | ⟨a, _ | ⟨b, _ | ⟨c, rest⟩⟩⟩
        · exact .pure rfl
        · exact .pure rfl
        · exact binaryShape?_moved h kind a b
        · exact .pure rfl

/-- What can be inlined for a value is the same, with moved inputs. -/
theorem inlineShape?_moved (v decast : ValueRef) :
    Moved (Option.map (Shape.move σ)) (inlineShape? s v decast)
      (inlineShape? t (σ.value v) (σ.value decast)) := by
  have hcast : Moved (Option.map (Shape.move σ)) (castShape? s decast)
      (castShape? t (σ.value decast)) := by
    refine .bind (h.definingOp? decast) fun o => ?_
    cases o with
    | none => exact .pure rfl
    | some o =>
      exact .bind (foldsConstant_moved h o) fun _ =>
        .ite .rfl (shape?_moved h decast) (.pure rfl)
  refine .bind (isSymbol_moved h v) fun _ => .ite .rfl hcast
    (.bind (shape?_moved h v) fun own => ?_)
  cases own with
  | some shape => exact .pure rfl
  | none => exact hcast

theorem appliedMap?_moved (v : ValueRef) :
    Moved (Option.map (Prod.map id (Prod.map id (List.map σ.value)))) (appliedMap? s v)
      (appliedMap? t (σ.value v)) := by
  refine .bind (h.definingOp? v) fun o => ?_
  cases o with
  | none => exact .pure rfl
  | some o =>
    refine .bind (isNamed_moved h o _) fun _ => .ite .rfl ?_ (.pure rfl)
    refine .bind (h.operandsOf o) fun operands => .bind (opMap?_moved h o) fun m => ?_
    cases m with
    | none => exact .pure rfl
    | some m =>
      obtain ⟨numDims, numSymbols, results⟩ := m
      rcases results with _ | ⟨result, _ | ⟨_, _⟩⟩
      · exact .pure rfl
      · exact .ite (by simp) (.pure rfl) (.pure rfl)
      · exact .pure rfl

end Shapes

/-- Values are bound in the order in which they stand. -/
theorem bindAll_moved {bind : Positions → ValueRef → Affine.Expr × Positions}
    (hbind : ∀ p v, bind (p.move σ) (σ.value v) = Prod.map id (Positions.move σ) (bind p v))
    (vs : List ValueRef) : ∀ p : Positions,
    bindAll bind (p.move σ) (vs.map σ.value) =
      Prod.map id (Positions.move σ) (bindAll bind p vs) := by
  induction vs with
  | nil => exact fun _ => rfl
  | cons v vs ih =>
    intro p
    simp only [List.map_cons, bindAll, hbind, Prod.map_fst, Prod.map_snd, ih, Prod.map_apply, id_eq]

/-! ### Steps -/

theorem requireSymbol_moved (v : ValueRef) :
    Compose.Moved σ σ.value (requireSymbol v) (requireSymbol (σ.value v)) := by
  refine .bind (.ask fun s t h => isSymbol_moved h v) fun _ => .ite .rfl (.pure rfl) ?_
  refine .bind (.draft (promote_moved v false)) fun p => ?_
  cases p with
  | none => exact .throw rfl
  | some p =>
    exact .bind (.ask fun s t h => isSymbol_moved h p) fun _ =>
      .ite .rfl (.pure rfl) (.throw rfl)

theorem foldValue_moved (p : Positions) (v decast : ValueRef) (isDim : Bool) :
    Compose.Moved σ (Prod.map id (Positions.move σ)) (foldValue p v decast isDim)
      (foldValue (p.move σ) (σ.value v) (σ.value decast) isDim) := by
  have hsame : ∀ {γ : Type} (x : Except Affine.DomainError γ),
      Compose.Moved σ (fun e => e) (Compose.ask fun _ => liftAffine x)
        (Compose.ask fun _ => liftAffine x) := fun _ => .ask fun _ _ _ _ ha => ha
  refine .bind (.ask fun s t h => inlineShape?_moved h v decast) fun shape => ?_
  cases shape with
  | some shape =>
    simp only [Option.map_some, Shape.move, bindAll_moved Positions.move_symbol]
    exact .bind (hsame _) fun e => .pure rfl
  | none =>
    refine .bind (.ask fun s t h => isLoopArg_moved h v) fun _ =>
      .ite .rfl (.pure (Positions.move_dim p v).symm) ?_
    refine .bind (.ask fun s t h => appliedMap?_moved h v) fun found => ?_
    cases found with
    | some found =>
      obtain ⟨m, result, operands⟩ := found
      simp only [Option.map_some, Prod.map_apply, Prod.map_snd, id_eq, ← List.map_take,
        ← List.map_drop, bindAll_moved Positions.move_dim, bindAll_moved Positions.move_symbol]
      exact .bind (hsame _) fun e => .pure rfl
    | none =>
      refine .bind (requireSymbol_moved v) fun w => .pure ?_
      cases isDim with
      | true => exact (Positions.move_dim p w).symm
      | false => exact (Positions.move_symbol p w).symm

theorem composeOperand_moved (p : Positions) (v : ValueRef) (isDim : Bool) :
    Compose.Moved σ (Prod.map id (Positions.move σ)) (composeOperand p v isDim)
      (composeOperand (p.move σ) (σ.value v) isDim) := by
  rw [composeOperand_eq, composeOperand_eq]
  have hstrip : ∀ s t, Padded σ s t → Moved σ.value (stripCasts s v) (stripCasts t (σ.value v)) :=
    fun s t h => stripFuel_moved h _ _ _ h.depthBound_le v
  refine .bind (.ask hstrip) fun decast => .bind (.ask fun s t h => isSymbol_moved h v)
    fun sym => ?_
  cases sym with
  | true => exact foldValue_moved p v decast isDim
  | false => exact foldValue_moved p decast decast isDim

theorem composeOperands_moved (numDims : Nat) (vs : List ValueRef) : ∀ (i : Nat) (p : Positions),
    Compose.Moved σ (Prod.map id (Positions.move σ)) (composeOperands numDims i p vs)
      (composeOperands numDims i (p.move σ) (vs.map σ.value)) := by
  induction vs with
  | nil => exact fun _ _ => .pure rfl
  | cons v vs ih =>
    intro i p
    exact .bind (composeOperand_moved p v _) fun x => .bind (ih (i + 1) x.2) fun y => .pure rfl

theorem composeStep_moved (b : Binding) :
    Compose.Moved σ (Binding.move σ) (composeStep b) (composeStep (b.move σ)) := by
  refine .bind (composeOperands_moved b.map.numDims b.operands 0 .empty) fun x => ?_
  refine .bind (f := fun m => m) (.ask fun s t h m hm => ?_) fun m => ?_
  · simpa [Positions.move, Binding.move] using hm
  · refine .ask fun s t h => ?_
    show Moved _ _ (canonicalize t ⟨m, (x.2.move σ).operands⟩)
    rw [Positions.move_operands]
    exact canonicalize_moved h ⟨m, x.2.operands⟩

theorem anyFoldable_moved (h : Padded σ s t) (numDims : Nat) (vs : List ValueRef) : ∀ i : Nat,
    Same (anyFoldable s numDims i vs) (anyFoldable t numDims i (vs.map σ.value)) := by
  induction vs with
  | nil => exact fun _ => .pure rfl
  | cons v vs ih =>
    exact fun i => .bind (isFoldable_moved h v _) fun _ => .ite .rfl (.pure rfl) (ih (i + 1))

theorem composeSteps_moved (left : Nat) : ∀ b : Binding,
    Compose.Moved σ (Binding.move σ) (composeSteps left b) (composeSteps left (b.move σ)) := by
  induction left with
  | zero =>
    intro b
    unfold composeSteps
    refine .bind (.ask fun s t h => anyFoldable_moved h _ b.operands 0) fun _ => ?_
    exact .ite .rfl (.pure rfl) (.pure rfl)
  | succ left ih =>
    intro b
    unfold composeSteps
    refine .bind (.ask fun s t h => anyFoldable_moved h _ b.operands 0) fun _ => ?_
    refine .ite .rfl (.pure rfl) (.bind (composeStep_moved b) fun next => ?_)
    exact .ite Binding.move_inj.symm (.pure rfl) (ih next)

/-! ### Results -/

theorem checkPositions_moved (numDims : Nat) (vs : List ValueRef) : ∀ i : Nat,
    Compose.Moved σ (fun u => u) (checkPositions numDims i vs)
      (checkPositions numDims i (vs.map σ.value)) := by
  induction vs with
  | nil => exact fun _ => .pure rfl
  | cons v vs ih =>
    intro i
    have hrest : ∀ valid : Bool, Compose.Moved σ (fun u => u)
        (if (!valid) = true then throw (.notAffine v) >>= fun _ => checkPositions numDims (i + 1) vs
          else checkPositions numDims (i + 1) vs)
        (if (!valid) = true then
          throw (.notAffine (σ.value v)) >>= fun _ =>
            checkPositions numDims (i + 1) (vs.map σ.value)
          else checkPositions numDims (i + 1) (vs.map σ.value)) := fun valid =>
      .ite .rfl (.bind (f := fun u : Unit => u) (.throw rfl) fun _ => ih (i + 1)) (ih (i + 1))
    refine .bind (.ask fun s t h => isSymbol_moved h v) fun _ => .ite .rfl (hrest true) ?_
    refine .ite .rfl (.bind (.ask fun s t h => isLoopArg_moved h v) fun valid => ?_) (hrest false)
    exact hrest valid

theorem usableCast?_moved (h : Padded σ s t) (anchor : OpRef) (u : Use) :
    Moved (Option.map σ.value) (usableCast? s anchor u)
      (usableCast? t (σ.op anchor) (σ.use u)) := by
  refine .bind (isNamed_moved h u.user _) fun _ => .ite .rfl ?_ (.pure rfl)
  refine .bind (h.result u.user 0) fun result => ?_
  refine .bind (h.typeOf result) fun _ => .ite .rfl (.pure rfl) ?_
  refine h.op_bind fun d e hlike => .ite (by rw [hlike.parent, Option.isNone_map]) (.pure rfl) ?_
  refine .bind (isSymbol_moved h result) fun _ => .ite .rfl (.pure rfl) ?_
  exact .bind (valueDominates_moved h result anchor) fun _ => .ite .rfl (.pure rfl) (.pure rfl)

theorem firstUsableCast?_moved (h : Padded σ s t) (anchor : OpRef) (us : List Use) :
    Moved (Option.map σ.value) (firstUsableCast? s anchor us)
      (firstUsableCast? t (σ.op anchor) (us.map σ.use)) := by
  induction us with
  | nil => exact .pure rfl
  | cons u us ih =>
    refine .bind (usableCast?_moved h anchor u) fun v => ?_
    cases v with
    | some v => exact .pure rfl
    | none => exact ih

theorem indexCastOf_moved (anchor : OpRef) (v : ValueRef) :
    Compose.Moved σ σ.value (indexCastOf anchor v) (indexCastOf (σ.op anchor) (σ.value v)) := by
  have hfirst : ∀ s t, Padded σ s t → Moved (Option.map σ.value)
      (firstUsableCast? s anchor (s.usesOf v))
      (firstUsableCast? t (σ.op anchor) (t.usesOf (σ.value v))) := fun s t h => by
    rw [h.usesOf]
    exact firstUsableCast?_moved h anchor _
  refine .bind (.ask hfirst) fun cast => ?_
  cases cast with
  | some cast => exact .pure rfl
  | none =>
    refine .bind (.ask fun s t h => afterDefinition?_moved h v) fun p => ?_
    cases p with
    | none => exact .throw rfl
    | some p =>
      refine .op_bind fun _ _ _ => ?_
      have hspec : SpecLike σ (indexCastSpec v .index) (indexCastSpec (σ.value v) .index) :=
        ⟨rfl, rfl, rfl, rfl, rfl⟩
      refine .bind (.lift (createOp_moved hspec)) fun cast => ?_
      refine .bind (.lift (insertOp_moved p.block p.before cast)) fun _ => ?_
      refine .bind (.draft (.record (.inserted cast))) fun _ => ?_
      exact .ask fun s t h => h.result cast 0

theorem indexOperands_moved (anchor : OpRef) (vs : List ValueRef) :
    ∀ casts : List (ValueRef × ValueRef),
    Compose.Moved σ (List.map σ.value) (indexOperands anchor casts vs)
      (indexOperands (σ.op anchor) (σ.pairs casts) (vs.map σ.value)) := by
  induction vs with
  | nil => exact fun _ => .pure rfl
  | cons v vs ih =>
    intro casts
    refine .bind (.ask fun s t h => h.typeOf v) fun _ => .ite .rfl ?_ ?_
    · exact .bind (ih casts) fun _ => .pure rfl
    · rw [pairs_lookup]
      cases casts.lookup v with
      | some cast => exact .bind (ih casts) fun _ => .pure rfl
      | none =>
        exact .bind (indexCastOf_moved anchor v) fun cast =>
          .bind (ih ((v, cast) :: casts)) fun _ => .pure rfl

theorem composeMap_moved (anchor : OpRef) (limit : Nat) (b : Binding) :
    Compose.Moved σ (Binding.move σ) (composeMap anchor limit b)
      (composeMap (σ.op anchor) limit (b.move σ)) := by
  refine .bind (composeSteps_moved limit b) fun b' => ?_
  refine .bind (checkPositions_moved _ b'.operands 0) fun _ => ?_
  exact .bind (indexOperands_moved anchor b'.operands []) fun operands => .pure rfl

theorem normalizeMap_moved (anchor : OpRef) (limit : Nat) (b : Binding) :
    Compose.Moved σ (Binding.move σ) (normalizeMap anchor limit b)
      (normalizeMap (σ.op anchor) limit (b.move σ)) :=
  .bind (composeMap_moved anchor limit b) fun b' => .ask fun _ _ h => canonicalize_moved h b'

theorem normalizeSet_moved (anchor : OpRef) (limit : Nat) (b : SetBinding) :
    Compose.Moved σ (SetBinding.move σ) (normalizeSet anchor limit b)
      (normalizeSet (σ.op anchor) limit (b.move σ)) := by
  have hset : Compose.Moved σ (SetBinding.move σ) (composeSet anchor limit b)
      (composeSet (σ.op anchor) limit (b.move σ)) :=
    .bind (composeMap_moved anchor limit b.toBinding) fun _ => .pure rfl
  exact .bind hset fun b' => .ask fun _ _ h => canonicalizeSet_moved h b'

end AffineRaising.Raise
