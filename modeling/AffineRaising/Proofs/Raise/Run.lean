/-
# AffineRaising.Proofs.Raise.Run — runs that keep a journal.

A draft runs on a journal and a store; a composition may also find that operands are not affine, and
then the journal and the store are what they were at that moment.  One lemma for each way in which
such runs are put together, and with `Follows` a way to say that all a run does to journal and store
is a sequence of steps of some kind.

The simp lemmas open an equation between a run and its outcome into the equations of its parts, as
those of `Edit` do.  For compositions there are two of them for each way: `bind_ok` for runs that
come to a value, and `bind_error` for those that give up.  Both kinds of end are ends of a
transaction, which rolls back or commits: `transaction_ok`.
-/
import AffineRaising.Proofs.Store.View
import AffineRaising.Raise.Pattern
import Mathlib.Logic.Relation

namespace AffineRaising.Raise

open AffineRaising.IR

variable {α β : Type} {J J' : Journal} {s t : Store}

namespace Draft

/-- A run of two drafts is a run of the first one, and then of the second one on the journal and the
store that it left. -/
@[simp] theorem bind_ok {d : Draft α} {f : α → Draft β} {b : β} :
    (d >>= f) J s = .ok ((b, J'), t) ↔
      ∃ a J₁ s₁, d J s = .ok ((a, J₁), s₁) ∧ f a J₁ s₁ = .ok ((b, J'), t) := by
  show ((d J >>= fun p => f p.1 p.2) : Edit (β × Journal)) s = .ok ((b, J'), t) ↔ _
  rw [Edit.bind_ok]
  constructor
  · rintro ⟨⟨a, J₁⟩, s₁, h, h'⟩
    exact ⟨a, J₁, s₁, h, h'⟩
  · rintro ⟨a, J₁, s₁, h, h'⟩
    exact ⟨(a, J₁), s₁, h, h'⟩

@[simp] theorem pure_ok {a b : α} :
    (pure a : Draft α) J s = .ok ((b, J'), t) ↔ a = b ∧ J = J' ∧ s = t := by
  show (.ok ((a, J), s) : Except Fault ((α × Journal) × Store)) = .ok ((b, J'), t) ↔ _
  simp [and_assoc]

@[simp] theorem lift_ok {e : Edit α} {a : α} :
    Draft.lift e J s = .ok ((a, J'), t) ↔ e s = .ok (a, t) ∧ J = J' := by
  show ((e >>= fun a => pure (a, J)) : Edit (α × Journal)) s = .ok ((a, J'), t) ↔ _
  rw [Edit.bind_ok]
  constructor
  · rintro ⟨a', s', h, h'⟩
    cases h'
    exact ⟨h, rfl⟩
  · rintro ⟨h, rfl⟩
    exact ⟨a, t, h, rfl⟩

@[simp] theorem ask_ok {q : Store → Except Fault α} {a : α} :
    Draft.ask q J s = .ok ((a, J'), t) ↔ q s = .ok a ∧ J = J' ∧ s = t := by
  rw [Draft.ask, lift_ok, Edit.query_ok]
  constructor
  · rintro ⟨⟨h, h'⟩, h''⟩
    exact ⟨h, h'', h'⟩
  · rintro ⟨h, h', h''⟩
    exact ⟨⟨h, h''⟩, h'⟩

@[simp high] theorem ask_bind {q : Store → Except Fault α} {f : α → Draft β} {b : β} :
    (Draft.ask q >>= f) J s = .ok ((b, J'), t) ↔
      ∃ a, q s = .ok a ∧ f a J s = .ok ((b, J'), t) := by
  rw [bind_ok]
  constructor
  · rintro ⟨a, J₁, s₁, h, h'⟩
    obtain ⟨hq, rfl, rfl⟩ := ask_ok.1 h
    exact ⟨a, hq, h'⟩
  · rintro ⟨a, hq, h'⟩
    exact ⟨a, J, s, ask_ok.2 ⟨hq, rfl, rfl⟩, h'⟩

/-- A step is written down at the end of the journal. -/
@[simp] theorem record_ok {e : Entry} {u : Unit} :
    Draft.record e J s = .ok ((u, J'), t) ↔ J ++ [e] = J' ∧ s = t := by
  show (.ok (((), J ++ [e]), s) : Except Fault ((Unit × Journal) × Store)) = .ok ((u, J'), t) ↔ _
  simp

@[simp] theorem throw_ne_ok {f : Fault} {p : (α × Journal) × Store} :
    (throw f : Draft α) J s ≠ .ok p := by
  intro h
  cases h

/-- Every run of the draft takes journal and store along steps of `S`. -/
def Follows (S : Journal × Store → Journal × Store → Prop) (d : Draft α) : Prop :=
  ∀ J s a J' t, d J s = .ok ((a, J'), t) → Relation.ReflTransGen S (J, s) (J', t)

namespace Follows

variable {S : Journal × Store → Journal × Store → Prop}

theorem pure (a : α) : Follows S (pure a) := by
  intro J s b J' t h
  obtain ⟨_, rfl, rfl⟩ := pure_ok.1 h
  exact .refl

theorem ask (q : Store → Except Fault α) : Follows S (Draft.ask q) := by
  intro J s a J' t h
  obtain ⟨_, rfl, rfl⟩ := ask_ok.1 h
  exact .refl

theorem get : Follows S (Draft.lift get) := by
  intro J s a J' t h
  obtain ⟨h, rfl⟩ := lift_ok.1 h
  cases h
  exact .refl

theorem throw (f : Fault) : Follows S (throw f : Draft α) := by
  intro J s a J' t h
  cases h

/-- Steps of the first part are followed by steps of the second part. -/
theorem bind {d : Draft α} {f : α → Draft β} (hd : Follows S d) (hf : ∀ a, Follows S (f a)) :
    Follows S (d >>= f) := by
  intro J s b J' t h
  obtain ⟨a, J₁, s₁, h, h'⟩ := bind_ok.1 h
  exact (hd J s a J₁ s₁ h).trans (hf a J₁ s₁ b J' t h')

theorem ite {c : Prop} [Decidable c] {d d' : Draft α} (h : Follows S d) (h' : Follows S d') :
    Follows S (if c then d else d') := by
  split
  · exact h
  · exact h'

end Follows

end Draft

namespace Compose

@[simp] theorem bind_ok {x : Compose α} {f : α → Compose β} {b : β} :
    (x >>= f) J s = .ok ((.ok b, J'), t) ↔
      ∃ a J₁ s₁, x J s = .ok ((.ok a, J₁), s₁) ∧ f a J₁ s₁ = .ok ((.ok b, J'), t) := by
  show @bind Draft _ _ _ x (ExceptT.bindCont f) J s = .ok ((.ok b, J'), t) ↔ _
  rw [Draft.bind_ok]
  constructor
  · rintro ⟨r, J₁, s₁, h, h'⟩
    cases r with
    | error e =>
      obtain ⟨h', _⟩ := Draft.pure_ok.1 h'
      cases h'
    | ok a => exact ⟨a, J₁, s₁, h, h'⟩
  · rintro ⟨a, J₁, s₁, h, h'⟩
    exact ⟨.ok a, J₁, s₁, h, h'⟩

/-- A composition that gives up did so in its first part or in the rest. -/
theorem bind_error {x : Compose α} {f : α → Compose β} {e : ComposeError} :
    (x >>= f) J s = .ok ((.error e, J'), t) ↔ x J s = .ok ((.error e, J'), t) ∨
      ∃ a J₁ s₁, x J s = .ok ((.ok a, J₁), s₁) ∧ f a J₁ s₁ = .ok ((.error e, J'), t) := by
  show @bind Draft _ _ _ x (ExceptT.bindCont f) J s = .ok ((.error e, J'), t) ↔ _
  rw [Draft.bind_ok]
  constructor
  · rintro ⟨r, J₁, s₁, h, h'⟩
    cases r with
    | error e' =>
      obtain ⟨heq, rfl, rfl⟩ := Draft.pure_ok.1 h'
      cases heq
      exact .inl h
    | ok a => exact .inr ⟨a, J₁, s₁, h, h'⟩
  · rintro (h | ⟨a, J₁, s₁, h, h'⟩)
    · exact ⟨.error e, J', t, h, rfl⟩
    · exact ⟨.ok a, J₁, s₁, h, h'⟩

@[simp] theorem pure_ok {a : α} {r : Except ComposeError α} :
    (pure a : Compose α) J s = .ok ((r, J'), t) ↔ .ok a = r ∧ J = J' ∧ s = t :=
  Draft.pure_ok

@[simp] theorem throw_ok {e : ComposeError} {r : Except ComposeError α} :
    (throw e : Compose α) J s = .ok ((r, J'), t) ↔ .error e = r ∧ J = J' ∧ s = t :=
  Draft.pure_ok

@[simp] theorem draft_ok {d : Draft α} {r : Except ComposeError α} :
    Compose.draft d J s = .ok ((r, J'), t) ↔ ∃ a, d J s = .ok ((a, J'), t) ∧ .ok a = r := by
  show (((d >>= fun a => pure (.ok a)) : Draft (Except ComposeError α))) J s =
    .ok ((r, J'), t) ↔ _
  rw [Draft.bind_ok]
  constructor
  · rintro ⟨a, J₁, s₁, h, h'⟩
    obtain ⟨rfl, rfl, rfl⟩ := Draft.pure_ok.1 h'
    exact ⟨a, h, rfl⟩
  · rintro ⟨a, h, rfl⟩
    exact ⟨a, J', t, h, rfl⟩

@[simp] theorem lift_ok {e : Edit α} {r : Except ComposeError α} :
    Compose.lift e J s = .ok ((r, J'), t) ↔ ∃ a, e s = .ok (a, t) ∧ .ok a = r ∧ J = J' := by
  rw [Compose.lift, draft_ok]
  constructor
  · rintro ⟨a, h, rfl⟩
    obtain ⟨he, rfl⟩ := Draft.lift_ok.1 h
    exact ⟨a, he, rfl, rfl⟩
  · rintro ⟨a, h, rfl, rfl⟩
    exact ⟨a, Draft.lift_ok.2 ⟨h, rfl⟩, rfl⟩

@[simp] theorem ask_ok {q : Store → Except Fault α} {r : Except ComposeError α} :
    Compose.ask q J s = .ok ((r, J'), t) ↔ ∃ a, q s = .ok a ∧ .ok a = r ∧ J = J' ∧ s = t := by
  rw [Compose.ask, draft_ok]
  constructor
  · rintro ⟨a, h, rfl⟩
    obtain ⟨hq, rfl, rfl⟩ := Draft.ask_ok.1 h
    exact ⟨a, hq, rfl, rfl, rfl⟩
  · rintro ⟨a, h, rfl, rfl, rfl⟩
    exact ⟨a, Draft.ask_ok.2 ⟨h, rfl, rfl⟩, rfl⟩

/-- A draft never gives up, so what follows always runs. -/
theorem draft_bind {d : Draft α} {f : α → Compose β} {r : Except ComposeError β} :
    (Compose.draft d >>= f) J s = .ok ((r, J'), t) ↔
      ∃ a J₁ s₁, d J s = .ok ((a, J₁), s₁) ∧ f a J₁ s₁ = .ok ((r, J'), t) := by
  cases r with
  | ok b =>
    rw [bind_ok]
    constructor
    · rintro ⟨a, J₁, s₁, h, h'⟩
      obtain ⟨_, h, heq⟩ := draft_ok.1 h
      cases heq
      exact ⟨a, J₁, s₁, h, h'⟩
    · rintro ⟨a, J₁, s₁, h, h'⟩
      exact ⟨a, J₁, s₁, draft_ok.2 ⟨a, h, rfl⟩, h'⟩
  | error e =>
    rw [bind_error]
    constructor
    · rintro (h | ⟨a, J₁, s₁, h, h'⟩)
      · obtain ⟨_, _, heq⟩ := draft_ok.1 h
        cases heq
      · obtain ⟨_, h, heq⟩ := draft_ok.1 h
        cases heq
        exact ⟨a, J₁, s₁, h, h'⟩
    · rintro ⟨a, J₁, s₁, h, h'⟩
      exact .inr ⟨a, J₁, s₁, draft_ok.2 ⟨a, h, rfl⟩, h'⟩

/-- Nor does an edit, and it leaves the journal alone. -/
theorem lift_bind {e : Edit α} {f : α → Compose β} {r : Except ComposeError β} :
    (Compose.lift e >>= f) J s = .ok ((r, J'), t) ↔
      ∃ a s₁, e s = .ok (a, s₁) ∧ f a J s₁ = .ok ((r, J'), t) := by
  rw [Compose.lift, draft_bind]
  constructor
  · rintro ⟨a, J₁, s₁, h, h'⟩
    obtain ⟨he, rfl⟩ := Draft.lift_ok.1 h
    exact ⟨a, s₁, he, h'⟩
  · rintro ⟨a, s₁, h, h'⟩
    exact ⟨a, J, s₁, Draft.lift_ok.2 ⟨h, rfl⟩, h'⟩

@[simp high] theorem ask_bind {q : Store → Except Fault α} {f : α → Compose β}
    {r : Except ComposeError β} : (Compose.ask q >>= f) J s = .ok ((r, J'), t) ↔
      ∃ a, q s = .ok a ∧ f a J s = .ok ((r, J'), t) := by
  rw [Compose.ask, draft_bind]
  constructor
  · rintro ⟨a, J₁, s₁, h, h'⟩
    obtain ⟨hq, rfl, rfl⟩ := Draft.ask_ok.1 h
    exact ⟨a, hq, h'⟩
  · rintro ⟨a, h, h'⟩
    exact ⟨a, J, s, Draft.ask_ok.2 ⟨h, rfl, rfl⟩, h'⟩

/-- Every run of the composition, given up or not, takes journal and store along steps of `S`. -/
def Follows (S : Journal × Store → Journal × Store → Prop) (x : Compose α) : Prop :=
  ∀ J s r J' t, x J s = .ok ((r, J'), t) → Relation.ReflTransGen S (J, s) (J', t)

namespace Follows

variable {S : Journal × Store → Journal × Store → Prop}

theorem pure (a : α) : Follows S (pure a) := by
  intro J s r J' t h
  obtain ⟨_, rfl, rfl⟩ := pure_ok.1 h
  exact .refl

theorem throw (e : ComposeError) : Follows S (throw e : Compose α) := by
  intro J s r J' t h
  obtain ⟨_, rfl, rfl⟩ := throw_ok.1 h
  exact .refl

theorem ask (q : Store → Except Fault α) : Follows S (Compose.ask q) := by
  intro J s r J' t h
  obtain ⟨_, _, _, rfl, rfl⟩ := ask_ok.1 h
  exact .refl

/-- A draft that takes its steps does so within a composition. -/
theorem draft {d : Draft α} (h : Draft.Follows S d) : Follows S (Compose.draft d) := by
  intro J s r J' t hrun
  obtain ⟨a, hrun, _⟩ := draft_ok.1 hrun
  exact h J s a J' t hrun

theorem bind {x : Compose α} {f : α → Compose β} (hx : Follows S x) (hf : ∀ a, Follows S (f a)) :
    Follows S (x >>= f) := by
  intro J s r J' t h
  cases r with
  | ok b =>
    obtain ⟨a, J₁, s₁, h, h'⟩ := bind_ok.1 h
    exact (hx J s _ J₁ s₁ h).trans (hf a J₁ s₁ _ J' t h')
  | error e =>
    rcases bind_error.1 h with h | ⟨a, J₁, s₁, h, h'⟩
    · exact hx J s _ J' t h
    · exact (hx J s _ J₁ s₁ h).trans (hf a J₁ s₁ _ J' t h')

theorem ite {c : Prop} [Decidable c] {x y : Compose α} (h : Follows S x) (h' : Follows S y) :
    Follows S (if c then x else y) := by
  split
  · exact h
  · exact h'

end Follows

end Compose

/-! ## Transactions -/

section Transactions

open Transform (Change)

variable {body : Compose Change} {change : Change}

/-- A transaction rolls back what gave up or asks for nothing, and commits what asks for a
change. -/
theorem transaction_ok : transaction body s = .ok (change, t) ↔
    ∃ r J s₁, body [] s = .ok ((r, J), s₁) ∧
      ((∀ c, r = .ok c → c = .none) ∧ Journal.rollback J s₁ = .ok ((), t) ∧ change = .none ∨
        r = .ok change ∧ change ≠ .none ∧ Journal.commit J s₁ = .ok ((), t)) := by
  unfold transaction
  rw [Edit.bind_ok]
  constructor
  · rintro ⟨⟨r, J⟩, s₁, hrun, hrest⟩
    refine ⟨r, J, s₁, hrun, ?_⟩
    cases r with
    | error e =>
      simp only [Edit.bind_ok, Edit.pure_run] at hrest
      obtain ⟨_, _, hback, h⟩ := hrest
      cases h
      exact .inl ⟨by rintro _ ⟨⟩, hback, rfl⟩
    | ok c =>
      cases c with
      | none =>
        simp only [Edit.bind_ok, Edit.pure_run] at hrest
        obtain ⟨_, _, hback, h⟩ := hrest
        cases h
        exact .inl ⟨by rintro _ ⟨⟩; rfl, hback, rfl⟩
      | _ =>
        simp only [Edit.bind_ok, Edit.pure_run] at hrest
        obtain ⟨_, _, hcommit, h⟩ := hrest
        cases h
        exact .inr ⟨rfl, by rintro ⟨⟩, hcommit⟩
  · rintro ⟨r, J, s₁, hrun, ⟨hnone, hback, rfl⟩ | ⟨rfl, hchange, hcommit⟩⟩
    · refine ⟨(r, J), s₁, hrun, ?_⟩
      cases r with
      | error e => exact Edit.bind_ok.2 ⟨(), t, hback, rfl⟩
      | ok c =>
        cases hnone c rfl
        exact Edit.bind_ok.2 ⟨(), t, hback, rfl⟩
    · refine ⟨(.ok change, J), s₁, hrun, ?_⟩
      cases change with
      | none => exact absurd rfl hchange
      | _ => exact Edit.bind_ok.2 ⟨(), t, hcommit, rfl⟩

/-- A transaction that asks for nothing was rolled back. -/
theorem transaction_none : transaction body s = .ok (.none, t) ↔
    ∃ r J s₁, body [] s = .ok ((r, J), s₁) ∧ (∀ c, r = .ok c → c = .none) ∧
      Journal.rollback J s₁ = .ok ((), t) := by
  rw [transaction_ok]
  constructor
  · rintro ⟨r, J, s₁, hrun, ⟨hnone, hback, _⟩ | ⟨_, hne, _⟩⟩
    · exact ⟨r, J, s₁, hrun, hnone, hback⟩
    · exact absurd rfl hne
  · rintro ⟨r, J, s₁, hrun, hnone, hback⟩
    exact ⟨r, J, s₁, hrun, .inl ⟨hnone, hback, rfl⟩⟩

end Transactions

end AffineRaising.Raise
