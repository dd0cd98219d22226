/-
# AffineRaising.Proofs.Text.Yield — what readers can yield.

`Yields p P` says that whatever text `p` reads, what it makes of it satisfies `P`.  One law for each
combinator: the property of the whole follows from the properties of the parts, the loops included.

The converse, which texts a reader accepts, is a matter of `Text.Reading`; here the text is
arbitrary.  This is what the shape of parsed types and attributes rests on, and that parsed
expressions are canonical: the constructors in the grammar keep the property, and no token has to be
looked at.
-/
import AffineRaising.Text.Reader

namespace AffineRaising.Text.Reader

variable {α β : Type} {p q : Reader α} {f : α → Reader β} {P P' : α → Prop} {Q : β → Prop}

/-- Whatever a reader yields has a property. -/
def Yields (p : Reader α) (P : α → Prop) : Prop :=
  ∀ ⦃s : List Char⦄ ⦃a : α⦄ ⦃rest : List Char⦄, p s = .ok a rest → P a

/-! ## Sequences and choices -/

/-- What a sequence reads, its parts read one after the other. -/
theorem bind_eq_ok {s rest : List Char} {b : β} :
    (p >>= f) s = .ok b rest ↔ ∃ a r, p s = .ok a r ∧ f a r = .ok b rest := by
  show Reader.bind p f s = .ok b rest ↔ _
  unfold Reader.bind
  cases p s with
  | ok a r => exact ⟨fun h => ⟨a, r, rfl, h⟩, by rintro ⟨_, _, h, hf⟩; cases h; exact hf⟩
  | fail r => simp

/-- A choice reads what the first alternative reads, or what the second one reads where the first
one fails. -/
theorem orElse_eq_ok {s rest : List Char} {a : α} : orElse p q s = .ok a rest ↔
    p s = .ok a rest ∨ (∃ r, p s = .fail r) ∧ q s = .ok a rest := by
  unfold orElse
  cases p s with
  | ok a r => simp
  | fail r => simp

/-- An optional part is there, or it fails and nothing is read. -/
theorem optional_eq_ok {s rest : List Char} {o : Option α} : optional p s = .ok o rest ↔
    (∃ a, p s = .ok a rest ∧ o = some a) ∨ (∃ r, p s = .fail r) ∧ o = none ∧ rest = s := by
  unfold optional
  cases p s with
  | ok a r =>
    constructor
    · intro h
      cases h
      exact .inl ⟨a, rfl, rfl⟩
    · rintro (⟨b, h, rfl⟩ | ⟨⟨_, h⟩, -⟩)
      · cases h
        rfl
      · cases h
  | fail r => simp [eq_comm]

namespace Yields

theorem any (p : Reader α) : Yields p fun _ => True :=
  fun _ _ _ _ => trivial

theorem mono (h : Yields p P) (himp : ∀ a, P a → P' a) : Yields p P' :=
  fun _ _ _ hread => himp _ (h hread)

theorem pure {a : α} (h : P a) : Yields (Pure.pure a : Reader α) P := by
  intro s a' rest hread
  cases hread
  exact h

theorem fail : Yields (Reader.fail : Reader α) P := by
  intro s a rest hread
  cases hread

theorem ofOption {o : Option α} (h : ∀ a, o = some a → P a) : Yields (ofOption o) P := by
  cases o with
  | none => exact fail
  | some a => exact pure (h a rfl)

/-- The property of the whole follows for every value that the first part may yield. -/
theorem bind (hp : Yields p P) (hf : ∀ a, P a → Yields (f a) Q) : Yields (p >>= f) Q := by
  intro s b rest hread
  obtain ⟨a, r, ha, hb⟩ := bind_eq_ok.1 hread
  exact hf a (hp ha) hb

/-- A part whose value does not matter may come first. -/
theorem skip (hf : ∀ a, Yields (f a) Q) : Yields (p >>= f) Q :=
  (any p).bind fun a _ => hf a

theorem ite {c : Prop} [Decidable c] (hp : Yields p P) (hq : Yields q P) :
    Yields (if c then p else q) P := by
  split
  · exact hp
  · exact hq

theorem orElse (hp : Yields p P) (hq : Yields q P) : Yields (orElse p q) P := by
  intro s a rest hread
  rcases orElse_eq_ok.1 hread with h | ⟨-, h⟩
  · exact hp h
  · exact hq h

/-- Nothing is claimed of a part that is missing. -/
theorem optional (hp : Yields p P) : Yields (optional p) fun o => ∀ a, o = some a → P a := by
  intro s o rest hread a ho
  rcases optional_eq_ok.1 hread with ⟨b, hb, rfl⟩ | ⟨-, rfl, -⟩
  · cases ho
    exact hp hb
  · cases ho

/-! ## Loops -/

variable {separator : Reader Unit} {operator : Reader (Option (α → α → α))}

/-- By induction on the bound of the loop, all items have the property. -/
theorem moreItems (hp : Yields p P) (fuel : Nat) :
    ∀ s, ∀ a ∈ (Reader.moreItems p separator fuel s).1, P a := by
  induction fuel with
  | zero => exact fun s a ha => by cases ha
  | succ fuel ih =>
    intro s a ha
    unfold Reader.moreItems at ha
    split at ha
    · cases ha
    · rename_i b rest hread
      rcases List.mem_cons.1 ha with rfl | ha
      · exact skip (fun _ => hp) hread
      · exact ih rest a ha

theorem separated1 (hp : Yields p P) : Yields (separated1 p separator) fun as => ∀ a ∈ as, P a := by
  intro s as rest hread a ha
  unfold Reader.separated1 at hread
  split at hread
  · cases hread
  · rename_i b r hb
    cases hread
    rcases List.mem_cons.1 ha with rfl | ha
    · exact hp hb
    · exact moreItems hp _ _ a ha

theorem separated (hp : Yields p P) : Yields (separated p separator) fun as => ∀ a ∈ as, P a := by
  intro s as rest hread
  unfold Reader.separated at hread
  split at hread
  · rename_i as' r hread'
    cases hread
    exact separated1 hp hread'
  · cases hread
    exact fun a ha => by cases ha

/-- What is accumulated keeps the property if the operators do. -/
theorem chainFuel (hoperator : Yields operator fun o => ∀ combine, o = some combine →
      ∀ a b, P a → P b → P (combine a b)) (hp : Yields p P) (fuel : Nat) :
    ∀ acc, P acc → Yields (Reader.chainFuel operator p fuel acc) P := by
  induction fuel with
  | zero => exact fun acc _ => fail
  | succ fuel ih =>
    intro acc hacc
    refine hoperator.bind fun o ho => ?_
    cases o with
    | none => exact pure hacc
    | some combine => exact hp.bind fun b hb => ih _ (ho combine rfl acc b hacc hb)

theorem chain (hoperator : Yields operator fun o => ∀ combine, o = some combine →
      ∀ a b, P a → P b → P (combine a b)) (hp : Yields p P) :
    Yields (chain operator p) P :=
  hp.bind fun _ ha _ _ _ hread => chainFuel hoperator hp _ _ ha hread

end Yields

end AffineRaising.Text.Reader
