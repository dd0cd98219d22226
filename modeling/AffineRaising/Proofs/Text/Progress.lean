/-
# AffineRaising.Proofs.Text.Progress — how far readers get.

`ReadsAtLeast k p` says that `p` reads at least `k` characters wherever it succeeds, and
`AgreeUpTo n p q` that `p` and `q` do the same with every text of at most `n` characters.  Both have
one law for each combinator.  What comes after a part that reads a character is given a shorter
text, so there two readers have to agree on shorter texts only: this is how readers with different
bounds on nesting are compared.  Loops that read a character in every round end before their bound,
so what they read can be said without it (`LoopReads`).

The laws are stated with `k` and `n` as parameters and not for one character, so that loops are
covered by the same statements: the bound on a loop is a number of rounds, and a round that reads a
character leaves a text for which one round less is enough.
-/
import AffineRaising.Proofs.Text.Yield

namespace AffineRaising.Text.Reader

variable {α β : Type} {p p' q q' : Reader α} {f g : α → Reader β} {j k m n : Nat}
  {separator : Reader Unit} {operator : Reader (Option (α → α → α))} {continues : Reader Bool}

/-! ## Characters that are read -/

/-- Where the reader succeeds it has read at least `k` characters. -/
def ReadsAtLeast (k : Nat) (p : Reader α) : Prop :=
  ∀ ⦃s : List Char⦄ ⦃a : α⦄ ⦃rest : List Char⦄, p s = .ok a rest → rest.length + k ≤ s.length

namespace ReadsAtLeast

theorem mono (h : ReadsAtLeast k p) (hjk : j ≤ k) : ReadsAtLeast j p := by
  intro s a rest hread
  have := h hread
  omega

theorem zero (h : ReadsAtLeast k p) : ReadsAtLeast 0 p :=
  h.mono (Nat.zero_le k)

theorem pure (a : α) : ReadsAtLeast 0 (Pure.pure a : Reader α) := by
  intro s a' rest hread
  cases hread
  exact Nat.le_refl _

theorem fail : ReadsAtLeast k (Reader.fail : Reader α) := by
  intro s a rest hread
  cases hread

theorem ofOption (o : Option α) : ReadsAtLeast 0 (ofOption o) := by
  cases o with
  | none => exact fail
  | some a => exact pure a

/-- The first part of a sequence reads enough. -/
theorem first (hp : ReadsAtLeast k p) (hf : ∀ a, ReadsAtLeast 0 (f a)) :
    ReadsAtLeast k (p >>= f) := by
  intro s b rest hread
  obtain ⟨a, r, ha, hb⟩ := bind_eq_ok.1 hread
  have hfront := hp ha
  have hback := hf a hb
  omega

/-- What comes after the first part of a sequence reads enough. -/
theorem later (hp : ReadsAtLeast 0 p) (hf : ∀ a, ReadsAtLeast k (f a)) :
    ReadsAtLeast k (p >>= f) := by
  intro s b rest hread
  obtain ⟨a, r, ha, hb⟩ := bind_eq_ok.1 hread
  have hfront := hp ha
  have hback := hf a hb
  omega

theorem ite {c : Prop} [Decidable c] (hp : ReadsAtLeast k p) (hq : ReadsAtLeast k q) :
    ReadsAtLeast k (if c then p else q) := by
  split
  · exact hp
  · exact hq

theorem orElse (hp : ReadsAtLeast k p) (hq : ReadsAtLeast k q) : ReadsAtLeast k (orElse p q) := by
  intro s a rest hread
  rcases orElse_eq_ok.1 hread with h | ⟨-, h⟩
  · exact hp h
  · exact hq h

theorem optional (hp : ReadsAtLeast 0 p) : ReadsAtLeast 0 (optional p) := by
  intro s o rest hread
  rcases optional_eq_ok.1 hread with ⟨a, ha, -⟩ | ⟨-, -, rfl⟩
  · exact hp ha
  · exact Nat.le_refl _

/-- Where a part is missing, what is read in its place reads enough. -/
theorem optional_bind {f : Option α → Reader β} (hp : ReadsAtLeast k p)
    (hsome : ∀ a, ReadsAtLeast 0 (f (some a))) (hnone : ReadsAtLeast k (f none)) :
    ReadsAtLeast k (Reader.optional p >>= f) := by
  intro s b rest hread
  obtain ⟨o, r, ho, hb⟩ := bind_eq_ok.1 hread
  rcases optional_eq_ok.1 ho with ⟨a, ha, rfl⟩ | ⟨-, rfl, rfl⟩
  · have hfront := hp ha
    have hback := hsome a hb
    omega
  · exact hnone hb

theorem nextIs (test : Char → Bool) : ReadsAtLeast 0 (nextIs test) := by
  intro s b rest hread
  cases s with
  | nil => cases hread; exact Nat.le_refl _
  | cons c s => cases hread; exact Nat.le_refl _

theorem satisfy (test : Char → Bool) : ReadsAtLeast 1 (satisfy test) := by
  intro s c rest hread
  cases s with
  | nil => cases hread
  | cons d s =>
    have hread : (if test d then Reply.ok d s else .fail (d :: s)) = .ok c rest := hread
    split at hread
    · cases hread
      exact Nat.le_refl _
    · cases hread

theorem char (c : Char) : ReadsAtLeast 1 (char c) := by
  intro s u rest hread
  cases s with
  | nil => cases hread
  | cons d s =>
    have hread : (if d = c then Reply.ok () s else .fail (d :: s)) = .ok u rest := hread
    split at hread
    · cases hread
      exact Nat.le_refl _
    · cases hread

theorem literal (text : String) : ReadsAtLeast 0 (literal text) := by
  have hafter : ∀ (w s rest : List Char), afterLiteral? w s = some rest →
      rest.length ≤ s.length := by
    intro w
    induction w with
    | nil =>
      intro s rest h
      cases h
      exact Nat.le_refl _
    | cons c w ih =>
      intro s rest h
      cases s with
      | nil => cases h
      | cons d s =>
        unfold afterLiteral? at h
        split at h
        · exact Nat.le_succ_of_le (ih s rest h)
        · cases h
  intro s u rest hread
  unfold Reader.literal at hread
  split at hread
  · rename_i r h
    cases hread
    exact hafter _ s _ h
  · cases hread

theorem takeWhile (test : Char → Bool) : ReadsAtLeast 0 (takeWhile test) := by
  intro s cs rest hread
  cases hread
  exact (List.dropWhile_sublist test).length_le

theorem takeWhile1 (test : Char → Bool) : ReadsAtLeast 1 (takeWhile1 test) := by
  intro s cs rest hread
  have hsplit := congrArg List.length (List.takeWhile_append_dropWhile (p := test) (l := s))
  unfold Reader.takeWhile1 at hread
  split at hread
  · cases hread
  · rename_i hne
    cases hread
    have hpos := List.length_pos_iff.2 hne
    rw [List.length_append] at hsplit
    omega

/-! ### Loops -/

/-- By induction on the bound of the loop, nothing is read twice. -/
theorem moreItems (hseparator : ReadsAtLeast 0 separator) (hp : ReadsAtLeast 0 p) (fuel : Nat) :
    ∀ s, (Reader.moreItems p separator fuel s).2.length ≤ s.length := by
  induction fuel with
  | zero => exact fun s => Nat.le_refl _
  | succ fuel ih =>
    intro s
    unfold Reader.moreItems
    split
    · exact Nat.le_refl _
    · rename_i a rest hread
      have hnext := hseparator.later (fun _ => hp) hread
      exact Nat.le_trans (ih rest) hnext

/-- A list reads at least what its first item reads. -/
theorem separated1 (hseparator : ReadsAtLeast 0 separator) (hp : ReadsAtLeast k p) :
    ReadsAtLeast k (separated1 p separator) := by
  intro s as rest hread
  unfold Reader.separated1 at hread
  split at hread
  · cases hread
  · rename_i a r ha
    cases hread
    have hitem := hp ha
    have hmore := moreItems hseparator hp.zero r.length r
    omega

theorem separated (hseparator : ReadsAtLeast 0 separator) (hp : ReadsAtLeast 0 p) :
    ReadsAtLeast 0 (separated p separator) := by
  intro s as rest hread
  unfold Reader.separated at hread
  split at hread
  · rename_i as' r hread'
    cases hread
    exact separated1 hseparator hp hread'
  · cases hread
    exact Nat.le_refl _

theorem repeatWhileFuel (hcontinues : ReadsAtLeast 0 continues) (hp : ReadsAtLeast 0 p) :
    ∀ fuel, ReadsAtLeast 0 (repeatWhileFuel continues p fuel) := by
  intro fuel
  induction fuel with
  | zero => exact fail
  | succ fuel ih =>
    exact hcontinues.later fun _ => ite (hp.later fun _ => ih.later fun _ => pure _) (pure [])

theorem repeatWhile (hcontinues : ReadsAtLeast 0 continues) (hp : ReadsAtLeast 0 p) :
    ReadsAtLeast 0 (repeatWhile continues p) :=
  fun _ _ _ hread => repeatWhileFuel hcontinues hp _ hread

theorem chainFuel (hoperator : ReadsAtLeast 0 operator) (hp : ReadsAtLeast 0 p) (fuel : Nat) :
    ∀ acc, ReadsAtLeast 0 (chainFuel operator p fuel acc) := by
  induction fuel with
  | zero => exact fun acc => fail
  | succ fuel ih =>
    intro acc
    refine hoperator.later fun o => ?_
    cases o with
    | none => exact pure acc
    | some combine => exact hp.later fun b => ih _

/-- A chain reads at least what its first operand reads. -/
theorem chain (hoperator : ReadsAtLeast 0 operator) (hp : ReadsAtLeast k p) :
    ReadsAtLeast k (chain operator p) :=
  hp.first fun _ _ _ _ hread => chainFuel hoperator hp.zero _ _ hread

end ReadsAtLeast

/-! ## Agreement on short texts -/

/-- Two readers do the same with every text of at most `n` characters. -/
def AgreeUpTo (n : Nat) (p q : Reader α) : Prop :=
  ∀ ⦃s : List Char⦄, s.length ≤ n → p s = q s

namespace AgreeUpTo

theorem refl (p : Reader α) : AgreeUpTo n p p :=
  fun _ _ => rfl

theorem mono (h : AgreeUpTo n p q) (hmn : m ≤ n) : AgreeUpTo m p q :=
  fun _ hs => h (Nat.le_trans hs hmn)

/-- Readers that agree part by part agree. -/
theorem bind (h : AgreeUpTo n p q) (hp : ReadsAtLeast 0 p) (hf : ∀ a, AgreeUpTo n (f a) (g a)) :
    AgreeUpTo n (p >>= f) (q >>= g) := by
  intro s hs
  show Reader.bind p f s = Reader.bind q g s
  unfold Reader.bind
  rw [← h hs]
  cases hread : p s with
  | fail rest => rfl
  | ok a rest => exact hf a (Nat.le_trans (hp hread) hs)

/-- Behind a part that reads a character, shorter texts are enough. -/
theorem next (hp : ReadsAtLeast 1 p) (hf : ∀ a, ∀ m < n, AgreeUpTo m (f a) (g a)) :
    AgreeUpTo n (p >>= f) (p >>= g) := by
  intro s hs
  show Reader.bind p f s = Reader.bind p g s
  unfold Reader.bind
  cases hread : p s with
  | fail rest => rfl
  | ok a rest =>
    have hshorter := hp hread
    exact hf a rest.length (by omega) (Nat.le_refl _)

/-- Behind a part that is there, shorter texts are enough. -/
theorem optional_bind {f g : Option α → Reader β} (hp : ReadsAtLeast 1 p)
    (hsome : ∀ a, ∀ m < n, AgreeUpTo m (f (some a)) (g (some a)))
    (hnone : AgreeUpTo n (f none) (g none)) :
    AgreeUpTo n (Reader.optional p >>= f) (Reader.optional p >>= g) := by
  intro s hs
  show Reader.bind _ f s = Reader.bind _ g s
  unfold Reader.bind Reader.optional
  cases hread : p s with
  | fail rest => exact hnone hs
  | ok a rest =>
    have hshorter := hp hread
    exact hsome a rest.length (by omega) (Nat.le_refl _)

theorem ite {c : Prop} [Decidable c] (h : AgreeUpTo n p q) (h' : AgreeUpTo n p' q') :
    AgreeUpTo n (if c then p else p') (if c then q else q') := by
  split
  · exact h
  · exact h'

theorem orElse (h : AgreeUpTo n p q) (h' : AgreeUpTo n p' q') :
    AgreeUpTo n (orElse p p') (orElse q q') := by
  intro s hs
  unfold Reader.orElse
  rw [h hs, h' hs]

theorem optional (h : AgreeUpTo n p q) : AgreeUpTo n (optional p) (optional q) := by
  intro s hs
  unfold Reader.optional
  rw [h hs]

/-! ### Loops -/

theorem moreItems (h : AgreeUpTo n p q) (hseparator : ReadsAtLeast 0 separator)
    (hp : ReadsAtLeast 0 p) (fuel : Nat) : ∀ s : List Char, s.length ≤ n →
      Reader.moreItems p separator fuel s = Reader.moreItems q separator fuel s := by
  induction fuel with
  | zero => exact fun s _ => rfl
  | succ fuel ih =>
    intro s hs
    have hnext : AgreeUpTo n (do separator; p) (do separator; q) :=
      (refl separator).bind hseparator fun _ => h
    unfold Reader.moreItems
    rw [← hnext hs]
    split
    · rfl
    · rename_i a rest hread
      have hrest := hseparator.later (fun _ => hp) hread
      rw [ih rest (Nat.le_trans hrest hs)]

theorem separated1 (h : AgreeUpTo n p q) (hseparator : ReadsAtLeast 0 separator)
    (hp : ReadsAtLeast 0 p) : AgreeUpTo n (separated1 p separator) (separated1 q separator) := by
  intro s hs
  unfold Reader.separated1
  rw [← h hs]
  split
  · rfl
  · rename_i a rest hread
    rw [moreItems h hseparator hp rest.length rest (Nat.le_trans (hp hread) hs)]

theorem separated (h : AgreeUpTo n p q) (hseparator : ReadsAtLeast 0 separator)
    (hp : ReadsAtLeast 0 p) : AgreeUpTo n (separated p separator) (separated q separator) := by
  intro s hs
  unfold Reader.separated
  rw [h.separated1 hseparator hp hs]

theorem repeatWhileFuel (h : AgreeUpTo n p q) (hcontinues : ReadsAtLeast 0 continues)
    (hp : ReadsAtLeast 0 p) (fuel : Nat) :
    AgreeUpTo n (repeatWhileFuel continues p fuel) (repeatWhileFuel continues q fuel) := by
  induction fuel with
  | zero => exact refl _
  | succ fuel ih =>
    refine (refl continues).bind hcontinues fun _ => .ite (h.bind hp fun a => ?_) (refl _)
    exact ih.bind (.repeatWhileFuel hcontinues hp fuel) fun _ => refl _

theorem repeatWhile (h : AgreeUpTo n p q) (hcontinues : ReadsAtLeast 0 continues)
    (hp : ReadsAtLeast 0 p) : AgreeUpTo n (repeatWhile continues p) (repeatWhile continues q) :=
  fun _ hs => h.repeatWhileFuel hcontinues hp _ hs

theorem chainFuel (h : AgreeUpTo n p q) (hoperator : ReadsAtLeast 0 operator)
    (hp : ReadsAtLeast 0 p) (fuel : Nat) :
    ∀ acc, AgreeUpTo n (chainFuel operator p fuel acc) (chainFuel operator q fuel acc) := by
  induction fuel with
  | zero => exact fun acc => refl _
  | succ fuel ih =>
    intro acc
    refine (refl operator).bind hoperator fun o => ?_
    cases o with
    | none => exact refl _
    | some combine => exact h.bind hp fun b => ih _

theorem chain (h : AgreeUpTo n p q) (hoperator : ReadsAtLeast 0 operator)
    (hp : ReadsAtLeast 0 p) : AgreeUpTo n (chain operator p) (chain operator q) :=
  h.bind hp fun _ _ hs => h.chainFuel hoperator hp _ _ hs

end AgreeUpTo

/-! ## Bounds on loops -/

/-- A list whose separators read characters ends before its bound. -/
theorem moreItems_stable (hseparator : ReadsAtLeast 1 separator) (hp : ReadsAtLeast 0 p) :
    ∀ (m n : Nat) (s : List Char), s.length ≤ m → s.length ≤ n →
      moreItems p separator m s = moreItems p separator n s := by
  have hnext : ReadsAtLeast 1 (do separator; p) := hseparator.first fun _ => hp
  have hempty : ∀ fuel, moreItems p separator fuel [] = ([], []) := by
    intro fuel
    cases fuel with
    | zero => rfl
    | succ fuel =>
      unfold moreItems
      split
      · rfl
      · rename_i a rest hread
        have := hnext hread
        rw [List.length_nil] at this
        omega
  intro m
  induction m with
  | zero =>
    intro n s hm _
    cases List.length_eq_zero_iff.1 (Nat.le_zero.1 hm)
    rw [hempty, hempty]
  | succ m ih =>
    intro n s hm hn
    cases n with
    | zero =>
      cases List.length_eq_zero_iff.1 (Nat.le_zero.1 hn)
      rw [hempty, hempty]
    | succ n =>
      unfold moreItems
      split
      · rfl
      · rename_i a rest hread
        have := hnext hread
        rw [ih n rest (by omega) (by omega)]

/-- A repetition whose items read characters ends before its bound. -/
theorem repeatWhileFuel_stable (hcontinues : ReadsAtLeast 0 continues) (hp : ReadsAtLeast 1 p)
    (k : Nat) : ∀ m n, k < m → k < n →
      AgreeUpTo k (repeatWhileFuel continues p m) (repeatWhileFuel continues p n) := by
  induction k using Nat.strongRecOn with
  | ind k ih =>
    intro m n hm hn
    obtain ⟨m, rfl⟩ : ∃ m', m = m' + 1 := ⟨m - 1, by omega⟩
    obtain ⟨n, rfl⟩ : ∃ n', n = n' + 1 := ⟨n - 1, by omega⟩
    refine (AgreeUpTo.refl continues).bind hcontinues fun _ => .ite (.next hp fun a j hj => ?_)
      (.refl _)
    have hrest := ih j hj m n (by omega) (by omega)
    exact hrest.bind (.repeatWhileFuel hcontinues hp.zero m) fun _ => .refl _

/-- A chain whose operands read characters ends before its bound. -/
theorem chainFuel_stable (hoperator : ReadsAtLeast 0 operator) (hp : ReadsAtLeast 1 p)
    (k : Nat) : ∀ m n acc, k < m → k < n →
      AgreeUpTo k (chainFuel operator p m acc) (chainFuel operator p n acc) := by
  induction k using Nat.strongRecOn with
  | ind k ih =>
    intro m n acc hm hn
    obtain ⟨m, rfl⟩ : ∃ m', m = m' + 1 := ⟨m - 1, by omega⟩
    obtain ⟨n, rfl⟩ : ∃ n', n = n' + 1 := ⟨n - 1, by omega⟩
    refine (AgreeUpTo.refl operator).bind hoperator fun o => ?_
    cases o with
    | none => exact .refl _
    | some combine => exact .next hp fun b j hj => ih j hj m n _ (by omega) (by omega)

/-! ## Repetitions -/

/-- What a repetition reads: an item wherever its condition holds, up to where it does not. -/
inductive LoopReads (continues : Reader Bool) (p : Reader α) :
    List Char → List α → List Char → Prop where
  | stop {s rest : List Char} : continues s = .ok false rest → LoopReads continues p s [] rest
  | step {a : α} {as : List α} {s s₁ s₂ rest : List Char} : continues s = .ok true s₁ →
      p s₁ = .ok a s₂ → LoopReads continues p s₂ as rest → LoopReads continues p s (a :: as) rest

/-- By induction on the items: every one of them reads a character, so the bound is not reached. -/
theorem repeatWhile_reads (hcontinues : ReadsAtLeast 0 continues) (hp : ReadsAtLeast 1 p)
    {s rest : List Char} {as : List α} (h : LoopReads continues p s as rest) :
    repeatWhile continues p s = .ok as rest := by
  have hfuel : ∀ fuel, s.length < fuel → repeatWhileFuel continues p fuel s = .ok as rest := by
    induction h with
    | stop hstop =>
      intro fuel hfuel
      obtain ⟨n, rfl⟩ : ∃ n, fuel = n + 1 := ⟨fuel - 1, by omega⟩
      exact bind_eq_ok.2 ⟨false, _, hstop, rfl⟩
    | step hgo ha _ ih =>
      intro fuel hfuel
      obtain ⟨n, rfl⟩ : ∃ n, fuel = n + 1 := ⟨fuel - 1, by omega⟩
      have hfront := hcontinues hgo
      have hitem := hp ha
      refine bind_eq_ok.2 ⟨true, _, hgo, bind_eq_ok.2 ⟨_, _, ha, ?_⟩⟩
      exact bind_eq_ok.2 ⟨_, _, ih n (by omega), rfl⟩
  exact hfuel _ (Nat.lt_succ_self _)

end AffineRaising.Text.Reader
