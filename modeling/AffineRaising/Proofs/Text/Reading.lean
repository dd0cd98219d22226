/-
# AffineRaising.Proofs.Text.Reading — what the reader combinators read.

One law for each combinator.  The two loops, left-associative chains and separated lists, are
bounded by a number of characters; `ChainReads` and `ItemsRead` say what they read one step at a
time, and a run that is long enough for the text finds exactly that.

A reader is a function on the characters that are left, with replies `ok` and `fail`; a failure
keeps the place where it happened, but a choice goes back to where it started.  The laws are
equations of replies for given texts, to be used from left to right on a concrete text: each part is
known to read its own text and to leave the rest.
-/
import AffineRaising.Text.Reader

namespace AffineRaising.Text.Reader

variable {α β : Type} {p : Reader α} {f : α → Reader β} {a : α} {s r rest : List Char}

/-! ## Sequences and options -/

theorem bind_ok (h : p s = .ok a rest) : (p >>= f) s = f a rest := by
  show Reader.bind p f s = f a rest
  unfold Reader.bind
  rw [h]

theorem bind_fail (h : p s = .fail rest) : (p >>= f) s = .fail rest := by
  show Reader.bind p f s = .fail rest
  unfold Reader.bind
  rw [h]

theorem optional_ok (h : p s = .ok a rest) : optional p s = .ok (some a) rest := by
  unfold optional
  rw [h]

theorem optional_fail (h : p s = .fail rest) : optional p s = .ok none s := by
  unfold optional
  rw [h]

/-- A reader finds nothing it can read. -/
def Fails (p : Reader α) (s : List Char) : Prop :=
  ∃ rest, p s = .fail rest

/-- A sequence fails where its first part fails. -/
theorem Fails.bind (h : Fails p s) (f : α → Reader β) : Fails (p >>= f) s := by
  obtain ⟨rest, h⟩ := h
  exact ⟨rest, bind_fail h⟩

/-- A sequence fails where its second part fails behind the first one. -/
theorem Fails.after {q : Reader β} {f : β → Reader α} {b : β} (hq : q s = .ok b rest)
    (h : Fails (f b) rest) : Fails (q >>= f) s := by
  obtain ⟨r, h⟩ := h
  exact ⟨r, (bind_ok hq).trans h⟩

/-- A choice is its second alternative where the first one fails. -/
theorem Fails.orElse_eq (h : Fails p s) (q : Reader α) : orElse p q s = q s := by
  obtain ⟨rest, h⟩ := h
  unfold orElse
  rw [h]

theorem orElse_ok (h : p s = .ok a rest) (q : Reader α) : orElse p q s = .ok a rest := by
  unfold orElse
  rw [h]

/-! ## Given text -/

theorem char_self (c : Char) (s : List Char) : char c (c :: s) = .ok () s := by
  simp [char]

theorem char_other {c d : Char} (h : d ≠ c) (s : List Char) :
    char c (d :: s) = .fail (d :: s) := by
  simp [char, h]

theorem char_fails {c : Char} (h : s.head? ≠ some c) : Fails (char c) s := by
  cases s with
  | nil => exact ⟨_, rfl⟩
  | cons d s => exact ⟨_, char_other (fun heq => h (congrArg some heq)) s⟩

theorem nextIs_other {c : Char} (h : s.head? ≠ some c) : nextIs (· == c) s = .ok false s := by
  cases s with
  | nil => rfl
  | cons d s =>
    have hne : (d == c) = false := beq_eq_false_iff_ne.2 fun heq => h (congrArg some heq)
    simp only [nextIs, hne]

theorem nextIs_self (c : Char) (s : List Char) : nextIs (· == c) (c :: s) = .ok true (c :: s) := by
  simp [nextIs]

theorem afterLiteral?_append (cs s : List Char) : afterLiteral? cs (cs ++ s) = some s := by
  induction cs with
  | nil => rfl
  | cons c cs ih => simp [afterLiteral?, ih]

/-- Given text is read where it is next. -/
theorem literal_self (text : String) (s : List Char) :
    literal text (text.toList ++ s) = .ok () s := by
  unfold literal
  rw [afterLiteral?_append]

/-- What is left behind given text is the rest. -/
theorem eq_of_afterLiteral? : ∀ {cs s r : List Char}, afterLiteral? cs s = some r → s = cs ++ r
  | [], _, _, h => Option.some.inj h
  | _ :: _, [], _, h => by cases h
  | c :: cs, d :: s, r, h => by
    unfold afterLiteral? at h
    split at h
    · rename_i heq
      rw [heq, eq_of_afterLiteral? h, List.cons_append]
    · cases h

/-- Given text is missing where it is not next. -/
theorem literal_fails {text : String} (h : ¬ text.toList <+: s) : Fails (literal text) s := by
  cases hafter : afterLiteral? text.toList s with
  | none =>
    refine ⟨s, ?_⟩
    unfold literal
    rw [hafter]
  | some r => exact absurd ⟨r, (eq_of_afterLiteral? hafter).symm⟩ h

/-- A run of characters is read up to where it stops. -/
theorem takeWhile_run {test : Char → Bool} {run : List Char} (hrun : ∀ c ∈ run, test c = true)
    (hnext : ∀ c, rest.head? = some c → test c = false) :
    takeWhile test (run ++ rest) = .ok run rest := by
  have hstop : rest.takeWhile test = [] ∧ rest.dropWhile test = rest := by
    cases rest with
    | nil => exact ⟨rfl, rfl⟩
    | cons c rest => simp [hnext c rfl]
  unfold takeWhile
  rw [List.takeWhile_append_of_pos hrun, List.dropWhile_append_of_pos hrun, hstop.1, hstop.2,
    List.append_nil]

/-- So is a run that is not empty, where one character at least is asked for. -/
theorem takeWhile1_run {test : Char → Bool} {run : List Char} (hne : run ≠ [])
    (hrun : ∀ c ∈ run, test c = true) (hnext : ∀ c, rest.head? = some c → test c = false) :
    takeWhile1 test (run ++ rest) = .ok run rest := by
  have htake := takeWhile_run hrun hnext
  unfold takeWhile at htake
  injection htake with htake hdrop
  unfold takeWhile1
  rw [htake, hdrop]
  cases run with
  | nil => exact absurd rfl hne
  | cons c run => rfl

theorem takeWhile1_fail {test : Char → Bool} {c : Char} (hc : test c = false) (s : List Char) :
    takeWhile1 test (c :: s) = .fail (c :: s) := by
  simp [takeWhile1, hc]

/-! ## Chains -/

/-- From an accumulated value on, the operators and operands of a text give a value. -/
inductive ChainReads (operator : Reader (Option (α → α → α))) (operand : Reader α) :
    α → List Char → α → List Char → Prop where
  | done {acc : α} {s rest : List Char} : operator s = .ok none rest →
      ChainReads operator operand acc s acc rest
  | step {acc b v : α} {combine : α → α → α} {s s₁ s₂ rest : List Char} :
      operator s = .ok (some combine) s₁ → operand s₁ = .ok b s₂ → s₂.length < s.length →
      ChainReads operator operand (combine acc b) s₂ v rest →
      ChainReads operator operand acc s v rest

variable {operator : Reader (Option (α → α → α))} {operand : Reader α} {acc v : α}

/-- By induction on what is read; a bound above the number of characters is enough, as every operand
reads one. -/
theorem chainFuel_reads (h : ChainReads operator operand acc s v rest) :
    ∀ fuel, s.length < fuel → chainFuel operator operand fuel acc s = .ok v rest := by
  induction h with
  | done hop =>
    intro fuel hfuel
    obtain ⟨n, rfl⟩ : ∃ n, fuel = n + 1 := ⟨fuel - 1, by omega⟩
    rw [chainFuel, bind_ok hop]
    rfl
  | step hop hb hlen _ ih =>
    intro fuel hfuel
    obtain ⟨n, rfl⟩ : ∃ n, fuel = n + 1 := ⟨fuel - 1, by omega⟩
    rw [chainFuel, bind_ok hop]
    show (operand >>= fun b => chainFuel operator operand n _) _ = _
    rw [bind_ok hb]
    exact ih n (by omega)

/-- A chain reads its first operand, and then goes on from it. -/
theorem chain_reads (ha : operand s = .ok a r) (h : ChainReads operator operand a r v rest) :
    chain operator operand s = .ok v rest := by
  refine (bind_ok ha).trans ?_
  exact chainFuel_reads h (r.length + 1) (Nat.lt_succ_self _)

/-- A chain starts with what its first operand makes of the text. -/
theorem chain_congr (h : operand s = operand r) :
    chain operator operand s = chain operator operand r := by
  show Reader.bind operand _ s = Reader.bind operand _ r
  unfold Reader.bind
  rw [h]

/-! ## Separated lists -/

/-- The items that `next`, a separator and an item, finds in a text one after the other. -/
inductive ItemsRead (next : Reader α) : List Char → List α → List Char → Prop where
  | done {s r : List Char} : next s = .fail r → ItemsRead next s [] s
  | step {a : α} {as : List α} {s s₁ rest : List Char} : next s = .ok a s₁ →
      s₁.length < s.length → ItemsRead next s₁ as rest → ItemsRead next s (a :: as) rest

variable {item : Reader α} {separator : Reader Unit} {as : List α}

/-- By induction on the items; a bound of the number of characters is enough, as every item reads
one. -/
theorem moreItems_reads (h : ItemsRead (do separator; item) s as rest) :
    ∀ fuel, s.length ≤ fuel → moreItems item separator fuel s = (as, rest) := by
  induction h with
  | done hnext =>
    intro fuel _
    cases fuel with
    | zero => rfl
    | succ n => rw [moreItems, hnext]
  | step hnext hlen _ ih =>
    intro fuel hfuel
    obtain ⟨n, rfl⟩ : ∃ n, fuel = n + 1 := ⟨fuel - 1, by omega⟩
    rw [moreItems, hnext]
    simp only [ih n (by omega)]

/-- A list is read from its first item on. -/
theorem separated1_reads (ha : item s = .ok a r) (h : ItemsRead (do separator; item) r as rest) :
    separated1 item separator s = .ok (a :: as) rest := by
  unfold separated1
  rw [ha]
  simp only [moreItems_reads h r.length (Nat.le_refl _)]

theorem separated1_fail (h : item s = .fail r) : separated1 item separator s = .fail r := by
  unfold separated1
  rw [h]

theorem separated_reads (ha : item s = .ok a r) (h : ItemsRead (do separator; item) r as rest) :
    separated item separator s = .ok (a :: as) rest := by
  unfold separated
  rw [separated1_reads ha h]

/-- A list may be empty. -/
theorem separated_none (h : item s = .fail r) : separated item separator s = .ok [] s := by
  unfold separated
  rw [separated1_fail h]

end AffineRaising.Text.Reader
