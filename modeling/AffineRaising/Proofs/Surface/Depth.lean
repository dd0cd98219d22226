/-
# AffineRaising.Proofs.Surface.Depth — the bounds on nesting are never reached.

Expressions, types, attributes and operations are read with a bound on their nesting that is taken
from the length of the text.  Every level of nesting but that of a type in an attribute reads a
character, so whatever the bound, from that one on the reader does the same (`sumOf_factor_eq`,
`typeWithin_eq`, `attrWithin_eq`, `opWithin_eq`), and the readers without bounds satisfy the
equations of the grammar (`typeText_eq`, `attrText_eq`, `operation_eq`).
-/
import AffineRaising.Proofs.Surface.Lexeme
import AffineRaising.Proofs.Text.Progress
import AffineRaising.Proofs.Text.Quoted
import AffineRaising.Surface.Grammar

namespace AffineRaising.Surface

open AffineRaising.Affine AffineRaising.IR AffineRaising.Text AffineRaising.Text.Reader

variable {α β : Type} {p q : Reader α} {s : List Char} {b : Bindings} {k m n depth : Nat}

/-! ## Words, numbers and lists -/

theorem blanks_readsAtLeast : ReadsAtLeast 0 blanks := by
  intro s u rest hread
  cases hread
  exact length_dropBlanks_le s false

theorem identifier_readsAtLeast : ReadsAtLeast 1 identifier :=
  .first (.satisfy _) fun _ => .later (.takeWhile _) fun _ => .pure _

theorem word_readsAtLeast : ReadsAtLeast 1 word :=
  .first (.takeWhile1 _) fun _ => .pure _

theorem valueName_readsAtLeast : ReadsAtLeast 1 valueName :=
  .later ((ReadsAtLeast.char _).zero) fun _ => word_readsAtLeast

theorem blockLabel_readsAtLeast : ReadsAtLeast 1 blockLabel :=
  .later ((ReadsAtLeast.char _).zero) fun _ => word_readsAtLeast

/-- A qualified name reads a character at least, and so do words, names, labels and numbers. -/
theorem qualifiedName_readsAtLeast : ReadsAtLeast 1 qualifiedName :=
  .first identifier_readsAtLeast fun _ =>
    .later ((ReadsAtLeast.char _).zero) fun _ =>
      .later (identifier_readsAtLeast.zero) fun _ => .pure _

theorem natural_readsAtLeast : ReadsAtLeast 1 natural := by
  intro s k rest hread
  cases s with
  | nil => cases hread
  | cons c s =>
    have hread : (if c = '0' then Reply.ok 0 s
        else if c.isDigit then
          if numberOfDigits ((c :: s).takeWhile Char.isDigit) < Nat.pow 2 64 then
            .ok (numberOfDigits ((c :: s).takeWhile Char.isDigit))
              ((c :: s).dropWhile Char.isDigit)
          else .fail (c :: s)
        else .fail (c :: s)) = .ok k rest := hread
    by_cases hzero : c = '0'
    · rw [if_pos hzero] at hread
      cases hread
      exact Nat.le_refl _
    rw [if_neg hzero] at hread
    by_cases hdigit : c.isDigit = true
    · rw [if_pos hdigit] at hread
      split at hread
      · cases hread
        rw [List.dropWhile_cons_of_pos hdigit]
        exact Nat.succ_le_succ (List.dropWhile_sublist _).length_le
      · cases hread
    · rw [if_neg hdigit] at hread
      cases hread

theorem minusSign_readsAtLeast : ReadsAtLeast 0 minusSign :=
  .later (.optional ((ReadsAtLeast.char _).zero)) fun _ => .pure _

theorem signedWord_readsAtLeast : ReadsAtLeast 1 signedWord :=
  .later minusSign_readsAtLeast fun _ => .first natural_readsAtLeast fun _ => .ofOption _

theorem ok_of_prepend {cs more rest : List Char} {r : Reply (List Char)}
    (h : r.prepend cs = .ok more rest) : ∃ tail, r = .ok tail rest := by
  cases r with
  | ok tail r => cases h; exact ⟨tail, rfl⟩
  | fail r => cases h

/-- By induction on the characters, every escape reads forward. -/
theorem readQuotedTail_readsAtLeast : ReadsAtLeast 0 readQuotedTail := by
  intro s
  induction hlen : s.length using Nat.strongRecOn generalizing s with
  | ind n ih =>
    subst hlen
    intro cs rest hread
    -- an escape or a plain character stands before a shorter text
    have hbefore : ∀ {t more : List Char}, t.length < s.length →
        (readQuotedTail t).prepend more = .ok cs rest → rest.length + 0 ≤ s.length := by
      intro t more hlt htail
      obtain ⟨tail, htail⟩ := ok_of_prepend htail
      exact Nat.le_trans (ih t.length hlt rfl htail) (Nat.le_of_lt hlt)
    obtain _ | ⟨c, s⟩ := s
    · rw [readQuotedTail.eq_def] at hread
      cases hread
    by_cases hquote : c = '"'
    · subst hquote
      rw [readQuotedTail_end] at hread
      cases hread
      exact Nat.le_succ _
    by_cases hslash : c = '\\'
    · subst hslash
      obtain _ | ⟨e, s⟩ := s
      · rw [readQuotedTail.eq_def] at hread
        cases hread
      by_cases hx : e = 'x'
      · subst hx
        obtain _ | ⟨h, _ | ⟨l, s⟩⟩ := s
        · rw [readQuotedTail.eq_def] at hread
          cases hread
        · rw [readQuotedTail.eq_def] at hread
          cases hread
        · rw [readQuotedTail_hex] at hread
          exact hbefore (by simp only [List.length_cons]; omega) hread
      · rw [readQuotedTail_simple hx] at hread
        exact hbefore (by simp only [List.length_cons]; omega) hread
    · rw [readQuotedTail_plain hslash hquote] at hread
      exact hbefore (Nat.lt_succ_self _) hread

theorem readQuoted_readsAtLeast : ReadsAtLeast 1 readQuoted :=
  .first (.char _) fun _ => .later readQuotedTail_readsAtLeast fun _ => .pure _

theorem symbolName_readsAtLeast : ReadsAtLeast 1 symbolName :=
  .first (.char _) fun _ => .later (.nextIs _) fun _ =>
    .ite (readQuoted_readsAtLeast.zero) (word_readsAtLeast.zero)

theorem floatExponent_readsAtLeast : ReadsAtLeast 0 floatExponent :=
  .later ((ReadsAtLeast.satisfy _).zero) fun _ =>
    .later (.optional ((ReadsAtLeast.satisfy _).zero)) fun _ =>
      .later ((ReadsAtLeast.takeWhile1 _).zero) fun _ => .pure _

theorem floatLiteral_readsAtLeast : ReadsAtLeast 0 floatLiteral :=
  .later minusSign_readsAtLeast fun _ =>
    .later ((ReadsAtLeast.takeWhile1 _).zero) fun _ =>
      .later ((ReadsAtLeast.char _).zero) fun _ =>
        .later ((ReadsAtLeast.takeWhile1 _).zero) fun _ =>
          .later (.optional floatExponent_readsAtLeast) fun _ => .pure _

theorem padded_readsAtLeast (hp : ReadsAtLeast k p) : ReadsAtLeast k (padded p) :=
  .later blanks_readsAtLeast fun _ => .first hp fun _ =>
    .later blanks_readsAtLeast fun _ => .pure _

theorem commaList_readsAtLeast (hp : ReadsAtLeast 0 p) : ReadsAtLeast 0 (commaList p) :=
  .separated ((ReadsAtLeast.char _).zero) (padded_readsAtLeast hp)

theorem commaList1_readsAtLeast (hp : ReadsAtLeast k p) : ReadsAtLeast k (commaList1 p) :=
  .separated1 ((ReadsAtLeast.char _).zero) (padded_readsAtLeast hp)

/-- Brackets are characters. -/
theorem bracketed_readsAtLeast (opening closing : Char) (hp : ReadsAtLeast 0 p) :
    ReadsAtLeast 1 (bracketed opening closing p) :=
  .first (.char _) fun _ => .later blanks_readsAtLeast fun _ => .later hp fun _ =>
    .later blanks_readsAtLeast fun _ =>
      .later ((ReadsAtLeast.char _).zero) fun _ => .pure _

theorem padded_agree (h : AgreeUpTo n p q) (hp : ReadsAtLeast 0 p) :
    AgreeUpTo n (padded p) (padded q) :=
  (AgreeUpTo.refl blanks).bind blanks_readsAtLeast fun _ => h.bind hp fun _ => .refl _

/-- Lists agree if their items do. -/
theorem commaList_agree (h : AgreeUpTo n p q) (hp : ReadsAtLeast 0 p) :
    AgreeUpTo n (commaList p) (commaList q) :=
  (padded_agree h hp).separated ((ReadsAtLeast.char _).zero)
    (padded_readsAtLeast hp)

/-- Behind the opening bracket, shorter texts are enough. -/
theorem bracketed_agree {opening closing : Char} (h : ∀ m < n, AgreeUpTo m p q)
    (hp : ReadsAtLeast 0 p) :
    AgreeUpTo n (bracketed opening closing p) (bracketed opening closing q) := by
  refine .next (.char _) fun _ m hm => ?_
  exact (AgreeUpTo.refl blanks).bind blanks_readsAtLeast fun _ => (h m hm).bind hp fun _ => .refl _

/-! ## Expressions -/

theorem productOperator_readsAtLeast : ReadsAtLeast 0 productOperator :=
  .later blanks_readsAtLeast fun _ => .later (.optional <|
    .orElse (.later (.literal _) fun _ => .pure _) <|
    .orElse (.later (.literal _) fun _ => .pure _) <|
    .orElse (.later (.literal _) fun _ => .pure _)
      (.later (.literal _) fun _ => .pure _)) fun _ => .pure _

theorem sumOperator_readsAtLeast : ReadsAtLeast 0 sumOperator :=
  .later blanks_readsAtLeast fun _ => .optional <|
    .orElse (.later (ReadsAtLeast.char _).zero fun _ => .pure _)
      (.later (ReadsAtLeast.char _).zero fun _ => .pure _)

theorem sumOf_readsAtLeast {p : Reader Expr} (hp : ReadsAtLeast k p) : ReadsAtLeast k (sumOf p) :=
  .chain sumOperator_readsAtLeast (.chain productOperator_readsAtLeast hp)

/-- Sums agree if their terms do. -/
theorem sumOf_agree {p q : Reader Expr} (h : AgreeUpTo n p q) (hp : ReadsAtLeast 0 p) :
    AgreeUpTo n (sumOf p) (sumOf q) :=
  (h.chain productOperator_readsAtLeast hp).chain sumOperator_readsAtLeast
    (.chain productOperator_readsAtLeast hp)

/-- Every factor reads a character. -/
theorem factor_readsAtLeast (b : Bindings) (depth : Nat) : ReadsAtLeast 1 (factor b depth) := by
  induction depth with
  | zero => exact .fail
  | succ depth ih =>
    refine .later blanks_readsAtLeast fun _ => .later minusSign_readsAtLeast fun negative =>
      .ite ?negation (.later (.optional (ReadsAtLeast.char _).zero) fun group => .ite ?group ?leaf)
    case negation => exact ih.first fun _ => .pure _
    case group =>
      exact (sumOf_readsAtLeast ih).first fun _ => .later blanks_readsAtLeast fun _ =>
        .later (ReadsAtLeast.char _).zero fun _ => .pure _
    case leaf =>
      refine .optional_bind natural_readsAtLeast (fun k => ?_) ?_
      · exact (ReadsAtLeast.ofOption _).later fun _ => .pure _
      · exact identifier_readsAtLeast.first fun _ => .ofOption _

/-- Behind a minus sign, shorter texts are enough. -/
theorem minusSign_agree {f g : Bool → Reader α} (hminus : ∀ m < n, AgreeUpTo m (f true) (g true))
    (hplain : AgreeUpTo n (f false) (g false)) :
    AgreeUpTo n (minusSign >>= f) (minusSign >>= g) := by
  have hsign : ∀ f : Bool → Reader α, (minusSign >>= f) =
      Reader.optional (char '-') >>= fun sign => f sign.isSome := by
    intro f
    funext s
    show Reader.bind (Reader.bind (Reader.optional (char '-')) _) f s = Reader.bind _ _ s
    unfold Reader.bind Reader.optional
    cases char '-' s <;> rfl
  rw [hsign, hsign]
  exact .optional_bind (.char _) (fun _ => hminus) hplain

/-- Factors are nested no deeper than there are characters. -/
theorem factor_agree (b : Bindings) (n : Nat) : ∀ depth depth', n < depth → n < depth' →
    AgreeUpTo n (factor b depth) (factor b depth') := by
  induction n using Nat.strongRecOn with
  | ind n ih =>
    intro depth depth' hdepth hdepth'
    obtain ⟨depth, rfl⟩ : ∃ d, depth = d + 1 := ⟨depth - 1, by omega⟩
    obtain ⟨depth', rfl⟩ : ∃ d, depth' = d + 1 := ⟨depth' - 1, by omega⟩
    have hnested : ∀ m < n, AgreeUpTo m (factor b depth) (factor b depth') :=
      fun m hm => ih m hm depth depth' (by omega) (by omega)
    refine (AgreeUpTo.refl blanks).bind blanks_readsAtLeast fun _ => minusSign_agree
      (fun m hm => ?negation) (.optional_bind (.char _) (fun _ m hm => ?group) ?leaf)
    case negation =>
      exact (hnested m hm).bind (factor_readsAtLeast b depth).zero fun _ => .refl _
    case group =>
      have hread := (factor_readsAtLeast b depth).zero
      exact (sumOf_agree (hnested m hm) hread).bind (sumOf_readsAtLeast hread) fun _ => .refl _
    case leaf => exact .refl _

/-- With any bound from the length of the text on, the same expression is read. -/
theorem sumOf_factor_eq (h : s.length < depth) :
    sumOf (factor b depth) s = expression b s :=
  sumOf_agree (factor_agree b s.length depth (s.length + 1) h (Nat.lt_succ_self _))
    (factor_readsAtLeast b depth).zero (Nat.le_refl _)

/-! ## Types and attributes -/

theorem expression_readsAtLeast (b : Bindings) : ReadsAtLeast 0 (expression b) :=
  fun _ _ _ hread => sumOf_readsAtLeast (factor_readsAtLeast b _).zero hread

theorem resultList_readsAtLeast (hp : ReadsAtLeast 0 p) : ReadsAtLeast 0 (resultList p) :=
  .later blanks_readsAtLeast fun _ => .later (ReadsAtLeast.char _).zero fun _ =>
    .later blanks_readsAtLeast fun _ => .later (.separated (.later blanks_readsAtLeast fun _ =>
      .later (ReadsAtLeast.char _).zero fun _ => blanks_readsAtLeast) hp) fun _ =>
    .later blanks_readsAtLeast fun _ => .later (ReadsAtLeast.char _).zero fun _ =>
    .later blanks_readsAtLeast fun _ => .later (ReadsAtLeast.char _).zero fun _ => .pure _

theorem bindings_readsAtLeast : ReadsAtLeast 0 bindings :=
  .later (bracketed_readsAtLeast _ _ (commaList_readsAtLeast identifier_readsAtLeast.zero)).zero
    fun _ => .later (.optional (.later blanks_readsAtLeast fun _ =>
      (bracketed_readsAtLeast _ _ (commaList_readsAtLeast identifier_readsAtLeast.zero)).zero))
    fun _ => .pure _

/-- Maps and sets read forward. -/
theorem affineMap_readsAtLeast : ReadsAtLeast 0 affineMap :=
  .later (.literal _) fun _ => .later blanks_readsAtLeast fun _ =>
    .later (ReadsAtLeast.char _).zero fun _ => .later blanks_readsAtLeast fun _ =>
    .later bindings_readsAtLeast fun b => .later blanks_readsAtLeast fun _ =>
    .later (.literal _) fun _ => .later (resultList_readsAtLeast (expression_readsAtLeast b))
      fun _ => .pure _

theorem constraint_readsAtLeast (b : Bindings) : ReadsAtLeast 0 (constraint b) :=
  .later (expression_readsAtLeast b) fun _ => .later blanks_readsAtLeast fun _ =>
    .later (.orElse (.later (.literal _) fun _ => .pure _)
      (.later (.literal _) fun _ => .pure _)) fun _ =>
    .later (expression_readsAtLeast b) fun _ => .pure _

theorem affineSet_readsAtLeast : ReadsAtLeast 0 affineSet :=
  .later (.literal _) fun _ => .later blanks_readsAtLeast fun _ =>
    .later (ReadsAtLeast.char _).zero fun _ => .later blanks_readsAtLeast fun _ =>
    .later bindings_readsAtLeast fun b => .later blanks_readsAtLeast fun _ =>
    .later (ReadsAtLeast.char _).zero fun _ =>
    .later (resultList_readsAtLeast (constraint_readsAtLeast b)) fun _ => .pure _

section Attributes

variable {param param' ty ty' : Reader Ty} {attr attr' : Reader Attr}

theorem entry_readsAtLeast (hattr : ReadsAtLeast 0 attr) : ReadsAtLeast 0 (do
    let key ← identifier
    blanks
    char '='
    blanks
    let value ← attr
    return (key, value) : Reader (String × Attr)) :=
  .later identifier_readsAtLeast.zero fun _ => .later blanks_readsAtLeast fun _ =>
    .later (ReadsAtLeast.char _).zero fun _ => .later blanks_readsAtLeast fun _ =>
    .later hattr fun _ => .pure _

theorem dictOf_readsAtLeast (hattr : ReadsAtLeast 0 attr) : ReadsAtLeast 0 (dictOf attr) :=
  (bracketed_readsAtLeast _ _ (commaList_readsAtLeast (entry_readsAtLeast hattr))).zero

/-- Dictionaries agree if their values do. -/
theorem dictOf_agree (h : AgreeUpTo n attr attr') (hattr : ReadsAtLeast 0 attr) :
    AgreeUpTo n (dictOf attr) (dictOf attr') := by
  refine bracketed_agree (fun m hm => commaList_agree ?_ (entry_readsAtLeast hattr))
    (commaList_readsAtLeast (entry_readsAtLeast hattr))
  exact (AgreeUpTo.refl identifier).bind identifier_readsAtLeast.zero fun _ =>
    (AgreeUpTo.refl blanks).bind blanks_readsAtLeast fun _ =>
    (AgreeUpTo.refl (char '=')).bind (ReadsAtLeast.char _).zero fun _ =>
    (AgreeUpTo.refl blanks).bind blanks_readsAtLeast fun _ =>
    (h.mono (Nat.le_of_lt hm)).bind hattr fun _ => .refl _

/-- A type has a name at least. -/
theorem typeOf_readsAtLeast (hparam : ReadsAtLeast 0 param) (hattr : ReadsAtLeast 0 attr) :
    ReadsAtLeast 0 (typeOf param attr) := by
  have hlist : ReadsAtLeast 0 (bracketed '(' ')' (commaList param)) :=
    (bracketed_readsAtLeast _ _ (commaList_readsAtLeast hparam)).zero
  refine .later qualifiedName_readsAtLeast.zero fun name => .later (.optional hlist) fun found => ?_
  cases found with
  | none => exact .pure _
  | some params =>
    exact .later (.optional (.later blanks_readsAtLeast fun _ => dictOf_readsAtLeast hattr))
      fun _ => .pure _

/-- Behind the name of a type, shorter texts are enough. -/
theorem typeOf_agree (hp : ∀ m < n, AgreeUpTo m param param')
    (ha : ∀ m < n, AgreeUpTo m attr attr') (hparam : ReadsAtLeast 0 param)
    (hattr : ReadsAtLeast 0 attr) : AgreeUpTo n (typeOf param attr) (typeOf param' attr') := by
  refine .next qualifiedName_readsAtLeast fun name m hm => ?_
  have hlist : AgreeUpTo m (bracketed '(' ')' (commaList param))
      (bracketed '(' ')' (commaList param')) :=
    bracketed_agree (fun k hk => commaList_agree (hp k (by omega)) hparam)
      (commaList_readsAtLeast hparam)
  refine hlist.optional.bind
    (.optional (bracketed_readsAtLeast _ _ (commaList_readsAtLeast hparam)).zero) fun found => ?_
  cases found with
  | none => exact .refl _
  | some params =>
    have hdict : AgreeUpTo m (do blanks; dictOf attr) (do blanks; dictOf attr') :=
      (AgreeUpTo.refl blanks).bind blanks_readsAtLeast fun _ => dictOf_agree (ha m hm) hattr
    exact hdict.optional.bind
      (.optional (.later blanks_readsAtLeast fun _ => dictOf_readsAtLeast hattr)) fun _ => .refl _

/-- An attribute, by what reads the items of a list and what reads a type. -/
def attrOf (item : Reader Attr) (ty : Reader Ty) : Reader Attr :=
  orElse (do literal "true"; return .bool true) <|
  orElse (do literal "false"; return .bool false) <|
  orElse (do literal "unit"; return .unit) <|
  orElse (do return .map (← affineMap)) <|
  orElse (do return .constraints (← affineSet)) <|
  orElse (do return .string (← readQuoted)) <|
  orElse (do return .symbol (← symbolName)) <|
  orElse (do return .list (← bracketed '[' ']' (commaList item))) <|
  orElse (do return .float (← floatLiteral)) <|
  orElse (do return .int (← signedWord))
    (do return .type (← ty))

theorem attrOf_readsAtLeast (hattr : ReadsAtLeast 0 attr) (hty : ReadsAtLeast 0 ty) :
    ReadsAtLeast 0 (attrOf attr ty) :=
  .orElse (.later (.literal _) fun _ => .pure _) <|
  .orElse (.later (.literal _) fun _ => .pure _) <|
  .orElse (.later (.literal _) fun _ => .pure _) <|
  .orElse (.later affineMap_readsAtLeast fun _ => .pure _) <|
  .orElse (.later affineSet_readsAtLeast fun _ => .pure _) <|
  .orElse (.later readQuoted_readsAtLeast.zero fun _ => .pure _) <|
  .orElse (.later symbolName_readsAtLeast.zero fun _ => .pure _) <|
  .orElse (.later (bracketed_readsAtLeast _ _ (commaList_readsAtLeast hattr)).zero
    fun _ => .pure _) <|
  .orElse (.later floatLiteral_readsAtLeast fun _ => .pure _) <|
  .orElse (.later signedWord_readsAtLeast.zero fun _ => .pure _)
    (.later hty fun _ => .pure _)

/-- Items of a list are read from shorter texts, a type is not. -/
theorem attrOf_agree (ha : ∀ m < n, AgreeUpTo m attr attr') (ht : AgreeUpTo n ty ty')
    (hattr : ReadsAtLeast 0 attr) (hty : ReadsAtLeast 0 ty) :
    AgreeUpTo n (attrOf attr ty) (attrOf attr' ty') := by
  have hlist : AgreeUpTo n (bracketed '[' ']' (commaList attr))
      (bracketed '[' ']' (commaList attr')) :=
    bracketed_agree (fun m hm => commaList_agree (ha m hm) hattr) (commaList_readsAtLeast hattr)
  have hitems := hlist.bind (bracketed_readsAtLeast _ _ (commaList_readsAtLeast hattr)).zero
    fun items => .refl (pure (Attr.list items) : Reader Attr)
  have htype := ht.bind hty fun t => .refl (pure (Attr.type t) : Reader Attr)
  exact .orElse (.refl _) <| .orElse (.refl _) <| .orElse (.refl _) <| .orElse (.refl _) <|
    .orElse (.refl _) <| .orElse (.refl _) <| .orElse (.refl _) <| .orElse hitems <|
    .orElse (.refl _) <| .orElse (.refl _) htype

end Attributes

/-- Types and attributes read forward, whatever the levels of nesting. -/
theorem within_readsAtLeast (depth : Nat) :
    ReadsAtLeast 0 (typeWithin depth) ∧ ReadsAtLeast 0 (attrWithin depth) := by
  induction depth with
  | zero => exact ⟨.fail, .fail⟩
  | succ depth ih => exact ⟨typeOf_readsAtLeast ih.1 ih.2, attrOf_readsAtLeast ih.2 ih.1⟩

/-- Types take up two levels for a character at most, and attributes one more. -/
theorem within_agree (n : Nat) :
    (∀ depth depth', 2 * n + 1 ≤ depth → 2 * n + 1 ≤ depth' →
      AgreeUpTo n (typeWithin depth) (typeWithin depth')) ∧
    ∀ depth depth', 2 * n + 2 ≤ depth → 2 * n + 2 ≤ depth' →
      AgreeUpTo n (attrWithin depth) (attrWithin depth') := by
  induction n using Nat.strongRecOn with
  | ind n ih =>
    have htypes : ∀ depth depth', 2 * n + 1 ≤ depth → 2 * n + 1 ≤ depth' →
        AgreeUpTo n (typeWithin depth) (typeWithin depth') := by
      intro depth depth' hdepth hdepth'
      obtain ⟨depth, rfl⟩ : ∃ d, depth = d + 1 := ⟨depth - 1, by omega⟩
      obtain ⟨depth', rfl⟩ : ∃ d, depth' = d + 1 := ⟨depth' - 1, by omega⟩
      obtain ⟨hty, hattr⟩ := within_readsAtLeast depth
      exact typeOf_agree (fun m hm => (ih m hm).1 depth depth' (by omega) (by omega))
        (fun m hm => (ih m hm).2 depth depth' (by omega) (by omega)) hty hattr
    refine ⟨htypes, fun depth depth' hdepth hdepth' => ?_⟩
    obtain ⟨depth, rfl⟩ : ∃ d, depth = d + 1 := ⟨depth - 1, by omega⟩
    obtain ⟨depth', rfl⟩ : ∃ d, depth' = d + 1 := ⟨depth' - 1, by omega⟩
    obtain ⟨hty, hattr⟩ := within_readsAtLeast depth
    exact attrOf_agree (fun m hm => (ih m hm).2 depth depth' (by omega) (by omega))
      (htypes depth depth' (by omega) (by omega)) hattr hty

/-- With any bound from that of the text on, the same type is read. -/
theorem typeWithin_eq (h : 2 * s.length + 1 ≤ depth) : typeWithin depth s = typeText s :=
  (within_agree s.length).1 depth (nestingBound s) h (Nat.le_succ _) (Nat.le_refl _)

/-- With any bound from that of the text on, the same attribute is read. -/
theorem attrWithin_eq (h : nestingBound s ≤ depth) : attrWithin depth s = attrText s :=
  (within_agree s.length).2 depth (nestingBound s) h (Nat.le_refl _) (Nat.le_refl _)

/-- Types are read as the grammar says, without a bound. -/
theorem typeText_eq (s : List Char) : typeText s = typeOf typeText attrText s := by
  obtain ⟨hty, hattr⟩ := within_readsAtLeast (2 * s.length + 1)
  refine typeOf_agree (fun m hm t ht => typeWithin_eq ?_) (fun m hm t ht => attrWithin_eq ?_)
    hty hattr (Nat.le_refl s.length)
  · omega
  · rw [nestingBound]
    omega

/-- Attributes are read as the grammar says, without a bound. -/
theorem attrText_eq (s : List Char) : attrText s = attrOf attrText typeText s := by
  obtain ⟨hty, hattr⟩ := within_readsAtLeast (2 * s.length + 1)
  refine attrOf_agree (fun m hm t ht => attrWithin_eq ?_) (fun t ht => typeWithin_eq ?_)
    hattr hty (Nat.le_refl s.length)
  · rw [nestingBound]
    omega
  · omega

/-! ## Operations -/

theorem typeText_readsAtLeast : ReadsAtLeast 0 typeText :=
  fun _ _ _ hread => (within_readsAtLeast _).1 hread

theorem attrText_readsAtLeast : ReadsAtLeast 0 attrText :=
  fun _ _ _ hread => (within_readsAtLeast _).2 hread

theorem orNothing_readsAtLeast {p : Reader (List α)} (hp : ReadsAtLeast 0 p) :
    ReadsAtLeast 0 (orNothing p) :=
  .later (.optional hp) fun _ => .pure _

theorem resultNames_readsAtLeast : ReadsAtLeast 0 resultNames :=
  .later (commaList1_readsAtLeast valueName_readsAtLeast.zero) fun _ =>
    .later blanks_readsAtLeast fun _ => .later (ReadsAtLeast.char _).zero fun _ => .pure _

theorem typedNames_readsAtLeast : ReadsAtLeast 0 typedNames := by
  refine (bracketed_readsAtLeast _ _ (commaList_readsAtLeast ?_)).zero
  exact .later valueName_readsAtLeast.zero fun _ => .later blanks_readsAtLeast fun _ =>
    .later (ReadsAtLeast.char _).zero fun _ => .later blanks_readsAtLeast fun _ =>
    .later typeText_readsAtLeast fun _ => .pure _

theorem successorLabels_readsAtLeast : ReadsAtLeast 0 successorLabels :=
  (bracketed_readsAtLeast _ _ (commaList1_readsAtLeast blockLabel_readsAtLeast.zero)).zero

theorem returnType_readsAtLeast : ReadsAtLeast 0 returnType :=
  .later blanks_readsAtLeast fun _ => .later (ReadsAtLeast.char _).zero fun _ =>
    .later (ReadsAtLeast.char _).zero fun _ => .later blanks_readsAtLeast fun _ =>
    typeText_readsAtLeast

theorem resultTypes_readsAtLeast : ReadsAtLeast 0 resultTypes :=
  .later blanks_readsAtLeast fun _ => .later (ReadsAtLeast.char _).zero fun _ =>
    .later blanks_readsAtLeast fun _ => commaList1_readsAtLeast typeText_readsAtLeast

theorem paramsOrOperands_readsAtLeast : ReadsAtLeast 0 paramsOrOperands :=
  .later (.nextIs _) fun _ => .ite (.later typedNames_readsAtLeast fun _ => .pure _) <|
    .later (.nextIs _) fun _ => .ite (.later (orNothing_readsAtLeast
      (commaList1_readsAtLeast valueName_readsAtLeast.zero)) fun _ => .pure _) (.pure _)

/-- The head of an operation has a name at least. -/
theorem opHead_readsAtLeast : ReadsAtLeast 1 opHead :=
  .later blanks_readsAtLeast fun _ => .later (orNothing_readsAtLeast resultNames_readsAtLeast)
    fun _ => .later blanks_readsAtLeast fun _ => .first qualifiedName_readsAtLeast fun _ =>
    .later (.optional (.later blanks_readsAtLeast fun _ => symbolName_readsAtLeast.zero)) fun _ =>
    .later blanks_readsAtLeast fun _ => .later paramsOrOperands_readsAtLeast fun _ =>
    .later (orNothing_readsAtLeast (.later blanks_readsAtLeast fun _ =>
      successorLabels_readsAtLeast)) fun _ =>
    .later (.optional returnType_readsAtLeast) fun _ =>
    .later (orNothing_readsAtLeast (.later blanks_readsAtLeast fun _ =>
      dictOf_readsAtLeast attrText_readsAtLeast)) fun _ =>
    .later (orNothing_readsAtLeast resultTypes_readsAtLeast) fun _ => .pure _

theorem beforeNone_readsAtLeast (stops : List Char) : ReadsAtLeast 0 (beforeNone stops) :=
  .later blanks_readsAtLeast fun _ => .nextIs _

theorem beforeBrace_readsAtLeast : ReadsAtLeast 0 beforeBrace :=
  .later blanks_readsAtLeast fun _ => .later (.nextIs _) fun _ => .pure _

theorem beforeRegion_readsAtLeast : ReadsAtLeast 0 beforeRegion :=
  .later blanks_readsAtLeast fun _ => .nextIs _

section Operations

variable {op op' : Reader Op}

theorem blockOf_readsAtLeast (hop : ReadsAtLeast 0 op) : ReadsAtLeast 1 (blockOf op) :=
  .later blanks_readsAtLeast fun _ => .first blockLabel_readsAtLeast fun _ =>
    .later (orNothing_readsAtLeast typedNames_readsAtLeast) fun _ =>
    .later blanks_readsAtLeast fun _ => .later (ReadsAtLeast.char _).zero fun _ =>
    .later (.repeatWhile (beforeNone_readsAtLeast _) hop) fun _ => .pure _

/-- Blocks agree if their operations do. -/
theorem blockOf_agree (h : AgreeUpTo n op op') (hop : ReadsAtLeast 0 op) :
    AgreeUpTo n (blockOf op) (blockOf op') := by
  have hops := h.repeatWhile (beforeNone_readsAtLeast ['^', '}']) hop
  exact (AgreeUpTo.refl blanks).bind blanks_readsAtLeast fun _ =>
    (AgreeUpTo.refl blockLabel).bind blockLabel_readsAtLeast.zero fun _ =>
    (AgreeUpTo.refl _).bind (orNothing_readsAtLeast typedNames_readsAtLeast) fun _ =>
    (AgreeUpTo.refl blanks).bind blanks_readsAtLeast fun _ =>
    (AgreeUpTo.refl (char ':')).bind (ReadsAtLeast.char _).zero fun _ =>
    hops.bind (.repeatWhile (beforeNone_readsAtLeast _) hop) fun _ => .refl _

theorem regionOf_readsAtLeast (hop : ReadsAtLeast 0 op) : ReadsAtLeast 1 (regionOf op) := by
  have hclose : ∀ blocks, ReadsAtLeast 0 (do blanks; char '}'; return Region.mk blocks) := fun _ =>
    .later blanks_readsAtLeast fun _ => .later (ReadsAtLeast.char _).zero fun _ => .pure _
  refine .first (.char _) fun _ => .later blanks_readsAtLeast fun _ => .later (.nextIs _) fun _ =>
    .later (.nextIs _) fun _ => .ite ?labelled (.ite ?empty ?unlabelled)
  case labelled =>
    exact .later (.repeatWhile beforeBrace_readsAtLeast (blockOf_readsAtLeast hop).zero) hclose
  case empty => exact .later (.pure _) hclose
  case unlabelled =>
    exact .later (.repeatWhile (beforeNone_readsAtLeast _) hop) fun _ => .later (.pure _) hclose

/-- Behind the brace of a region, shorter texts are enough. -/
theorem regionOf_agree (h : ∀ m < n, AgreeUpTo m op op') (hop : ReadsAtLeast 0 op) :
    AgreeUpTo n (regionOf op) (regionOf op') := by
  refine .next (.char _) fun _ m hm => ?_
  have hblock := (blockOf_readsAtLeast hop).zero
  have hblocks := (blockOf_agree (h m hm) hop).repeatWhile beforeBrace_readsAtLeast hblock
  have hops := (h m hm).repeatWhile (beforeNone_readsAtLeast ['}']) hop
  exact (AgreeUpTo.refl blanks).bind blanks_readsAtLeast fun _ =>
    (AgreeUpTo.refl _).bind (.nextIs _) fun _ => (AgreeUpTo.refl _).bind (.nextIs _) fun _ =>
    .ite (hblocks.bind (.repeatWhile beforeBrace_readsAtLeast hblock) fun _ => .refl _)
      (.ite (.refl _) (hops.bind (.repeatWhile (beforeNone_readsAtLeast _) hop) fun _ => .refl _))

end Operations

/-- Every operation reads a character. -/
theorem opWithin_readsAtLeast (depth : Nat) : ReadsAtLeast 1 (opWithin depth) := by
  induction depth with
  | zero => exact .fail
  | succ depth ih =>
    have hregion := (regionOf_readsAtLeast ih.zero).zero
    exact .first opHead_readsAtLeast fun _ =>
      .later (.repeatWhile beforeRegion_readsAtLeast hregion) fun _ => .pure _

/-- An operation, by what reads the operations in its regions. -/
def opOf (op : Reader Op) : Reader Op := do
  let head ← opHead
  let regions ← repeatWhile beforeRegion (regionOf op)
  return .mk head regions

/-- Behind the head of an operation, shorter texts are enough. -/
theorem opOf_agree {op op' : Reader Op} (h : ∀ m < n, AgreeUpTo m op op')
    (hop : ReadsAtLeast 0 op) : AgreeUpTo n (opOf op) (opOf op') := by
  refine .next opHead_readsAtLeast fun _ m hm => ?_
  have hregion := regionOf_agree (fun k hk => h k (Nat.lt_trans hk hm)) hop
  have hread := (regionOf_readsAtLeast hop).zero
  exact (hregion.repeatWhile beforeRegion_readsAtLeast hread).bind
    (.repeatWhile beforeRegion_readsAtLeast hread) fun _ => .refl _

/-- Operations are nested no deeper than there are characters. -/
theorem opWithin_agree (n : Nat) : ∀ depth depth', n < depth → n < depth' →
    AgreeUpTo n (opWithin depth) (opWithin depth') := by
  induction n using Nat.strongRecOn with
  | ind n ih =>
    intro depth depth' hdepth hdepth'
    obtain ⟨depth, rfl⟩ : ∃ d, depth = d + 1 := ⟨depth - 1, by omega⟩
    obtain ⟨depth', rfl⟩ : ∃ d, depth' = d + 1 := ⟨depth' - 1, by omega⟩
    exact opOf_agree (fun m hm => ih m hm depth depth' (by omega) (by omega))
      (opWithin_readsAtLeast depth).zero

/-- With any bound from the length of the text on, the same operation is read. -/
theorem opWithin_eq (h : s.length < depth) : opWithin depth s = operation s :=
  opWithin_agree s.length depth (s.length + 1) h (Nat.lt_succ_self _) (Nat.le_refl _)

/-- Operations are read as the grammar says, without a bound. -/
theorem operation_eq (s : List Char) : operation s = opOf operation s := by
  refine opOf_agree (fun m hm t ht => opWithin_eq ?_) (opWithin_readsAtLeast s.length).zero
    (Nat.le_refl s.length)
  exact Nat.lt_of_le_of_lt ht hm

/-! ## Loops -/

/-- No list of operands, items, operations, blocks or regions is cut off by the bound of its
loop. -/
theorem loops_end_before_bounds {fuel : Nat} (h : s.length < fuel) :
    (∀ b depth e, chainFuel sumOperator (chain productOperator (factor b depth)) fuel e s =
      chainFuel sumOperator (chain productOperator (factor b depth)) (s.length + 1) e s) ∧
    (∀ b depth e, chainFuel productOperator (factor b depth) fuel e s =
      chainFuel productOperator (factor b depth) (s.length + 1) e s) ∧
    (∀ item : Reader α, ReadsAtLeast 0 item →
      moreItems (padded item) (char ',') fuel s =
        moreItems (padded item) (char ',') s.length s) ∧
    (∀ stops, repeatWhileFuel (beforeNone stops) operation fuel s =
      repeatWhile (beforeNone stops) operation s) ∧
    repeatWhileFuel beforeBrace (blockOf operation) fuel s =
      repeatWhile beforeBrace (blockOf operation) s ∧
    repeatWhileFuel beforeRegion (regionOf operation) fuel s =
      repeatWhile beforeRegion (regionOf operation) s := by
  have hop : ReadsAtLeast 1 operation := fun _ _ _ hread => opWithin_readsAtLeast _ hread
  have hlast := Nat.lt_succ_self s.length
  refine ⟨fun b depth e => ?_, fun b depth e => ?_, fun item hitem => ?_, fun stops => ?_, ?_, ?_⟩
  · exact chainFuel_stable sumOperator_readsAtLeast (.chain productOperator_readsAtLeast
      (factor_readsAtLeast b depth)) s.length _ _ e h hlast (Nat.le_refl _)
  · exact chainFuel_stable productOperator_readsAtLeast (factor_readsAtLeast b depth) s.length
      _ _ e h hlast (Nat.le_refl _)
  · exact moreItems_stable (.char _) (padded_readsAtLeast hitem) _ _ s (Nat.le_of_lt h)
      (Nat.le_refl _)
  · exact repeatWhileFuel_stable (beforeNone_readsAtLeast stops) hop s.length _ _ h hlast
      (Nat.le_refl _)
  · exact repeatWhileFuel_stable beforeBrace_readsAtLeast (blockOf_readsAtLeast hop.zero) s.length
      _ _ h hlast (Nat.le_refl _)
  · exact repeatWhileFuel_stable beforeRegion_readsAtLeast (regionOf_readsAtLeast hop.zero)
      s.length _ _ h hlast (Nat.le_refl _)

end AffineRaising.Surface
