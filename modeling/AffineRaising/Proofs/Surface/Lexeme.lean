/-
# AffineRaising.Proofs.Surface.Lexeme — written words and numbers are read back.

Blanks are skipped once and for all, a number or a name is read back from its text when no further
word character follows, and a list written with commas is read item by item up to its closing
bracket.

The grammar skips blanks before most tokens, so a written text is given to the readers as
`StartsSolid`, without leading blanks, or with exactly one.  What may follow a token matters for
words and numbers only, since their readers take as many characters as they can: `BreaksWord`
excludes a further word character, and `EndsItem` says that an item of a list is complete.
-/
import AffineRaising.Affine.Text
import AffineRaising.Proofs.Text.Reading
import AffineRaising.Surface.Lexeme

namespace AffineRaising.Surface

open AffineRaising.Affine AffineRaising.Text AffineRaising.Text.Reader

variable {α : Type} {c : Char} {s t rest : List Char} {dialect name : String}

/-! ## Blanks -/

/-- A text starts with neither a blank nor a comment. -/
def StartsSolid (s : List Char) : Prop :=
  ∃ c r, s = c :: r ∧ isBlank c = false ∧ c ≠ '/'

/-- What starts solid does so whatever follows. -/
theorem StartsSolid.append (h : StartsSolid s) (t : List Char) : StartsSolid (s ++ t) := by
  obtain ⟨c, r, rfl, hblank, hslash⟩ := h
  exact ⟨c, r ++ t, rfl, hblank, hslash⟩

theorem StartsSolid.length_pos (h : StartsSolid s) : 0 < s.length := by
  obtain ⟨c, r, rfl, -⟩ := h
  exact Nat.succ_pos _

/-- Where no blank stands none is skipped. -/
theorem StartsSolid.dropBlanks_eq (h : StartsSolid s) : dropBlanks false s = s := by
  obtain ⟨c, r, rfl, hblank, hslash⟩ := h
  simp [dropBlanks, hblank, hslash]

theorem StartsSolid.blanks_eq (h : StartsSolid s) : blanks s = .ok () s := by
  unfold blanks
  rw [h.dropBlanks_eq]

theorem StartsSolid.blanks_space (h : StartsSolid s) : blanks (' ' :: s) = .ok () s :=
  h.blanks_eq

/-- Any number of blanks is skipped. -/
theorem dropBlanks_replicate (n : Nat) (s : List Char) :
    dropBlanks false (List.replicate n ' ' ++ s) = dropBlanks false s := by
  induction n with
  | zero => rfl
  | succ n ih => exact ih

/-- Skipping blanks reads forward. -/
theorem length_dropBlanks_le (s : List Char) :
    ∀ inComment, (dropBlanks inComment s).length ≤ s.length := by
  induction s with
  | nil => intro inComment; cases inComment <;> exact Nat.le_refl _
  | cons c s ih =>
    intro inComment
    have hfalse := ih false
    have htrue := ih true
    cases inComment with
    | true => exact Nat.le_succ_of_le (ih _)
    | false =>
      unfold dropBlanks
      rw [List.length_cons]
      split
      · omega
      · split
        · omega
        · exact Nat.le_refl _

/-- Where blanks have been skipped none are left. -/
theorem dropBlanks_dropBlanks (s : List Char) :
    ∀ inComment, dropBlanks false (dropBlanks inComment s) = dropBlanks inComment s := by
  induction s with
  | nil => intro inComment; cases inComment <;> rfl
  | cons c s ih =>
    intro inComment
    cases inComment with
    | true => exact ih _
    | false =>
      have hself : dropBlanks false (c :: s) = if isBlank c then dropBlanks false s
          else if c == '/' && s.head? == some '/' then dropBlanks true s else c :: s := rfl
      rw [hself]
      split
      · exact ih false
      · split
        · exact ih true
        · rw [hself, if_neg ‹_›, if_neg ‹_›]

/-- A reader that skips blanks first makes the same of texts that differ in leading blanks. -/
theorem blanks_bind_congr {f : Unit → Reader α} (h : dropBlanks false s = dropBlanks false t) :
    (blanks >>= f) s = (blanks >>= f) t := by
  show f () (dropBlanks false s) = f () (dropBlanks false t)
  rw [h]

/-- The first character that is neither a blank nor in a comment. -/
def solid? (s : List Char) : Option Char :=
  (dropBlanks false s).head?

theorem solid?_congr (h : dropBlanks false s = dropBlanks false t) : solid? s = solid? t :=
  congrArg List.head? h

theorem StartsSolid.solid?_eq (h : StartsSolid s) : solid? s = s.head? :=
  congrArg List.head? h.dropBlanks_eq

/-- What starts with a character, behind blanks, does not start with another one. -/
theorem fails_after_blanks {f : Unit → Reader α} (h : solid? s ≠ some c) :
    Fails (blanks >>= fun _ => char c >>= f) s :=
  .after (rfl : blanks s = .ok () (dropBlanks false s)) ((char_fails h).bind f)

/-- Blanks around a token are skipped. -/
theorem padded_reads {p : Reader α} {a : α} (h : p (dropBlanks false s) = .ok a rest) :
    padded p s = .ok a (dropBlanks false rest) := by
  show (blanks >>= fun _ => p >>= fun a => blanks >>= fun _ => pure a) s = _
  rw [bind_ok (rfl : blanks s = .ok () (dropBlanks false s)), bind_ok h]
  rfl

theorem padded_fail {p : Reader α} (h : p (dropBlanks false s) = .fail rest) :
    padded p s = .fail rest := by
  show (blanks >>= fun _ => p >>= fun a => blanks >>= fun _ => pure a) s = _
  rw [bind_ok (rfl : blanks s = .ok () (dropBlanks false s)), bind_fail h]

/-! ## Words -/

/-- No word goes on in a text. -/
def BreaksWord (s : List Char) : Prop :=
  ∀ c, s.head? = some c → isWordChar c = false

theorem breaksWord_cons (h : isWordChar c = false) (s : List Char) : BreaksWord (c :: s) := by
  intro d hd
  cases hd
  exact h

/-- A word character is none of those that break words. -/
theorem ne_of_isWordChar {d : Char} (hc : isWordChar c = true) (hd : isWordChar d = false) :
    c ≠ d := by
  rintro rfl
  rw [hc] at hd
  cases hd

theorem isWordChar_of_isIdentStart (h : isIdentStart c = true) : isWordChar c = true := by
  unfold isIdentStart at h
  unfold isWordChar Char.isAlphanum
  rcases Bool.or_eq_true_iff.1 h with h | h <;> simp [h]

theorem isBlank_of_isWordChar (hc : isWordChar c = true) : isBlank c = false := by
  have hfeed : c.toNat ≠ 12 := by
    intro h
    apply ne_of_isWordChar (d := Char.ofNat 12) hc rfl
    rw [← h, Char.ofNat_toNat]
  simp only [isBlank, Bool.or_eq_false_iff, beq_eq_false_iff_ne]
  exact ⟨⟨⟨⟨ne_of_isWordChar hc rfl, ne_of_isWordChar hc rfl⟩, ne_of_isWordChar hc rfl⟩, hfeed⟩,
    ne_of_isWordChar hc rfl⟩

theorem startsSolid_word (hc : isWordChar c = true) (s : List Char) : StartsSolid (c :: s) :=
  ⟨c, s, rfl, isBlank_of_isWordChar hc, ne_of_isWordChar hc rfl⟩

/-- A name is read up to where the word breaks. -/
theorem identifier_reads {cs : List Char} (hc : isIdentStart c = true)
    (hcs : ∀ d ∈ cs, isWordChar d = true) (ht : BreaksWord t) :
    identifier (c :: (cs ++ t)) = .ok (String.ofList (c :: cs)) t := by
  have hfirst : satisfy isIdentStart (c :: (cs ++ t)) = .ok c (cs ++ t) := by
    simp [satisfy, hc]
  unfold identifier
  rw [bind_ok hfirst, bind_ok (takeWhile_run hcs ht)]
  rfl

theorem identifier_fail (hc : isIdentStart c = false) (s : List Char) :
    identifier (c :: s) = .fail (c :: s) := by
  have hfirst : satisfy isIdentStart (c :: s) = .fail (c :: s) := by
    simp [satisfy, hc]
  exact bind_fail hfirst

/-- At least one word character, and no others. -/
def IsWord (text : String) : Prop :=
  text.toList ≠ [] ∧ ∀ c ∈ text.toList, isWordChar c = true

/-- A word is read back where no further word character follows. -/
theorem word_reads (h : IsWord name) (ht : BreaksWord t) :
    word (name.toList ++ t) = .ok name t := by
  unfold word
  rw [bind_ok (takeWhile1_run h.1 h.2 ht), String.ofList_toList]
  rfl

/-- The name of a value as it is written. -/
def percent (name : String) : String := "%" ++ name

/-- A label as it is written. -/
def caret (label : String) : String := "^" ++ label

theorem toList_percent (name : String) : (percent name).toList = '%' :: name.toList :=
  String.toList_append

theorem toList_caret (label : String) : (caret label).toList = '^' :: label.toList :=
  String.toList_append

theorem percent_startsSolid (name : String) : StartsSolid (percent name).toList :=
  toList_percent name ▸ ⟨'%', _, rfl, rfl, by decide⟩

theorem caret_startsSolid (label : String) : StartsSolid (caret label).toList :=
  toList_caret label ▸ ⟨'^', _, rfl, rfl, by decide⟩

/-- Names of values and labels are words behind their marks. -/
theorem valueName_reads (h : IsWord name) (ht : BreaksWord t) :
    valueName ((percent name).toList ++ t) = .ok name t := by
  rw [toList_percent]
  exact (bind_ok (char_self '%' _)).trans (word_reads h ht)

theorem blockLabel_reads (h : IsWord name) (ht : BreaksWord t) :
    blockLabel ((caret name).toList ++ t) = .ok name t := by
  rw [toList_caret]
  exact (bind_ok (char_self '^' _)).trans (word_reads h ht)

/-! ## Names -/

/-- A letter or underscore, then word characters. -/
def IsIdentifier (text : String) : Prop :=
  ∃ c cs, text.toList = c :: cs ∧ isIdentStart c = true ∧ ∀ d ∈ cs, isWordChar d = true

theorem IsIdentifier.startsSolid (h : IsIdentifier name) : StartsSolid name.toList := by
  obtain ⟨c, cs, htext, hc, -⟩ := h
  rw [htext]
  exact startsSolid_word (isWordChar_of_isIdentStart hc) cs

/-- A name is read back from its text. -/
theorem identifier_of_isIdentifier (h : IsIdentifier name) (ht : BreaksWord t) :
    identifier (name.toList ++ t) = .ok name t := by
  obtain ⟨c, cs, htext, hc, hcs⟩ := h
  have hname : String.ofList (c :: cs) = name := by
    rw [← htext, String.ofList_toList]
  rw [htext, List.cons_append, identifier_reads hc hcs ht, hname]

/-- A name with its dialect is read back from its text. -/
theorem qualifiedName_reads (hdialect : IsIdentifier dialect) (hname : IsIdentifier name)
    (ht : BreaksWord t) :
    qualifiedName (dialect.toList ++ '.' :: (name.toList ++ t)) = .ok (dialect, name) t := by
  unfold qualifiedName
  rw [bind_ok (identifier_of_isIdentifier hdialect (breaksWord_cons rfl _)),
    bind_ok (char_self '.' _), bind_ok (identifier_of_isIdentifier hname ht)]
  rfl

/-! ## Numbers -/

theorem isWordChar_of_isDigit (h : c.isDigit = true) : isWordChar c = true := by
  simp [isWordChar, Char.isAlphanum, h]

theorem isDigit_of_mem_digits {n : Nat} (h : c ∈ Nat.toDigits 10 n) : c.isDigit = true :=
  Nat.isDigit_of_mem_toDigits (by decide) (by decide) h

/-- A number is written with at least one digit. -/
theorem digits_start (k : Nat) :
    ∃ c cs, (toString k).toList = c :: cs ∧ ∀ d ∈ c :: cs, d.isDigit = true := by
  obtain ⟨c, cs, hdigits⟩ := List.exists_cons_of_ne_nil (Nat.toDigits_ne_nil (n := k) (b := 10))
  refine ⟨c, cs, Nat.toList_repr.trans hdigits, fun d hd => ?_⟩
  exact isDigit_of_mem_digits (hdigits ▸ hd)

/-- Only zero is written with a leading zero. -/
theorem toDigits_start (n : Nat) (hn : n ≠ 0) :
    ∃ c cs, Nat.toDigits 10 n = c :: cs ∧ c ≠ '0' := by
  induction n using Nat.strongRecOn with
  | _ n ih =>
    by_cases hlt : n < 10
    · refine ⟨n.digitChar, [], Nat.toDigits_of_lt_base hlt, ?_⟩
      intro hzero
      have hcode := Nat.toNat_digitChar_of_lt_ten hlt
      rw [hzero] at hcode
      exact hn (by have : '0'.toNat = 48 := rfl; omega)
    · obtain ⟨c, cs, hdigits, hc⟩ := ih (n / 10) (by omega) (by omega)
      refine ⟨c, cs ++ [(n % 10).digitChar], ?_, hc⟩
      rw [Nat.toDigits_of_base_le (by decide) (by omega), hdigits, List.cons_append]

/-- A number below the range is read back from its digits. -/
theorem natural_reads {n : Nat} (hn : n < Nat.pow 2 64) (ht : BreaksWord t) :
    natural ((toString n).toList ++ t) = .ok n t := by
  show natural (n.repr.toList ++ t) = .ok n t
  rw [Nat.toList_repr]
  by_cases hzero : n = 0
  · subst hzero
    rfl
  · obtain ⟨c, cs, hdigits, hc⟩ := toDigits_start n hzero
    have hrun : ∀ d ∈ c :: cs, d.isDigit = true := by
      intro d hd
      exact isDigit_of_mem_digits (hdigits ▸ hd)
    have hstop : ∀ d, t.head? = some d → d.isDigit = false := by
      intro d hd
      apply Bool.eq_false_iff.2
      intro hdigit
      have hword := isWordChar_of_isDigit hdigit
      rw [ht d hd] at hword
      cases hword
    have htake := takeWhile_run hrun hstop
    have hvalue : numberOfDigits (c :: cs) = n := by
      rw [← hdigits]
      exact Nat.ofDigitChars_toDigits (by decide) (by decide)
    injection htake with htake hdrop
    rw [hdigits, natural.eq_def]
    simp only [List.cons_append] at htake hdrop ⊢
    rw [if_neg hc, if_pos (hrun c (List.mem_cons_self ..)), htake, hdrop, hvalue]
    exact if_pos hn

theorem isDigit_of_isIdentStart (h : isIdentStart c = true) : c.isDigit = false := by
  have hstart : ((decide (c.val ≥ 'A'.val ∧ c.val ≤ 'Z'.val) ||
      (decide (c.val ≥ 'a'.val) && decide (c.val ≤ 'z'.val))) || c == '_') = true := h
  clear h
  simp only [Char.isDigit, Bool.or_eq_true, Bool.and_eq_true, decide_eq_true_eq, beq_iff_eq,
    Bool.and_eq_false_iff, decide_eq_false_iff_not, ge_iff_le,
    UInt32.le_iff_toNat_le] at hstart ⊢
  rcases hstart with (hupper | hlower) | rfl
  · simp at hupper ⊢
    omega
  · simp at hlower ⊢
    omega
  · decide

/-- No minus sign stands before another character. -/
theorem minusSign_missing (hc : c ≠ '-') (s : List Char) :
    minusSign (c :: s) = .ok false (c :: s) := by
  unfold minusSign
  rw [bind_ok (optional_fail (char_other hc s))]
  rfl

theorem natural_fail (hc : c.isDigit = false) (s : List Char) :
    natural (c :: s) = .fail (c :: s) := by
  have hzero : c ≠ '0' := by
    rintro rfl
    cases hc
  simp [natural, hzero, hc]

/-! ## Comma-separated lists -/

/-- A list is written as its first item and, for each further one, a comma, a blank and the item. -/
theorem commaSeparated_cons (x : String) (xs : List String) :
    (commaSeparated (x :: xs)).toList =
      x.toList ++ xs.flatMap fun y => ',' :: ' ' :: y.toList := by
  induction xs generalizing x with
  | nil => simp [commaSeparated]
  | cons y ys ih =>
    have hcons : commaSeparated (x :: y :: ys) = x ++ ", " ++ commaSeparated (y :: ys) :=
      String.intercalate_cons_cons
    rw [hcons, String.toList_append, String.toList_append, ih]
    simp

/-- A text that goes on with another item or ends a list. -/
inductive EndsItem : List Char → Prop where
  | comma (s : List Char) : EndsItem (',' :: s)
  | paren (s : List Char) : EndsItem (')' :: s)
  | bracket (s : List Char) : EndsItem (']' :: s)
  | brace (s : List Char) : EndsItem ('}' :: s)

/-- No word goes on at the end of an item. -/
theorem EndsItem.breaksWord (h : EndsItem t) : BreaksWord t := by
  cases h <;> exact breaksWord_cons rfl _

theorem EndsItem.startsSolid (h : EndsItem t) : StartsSolid t := by
  cases h <;> exact ⟨_, _, rfl, rfl, by decide⟩

/-- A list is no shorter than its items. -/
theorem length_le_commaSeparated {x : String} {xs : List String} (h : x ∈ xs) :
    x.toList.length ≤ (commaSeparated xs).toList.length := by
  have hlater : ∀ xs : List String, x ∈ xs →
      x.toList.length ≤ (xs.flatMap fun y => ',' :: ' ' :: y.toList).length := by
    intro xs hx
    induction xs with
    | nil => cases hx
    | cons y xs ih =>
      rw [List.flatMap_cons, List.length_append, List.length_cons, List.length_cons]
      rcases List.mem_cons.1 hx with rfl | hx
      · omega
      · have := ih hx
        omega
  cases xs with
  | nil => cases h
  | cons y xs =>
    rw [commaSeparated_cons, List.length_append]
    rcases List.mem_cons.1 h with rfl | h
    · omega
    · have := hlater xs h
      omega

/-- A list starts as its first item does. -/
theorem commaSeparated_map_startsSolid {text : α → String} {x : α}
    (h : StartsSolid (text x).toList) (xs : List α) :
    StartsSolid (commaSeparated ((x :: xs).map text)).toList := by
  rw [List.map_cons, commaSeparated_cons]
  exact h.append _

theorem commaSeparated_startsSolid {text : α → String} {xs : List α}
    (h : ∀ x ∈ xs, StartsSolid (text x).toList) (ht : StartsSolid t) :
    StartsSolid ((commaSeparated (xs.map text)).toList ++ t) := by
  cases xs with
  | nil => exact ht
  | cons x xs => exact (commaSeparated_map_startsSolid (h x List.mem_cons_self) xs).append t

/-- Reading a written list: `item` reads each item from its text, and after a comma and a blank it
does so too; neither reads past the closing character. -/
theorem separated_commaSeparated {item : Reader α} {separator : Reader Unit} {text : α → String}
    {r r₁ r₂ : List Char} {xs : List α}
    (hitem : ∀ x ∈ xs, ∀ t, EndsItem t → item ((text x).toList ++ t) = .ok x t)
    (hnext : ∀ x ∈ xs, ∀ t, EndsItem t →
      (do separator; item : Reader α) (',' :: ' ' :: ((text x).toList ++ t)) = .ok x t)
    (hclose : EndsItem r) (hnone : item r = .fail r₁)
    (hend : (do separator; item : Reader α) r = .fail r₂) :
    separated item separator ((commaSeparated (xs.map text)).toList ++ r) = .ok xs r := by
  have hmore : ∀ ys, (∀ y ∈ ys, y ∈ xs) →
      EndsItem (((ys.map text).flatMap fun y => ',' :: ' ' :: y.toList) ++ r) ∧
      ItemsRead (do separator; item : Reader α)
        (((ys.map text).flatMap fun y => ',' :: ' ' :: y.toList) ++ r) ys r := by
    -- along the items: what follows an item ends it, so the next one can be read
    intro ys hys
    induction ys with
    | nil => exact ⟨hclose, .done hend⟩
    | cons y ys ih =>
      obtain ⟨hy, hys⟩ := List.forall_mem_cons.1 hys
      obtain ⟨hends, hitems⟩ := ih hys
      have hread := hnext y hy _ hends
      simp only [List.map_cons, List.flatMap_cons, List.cons_append, List.append_assoc]
      exact ⟨.comma _, .step hread (by simp; omega) hitems⟩
  cases xs with
  | nil => exact separated_none hnone
  | cons x xs =>
    obtain ⟨hends, hitems⟩ := hmore xs fun y hy => List.mem_cons_of_mem x hy
    rw [List.map_cons, commaSeparated_cons, List.append_assoc]
    exact separated_reads (hitem x (List.mem_cons_self ..) _ hends) hitems

/-- Reading a written list without brackets around it: it ends where no comma follows an item. -/
theorem commaList1_reads {p : Reader α} {text : α → String} {Ends : List Char → Prop} {x : α}
    {xs : List α} (hcomma : ∀ s, Ends (',' :: s))
    (hsolid : ∀ y ∈ x :: xs, StartsSolid (text y).toList)
    (hitem : ∀ y ∈ x :: xs, ∀ t, Ends t → p ((text y).toList ++ t) = .ok y t) (ht : Ends t)
    (hnext : solid? t ≠ some ',') :
    commaList1 p ((commaSeparated ((x :: xs).map text)).toList ++ t) =
      .ok (x :: xs) (dropBlanks false t) := by
  have hpadded : ∀ y ∈ x :: xs, ∀ t, Ends t →
      padded p ((text y).toList ++ t) = .ok y (dropBlanks false t) := by
    intro y hy t ht
    apply padded_reads
    rw [((hsolid y hy).append t).dropBlanks_eq]
    exact hitem y hy t ht
  have hmore : ∀ ys, (∀ y ∈ ys, y ∈ x :: xs) →
      Ends (((ys.map text).flatMap fun y => ',' :: ' ' :: y.toList) ++ t) ∧
      ItemsRead (do char ','; padded p : Reader α)
        (dropBlanks false (((ys.map text).flatMap fun y => ',' :: ' ' :: y.toList) ++ t)) ys
        (dropBlanks false t) := by
    intro ys hys
    induction ys with
    | nil =>
      obtain ⟨r, hend⟩ : Fails (char ',') (dropBlanks false t) := char_fails hnext
      exact ⟨ht, .done (bind_fail hend)⟩
    | cons y ys ih =>
      obtain ⟨hy, hys⟩ := List.forall_mem_cons.1 hys
      obtain ⟨hends, hitems⟩ := ih hys
      have hshort := length_dropBlanks_le
        (((ys.map text).flatMap fun y => ',' :: ' ' :: y.toList) ++ t) false
      simp only [List.map_cons, List.flatMap_cons, List.cons_append, List.append_assoc]
      generalize ((ys.map text).flatMap fun y => ',' :: ' ' :: y.toList) ++ t = behind at *
      have hread : (do char ','; padded p : Reader α) (',' :: ' ' :: ((text y).toList ++ behind)) =
          .ok y (dropBlanks false behind) :=
        (bind_ok (char_self ',' _)).trans (hpadded y hy behind hends)
      refine ⟨hcomma _, .step hread ?_ hitems⟩
      show _ < (',' :: ' ' :: ((text y).toList ++ behind)).length
      simp only [List.length_cons, List.length_append]
      omega
  obtain ⟨hends, hitems⟩ := hmore xs fun y hy => List.mem_cons_of_mem x hy
  rw [List.map_cons, commaSeparated_cons, List.append_assoc]
  exact separated1_reads (hpadded x List.mem_cons_self _ hends) hitems

/-- What stands between brackets is read, with blanks on both sides skipped. -/
theorem bracketed_reads {opening closing : Char} {p : Reader α} {a : α}
    (h : p (dropBlanks false s) = .ok a rest) (hrest : dropBlanks false rest = closing :: t) :
    bracketed opening closing p (opening :: s) = .ok a t := by
  unfold bracketed
  rw [bind_ok (char_self opening s), bind_ok (rfl : blanks s = .ok () (dropBlanks false s)),
    bind_ok h, bind_ok (rfl : blanks rest = .ok () (dropBlanks false rest)), hrest,
    bind_ok (char_self closing t)]
  rfl

/-- A written list between brackets is read back if its items are and none starts with the closing
bracket. -/
theorem bracketed_commaList {p : Reader α} {text : α → String} {closing : Char} {xs : List α}
    (opening : Char) (hsolid : ∀ x ∈ xs, StartsSolid (text x).toList)
    (hitem : ∀ x ∈ xs, ∀ t, EndsItem t → p ((text x).toList ++ t) = .ok x t)
    (hclose : EndsItem (closing :: s)) (hcomma : closing ≠ ',') (hnone : Fails p (closing :: s)) :
    bracketed opening closing (commaList p)
      (opening :: ((commaSeparated (xs.map text)).toList ++ closing :: s)) = .ok xs s := by
  have hpadded : ∀ x ∈ xs, ∀ t, EndsItem t → padded p ((text x).toList ++ t) = .ok x t := by
    intro x hx t ht
    refine (padded_reads ?_).trans (congrArg _ ht.startsSolid.dropBlanks_eq)
    rw [((hsolid x hx).append t).dropBlanks_eq]
    exact hitem x hx t ht
  obtain ⟨r, hnone⟩ := hnone
  have hfirst : padded p (closing :: s) = .fail r := by
    apply padded_fail
    rw [hclose.startsSolid.dropBlanks_eq]
    exact hnone
  have hread : commaList p ((commaSeparated (xs.map text)).toList ++ closing :: s) =
      .ok xs (closing :: s) := by
    refine separated_commaSeparated hpadded (fun x hx t ht => ?_) hclose hfirst
      (bind_fail (char_other hcomma s))
    exact (bind_ok (char_self ',' _)).trans (hpadded x hx t ht)
  have hstart := commaSeparated_startsSolid hsolid hclose.startsSolid
  refine bracketed_reads ?_ hclose.startsSolid.dropBlanks_eq
  rw [hstart.dropBlanks_eq]
  exact hread

end AffineRaising.Surface
