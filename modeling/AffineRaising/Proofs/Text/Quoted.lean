/-
# AffineRaising.Proofs.Text.Quoted — quoted text is read back.

Reading undoes one written character at a time, so a quoted text is read back whatever characters it
has, and what follows its closing quote is left alone.

Two kinds of characters are escaped: the backslash and the quote by a backslash in front of them,
with letters for the usual control characters, and all other control characters by two hexadecimal
digits.  Everything else stands for itself.
-/
import AffineRaising.Proofs.Text.Reading
import AffineRaising.Text.Quoted

namespace AffineRaising.Text

open Reader

variable {c : Char} {n : Nat} {s rest : List Char}

/-! ## Escapes -/

theorem hexValue?_hexDigit (h : n < 16) : hexValue? (hexDigit n) = some n := by
  have hall : ∀ n < 16, hexValue? (hexDigit n) = some n := by decide
  exact hall n h

/-- The digits are not mistaken for a sign. -/
theorem hexDigit_ne_plus (h : n < 16) : hexDigit n ≠ '+' := by
  have hall : ∀ n < 16, hexDigit n ≠ '+' := by decide
  exact hall n h

/-- A control character has a code of two digits. -/
theorem isControl_lt (h : isControl c = true) : c.toNat < 16 * 16 := by
  unfold isControl at h
  simp only [Bool.or_eq_true, Bool.and_eq_true, decide_eq_true_eq] at h
  omega

/-- The two digits of a control character stand for it. -/
theorem unescapeHex_hexDigits (h : isControl c = true) :
    unescapeHex (hexDigit (c.toNat / 16)) (hexDigit (c.toNat % 16)) = [c] := by
  have hhigh : c.toNat / 16 < 16 := Nat.div_lt_of_lt_mul (isControl_lt h)
  have hlow : c.toNat % 16 < 16 := Nat.mod_lt _ (by decide)
  unfold unescapeHex
  rw [if_neg (hexDigit_ne_plus hhigh), hexValue?_hexDigit hhigh, hexValue?_hexDigit hlow]
  show [Char.ofNat (16 * (c.toNat / 16) + c.toNat % 16)] = [c]
  rw [Nat.div_add_mod, Char.ofNat_toNat]

/-! ## Quotes -/

/-- A quote ends the text. -/
theorem readQuotedTail_end (s : List Char) : readQuotedTail ('"' :: s) = .ok [] s := by
  rw [readQuotedTail.eq_def]
  exact if_pos rfl

/-- A backslash and a letter other than `x` stand for one character. -/
theorem readQuotedTail_simple {e : Char} (h : e ≠ 'x') (s : List Char) :
    readQuotedTail ('\\' :: e :: s) = (readQuotedTail s).prepend (unescapeSimple e) := by
  rw [readQuotedTail.eq_def]
  exact (if_neg (by decide)).trans ((if_pos rfl).trans (if_neg h))

/-- A backslash, `x` and two digits stand for one character. -/
theorem readQuotedTail_hex (h l : Char) (s : List Char) :
    readQuotedTail ('\\' :: 'x' :: h :: l :: s) =
      (readQuotedTail s).prepend (unescapeHex h l) := by
  rw [readQuotedTail.eq_def]
  exact (if_neg (by decide)).trans ((if_pos rfl).trans (if_pos rfl))

/-- Every other character stands for itself. -/
theorem readQuotedTail_plain (hslash : c ≠ '\\') (hquote : c ≠ '"') (s : List Char) :
    readQuotedTail (c :: s) = (readQuotedTail s).prepend [c] := by
  rw [readQuotedTail.eq_def]
  exact (if_neg hquote).trans (if_neg hslash)

/-- Reading undoes the writing of a character. -/
theorem readQuotedTail_escapeChar (c : Char) (s : List Char) :
    readQuotedTail (escapeChar c ++ s) = (readQuotedTail s).prepend [c] := by
  have hsimple : ∀ e d, e ≠ 'x' → unescapeSimple e = [d] →
      readQuotedTail (['\\', e] ++ s) = (readQuotedTail s).prepend [d] :=
    fun e d he hd => hd ▸ readQuotedTail_simple he s
  unfold escapeChar
  by_cases hslash : c = '\\'
  · subst hslash
    exact hsimple '\\' _ (by decide) rfl
  by_cases hquote : c = '"'
  · subst hquote
    exact hsimple '"' _ (by decide) rfl
  by_cases hfeed : c = '\n'
  · subst hfeed
    exact hsimple 'n' _ (by decide) rfl
  by_cases htab : c = '\t'
  · subst htab
    exact hsimple 't' _ (by decide) rfl
  by_cases hreturn : c = '\r'
  · subst hreturn
    exact hsimple 'r' _ (by decide) rfl
  rw [if_neg hslash, if_neg hquote, if_neg hfeed, if_neg htab, if_neg hreturn]
  by_cases hnul : c.toNat = 0
  · have hc : unescapeSimple '0' = [c] := by rw [← Char.ofNat_toNat c, hnul]; rfl
    rw [if_pos hnul]
    exact hsimple '0' c (by decide) hc
  rw [if_neg hnul]
  by_cases hcontrol : isControl c = true
  · rw [if_pos hcontrol, ← unescapeHex_hexDigits hcontrol]
    exact readQuotedTail_hex _ _ s
  · rw [if_neg hcontrol]
    exact readQuotedTail_plain hslash hquote s

/-- By induction on the characters, a text is read up to the quote behind it. -/
theorem readQuotedTail_escaped (cs rest : List Char) :
    readQuotedTail (cs.flatMap escapeChar ++ '"' :: rest) = .ok cs rest := by
  induction cs with
  | nil => exact readQuotedTail_end rest
  | cons c cs ih =>
    rw [List.flatMap_cons, List.append_assoc, readQuotedTail_escapeChar, ih]
    rfl

theorem toList_quote (text : String) :
    (quote text).toList = '"' :: (text.toList.flatMap escapeChar ++ ['"']) :=
  String.toList_ofList

/-- Quoted text is read back, and nothing after it is touched. -/
theorem readQuoted_quote (text : String) (rest : List Char) :
    readQuoted ((quote text).toList ++ rest) = .ok text rest := by
  have htail := readQuotedTail_escaped text.toList rest
  rw [toList_quote, List.cons_append, List.append_assoc, List.singleton_append]
  unfold readQuoted
  rw [bind_ok (char_self '"' _), bind_ok htail, String.ofList_toList]
  rfl

end AffineRaising.Text
