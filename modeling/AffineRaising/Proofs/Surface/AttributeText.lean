/-
# AffineRaising.Proofs.Surface.AttributeText — written attributes are read back.

Attributes and types hold each other, so the two are read back together, by induction on the levels
of nesting that are left.  Two levels for every character written are enough: an attribute that is a
type takes up a level without a character, but a type is never nested without one.

Most of the module is about what is passed over: the alternatives of an attribute are tried in a
fixed order, and for a text that was written for one of them all the earlier ones have to fail.  The
first character decides most of them (`attrWithin_other`, `unworded_unsigned`); for types, whose
dialect is any name, it is the shape of what can be read that excludes the words (`AvoidsWords`).
-/
import AffineRaising.Proofs.Surface.AffineText
import AffineRaising.Proofs.Surface.AttributeShape
import AffineRaising.Proofs.Text.Quoted

namespace AffineRaising.IR

open AffineRaising.Affine (commaSeparated)

/-! ## Parts of attributes -/

mutual

/-- The attributes in the dictionaries of a type, at any depth. -/
def Ty.parts : Ty → List Attr
  | .mk _ _ ps as => partsOfTys ps ++ partsOfEntries as
termination_by structural t => t

/-- An attribute and all attributes in it. -/
def Attr.parts : Attr → List Attr
  | .type t => .type t :: t.parts
  | .list items => .list items :: partsOfAttrs items
  | a => [a]

/-- The attributes in some types. -/
def partsOfTys : List Ty → List Attr
  | [] => []
  | t :: ts => t.parts ++ partsOfTys ts

/-- The parts of some attributes. -/
def partsOfAttrs : List Attr → List Attr
  | [] => []
  | a :: as => a.parts ++ partsOfAttrs as

/-- The parts of the attributes of some entries. -/
def partsOfEntries : List (String × Attr) → List Attr
  | [] => []
  | (_, v) :: rest => v.parts ++ partsOfEntries rest

end

theorem partsOfTys_eq : ∀ ts, partsOfTys ts = ts.flatMap Ty.parts
  | [] => rfl
  | t :: ts => by rw [partsOfTys, partsOfTys_eq ts, List.flatMap_cons]

theorem partsOfAttrs_eq : ∀ as, partsOfAttrs as = as.flatMap Attr.parts
  | [] => rfl
  | a :: as => by rw [partsOfAttrs, partsOfAttrs_eq as, List.flatMap_cons]

theorem partsOfEntries_eq : ∀ es, partsOfEntries es = es.flatMap fun e => e.2.parts
  | [] => rfl
  | (k, v) :: es => by rw [partsOfEntries, partsOfEntries_eq es, List.flatMap_cons]

theorem renderTys_eq : ∀ ts, renderTys ts = ts.map Ty.render
  | [] => rfl
  | t :: ts => by rw [renderTys, renderTys_eq ts, List.map_cons]

theorem renderAttrs_eq : ∀ as, renderAttrs as = as.map Attr.render
  | [] => rfl
  | a :: as => by rw [renderAttrs, renderAttrs_eq as, List.map_cons]

/-- The text of a dictionary entry. -/
def renderEntry (e : String × Attr) : String :=
  e.1 ++ " = " ++ e.2.render

theorem renderEntries_eq : ∀ es, renderEntries es = es.map renderEntry
  | [] => rfl
  | (k, v) :: es => by
    rw [renderEntries, renderEntries_eq es, List.map_cons]
    rfl

end AffineRaising.IR

namespace AffineRaising.Surface

open AffineRaising.Affine AffineRaising.IR AffineRaising.Text AffineRaising.Text.Reader

variable {c : Char} {s t rest : List Char} {name dialect : String} {w : Int64} {depth : Nat}

/-! ## Symbols and numbers -/

/-- A symbol without a quote is a word. -/
theorem symbolName_word (hc : c ≠ '"') (s : List Char) :
    symbolName ('@' :: c :: s) = word (c :: s) := by
  have hnext : nextIs (· == '"') (c :: s) = .ok false (c :: s) := by
    simp [nextIs, hc]
  unfold symbolName
  rw [bind_ok (char_self '@' _), bind_ok hnext]
  rfl

/-- A symbol is read back from its text, quoted or not. -/
theorem symbolName_reads (name : String) (ht : BreaksWord t) :
    symbolName ((renderSymbol name).toList ++ t) = .ok name t := by
  unfold renderSymbol
  split
  · have hread := readQuoted_quote name t
    rw [toList_quote] at hread
    rw [String.toList_append, toList_quote]
    exact hread
  · rename_i hplain
    obtain ⟨hne, hall⟩ : name ≠ "" ∧ ∀ d ∈ name.toList, isNameChar d = true := by
      simpa using hplain
    have hchars : ∀ d ∈ name.toList, isWordChar d = true := hall
    obtain ⟨c, cs, hname⟩ := List.exists_cons_of_ne_nil (mt String.toList_eq_nil_iff.1 hne)
    have hword : word (name.toList ++ t) = .ok name t :=
      word_reads ⟨hname ▸ List.cons_ne_nil c cs, hchars⟩ ht
    have hfirst : isWordChar c = true := hchars c (hname ▸ List.mem_cons_self)
    rw [String.toList_append]
    rw [hname] at hword ⊢
    exact (symbolName_word (ne_of_isWordChar hfirst rfl) _).trans hword

/-- A negative word is written with a minus sign in front of its magnitude. -/
theorem minusSign_decimal (w : Int64) (t : List Char) :
    minusSign ((decimal w).toList ++ t) =
      .ok (decide (w.toInt < 0)) ((toString w.toInt.natAbs).toList ++ t) := by
  by_cases hneg : w.toInt < 0
  · rw [decimal_of_neg hneg, decide_eq_true hneg, String.toList_append]
    rfl
  · obtain ⟨c, cs, htext, hdigits⟩ := digits_start w.toInt.natAbs
    have hword := isWordChar_of_isDigit (hdigits c List.mem_cons_self)
    rw [decimal_of_nonneg (by omega), decide_eq_false hneg, htext]
    exact minusSign_missing (ne_of_isWordChar hword rfl) (cs ++ t)

/-- A word is read back from its decimal text, the least word included. -/
theorem signedWord_decimal (w : Int64) (ht : BreaksWord t) :
    signedWord ((decimal w).toList ++ t) = .ok w t := by
  have hlow := Int64.le_toInt w
  have hhigh := Int64.toInt_lt w
  have hpow : Nat.pow 2 64 = 2 * 2 ^ 63 := rfl
  have hvalue : (if decide (w.toInt < 0) = true then -(w.toInt.natAbs : Int)
      else w.toInt.natAbs) = w.toInt := by
    simp only [decide_eq_true_eq]
    split <;> omega
  unfold signedWord
  rw [bind_ok (minusSign_decimal w t), bind_ok (natural_reads (by omega) ht), hvalue,
    wordOf?_toInt]
  rfl

theorem takeWhile1_digits (k : Nat) (ht : BreaksWord t) :
    takeWhile1 Char.isDigit ((toString k).toList ++ t) = .ok (toString k).toList t := by
  obtain ⟨c, cs, htext, hdigits⟩ := digits_start k
  rw [htext]
  refine takeWhile1_run (List.cons_ne_nil c cs) hdigits fun d hd => ?_
  apply Bool.eq_false_iff.2
  intro hdigit
  exact absurd (isWordChar_of_isDigit hdigit) (by rw [ht d hd]; decide)

/-- Without a point a number is no float. -/
theorem floatLiteral_decimal (w : Int64) (ht : EndsItem t) :
    Fails floatLiteral ((decimal w).toList ++ t) := by
  have hpoint : Fails (char '.') t := by
    cases ht <;> exact ⟨_, rfl⟩
  refine .after (minusSign_decimal w t) (.after (takeWhile1_digits _ ht.breaksWord) ?_)
  exact hpoint.bind _

/-! ## Alternatives that are passed over -/

/-- The alternatives for an attribute that do not start with a given word. -/
def unworded (depth : Nat) : Reader Attr :=
  orElse (do return .string (← readQuoted)) <|
  orElse (do return .symbol (← symbolName)) <|
  orElse (do return .list (← bracketed '[' ']' (commaList (attrWithin depth)))) <|
  orElse (do return .float (← floatLiteral)) <|
  orElse (do return .int (← signedWord))
    (do return .type (← typeWithin depth))

/-- A text that starts with no literal word is read by the alternatives behind them. -/
theorem attrWithin_worded (hwords : AvoidsWords s) : attrWithin (depth + 1) s =
    orElse (do return .map (← affineMap)) (orElse (do return .constraints (← affineSet))
      (unworded depth)) s := by
  have hword : ∀ w ∈ literalWords, ∀ a : Attr, Fails (do literal w; return a) s :=
    fun w hw a => (literal_fails (hwords w hw)).bind _
  rw [attrWithin, (hword "true" (by decide) _).orElse_eq, (hword "false" (by decide) _).orElse_eq,
    (hword "unit" (by decide) _).orElse_eq]
  rfl

/-- Nor does it start a map or a set. -/
theorem attrWithin_unworded (hwords : AvoidsWords s) (hmap : Fails affineMap s)
    (hset : Fails affineSet s) : attrWithin (depth + 1) s = unworded depth s := by
  rw [attrWithin_worded hwords, (hmap.bind _).orElse_eq, (hset.bind _).orElse_eq]

theorem not_prefix_of_ne {d : Char} {ds : List Char} (h : d ≠ c) (s : List Char) :
    ¬ (d :: ds) <+: (c :: s) :=
  fun hprefix => h (List.cons_prefix_cons.1 hprefix).1

/-- The first character decides whether a literal word can stand there. -/
theorem avoidsWords_of_first (hc : c ∉ ['t', 'f', 'u']) (s : List Char) :
    AvoidsWords (c :: s) := by
  simp only [List.mem_cons, List.not_mem_nil, or_false, not_or] at hc
  obtain ⟨ht, hf, hu⟩ := hc
  intro w hw
  simp only [literalWords, List.mem_cons, List.not_mem_nil, or_false] at hw
  rcases hw with rfl | rfl | rfl
  · exact not_prefix_of_ne (Ne.symm ht) s
  · exact not_prefix_of_ne (Ne.symm hf) s
  · exact not_prefix_of_ne (Ne.symm hu) s

/-- None of the given words starts with another letter. -/
theorem attrWithin_other (hc : c ∉ ['a', 't', 'f', 'u']) (s : List Char) :
    attrWithin (depth + 1) (c :: s) = unworded depth (c :: s) := by
  obtain ⟨ha, hc⟩ := not_or.1 (mt List.mem_cons.2 hc)
  have hmap : ¬ "affine_map".toList <+: c :: s := not_prefix_of_ne (Ne.symm ha) s
  have hset : ¬ "affine_set".toList <+: c :: s := not_prefix_of_ne (Ne.symm ha) s
  exact attrWithin_unworded (avoidsWords_of_first hc s) ((literal_fails hmap).bind _)
    ((literal_fails hset).bind _)

/-- Numbers and types start with none of the signs. -/
theorem unworded_unsigned (hquote : c ≠ '"') (hat : c ≠ '@') (hbracket : c ≠ '[') (s : List Char) :
    unworded depth (c :: s) =
      orElse (do return .float (← floatLiteral)) (orElse (do return .int (← signedWord))
        (do return .type (← typeWithin depth))) (c :: s) := by
  have hstring : Fails readQuoted (c :: s) := ⟨_, bind_fail (char_other hquote s)⟩
  have hsymbol : Fails symbolName (c :: s) := ⟨_, bind_fail (char_other hat s)⟩
  have hlist : Fails (bracketed '[' ']' (commaList (attrWithin depth))) (c :: s) :=
    ⟨_, bind_fail (char_other hbracket s)⟩
  rw [unworded, (hstring.bind _).orElse_eq, (hsymbol.bind _).orElse_eq, (hlist.bind _).orElse_eq]

/-! ## Literals, maps and sets -/

theorem attrWithin_bool (b : Bool) (t : List Char) :
    attrWithin (depth + 1) ((Attr.bool b).render.toList ++ t) = .ok (.bool b) t := by
  cases b <;> rfl

theorem attrWithin_unit (t : List Char) :
    attrWithin (depth + 1) (Attr.unit.render.toList ++ t) = .ok .unit t :=
  rfl

theorem attrWithin_string (text : String) (t : List Char) :
    attrWithin (depth + 1) ((Attr.string text).render.toList ++ t) = .ok (.string text) t := by
  have hread := readQuoted_quote text t
  show attrWithin (depth + 1) ((quote text).toList ++ t) = _
  rw [toList_quote, List.cons_append] at hread ⊢
  rw [attrWithin_other (by decide), unworded]
  refine orElse_ok ?_ _
  rw [bind_ok hread]
  rfl

theorem attrWithin_symbol (name : String) (ht : BreaksWord t) :
    attrWithin (depth + 1) ((Attr.symbol name).render.toList ++ t) = .ok (.symbol name) t := by
  have hread := symbolName_reads name ht
  obtain ⟨s, hs⟩ : ∃ s, (renderSymbol name).toList ++ t = '@' :: s := by
    unfold renderSymbol
    split <;> exact ⟨_, by rw [String.toList_append]; rfl⟩
  show attrWithin (depth + 1) ((renderSymbol name).toList ++ t) = _
  rw [hs] at hread ⊢
  have hstring : Fails readQuoted ('@' :: s) := ⟨_, bind_fail (char_other (by decide) s)⟩
  rw [attrWithin_other (by decide), unworded, (hstring.bind _).orElse_eq]
  refine orElse_ok ?_ _
  rw [bind_ok hread]
  rfl

/-- A number is read back; the alternative of a float fails for want of a point. -/
theorem attrWithin_int (w : Int64) (ht : EndsItem t) :
    attrWithin (depth + 1) ((Attr.int w).render.toList ++ t) = .ok (.int w) t := by
  have hread := signedWord_decimal w ht.breaksWord
  have hfloat := floatLiteral_decimal w ht
  obtain ⟨c, s, hs, hc⟩ : ∃ c s, (decimal w).toList ++ t = c :: s ∧
      (c = '-' ∨ c.isDigit = true) := by
    by_cases hneg : w.toInt < 0
    · exact ⟨'-', _, by rw [decimal_of_neg hneg, String.toList_append]; rfl, .inl rfl⟩
    · obtain ⟨c, cs, htext, hdigits⟩ := digits_start w.toInt.natAbs
      refine ⟨c, cs ++ t, ?_, .inr (hdigits c List.mem_cons_self)⟩
      rw [decimal_of_nonneg (by omega), htext, List.cons_append]
  have hne : ∀ d : Char, d ≠ '-' → d.isDigit = false → c ≠ d := by
    rintro d hminus hdigit rfl
    rcases hc with rfl | hc
    · exact hminus rfl
    · rw [hdigit] at hc
      cases hc
  have hletters : c ∉ ['a', 't', 'f', 'u'] := by
    simp only [List.mem_cons, List.not_mem_nil, or_false, not_or]
    exact ⟨hne 'a' (by decide) rfl, hne 't' (by decide) rfl, hne 'f' (by decide) rfl,
      hne 'u' (by decide) rfl⟩
  show attrWithin (depth + 1) ((decimal w).toList ++ t) = _
  rw [hs] at hread hfloat ⊢
  rw [attrWithin_other hletters, unworded_unsigned (hne '"' (by decide) rfl)
    (hne '@' (by decide) rfl) (hne '[' (by decide) rfl), (hfloat.bind _).orElse_eq]
  refine orElse_ok ?_ _
  rw [bind_ok hread]
  rfl

/-- A map is read back if its results are legible. -/
theorem attrWithin_map {m : Map} (h : ∀ e ∈ m.results, Legible m.numDims m.numSymbols e)
    (t : List Char) :
    attrWithin (depth + 1) ((Attr.map m).render.toList ++ t) = .ok (.map m) t := by
  have hread := affineMap_reads h t
  obtain ⟨s, hs⟩ : ∃ s, m.render.toList ++ t = 'a' :: s := ⟨_, by simp [Map.render]; rfl⟩
  show attrWithin (depth + 1) (m.render.toList ++ t) = _
  rw [hs] at hread ⊢
  rw [attrWithin_worded (avoidsWords_of_first (by decide) s)]
  refine orElse_ok ?_ _
  rw [bind_ok hread]
  rfl

/-- A set is read back if its constraints are legible. -/
theorem attrWithin_constraints {set : ConstraintSet}
    (h : ∀ c ∈ set.constraints, Legible set.numDims set.numSymbols c.expr) (t : List Char) :
    attrWithin (depth + 1) ((Attr.constraints set).render.toList ++ t) =
      .ok (.constraints set) t := by
  have hread := affineSet_reads h t
  obtain ⟨s, hs⟩ : ∃ s, set.render.toList ++ t = "affine_set".toList ++ s :=
    ⟨_, by simp [ConstraintSet.render]; rfl⟩
  show attrWithin (depth + 1) (set.render.toList ++ t) = _
  rw [hs] at hread ⊢
  have havoid : AvoidsWords ("affine_set".toList ++ s) := avoidsWords_of_first (by decide) _
  have hmap : Fails affineMap ("affine_set".toList ++ s) := ⟨_, bind_fail rfl⟩
  rw [attrWithin_worded havoid, (hmap.bind _).orElse_eq]
  refine orElse_ok ?_ _
  rw [bind_ok hread]
  rfl

/-! ## Qualified names -/

/-- A word without a point that starts a qualified name starts its dialect. -/
theorem prefix_of_prefix_cons {w u r : List Char} (hw : c ∉ w) (h : w <+: u ++ c :: r) :
    w <+: u := by
  rcases List.prefix_or_prefix_of_prefix h (List.prefix_append u (c :: r)) with h' | ⟨v, rfl⟩
  · exact h'
  · cases v with
    | nil => simp
    | cons d v =>
      obtain ⟨rfl, -⟩ := List.cons_prefix_cons.1 ((List.prefix_append_right_inj u).1 h)
      exact absurd (by simp) hw

/-- No map or set starts with a qualified name: after its word, the angle bracket is missing. -/
theorem angle_fails {α : Type} {w : String} (hdialect : IsIdentifier dialect)
    (hw : '.' ∉ w.toList) (f : Unit → Reader α) (r : List Char) :
    Fails (literal w >>= fun _ => blanks >>= fun _ => char '<' >>= f)
      (dialect.toList ++ '.' :: r) := by
  by_cases hprefix : w.toList <+: dialect.toList ++ '.' :: r
  · obtain ⟨more, hmore⟩ := prefix_of_prefix_cons hw hprefix
    have hwords : ∀ d ∈ more, isWordChar d = true := by
      obtain ⟨c, cs, htext, hc, hcs⟩ := hdialect
      intro d hd
      have hmem : d ∈ c :: cs := htext ▸ hmore ▸ List.mem_append_right _ hd
      rcases List.mem_cons.1 hmem with rfl | hmem
      · exact isWordChar_of_isIdentStart hc
      · exact hcs d hmem
    obtain ⟨d, ds, hnext, hsolid, hne⟩ : ∃ d ds, more ++ '.' :: r = d :: ds ∧
        StartsSolid (d :: ds) ∧ d ≠ '<' := by
      cases more with
      | nil => exact ⟨'.', r, rfl, ⟨_, _, rfl, rfl, by decide⟩, by decide⟩
      | cons d ds =>
        have hd := hwords d List.mem_cons_self
        exact ⟨d, ds ++ '.' :: r, rfl, startsSolid_word hd _, ne_of_isWordChar hd rfl⟩
    have hangle : Fails (char '<' >>= f) (d :: ds) := ⟨_, bind_fail (char_other hne ds)⟩
    rw [← hmore, List.append_assoc, hnext]
    exact .after (literal_self w _) (.after hsolid.blanks_eq hangle)
  · exact (literal_fails hprefix).bind _

/-! ## Closing brackets -/

/-- No type starts with what is no letter. -/
theorem typeWithin_fails (hc : isIdentStart c = false) (depth : Nat) (s : List Char) :
    Fails (typeWithin depth) (c :: s) := by
  cases depth with
  | zero => exact ⟨_, rfl⟩
  | succ depth =>
    have hname : Fails qualifiedName (c :: s) := ⟨_, bind_fail (identifier_fail hc s)⟩
    exact hname.bind _

/-- No attribute starts with a closing bracket, so a list ends there. -/
theorem attrWithin_fails (depth : Nat) (s : List Char) : Fails (attrWithin depth) (']' :: s) := by
  cases depth with
  | zero => exact ⟨_, rfl⟩
  | succ depth =>
    obtain ⟨r, hnone⟩ := typeWithin_fails (c := ']') rfl depth s
    have hminus := minusSign_missing (c := ']') (by decide) s
    have hfloat : Fails floatLiteral (']' :: s) :=
      .after hminus (.bind ⟨_, takeWhile1_fail rfl s⟩ _)
    have hint : Fails signedWord (']' :: s) := .after hminus (.bind ⟨_, natural_fail rfl s⟩ _)
    refine ⟨r, ?_⟩
    rw [attrWithin_other (by decide), unworded_unsigned (by decide) (by decide) (by decide),
      (hfloat.bind _).orElse_eq, (hint.bind _).orElse_eq]
    exact bind_fail hnone

/-! ## Dictionaries -/

variable {param : Reader Ty} {attr : Reader Attr} {ps : List Ty} {as : Dict} {items : List Attr}

/-- A written item is read back from its text. -/
structure ItemReads {α : Type} (p : Reader α) (text : String) (x : α) : Prop where
  solid : StartsSolid text.toList
  reads : ∀ t, EndsItem t → p (text.toList ++ t) = .ok x t

/-- An entry of a dictionary is read back if its value is. -/
theorem entry_reads {key : String} {value : Attr} (hkey : IsIdentifier key)
    (h : ItemReads attr value.render value) : ItemReads (do
      let key ← identifier
      blanks
      char '='
      blanks
      let value ← attr
      return (key, value)) (renderEntry (key, value)) (key, value) := by
  have htext : (renderEntry (key, value)).toList =
      key.toList ++ ' ' :: '=' :: ' ' :: value.render.toList := by
    simp [renderEntry]
  have hequals : ∀ s, StartsSolid ('=' :: s) := fun s => ⟨_, _, rfl, rfl, by decide⟩
  refine ⟨htext ▸ hkey.startsSolid.append _, fun t ht => ?_⟩
  rw [htext, List.append_assoc, List.cons_append, List.cons_append, List.cons_append,
    bind_ok (identifier_of_isIdentifier hkey (breaksWord_cons rfl _)),
    bind_ok (hequals _).blanks_space, bind_ok (char_self '=' _),
    bind_ok (h.solid.append t).blanks_space, bind_ok (h.reads t ht)]
  rfl

/-- A dictionary is read back entry by entry. -/
theorem dictOf_reads (hkeys : ∀ e ∈ as, IsIdentifier e.1)
    (hattr : ∀ e ∈ as, ItemReads attr e.2.render e.2) (t : List Char) :
    dictOf attr ('{' :: ((commaSeparated (as.map renderEntry)).toList ++ '}' :: t)) =
      .ok as t := by
  have hentries := fun e he => entry_reads (hkeys e he) (hattr e he)
  have hnone : Fails identifier ('}' :: t) := ⟨_, identifier_fail rfl t⟩
  exact bracketed_commaList _ (fun e he => (hentries e he).solid)
    (fun e he => (hentries e he).reads) (.brace t) (by decide) (hnone.bind _)

theorem toList_renderDict (has : as ≠ []) : as.render.toList =
    ' ' :: '{' :: ((commaSeparated (as.map renderEntry)).toList ++ ['}']) := by
  have hne : (as.map renderEntry).isEmpty = false := by
    simpa using has
  unfold Dict.render renderBraces
  rw [renderEntries_eq, if_neg (by rw [hne]; decide)]
  simp

/-- No dictionary stands at the start of a text. -/
def NoDict (s : List Char) : Prop :=
  ∀ attr : Reader Attr, Fails (do blanks; dictOf attr) s

theorem noDict_of_solid? (h : solid? s ≠ some '{') : NoDict s :=
  fun _ => fails_after_blanks h

/-- A type may end at a text that goes on with no word, no parameters and no dictionary. -/
structure EndsType (s : List Char) : Prop where
  breaks : BreaksWord s
  noParams : s.head? ≠ some '('
  noDict : NoDict s

/-- In a list, and wherever a bracket is closed, types end. -/
theorem EndsItem.endsType (h : EndsItem s) : EndsType s := by
  refine ⟨h.breaksWord, ?_, noDict_of_solid? ?_⟩
  · cases h <;> exact fun h => by cases h
  · rw [h.startsSolid.solid?_eq]
    cases h <;> exact fun h => by cases h

/-- A dictionary that follows a type is read back, and nothing is read where it is empty. -/
theorem optional_dict_reads (hkeys : ∀ e ∈ as, IsIdentifier e.1) (hasc : as.Ascending)
    (hattr : ∀ e ∈ as, ItemReads attr e.2.render e.2) (ht : NoDict t) :
    ∃ entries, optional (do blanks; dictOf attr) (as.render.toList ++ t) = .ok entries t ∧
      Dict.ofEntries (entries.getD []) = as := by
  by_cases has : as = []
  · subst has
    obtain ⟨r, hfail⟩ := ht attr
    exact ⟨none, optional_fail hfail, rfl⟩
  · have hread := dictOf_reads hkeys hattr t
    have hsolid : StartsSolid
        ('{' :: ((commaSeparated (as.map renderEntry)).toList ++ '}' :: t)) :=
      ⟨_, _, rfl, rfl, by decide⟩
    refine ⟨some as, optional_ok ?_, Dict.ofEntries_of_ascending hasc⟩
    rw [toList_renderDict has, List.cons_append, List.cons_append, List.append_assoc,
      List.singleton_append, bind_ok hsolid.blanks_space]
    exact hread

/-! ## Types and lists -/

theorem toList_renderTy (dialect name : String) (ps : List Ty) (as : Dict) :
    (Ty.mk dialect name ps as).render.toList = dialect.toList ++ '.' :: (name.toList ++
      if ps = [] ∧ as = [] then []
      else '(' :: ((commaSeparated (ps.map Ty.render)).toList ++ ')' :: as.render.toList)) := by
  have hempty : (ps.isEmpty && as.isEmpty) = decide (ps = [] ∧ as = []) := by
    rw [Bool.decide_and]
    cases ps <;> cases as <;> rfl
  rw [Ty.render, renderTys_eq, hempty]
  by_cases h : ps = [] ∧ as = []
  · obtain ⟨rfl, rfl⟩ := h
    simp [renderEntries, renderBraces]
  · simp [h, Dict.render]

/-- A type is read back if its parameters and attributes are. -/
theorem typeOf_reads (hdialect : IsIdentifier dialect) (hname : IsIdentifier name)
    (hparam : ∀ p ∈ ps, ItemReads param p.render p) (hnone : ∀ s, Fails param (')' :: s))
    (hkeys : ∀ e ∈ as, IsIdentifier e.1) (hasc : as.Ascending)
    (hattr : ∀ e ∈ as, ItemReads attr e.2.render e.2) (ht : EndsType t) :
    typeOf param attr ((Ty.mk dialect name ps as).render.toList ++ t) =
      .ok (.mk dialect name ps as) t := by
  rw [toList_renderTy, List.append_assoc, List.cons_append, List.append_assoc]
  unfold typeOf
  by_cases h : ps = [] ∧ as = []
  · obtain ⟨rfl, rfl⟩ := h
    obtain ⟨r, hopen⟩ : Fails (bracketed '(' ')' (commaList param)) t :=
      (char_fails ht.noParams).bind _
    rw [if_pos ⟨rfl, rfl⟩, List.nil_append,
      bind_ok (qualifiedName_reads hdialect hname ht.breaks)]
    show (Reader.optional (bracketed '(' ')' (commaList param)) >>= _) t = _
    rw [bind_ok (optional_fail hopen)]
    rfl
  · obtain ⟨entries, hentries, hdict⟩ := optional_dict_reads hkeys hasc hattr ht.noDict
    have hlist := bracketed_commaList '(' (fun p hp => (hparam p hp).solid)
      (fun p hp => (hparam p hp).reads) (.paren (as.render.toList ++ t)) (by decide) (hnone _)
    rw [if_neg h, List.cons_append, List.append_assoc, List.cons_append,
      bind_ok (qualifiedName_reads hdialect hname (breaksWord_cons rfl _))]
    show (Reader.optional (bracketed '(' ')' (commaList param)) >>= _) _ = _
    rw [bind_ok (optional_ok hlist)]
    show (Reader.optional (do blanks; dictOf attr) >>= _) _ = _
    rw [bind_ok hentries, hdict]
    rfl

/-- A type stands for an attribute if its dialect starts with no literal word. -/
theorem attrWithin_type {ty : Ty} (hdialect : IsIdentifier ty.dialect)
    (hwords : AvoidsWords ty.dialect.toList)
    (hread : typeWithin depth (ty.render.toList ++ t) = .ok ty t) :
    attrWithin (depth + 1) ((Attr.type ty).render.toList ++ t) = .ok (.type ty) t := by
  obtain ⟨r, htext⟩ : ∃ r, ty.render.toList ++ t = ty.dialect.toList ++ '.' :: r := by
    obtain ⟨dialect, name, ps, as⟩ := ty
    rw [toList_renderTy, List.append_assoc, List.cons_append]
    exact ⟨_, rfl⟩
  have havoid : AvoidsWords (ty.dialect.toList ++ '.' :: r) := by
    intro w hw hprefix
    refine hwords w hw (prefix_of_prefix_cons ?_ hprefix)
    simp only [literalWords, List.mem_cons, List.not_mem_nil, or_false] at hw
    rcases hw with rfl | rfl | rfl <;> decide
  have hmap : Fails affineMap (ty.dialect.toList ++ '.' :: r) :=
    angle_fails hdialect (by decide) _ r
  have hset : Fails affineSet (ty.dialect.toList ++ '.' :: r) :=
    angle_fails hdialect (by decide) _ r
  show attrWithin (depth + 1) (ty.render.toList ++ t) = _
  rw [htext] at hread ⊢
  rw [attrWithin_unworded havoid hmap hset]
  obtain ⟨c, cs, hname, hc, -⟩ := hdialect
  rw [hname, List.cons_append] at hread ⊢
  have hword := isWordChar_of_isIdentStart hc
  have hdigit := isDigit_of_isIdentStart hc
  have hminus : minusSign (c :: (cs ++ '.' :: r)) = .ok false (c :: (cs ++ '.' :: r)) :=
    minusSign_missing (ne_of_isWordChar hword rfl) _
  have hfloat : Fails floatLiteral (c :: (cs ++ '.' :: r)) :=
    .after hminus (.bind ⟨_, takeWhile1_fail hdigit _⟩ _)
  have hint : Fails signedWord (c :: (cs ++ '.' :: r)) :=
    .after hminus (.bind ⟨_, natural_fail hdigit _⟩ _)
  rw [unworded_unsigned (ne_of_isWordChar hword rfl) (ne_of_isWordChar hword rfl)
    (ne_of_isWordChar hword rfl), (hfloat.bind _).orElse_eq, (hint.bind _).orElse_eq,
    bind_ok hread]
  rfl

theorem typeText_startsSolid {ty : Ty} (h : WellFormedTy ty) : StartsSolid ty.render.toList := by
  obtain ⟨hdialect, -⟩ := h
  rw [toList_renderTy]
  exact hdialect.startsSolid.append _

/-- A parameter takes up less text than its type. -/
theorem length_param {ty p : Ty} (hp : p ∈ ty.params) :
    p.render.toList.length + 1 ≤ ty.render.toList.length := by
  obtain ⟨dialect, name, ps, as⟩ := ty
  have hlist := length_le_commaSeparated (List.mem_map_of_mem (f := Ty.render) hp)
  have hps : ps ≠ [] := List.ne_nil_of_mem hp
  rw [toList_renderTy, if_neg fun h => hps h.1]
  simp only [List.length_append, List.length_cons]
  have : (commaSeparated (ps.map Ty.render)).toList.length ≥ p.render.toList.length := hlist
  omega

theorem length_value {ty : Ty} {e : String × Attr} (he : e ∈ ty.attrs) :
    e.2.render.toList.length + 1 ≤ ty.render.toList.length := by
  obtain ⟨dialect, name, ps, as⟩ := ty
  have hlist : (renderEntry e).toList.length ≤
      (commaSeparated (as.map renderEntry)).toList.length :=
    length_le_commaSeparated (List.mem_map_of_mem he)
  have hentry : e.2.render.toList.length ≤ (renderEntry e).toList.length := by
    simp [renderEntry]
    omega
  have has : as ≠ [] := List.ne_nil_of_mem he
  rw [toList_renderTy, if_neg fun h => has h.2, toList_renderDict has]
  simp only [List.length_append, List.length_cons]
  omega

theorem toList_renderList (items : List Attr) : (Attr.list items).render.toList =
    '[' :: ((commaSeparated (items.map Attr.render)).toList ++ [']']) := by
  rw [Attr.render, renderAttrs_eq]
  simp

/-- An item takes up less text than its list. -/
theorem length_member {a : Attr} (ha : a ∈ items) :
    a.render.toList.length + 1 ≤ (Attr.list items).render.toList.length := by
  have hlist := length_le_commaSeparated (List.mem_map_of_mem (f := Attr.render) ha)
  rw [toList_renderList]
  simp only [List.length_append, List.length_cons]
  omega

/-- A list is read back if its items are. -/
theorem attrWithin_list (h : ∀ a ∈ items, ItemReads (attrWithin depth) a.render a) (t : List Char) :
    attrWithin (depth + 1) ((Attr.list items).render.toList ++ t) = .ok (.list items) t := by
  have hread := bracketed_commaList '[' (fun a ha => (h a ha).solid) (fun a ha => (h a ha).reads)
    (.bracket t) (by decide) (attrWithin_fails depth t)
  rw [toList_renderList, List.cons_append, List.append_assoc, List.singleton_append]
  generalize (commaSeparated (items.map Attr.render)).toList ++ ']' :: t = s at hread
  have hstring : Fails readQuoted ('[' :: s) := ⟨_, bind_fail (char_other (by decide) s)⟩
  have hsymbol : Fails symbolName ('[' :: s) := ⟨_, bind_fail (char_other (by decide) s)⟩
  rw [attrWithin_other (by decide), unworded, (hstring.bind _).orElse_eq,
    (hsymbol.bind _).orElse_eq]
  refine orElse_ok ?_ _
  rw [bind_ok hread]
  rfl

/-! ## Reading back -/

/-- Not a float, and no constant of a map or set is the least word. -/
def isPlain : Attr → Bool
  | .float _ => false
  | .map m => m.results.all omitsLeast
  | .constraints set => set.exprs.all omitsLeast
  | _ => true

/-- No attribute in a list is a float or contains the least word as a constant of a map or set. -/
def AllPlain (parts : List Attr) : Prop :=
  ∀ p ∈ parts, isPlain p = true

theorem AllPlain.self {a : Attr} (h : AllPlain a.parts) : isPlain a = true := by
  apply h
  cases a <;> exact List.mem_cons_self

theorem AllPlain.type {ty : Ty} (h : AllPlain (Attr.type ty).parts) : AllPlain ty.parts :=
  fun p hp => h p (List.mem_cons_of_mem _ hp)

theorem AllPlain.item {a : Attr} (h : AllPlain (Attr.list items).parts) (ha : a ∈ items) :
    AllPlain a.parts := by
  intro p hp
  apply h
  rw [Attr.parts, partsOfAttrs_eq]
  exact List.mem_cons_of_mem _ (List.mem_flatMap.2 ⟨a, ha, hp⟩)

theorem AllPlain.of_param {ty p : Ty} (h : AllPlain ty.parts) (hp : p ∈ ty.params) :
    AllPlain p.parts := by
  obtain ⟨dialect, name, ps, as⟩ := ty
  intro x hx
  apply h
  rw [Ty.parts, partsOfTys_eq]
  exact List.mem_append_left _ (List.mem_flatMap.2 ⟨p, hp, hx⟩)

theorem AllPlain.of_value {ty : Ty} {e : String × Attr} (h : AllPlain ty.parts)
    (he : e ∈ ty.attrs) : AllPlain e.2.parts := by
  obtain ⟨dialect, name, ps, as⟩ := ty
  intro x hx
  apply h
  rw [Ty.parts, partsOfEntries_eq]
  exact List.mem_append_right _ (List.mem_flatMap.2 ⟨e, he, hx⟩)

/-- What is read from a text is legible, the least word apart. -/
theorem legible_of_wellRead {n m : Nat} {e : Expr} (h : WellRead n m e)
    (hleast : omitsLeast e = true) : Legible n m e :=
  ⟨Expr.simplify_eq_self_iff.2 h.settled, h.inRange, hleast⟩

theorem attrText_startsSolid {a : Attr} (h : WellFormed a) (hplain : isPlain a = true) :
    StartsSolid a.render.toList := by
  cases h with
  | unit => exact ⟨_, _, rfl, rfl, by decide⟩
  | bool b => cases b <;> exact ⟨_, _, rfl, rfl, by decide⟩
  | int v => exact render_startsSolid (.const v)
  | float bits => cases hplain
  | string text => exact ⟨'"', _, toList_quote text, rfl, by decide⟩
  | symbol name =>
    show StartsSolid (renderSymbol name).toList
    unfold renderSymbol
    split <;> exact ⟨'@', _, String.toList_append .., rfl, by decide⟩
  | type hty => exact typeText_startsSolid hty
  | list => exact ⟨'[', _, toList_renderList _, rfl, by decide⟩
  | map => exact ⟨'a', _, by simp [Attr.render, Map.render]; rfl, rfl, by decide⟩
  | constraints => exact ⟨'a', _, by simp [Attr.render, ConstraintSet.render]; rfl, rfl, by decide⟩

/-- A type is read back if what it holds is read back with one level of nesting less. -/
theorem typeWithin_reads {depth : Nat} {ty : Ty}
    (hparam : ∀ p, WellFormedTy p → AllPlain p.parts → 2 * p.render.toList.length ≤ depth + 1 →
      ItemReads (typeWithin depth) p.render p)
    (hattr : ∀ a, WellFormed a → AllPlain a.parts → 2 * a.render.toList.length ≤ depth →
      ItemReads (attrWithin depth) a.render a)
    (h : WellFormedTy ty) (hplain : AllPlain ty.parts)
    (hlen : 2 * ty.render.toList.length ≤ depth + 2) (ht : EndsType t) :
    typeWithin (depth + 1) (ty.render.toList ++ t) = .ok ty t := by
  have hparams : ∀ p ∈ ty.params, 2 * p.render.toList.length ≤ depth + 1 := by
    intro p hp
    have := length_param hp
    omega
  have hvalues : ∀ e ∈ ty.attrs, 2 * e.2.render.toList.length ≤ depth := by
    intro e he
    have := length_value he
    omega
  obtain ⟨hdialect, hname, hps, hasc, hkeys, has⟩ := h
  refine typeOf_reads hdialect hname (fun p hp => ?_) (typeWithin_fails rfl depth) hkeys hasc
    (fun e he => ?_) ht
  · exact hparam p (hps p hp) (hplain.of_param hp) (hparams p hp)
  · exact hattr e.2 (has e he) (hplain.of_value he) (hvalues e he)

/-- Well-formed types and attributes are read back if the levels of nesting suffice for their
texts. -/
theorem within_reads (depth : Nat) :
    (∀ ty, WellFormedTy ty → AllPlain ty.parts → 2 * ty.render.toList.length ≤ depth + 1 →
      ItemReads (typeWithin depth) ty.render ty) ∧
    ∀ a, WellFormed a → AllPlain a.parts → 2 * a.render.toList.length ≤ depth →
      ItemReads (attrWithin depth) a.render a := by
  induction depth with
  | zero =>
    refine ⟨fun ty h _ hlen => ?_, fun a h hplain hlen => ?_⟩
    · have := (typeText_startsSolid h).length_pos
      omega
    · have := (attrText_startsSolid h hplain.self).length_pos
      omega
  | succ depth ih =>
    obtain ⟨ihty, ihattr⟩ := ih
    refine ⟨fun ty h hplain hlen => ⟨typeText_startsSolid h, fun t ht => ?_⟩,
      fun a h hplain hlen => ⟨attrText_startsSolid h hplain.self, fun t ht => ?_⟩⟩
    · exact typeWithin_reads ihty ihattr h hplain hlen ht.endsType
    · have hself := hplain.self
      cases h with
      | unit => exact attrWithin_unit t
      | bool b => exact attrWithin_bool b t
      | int v => exact attrWithin_int v ht
      | float bits => cases hself
      | string text => exact attrWithin_string text t
      | symbol name => exact attrWithin_symbol name ht.breaksWord
      | @type ty hty hwords =>
        have hread := (ihty ty hty hplain.type hlen).reads t ht
        obtain ⟨hdialect, -⟩ := hty
        exact attrWithin_type hdialect hwords hread
      | list hitems =>
        refine attrWithin_list (fun a ha => ?_) t
        have := length_member ha
        exact ihattr a (hitems a ha) (hplain.item ha) (by omega)
      | map hm =>
        refine attrWithin_map (fun e he => legible_of_wellRead (hm e he) ?_) t
        exact List.all_eq_true.1 hself e he
      | constraints hset =>
        refine attrWithin_constraints (fun c hc => legible_of_wellRead (hset c hc) ?_) t
        exact List.all_eq_true.1 hself c.expr (List.mem_map_of_mem hc)

/-- Enough levels of nesting are there for any attribute in its own text. -/
theorem attrText_reads {a : Attr} (h : WellFormed a) (hplain : AllPlain a.parts) (ht : EndsItem t) :
    attrText (a.render.toList ++ t) = .ok a t := by
  refine ((within_reads _).2 a h hplain ?_).reads t ht
  rw [nestingBound, List.length_append]
  omega

/-- So they are for any type, which may also stand outside of lists. -/
theorem typeText_reads {ty : Ty} (h : WellFormedTy ty) (hplain : AllPlain ty.parts)
    (ht : EndsType t) : typeText (ty.render.toList ++ t) = .ok ty t := by
  have hwithin := within_reads (2 * (ty.render.toList ++ t).length + 1)
  refine typeWithin_reads hwithin.1 hwithin.2 h hplain ?_ ht
  rw [List.length_append]
  omega

/-- What is read from any text, and holds neither a float nor the least word as a constant of a map
or set, is read back from its own text, and what follows it is left.  Strings and symbols are read
back whatever characters they have. -/
theorem printed_attributes_read_back :
    (∀ (text : List Char) (a : Attr) (rest : List Char), attrText text = .ok a rest →
      AllPlain a.parts → ∀ c ∈ [',', '}', ']'], ∀ s,
        attrText (a.render.toList ++ c :: s) = .ok a (c :: s)) ∧
    (∀ text : String, ∀ c ∈ [',', '}', ']'], ∀ s,
      attrText ((Attr.string text).render.toList ++ c :: s) = .ok (.string text) (c :: s)) ∧
    ∀ name : String, ∀ c ∈ [',', '}', ']'], ∀ s,
      attrText ((Attr.symbol name).render.toList ++ c :: s) = .ok (.symbol name) (c :: s) := by
  have hends : ∀ c ∈ [',', '}', ']'], ∀ s, EndsItem (c :: s) := by
    intro c hc s
    simp only [List.mem_cons, List.not_mem_nil, or_false] at hc
    rcases hc with rfl | rfl | rfl
    · exact .comma s
    · exact .brace s
    · exact .bracket s
  have hleaf : ∀ a : Attr, a.parts = [a] → isPlain a = true → AllPlain a.parts := by
    intro a hparts hplain p hp
    rw [hparts] at hp
    cases List.mem_singleton.1 hp
    exact hplain
  refine ⟨fun text a rest hread hplain c hc s => ?_, fun text c hc s => ?_, fun name c hc s => ?_⟩
  · exact attrText_reads (attrText_wellFormed hread) hplain (hends c hc s)
  · exact attrText_reads (.string text) (hleaf _ rfl rfl) (hends c hc s)
  · exact attrText_reads (.symbol name) (hleaf _ rfl rfl) (hends c hc s)

/-- A list of a type whose parameter has a dictionary: its keys are out of order in the text, and it
holds a map, the least word as a number, a symbol with a blank and a string with escapes. -/
theorem printed_attributes_read_back_nested :
    let text := "[core.array(mem.ref() \x7bzone = [@\"a b\", \"\\x07\\n\"]," ++
      " at = -9223372036854775808, by = affine_map<(d0) -> (d0 + d0)>\x7d), unit]"
    let written := "[core.array(mem.ref() \x7bat = -9223372036854775808, " ++
      "by = affine_map<(d0) -> (d0 * 2)>, zone = [@\"a b\", \"\\x07\\n\"]\x7d), unit]"
    let a : Attr := .list [.type (.mk "core" "array" [.mk "mem" "ref" []
      [("at", .int Int64.minValue), ("by", .map ⟨1, 0, [.bin .mul (.dim 0) (.const 2)]⟩),
        ("zone", .list [.symbol "a b", .string "\x07\n"])]] []), .unit]
    attrText text.toList = .ok a [] ∧ a.render = written ∧
      attrText (written.toList ++ ", unit".toList) = .ok a ", unit".toList := by
  intro text written a
  have hread : attrText text.toList = .ok a [] := by decide +kernel
  have hrender : a.render = written := by decide +kernel
  have hplain : AllPlain a.parts := by
    unfold AllPlain
    decide
  obtain ⟨hback, -⟩ := printed_attributes_read_back
  have hagain := hback text.toList a [] hread hplain ',' (by decide) " unit".toList
  rw [hrender] at hagain
  exact ⟨hread, hrender, hagain⟩

end AffineRaising.Surface
