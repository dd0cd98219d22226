/-
# AffineRaising.Proofs.Surface.AttributeShape — which types and attributes can be read.

Whatever text they come from, types have identifiers for names and dictionaries that ascend in their
keys, the expressions of maps and sets are canonical, and a type that stands for an attribute does
not start with a word that is an attribute by itself: that word would have been read in its place.

The shape is what makes reading back possible.  A dictionary is rendered in ascending order, so only
an ascending one comes back with the same entries in the same order; and a type whose dialect is,
say, `unity` is read as the attribute `unit` with rubbish behind it, so it never comes out of a
reader as an attribute (`AvoidsWords`).
-/
import AffineRaising.Proofs.Surface.CanonicalText
import AffineRaising.Proofs.Surface.Lexeme
import AffineRaising.Surface.Grammar

namespace AffineRaising.IR.Dict

variable {key : String} {value : Attr} {dict : Dict} {entries : List (String × Attr)}
  {e : String × Attr} {P : String × Attr → Prop}

/-! ## Dictionaries -/

/-- The keys ascend strictly. -/
def Ascending (dict : Dict) : Prop :=
  dict.Pairwise fun x y => x.1 < y.1

/-- An entry that is there after an insertion is the new one or was there before. -/
theorem mem_of_mem_insert : ∀ {dict : Dict}, e ∈ insert key value dict → e = (key, value) ∨ e ∈ dict
  | [], h => .inl (List.mem_singleton.1 h)
  | (k, v) :: rest, h => by
    unfold insert at h
    split at h
    · exact (List.mem_cons.1 h).imp_right (List.mem_cons_of_mem _)
    · split at h
      · exact List.mem_cons.1 h
      · rcases List.mem_cons.1 h with rfl | h
        · exact .inr List.mem_cons_self
        · exact (mem_of_mem_insert h).imp_right (List.mem_cons_of_mem _)

/-- Insertion goes to the place of the key, or replaces the entry that has the key. -/
theorem insert_ascending : ∀ {dict : Dict}, dict.Ascending → (insert key value dict).Ascending
  | [], _ => List.pairwise_singleton ..
  | (k, v) :: rest, h => by
    obtain ⟨hk, hrest⟩ := List.pairwise_cons.1 h
    unfold insert
    split
    · rename_i heq
      exact List.pairwise_cons.2 ⟨heq ▸ hk, hrest⟩
    · rename_i hne
      split
      · rename_i hlt
        refine List.pairwise_cons.2 ⟨fun e he => ?_, h⟩
        rcases List.mem_cons.1 he with rfl | he
        · exact hlt
        · exact String.lt_trans hlt (hk e he)
      · rename_i hge
        have hlt : k < key := by
          apply String.not_le.1
          intro hle
          exact hne (String.le_antisymm hle (String.not_lt.1 hge))
        refine List.pairwise_cons.2 ⟨fun e he => ?_, insert_ascending hrest⟩
        rcases mem_of_mem_insert he with rfl | he
        · exact hlt
        · exact hk e he

/-- Insertions one after the other keep the keys ascending. -/
theorem foldl_insert_ascending (h : dict.Ascending) :
    (entries.foldl (fun dict e => insert e.1 e.2 dict) dict).Ascending := by
  induction entries generalizing dict with
  | nil => exact h
  | cons e entries ih => exact ih (insert_ascending h)

theorem foldl_insert_forall (hdict : ∀ e ∈ dict, P e) (hentries : ∀ e ∈ entries, P e) :
    ∀ e ∈ entries.foldl (fun dict e => insert e.1 e.2 dict) dict, P e := by
  induction entries generalizing dict with
  | nil => exact hdict
  | cons e entries ih =>
    obtain ⟨he, hrest⟩ := List.forall_mem_cons.1 hentries
    refine ih (fun x hx => ?_) hrest
    rcases mem_of_mem_insert hx with rfl | hx
    · exact he
    · exact hdict x hx

theorem ofEntries_ascending (entries : List (String × Attr)) : (ofEntries entries).Ascending :=
  foldl_insert_ascending List.Pairwise.nil

theorem ofEntries_forall (h : ∀ e ∈ entries, P e) : ∀ e ∈ ofEntries entries, P e :=
  foldl_insert_forall (fun _ he => by cases he) h

/-- A key behind all others goes to the end. -/
theorem insert_last (h : ∀ e ∈ dict, e.1 < key) :
    insert key value dict = dict ++ [(key, value)] := by
  induction dict with
  | nil => rfl
  | cons e dict ih =>
    obtain ⟨hlt, hdict⟩ := List.forall_mem_cons.1 h
    have hne : key ≠ e.1 := by
      rintro rfl
      exact String.lt_irrefl _ hlt
    rw [insert, if_neg hne, if_neg (String.lt_asymm hlt), ih hdict]
    rfl

/-- The entries of a dictionary make up the dictionary again. -/
theorem ofEntries_of_ascending (h : dict.Ascending) : ofEntries dict = dict := by
  induction dict using List.reverseRecOn with
  | nil => rfl
  | append_singleton dict e ih =>
    obtain ⟨hdict, -, hlast⟩ := List.pairwise_append.1 h
    have hstep : ofEntries (dict ++ [e]) = insert e.1 e.2 (ofEntries dict) := by
      simp [ofEntries]
    rw [hstep, ih hdict, insert_last fun x hx => hlast x hx e List.mem_cons_self]

end AffineRaising.IR.Dict

namespace AffineRaising.Surface

open AffineRaising.IR AffineRaising.Text AffineRaising.Text.Reader

variable {s rest : List Char} {name dialect : String}

/-! ## Names -/

theorem satisfy_eq_ok {test : Char → Bool} {c : Char} (h : satisfy test s = .ok c rest) :
    s = c :: rest ∧ test c = true := by
  unfold satisfy at h
  split at h
  · rename_i d r
    split at h
    · cases h
      exact ⟨rfl, ‹_›⟩
    · cases h
  · cases h

/-- What is read as a name is one, and stands at the start of the text. -/
theorem identifier_eq_ok (h : identifier s = .ok name rest) :
    IsIdentifier name ∧ s = name.toList ++ rest := by
  obtain ⟨c, r, hc, h⟩ := bind_eq_ok.1 h
  obtain ⟨cs, r', hcs, h⟩ := bind_eq_ok.1 h
  obtain ⟨rfl, hstart⟩ := satisfy_eq_ok hc
  cases hcs
  cases h
  refine ⟨⟨c, r.takeWhile isWordChar, String.toList_ofList, hstart, fun d hd => ?_⟩, ?_⟩
  · exact List.mem_takeWhile_imp hd
  · rw [String.toList_ofList, List.cons_append, List.takeWhile_append_dropWhile]

theorem identifier_yields : Yields identifier IsIdentifier :=
  fun _ _ _ h => (identifier_eq_ok h).1

/-- Both parts of a qualified name are names. -/
theorem qualifiedName_yields :
    Yields qualifiedName fun n => IsIdentifier n.1 ∧ IsIdentifier n.2 :=
  identifier_yields.bind fun _ hdialect => .skip fun _ =>
    identifier_yields.bind fun _ hname => .pure ⟨hdialect, hname⟩

/-! ## Lists -/

section Lists

variable {α : Type} {p : Reader α} {P : α → Prop}

theorem padded_yields (h : Yields p P) : Yields (padded p) P :=
  .skip fun _ => h.bind fun _ ha => .skip fun _ => .pure ha

/-- What holds of items holds of all items of a list. -/
theorem commaList_yields (h : Yields p P) : Yields (commaList p) fun as => ∀ a ∈ as, P a :=
  .separated (padded_yields h)

theorem bracketed_yields (opening closing : Char) (h : Yields p P) :
    Yields (bracketed opening closing p) P :=
  .skip fun _ => .skip fun _ => h.bind fun _ ha => .skip fun _ => .skip fun _ => .pure ha

end Lists

/-! ## Well-formed types and attributes -/

/-- Words that are attributes by themselves. -/
def literalWords : List String := ["true", "false", "unit"]

/-- A text does not start with a word that is an attribute by itself. -/
def AvoidsWords (s : List Char) : Prop :=
  ∀ w ∈ literalWords, ¬ w.toList <+: s

mutual

/-- Types with identifiers for names, parameters of this kind and a dictionary of well-formed
attributes. -/
inductive WellFormedTy : Ty → Prop
  | mk {dialect name : String} {params : List Ty} {attrs : Dict} : IsIdentifier dialect →
      IsIdentifier name → (∀ p ∈ params, WellFormedTy p) → attrs.Ascending →
      (∀ e ∈ attrs, IsIdentifier e.1) → (∀ e ∈ attrs, WellFormed e.2) →
      WellFormedTy (.mk dialect name params attrs)

/-- Attributes over canonical maps and sets and over types that no literal word hides. -/
inductive WellFormed : Attr → Prop
  | unit : WellFormed .unit
  | bool (b : Bool) : WellFormed (.bool b)
  | int (v : Int64) : WellFormed (.int v)
  | float (bits : Decimal.Bits) : WellFormed (.float bits)
  | string (text : String) : WellFormed (.string text)
  | symbol (name : String) : WellFormed (.symbol name)
  | type {t : Ty} : WellFormedTy t → AvoidsWords t.dialect.toList → WellFormed (.type t)
  | list {items : List Attr} : (∀ a ∈ items, WellFormed a) → WellFormed (.list items)
  | map {m : Affine.Map} : (∀ e ∈ m.results, WellRead m.numDims m.numSymbols e) →
      WellFormed (.map m)
  | constraints {set : Affine.ConstraintSet} :
      (∀ c ∈ set.constraints, WellRead set.numDims set.numSymbols c.expr) →
      WellFormed (.constraints set)

end

variable {param : Reader Ty} {attr : Reader Attr} {t : Ty}

/-- The keys of a dictionary are names, and its values are well formed if they are read so. -/
theorem dictOf_yields (hattr : Yields attr WellFormed) :
    Yields (dictOf attr) fun entries => ∀ e ∈ entries, IsIdentifier e.1 ∧ WellFormed e.2 := by
  refine bracketed_yields _ _ (commaList_yields ?_)
  refine identifier_yields.bind fun key hkey => .skip fun _ => .skip fun _ => .skip fun _ => ?_
  exact hattr.bind fun value hvalue => .pure ⟨hkey, hvalue⟩

/-- A type is well formed if its parameters and attributes are read so. -/
theorem typeOf_yields (hparam : Yields param WellFormedTy) (hattr : Yields attr WellFormed) :
    Yields (typeOf param attr) WellFormedTy := by
  refine qualifiedName_yields.bind fun ⟨dialect, name⟩ ⟨hdialect, hname⟩ => ?_
  have hparams := Yields.optional (bracketed_yields '(' ')' (commaList_yields hparam))
  refine hparams.bind fun params hparams => ?_
  cases params with
  | none =>
    refine .pure (.mk hdialect hname ?_ List.Pairwise.nil ?_ ?_)
    all_goals exact fun _ h => by cases h
  | some params =>
    have hdict : Yields (do blanks; dictOf attr) fun entries =>
        ∀ e ∈ entries, IsIdentifier e.1 ∧ WellFormed e.2 := .skip fun _ => dictOf_yields hattr
    refine hdict.optional.bind fun entries hentries => .pure ?_
    have hgiven : ∀ e ∈ entries.getD [], IsIdentifier e.1 ∧ WellFormed e.2 := by
      cases entries with
      | none => exact fun _ h => by cases h
      | some entries => exact hentries entries rfl
    have hkept := Dict.ofEntries_forall hgiven
    exact .mk hdialect hname (hparams params rfl) (Dict.ofEntries_ascending _)
      (fun e he => (hkept e he).1) fun e he => (hkept e he).2

/-- A qualified name starts with its dialect. -/
theorem qualifiedName_starts (h : qualifiedName s = .ok (dialect, name) rest) :
    dialect.toList <+: s := by
  obtain ⟨d, r, hdialect, h⟩ := bind_eq_ok.1 h
  obtain ⟨_, r', -, h⟩ := bind_eq_ok.1 h
  obtain ⟨n, r'', -, h⟩ := bind_eq_ok.1 h
  cases h
  obtain ⟨-, rfl⟩ := identifier_eq_ok hdialect
  exact List.prefix_append _ _

/-- A type that is read starts with its dialect. -/
theorem typeOf_starts (h : typeOf param attr s = .ok t rest) : t.dialect.toList <+: s := by
  obtain ⟨⟨dialect, name⟩, r, hname, hrest⟩ := bind_eq_ok.1 h
  have hsame : t.dialect = dialect := by
    refine Yields.skip (Q := (·.dialect = dialect)) (fun params => ?_) hrest
    cases params with
    | none => exact .pure rfl
    | some params => exact .skip fun _ => .pure rfl
  rw [hsame]
  exact qualifiedName_starts hname

/-- A word that was tried and failed is not at the start of the text. -/
theorem not_prefix_of_fail {w : String} {a : Attr}
    (h : ∃ r, (do literal w; return a : Reader Attr) s = .fail r) : ¬ w.toList <+: s := by
  rintro ⟨r, rfl⟩
  obtain ⟨r', h⟩ := h
  rw [bind_ok (literal_self w r)] at h
  cases h

/-- Every type and every attribute that is read is well formed. -/
theorem within_wellFormed (depth : Nat) :
    Yields (typeWithin depth) WellFormedTy ∧ Yields (attrWithin depth) WellFormed := by
  induction depth with
  | zero => exact ⟨.fail, .fail⟩
  | succ depth ih =>
    obtain ⟨htype, hattr⟩ := ih
    refine ⟨typeOf_yields htype hattr, fun s a rest h => ?_⟩
    rw [attrWithin] at h
    rcases orElse_eq_ok.1 h with h | ⟨htrue, h⟩
    · exact Yields.skip (fun _ => .pure (.bool true)) h
    rcases orElse_eq_ok.1 h with h | ⟨hfalse, h⟩
    · exact Yields.skip (fun _ => .pure (.bool false)) h
    rcases orElse_eq_ok.1 h with h | ⟨hunit, h⟩
    · exact Yields.skip (fun _ => .pure .unit) h
    have hwords : AvoidsWords s := by
      intro w hw
      simp only [literalWords, List.mem_cons, List.not_mem_nil, or_false] at hw
      rcases hw with rfl | rfl | rfl
      · exact not_prefix_of_fail htrue
      · exact not_prefix_of_fail hfalse
      · exact not_prefix_of_fail hunit
    have htypes : ∀ a rest, (do return .type (← typeWithin depth) : Reader Attr) s = .ok a rest →
        WellFormed a := by
      intro a rest h
      obtain ⟨t, r, ht, h⟩ := bind_eq_ok.1 h
      cases h
      refine .type (htype ht) fun w hw hstart => hwords w hw (hstart.trans ?_)
      cases depth with
      | zero => cases ht
      | succ depth => exact typeOf_starts ht
    rcases orElse_eq_ok.1 h with h | ⟨-, h⟩
    · exact (affineMap_wellRead.bind fun m hm => .pure (.map hm)) h
    rcases orElse_eq_ok.1 h with h | ⟨-, h⟩
    · exact (affineSet_wellRead.bind fun set hset => .pure (.constraints hset)) h
    rcases orElse_eq_ok.1 h with h | ⟨-, h⟩
    · exact Yields.skip (fun text => .pure (.string text)) h
    rcases orElse_eq_ok.1 h with h | ⟨-, h⟩
    · exact Yields.skip (fun name => .pure (.symbol name)) h
    rcases orElse_eq_ok.1 h with h | ⟨-, h⟩
    · have hlist := bracketed_yields '[' ']' (commaList_yields hattr)
      exact (hlist.bind fun items hitems => .pure (.list hitems)) h
    rcases orElse_eq_ok.1 h with h | ⟨-, h⟩
    · exact Yields.skip (fun bits => .pure (.float bits)) h
    rcases orElse_eq_ok.1 h with h | ⟨-, h⟩
    · exact Yields.skip (fun v => .pure (.int v)) h
    · exact htypes a rest h

/-- Every attribute that is read is well formed. -/
theorem attrText_wellFormed : Yields attrText WellFormed :=
  fun _ _ _ h => (within_wellFormed _).2 h

end AffineRaising.Surface
