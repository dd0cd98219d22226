/-
# AffineRaising.Proofs.Surface.OperationText — written operations are read back.

`Op.lines` writes a tree of operations as the printer does: one operation a line, its regions in
braces, blocks with their headers unless there is only one without arguments.  A legible tree is
read back from these lines, whatever the indentation (`operation_reads`).

Every part of an operation but its name may be missing, and each part that is there stands behind
blanks and starts with a mark of its own.  So all that has to be known of the text behind a part is
its first solid character, `solid?`: the parts that are missing in between are those whose mark it
is not.  One mark is no mark of a part alone: a percent sign starts the operands of an operation and
the results of the next one.  That is why an operation that ends with its name, or with its own
results and name, must not stand in front of one with results (`Spaced`).

The other ambiguity is the brace.  A dictionary and a region both start with one, and what the
reader makes of it is decided by what stands inside: the name of an entry is followed by an equals
sign, that of an operation by a point.  Only a region in which nothing stands is a dictionary too,
so regions without labels must not be empty (`Region.Framed`).
-/
import AffineRaising.IR.Print
import AffineRaising.Proofs.Surface.AttributeText
import AffineRaising.Proofs.Surface.Depth

namespace AffineRaising.Surface

open AffineRaising.Affine AffineRaising.IR AffineRaising.Text AffineRaising.Text.Reader

variable {α : Type} {s t u v rest : List Char} {c mark : Char} {indent : Nat}

/-! ## Lines -/

/-- Result names and the name of an operation. -/
def OpHead.opening (h : OpHead) : String :=
  (if h.results.isEmpty then "" else commaSeparated (h.results.map percent) ++ " = ") ++
    (h.dialect ++ "." ++ h.name)

/-- The parts of a head behind the name. -/
def OpHead.parts (h : OpHead) : String :=
  afterBlank (h.operands.map percent) "" "" ++ afterBlank (h.successors.map caret) "[" "]" ++
    Dict.render h.attrs ++ afterBlank (h.resultTypes.map Ty.render) ": " ""

/-- A name with its type. -/
def TypedName.render (a : TypedName) : String := percent a.name ++ ": " ++ a.ty.render

/-- The arguments of a block header; nothing if there is none. -/
def argsText (args : List TypedName) : String :=
  if args.isEmpty then "" else "(" ++ commaSeparated (args.map TypedName.render) ++ ")"

/-- Whether the blocks of a region have headers. -/
def labelled : List Block → Bool
  | [.mk _ args _] => !args.isEmpty
  | _ => true

mutual

/-- The lines of an operation at an indentation. -/
def Op.lines (indent : Nat) : Op → String
  | .mk head regions =>
    blankRun indent ++ (head.opening ++ head.parts) ++ regionsLines indent regions ++ "\n"
termination_by structural op => op

/-- The regions of an operation, each between braces. -/
def regionsLines (indent : Nat) : List Region → String
  | [] => ""
  | r :: rest =>
    " \x7b\n" ++ r.lines (indent + 2) ++ blankRun indent ++ "\x7d" ++ regionsLines indent rest
termination_by structural rs => rs

/-- The lines of a region. -/
def Region.lines (indent : Nat) : Region → String
  | .mk blocks => blocksLines indent (labelled blocks) blocks
termination_by structural r => r

/-- The lines of blocks, with a blank line between them. -/
def blocksLines (indent : Nat) (header : Bool) : List Block → String
  | [] => ""
  | b :: rest =>
    b.lines indent header ++ (if rest.isEmpty then "" else "\n") ++ blocksLines indent header rest
termination_by structural bs => bs

/-- The lines of a block, the first of which may be a header. -/
def Block.lines (indent : Nat) (header : Bool) : Block → String
  | .mk label args ops =>
    (if header then blankRun indent ++ caret label ++ argsText args ++ ":\n" else "") ++
      opsLines (indent + 2) ops
termination_by structural b => b

/-- The lines of operations. -/
def opsLines (indent : Nat) : List Op → String
  | [] => ""
  | op :: rest => op.lines indent ++ opsLines indent rest
termination_by structural ops => ops

end

/-! ## Legible trees -/

/-- The head of an operation. -/
def Op.head : Op → OpHead
  | .mk head _ => head

/-- The regions of an operation. -/
def Op.regions : Op → List Region
  | .mk _ regions => regions

/-- The blocks of a region. -/
def Region.blocks : Region → List Block
  | .mk blocks => blocks

/-- The label of a block. -/
def Block.label : Block → String
  | .mk label _ _ => label

/-- The arguments of a block. -/
def Block.args : Block → List TypedName
  | .mk _ args _ => args

/-- The operations of a block. -/
def Block.ops : Block → List Op
  | .mk _ _ ops => ops

/-- A type that can be read back. -/
structure LegibleTy (ty : Ty) : Prop where
  wellFormed : WellFormedTy ty
  plain : AllPlain ty.parts

/-- A head without the parts of a signature, with names, attributes and types that can be read
back. -/
structure OpHead.Legible (h : OpHead) : Prop where
  results : ∀ x ∈ h.results, IsWord x
  dialect : IsIdentifier h.dialect
  name : IsIdentifier h.name
  noSymbol : h.symbol = none
  noParams : h.params = []
  operands : ∀ x ∈ h.operands, IsWord x
  successors : ∀ x ∈ h.successors, IsWord x
  noReturnType : h.returnType = none
  keys : ∀ e ∈ h.attrs, IsIdentifier e.1
  values : ∀ e ∈ h.attrs, WellFormed e.2
  plain : ∀ e ∈ h.attrs, AllPlain e.2.parts
  types : ∀ ty ∈ h.resultTypes, LegibleTy ty

/-- Modules and functions are written in forms of their own. -/
structure OpHead.Plain (h : OpHead) : Prop where
  notModule : ¬ (h.dialect = "core" ∧ h.name = "module")
  notFunction : ¬ (h.dialect = "func" ∧ h.name = "func")

/-- Nothing is written behind the name. -/
structure OpHead.Bare (h : OpHead) : Prop where
  operands : h.operands = []
  successors : h.successors = []
  attrs : h.attrs = []
  resultTypes : h.resultTypes = []

/-- Nothing is written behind the name of an operation. -/
def Op.Bare (op : Op) : Prop := op.head.Bare ∧ op.regions = []

/-- No bare operation stands in front of one with results. -/
def Spaced (ops : List Op) : Prop :=
  ops.IsChain fun op next => op.Bare → next.head.results = []

/-- What a block has to be like for its operations to be told apart and its header to be read. -/
structure Block.Framed (b : Block) : Prop where
  label : IsWord b.label
  names : ∀ a ∈ b.args, IsWord a.name
  types : ∀ a ∈ b.args, LegibleTy a.ty
  spaced : Spaced b.ops

/-- A region has blocks.  If no header is written, the block has the label that stands for none, and
it is not empty. -/
structure Region.Framed (r : Region) : Prop where
  nonempty : r.blocks ≠ []
  blocks : ∀ b ∈ r.blocks, b.Framed
  label : labelled r.blocks = false → ∀ b ∈ r.blocks, b.label = "bb0"
  ops : labelled r.blocks = false → ∀ b ∈ r.blocks, b.ops ≠ []

/-- Trees in which everything can be read back and told apart. -/
inductive Op.Legible : Op → Prop
  | mk {head : OpHead} {regions : List Region} : head.Plain → head.Legible →
      (∀ r ∈ regions, r.Framed) → (∀ r ∈ regions, ∀ b ∈ r.blocks, ∀ op ∈ b.ops, Op.Legible op) →
      Op.Legible (.mk head regions)

/-! ## Parts that may be missing -/

theorem orNothing_fail {p : Reader (List α)} (h : Fails p s) : orNothing p s = .ok [] s := by
  obtain ⟨r, h⟩ := h
  unfold orNothing
  rw [bind_ok (optional_fail h)]
  rfl

theorem orNothing_ok {p : Reader (List α)} {as : List α} (h : p s = .ok as rest) :
    orNothing p s = .ok as rest := by
  unfold orNothing
  rw [bind_ok (optional_ok h)]
  rfl

/-- A text, behind blanks, starts with none of some characters. -/
def Avoids (cs : List Char) (s : List Char) : Prop :=
  ∀ c ∈ cs, solid? s ≠ some c

theorem Avoids.mono {cs cs' : List Char} (h : Avoids cs s) (hsub : cs' ⊆ cs) : Avoids cs' s :=
  fun c hc => h c (hsub hc)

/-- The text of a list in a head: without items there is none, else it stands behind a blank and
starts with its mark. -/
def IsPart (mark : Char) (items : List α) (part : List Char) : Prop :=
  items = [] ∧ part = [] ∨ isBlank mark = false ∧ mark ≠ '/' ∧ ∃ r, part = ' ' :: mark :: r

variable {items : List α} {part cs : List Char}

/-- A part either has its mark or lets the text behind it be seen. -/
theorem IsPart.solid?_ne (h : IsPart mark items part) (hmark : mark ≠ c)
    (ht : items = [] → solid? t ≠ some c) : solid? (part ++ t) ≠ some c := by
  rcases h with ⟨hitems, rfl⟩ | ⟨hblank, hslash, r, rfl⟩
  · exact ht hitems
  · have hstart : StartsSolid (mark :: (r ++ t)) := ⟨mark, r ++ t, rfl, hblank, hslash⟩
    intro heq
    have hfirst : solid? (mark :: (r ++ t)) = some c := heq
    rw [hstart.solid?_eq] at hfirst
    cases hfirst
    exact hmark rfl

theorem IsPart.avoids (h : IsPart mark items part) (hmark : mark ∉ cs) (ht : Avoids cs t) :
    Avoids cs (part ++ t) := by
  intro c hc
  refine h.solid?_ne ?_ fun _ => ht c hc
  rintro rfl
  exact hmark hc

theorem IsPart.breaksWord (h : IsPart mark items part) (ht : BreaksWord t) :
    BreaksWord (part ++ t) := by
  rcases h with ⟨-, rfl⟩ | ⟨-, -, r, rfl⟩
  · exact ht
  · exact breaksWord_cons rfl _

theorem toList_afterBlank {β : Type} (f : β → String) (x : β) (xs : List β)
    (opening closing : String) : (afterBlank ((x :: xs).map f) opening closing).toList =
      ' ' :: (opening.toList ++ ((commaSeparated ((x :: xs).map f)).toList ++ closing.toList)) := by
  simp [afterBlank]

/-- Operands are a part that starts with a percent sign. -/
theorem isPart_operands (names : List String) :
    IsPart '%' names (afterBlank (names.map percent) "" "").toList := by
  cases names with
  | nil => exact .inl ⟨rfl, rfl⟩
  | cons x xs =>
    refine .inr ⟨rfl, by decide,
      x.toList ++ ((xs.map percent).flatMap fun y => ',' :: ' ' :: y.toList), ?_⟩
    rw [toList_afterBlank, List.map_cons, commaSeparated_cons, toList_percent]
    simp

theorem isPart_successors (labels : List String) :
    IsPart '[' labels (afterBlank (labels.map caret) "[" "]").toList := by
  cases labels with
  | nil => exact .inl ⟨rfl, rfl⟩
  | cons x xs => exact .inr ⟨rfl, by decide, _, toList_afterBlank caret x xs "[" "]"⟩

theorem isPart_attrs (dict : Dict) : IsPart '{' dict dict.render.toList := by
  by_cases hdict : dict = []
  · subst hdict
    exact .inl ⟨rfl, rfl⟩
  · exact .inr ⟨rfl, by decide, _, toList_renderDict hdict⟩

theorem isPart_types (types : List Ty) :
    IsPart ':' types (afterBlank (types.map Ty.render) ": " "").toList := by
  cases types with
  | nil => exact .inl ⟨rfl, rfl⟩
  | cons x xs => exact .inr ⟨rfl, by decide, _, toList_afterBlank Ty.render x xs ": " ""⟩

/-- What may follow the head of an operation: nothing that one of its parts starts with, and no
dictionary. -/
structure EndsHead (s : List Char) : Prop where
  breaks : BreaksWord s
  avoids : Avoids ['@', '(', ',', '[', '-', ':'] s
  noDict : NoDict s

theorem EndsHead.endsType (h : EndsHead s) : EndsType s := by
  refine ⟨h.breaks, fun hfirst => ?_, h.noDict⟩
  obtain ⟨r, rfl⟩ : ∃ r, s = '(' :: r := by
    cases s with
    | nil => cases hfirst
    | cons c r => cases hfirst; exact ⟨r, rfl⟩
  have hstart : StartsSolid ('(' :: r) := ⟨_, _, rfl, rfl, by decide⟩
  exact h.avoids '(' (by decide) hstart.solid?_eq

/-! ## Reading the parts -/

/-- Value names that no comma follows. -/
theorem valueNames_read {x : String} {xs : List String} (hwords : ∀ y ∈ x :: xs, IsWord y)
    (ht : BreaksWord t) (hcomma : solid? t ≠ some ',') :
    commaList1 valueName ((commaSeparated ((x :: xs).map percent)).toList ++ t) =
      .ok (x :: xs) (dropBlanks false t) := by
  refine commaList1_reads (fun s => breaksWord_cons rfl s) (fun y _ => ?_) (fun y hy t ht => ?_) ht
    hcomma
  · exact percent_startsSolid y
  · exact valueName_reads (hwords y hy) ht

/-- Labels that no comma follows. -/
theorem blockLabels_read {x : String} {xs : List String} (hwords : ∀ y ∈ x :: xs, IsWord y)
    (ht : BreaksWord t) (hcomma : solid? t ≠ some ',') :
    commaList1 blockLabel ((commaSeparated ((x :: xs).map caret)).toList ++ t) =
      .ok (x :: xs) (dropBlanks false t) := by
  refine commaList1_reads (fun s => breaksWord_cons rfl s) (fun y _ => ?_) (fun y hy t ht => ?_) ht
    hcomma
  · exact caret_startsSolid y
  · exact blockLabel_reads (hwords y hy) ht

/-- Types that no comma follows. -/
theorem types_read {ty : Ty} {types : List Ty} (htypes : ∀ x ∈ ty :: types, LegibleTy x)
    (ht : EndsType t) (hcomma : solid? t ≠ some ',') :
    commaList1 typeText ((commaSeparated ((ty :: types).map Ty.render)).toList ++ t) =
      .ok (ty :: types) (dropBlanks false t) := by
  refine commaList1_reads (fun s => (EndsItem.comma s).endsType) (fun x hx => ?_)
    (fun x hx t ht => ?_) ht hcomma
  · exact typeText_startsSolid (htypes x hx).wellFormed
  · exact typeText_reads (htypes x hx).wellFormed (htypes x hx).plain ht

/-- Without a percent sign there are no result names. -/
theorem resultNames_missing (h : solid? s ≠ some '%') : Fails resultNames s := by
  obtain ⟨r, hvalue⟩ : Fails valueName (dropBlanks false s) := (char_fails h).bind _
  exact ⟨r, bind_fail (separated1_fail (padded_fail hvalue))⟩

/-- The text of result names with the equals sign behind them. -/
def resultsText (names : List String) (s : List Char) : List Char :=
  (commaSeparated (names.map percent)).toList ++ ' ' :: '=' :: s

theorem resultsText_starts {names : List String} (hne : names ≠ []) (s : List Char) :
    ∃ r, resultsText names s = '%' :: r := by
  obtain ⟨x, xs, rfl⟩ := List.exists_cons_of_ne_nil hne
  rw [resultsText, List.map_cons, commaSeparated_cons, toList_percent]
  exact ⟨_, rfl⟩

/-- The name of an operation stands alone, or behind its results. -/
theorem OpHead.toList_opening_bare {h : OpHead} (hresults : h.results = []) (t : List Char) :
    h.opening.toList ++ t = h.dialect.toList ++ '.' :: (h.name.toList ++ t) := by
  simp [OpHead.opening, hresults]

theorem OpHead.toList_opening {h : OpHead} (hresults : h.results ≠ []) (t : List Char) :
    h.opening.toList ++ t =
      resultsText h.results (' ' :: (h.dialect.toList ++ '.' :: (h.name.toList ++ t))) := by
  simp [OpHead.opening, hresults, resultsText]

/-- Result names are read up to the name of the operation. -/
theorem opening_reads {h : OpHead} (hh : h.Legible) (ht : BreaksWord t) :
    ∃ r, orNothing resultNames (dropBlanks false (h.opening.toList ++ t)) = .ok h.results r ∧
      qualifiedName (dropBlanks false r) = .ok (h.dialect, h.name) t := by
  have hname := qualifiedName_reads hh.dialect hh.name ht
  have hsolid := hh.dialect.startsSolid.append ('.' :: (h.name.toList ++ t))
  by_cases hresults : h.results = []
  · have hpercent : solid? (h.dialect.toList ++ '.' :: (h.name.toList ++ t)) ≠ some '%' := by
      obtain ⟨c, cs, hdialect, hc, -⟩ := hh.dialect
      rw [hsolid.solid?_eq, hdialect]
      exact fun h => ne_of_isWordChar (isWordChar_of_isIdentStart hc) rfl (Option.some.inj h)
    rw [OpHead.toList_opening_bare hresults, hsolid.dropBlanks_eq, hresults]
    exact ⟨_, orNothing_fail (resultNames_missing hpercent), hsolid.dropBlanks_eq.symm ▸ hname⟩
  · rw [OpHead.toList_opening hresults]
    generalize h.dialect.toList ++ '.' :: (h.name.toList ++ t) = named at hname hsolid ⊢
    obtain ⟨r, hstart⟩ := resultsText_starts hresults (' ' :: named)
    have hmark : StartsSolid ('%' :: r) := ⟨_, _, rfl, rfl, by decide⟩
    have hnames : resultNames (resultsText h.results (' ' :: named)) =
        .ok h.results (' ' :: named) := by
      obtain ⟨x, xs, hcons⟩ := List.exists_cons_of_ne_nil hresults
      have hwords : ∀ y ∈ x :: xs, IsWord y := hcons ▸ hh.results
      have hequals : solid? (' ' :: '=' :: ' ' :: named) ≠ some ',' := by
        intro h
        cases h
      rw [hcons, resultsText, resultNames,
        bind_ok (valueNames_read hwords (breaksWord_cons rfl _) hequals)]
      rfl
    refine ⟨' ' :: named, orNothing_ok ?_, ?_⟩
    · rw [hstart, hmark.dropBlanks_eq, ← hstart]
      exact hnames
    · exact (congrArg qualifiedName hsolid.dropBlanks_eq).trans hname

/-- The operands of an operation are read; without any, none are read unless a percent sign comes
next. -/
theorem operands_read {names : List String} (hwords : ∀ x ∈ names, IsWord x) (hu : BreaksWord u)
    (hstart : Avoids ['(', ','] u) (hnone : names = [] → solid? u ≠ some '%') :
    paramsOrOperands (dropBlanks false ((afterBlank (names.map percent) "" "").toList ++ u)) =
      .ok ([], names) (dropBlanks false u) := by
  cases names with
  | nil =>
    have hparen : (dropBlanks false u).head? ≠ some '(' := hstart '(' (by decide)
    have hpercent : (dropBlanks false u).head? ≠ some '%' := hnone rfl
    unfold paramsOrOperands
    show (nextIs (· == '(') >>= _) (dropBlanks false u) = _
    rw [bind_ok (nextIs_other hparen)]
    show (nextIs (· == '%') >>= _) (dropBlanks false u) = _
    rw [bind_ok (nextIs_other hpercent)]
    rfl
  | cons x xs =>
    have hread := valueNames_read hwords hu (hstart ',' (by decide))
    have hpart : dropBlanks false ((afterBlank ((x :: xs).map percent) "" "").toList ++ u) =
        (commaSeparated ((x :: xs).map percent)).toList ++ u := by
      have htext : (afterBlank ((x :: xs).map percent) "" "").toList ++ u =
          ' ' :: ((commaSeparated ((x :: xs).map percent)).toList ++ u) := by
        rw [toList_afterBlank]
        simp
      rw [htext]
      exact ((commaSeparated_map_startsSolid (percent_startsSolid x) xs).append u).dropBlanks_eq
    obtain ⟨r, htext⟩ : ∃ r, (commaSeparated ((x :: xs).map percent)).toList ++ u = '%' :: r := by
      rw [List.map_cons, commaSeparated_cons, toList_percent]
      exact ⟨_, rfl⟩
    rw [hpart, htext]
    rw [htext] at hread
    show (orNothing (commaList1 valueName) >>= fun names => pure ([], names)) ('%' :: r) = _
    rw [bind_ok (orNothing_ok hread)]
    rfl

/-- Successor labels are read; without any, none are read unless a bracket comes next. -/
theorem successors_read {labels : List String} (hwords : ∀ x ∈ labels, IsWord x)
    (hnone : solid? u ≠ some '[') (hv : dropBlanks false v =
      dropBlanks false ((afterBlank (labels.map caret) "[" "]").toList ++ u)) :
    ∃ r, orNothing (do blanks; successorLabels) v = .ok labels r ∧
      dropBlanks false r = dropBlanks false u := by
  cases labels with
  | nil =>
    have hfail : Fails (do blanks; successorLabels : Reader (List String)) v :=
      fails_after_blanks (solid?_congr hv ▸ hnone)
    exact ⟨v, orNothing_fail hfail, hv⟩
  | cons x xs =>
    have hread := blockLabels_read (t := ']' :: u) hwords (breaksWord_cons rfl _)
      (fun h => by cases h)
    have htext : (afterBlank ((x :: xs).map caret) "[" "]").toList ++ u =
        ' ' :: '[' :: ((commaSeparated ((x :: xs).map caret)).toList ++ ']' :: u) := by
      rw [toList_afterBlank]
      simp
    have hstart := (commaSeparated_map_startsSolid (caret_startsSolid x) xs).append (']' :: u)
    have hlist : successorLabels ('[' :: ((commaSeparated ((x :: xs).map caret)).toList ++
        ']' :: u)) = .ok (x :: xs) u :=
      bracketed_reads (hstart.dropBlanks_eq ▸ hread) rfl
    refine ⟨u, orNothing_ok ((blanks_bind_congr hv).trans ?_), rfl⟩
    rw [htext]
    exact hlist

/-- A dictionary is read; without entries, none is read unless one comes next. -/
theorem attrs_read {dict : Dict} (hkeys : ∀ e ∈ dict, IsIdentifier e.1)
    (hvalues : ∀ e ∈ dict, WellFormed e.2) (hplain : ∀ e ∈ dict, AllPlain e.2.parts)
    (hnone : NoDict u) (hv : dropBlanks false v = dropBlanks false (dict.render.toList ++ u)) :
    ∃ r, orNothing (do blanks; dictText) v = .ok dict r ∧
      dropBlanks false r = dropBlanks false u := by
  by_cases hdict : dict = []
  · subst hdict
    obtain ⟨r, hfail⟩ := hnone attrText
    exact ⟨v, orNothing_fail ⟨r, (blanks_bind_congr hv).trans hfail⟩, hv⟩
  · have hread : dictText ('{' :: ((commaSeparated (dict.map renderEntry)).toList ++ '}' :: u)) =
        .ok dict u := by
      refine dictOf_reads hkeys (fun e he => ⟨?_, fun t ht => ?_⟩) u
      · exact attrText_startsSolid (hvalues e he) (hplain e he).self
      · exact attrText_reads (hvalues e he) (hplain e he) ht
    refine ⟨u, orNothing_ok ((blanks_bind_congr hv).trans ?_), rfl⟩
    rw [toList_renderDict hdict, List.cons_append, List.cons_append, List.append_assoc]
    exact hread

/-- Result types are read; without any, none are read unless a colon comes next. -/
theorem resultTypes_read {types : List Ty} (htypes : ∀ ty ∈ types, LegibleTy ty) (hu : EndsType u)
    (hnone : Avoids [',', ':'] u) (hv : dropBlanks false v =
      dropBlanks false ((afterBlank (types.map Ty.render) ": " "").toList ++ u)) :
    ∃ r, orNothing resultTypes v = .ok types r ∧ dropBlanks false r = dropBlanks false u := by
  cases types with
  | nil =>
    have hfail : Fails resultTypes v :=
      fails_after_blanks (solid?_congr hv ▸ hnone ':' (by decide))
    exact ⟨v, orNothing_fail hfail, hv⟩
  | cons ty types =>
    have hread := types_read htypes hu (hnone ',' (by decide))
    have htext : (afterBlank ((ty :: types).map Ty.render) ": " "").toList ++ u =
        ' ' :: ':' :: ' ' :: ((commaSeparated ((ty :: types).map Ty.render)).toList ++ u) := by
      rw [toList_afterBlank]
      simp
    have hty := typeText_startsSolid (htypes ty List.mem_cons_self).wellFormed
    have hstart := (commaSeparated_map_startsSolid hty types).append u
    refine ⟨_, orNothing_ok ((blanks_bind_congr hv).trans ?_), dropBlanks_dropBlanks u false⟩
    rw [htext]
    exact (congrArg (commaList1 typeText) hstart.dropBlanks_eq).trans hread

/-! ## Heads -/

/-- A head is read part by part. -/
theorem opHead_of_parts {h : OpHead} {s₁ s₂ s₃ s₄ s₅ s₆ s₇ : List Char}
    (hresults : orNothing resultNames (dropBlanks false s) = .ok h.results s₁)
    (hname : qualifiedName (dropBlanks false s₁) = .ok (h.dialect, h.name) s₂)
    (hsymbol : optional (do blanks; symbolName) s₂ = .ok h.symbol s₃)
    (hoperands : paramsOrOperands (dropBlanks false s₃) = .ok (h.params, h.operands) s₄)
    (hsuccessors : orNothing (do blanks; successorLabels) s₄ = .ok h.successors s₅)
    (hreturn : optional returnType s₅ = .ok h.returnType s₆)
    (hattrs : orNothing (do blanks; dictText) s₆ = .ok h.attrs s₇)
    (htypes : orNothing resultTypes s₇ = .ok h.resultTypes rest) : opHead s = .ok h rest := by
  have hblanks : ∀ s, blanks s = .ok () (dropBlanks false s) := fun _ => rfl
  unfold opHead
  rw [bind_ok (hblanks s), bind_ok hresults, bind_ok (hblanks s₁), bind_ok hname]
  dsimp only
  rw [bind_ok hsymbol, bind_ok (hblanks s₃), bind_ok hoperands]
  dsimp only
  rw [bind_ok hsuccessors, bind_ok hreturn, bind_ok hattrs, bind_ok htypes]
  rfl

/-- The text behind the attributes of a head that another text follows. -/
def OpHead.afterAttrs (h : OpHead) (u : List Char) : List Char :=
  (afterBlank (h.resultTypes.map Ty.render) ": " "").toList ++ u

/-- The text behind its successors. -/
def OpHead.afterSuccessors (h : OpHead) (u : List Char) : List Char :=
  (Dict.render h.attrs).toList ++ h.afterAttrs u

/-- The text behind its operands. -/
def OpHead.afterOperands (h : OpHead) (u : List Char) : List Char :=
  (afterBlank (h.successors.map caret) "[" "]").toList ++ h.afterSuccessors u

theorem OpHead.toList_parts (h : OpHead) (u : List Char) : h.parts.toList ++ u =
    (afterBlank (h.operands.map percent) "" "").toList ++ h.afterOperands u := by
  simp [OpHead.parts, OpHead.afterOperands, OpHead.afterSuccessors, OpHead.afterAttrs]

section Behind

variable (h : OpHead) (hu : EndsHead u)

include hu

theorem OpHead.afterAttrs_avoids : Avoids ['@', '(', ',', '[', '-'] (h.afterAttrs u) :=
  (isPart_types h.resultTypes).avoids (by decide) (hu.avoids.mono (by decide))

theorem OpHead.afterAttrs_noDict : NoDict (h.afterAttrs u) := by
  unfold OpHead.afterAttrs
  rcases isPart_types h.resultTypes with ⟨-, hnil⟩ | ⟨-, -, r, htypes⟩
  · rw [hnil]
    exact hu.noDict
  · rw [htypes]
    refine noDict_of_solid? fun h => ?_
    cases h

theorem OpHead.afterSuccessors_avoids : Avoids ['@', '(', ',', '[', '-'] (h.afterSuccessors u) :=
  (isPart_attrs h.attrs).avoids (by decide) (h.afterAttrs_avoids hu)

theorem OpHead.afterOperands_avoids : Avoids ['@', '(', ','] (h.afterOperands u) :=
  (isPart_successors h.successors).avoids (by decide)
    ((h.afterSuccessors_avoids hu).mono (by decide))

theorem OpHead.afterOperands_breaks : BreaksWord (h.afterOperands u) :=
  (isPart_successors h.successors).breaksWord <| (isPart_attrs h.attrs).breaksWord <|
    (isPart_types h.resultTypes).breaksWord hu.breaks

omit hu in
/-- A percent sign behind the operands can only stand behind a head that has no more parts. -/
theorem OpHead.afterOperands_percent (hbare : h.Bare → solid? u ≠ some '%')
    (hnone : h.operands = []) : solid? (h.afterOperands u) ≠ some '%' :=
  (isPart_successors h.successors).solid?_ne (by decide) fun hsuccessors =>
    (isPart_attrs h.attrs).solid?_ne (by decide) fun hattrs =>
      (isPart_types h.resultTypes).solid?_ne (by decide) fun htypes =>
        hbare ⟨hnone, hsuccessors, hattrs, htypes⟩

end Behind

/-- A head is read back.  The text behind the name need only be the one that was written behind
blanks, so that the blanks may hold a line break. -/
theorem opHead_reads {h : OpHead} {gap : List Char} (hh : h.Legible) (hu : EndsHead u)
    (hbare : h.Bare → solid? u ≠ some '%') (hbreak : BreaksWord gap)
    (hgap : dropBlanks false gap = dropBlanks false (h.parts.toList ++ u)) :
    ∃ r, opHead (h.opening.toList ++ gap) = .ok h r ∧ dropBlanks false r = dropBlanks false u := by
  rw [h.toList_parts] at hgap
  obtain ⟨s₁, hresults, hname⟩ := opening_reads hh hbreak
  obtain ⟨r, hsymbol⟩ : Fails (do blanks; symbolName : Reader String) gap := by
    refine fails_after_blanks ?_
    rw [solid?_congr hgap]
    exact (isPart_operands h.operands).solid?_ne (by decide) fun _ =>
      h.afterOperands_avoids hu '@' (by decide)
  have hoperands := operands_read hh.operands (h.afterOperands_breaks hu)
    ((h.afterOperands_avoids hu).mono (by decide)) (h.afterOperands_percent hbare)
  rw [← hgap] at hoperands
  obtain ⟨s₅, hsuccessors, hs₅⟩ := successors_read (v := dropBlanks false (h.afterOperands u))
    hh.successors (h.afterSuccessors_avoids hu '[' (by decide)) (dropBlanks_dropBlanks _ _)
  obtain ⟨r', hreturn⟩ : Fails returnType s₅ := by
    refine fails_after_blanks ?_
    rw [solid?_congr hs₅]
    exact h.afterSuccessors_avoids hu '-' (by decide)
  obtain ⟨s₇, hattrs, hs₇⟩ :=
    attrs_read hh.keys hh.values hh.plain (h.afterAttrs_noDict hu) hs₅
  obtain ⟨s₈, htypes, hs₈⟩ :=
    resultTypes_read hh.types hu.endsType (hu.avoids.mono (by decide)) hs₇
  refine ⟨s₈, opHead_of_parts hresults hname (hh.noSymbol ▸ optional_fail hsymbol)
    (hh.noParams ▸ hoperands) hsuccessors (hh.noReturnType ▸ optional_fail hreturn) hattrs htypes,
    hs₈⟩

/-! ## What stands behind an operation -/

/-- What a region or the next operation starts with: a label, or a percent sign before the results
of an operation, or the dialect of one without results. -/
inductive StartsBody : List Char → Prop
  | label (s : List Char) : StartsBody ('^' :: s)
  | results (s : List Char) : StartsBody ('%' :: s)
  | name {dialect : String} (h : IsIdentifier dialect) (s : List Char) :
      StartsBody (dialect.toList ++ '.' :: s)

theorem StartsBody.startsSolid (h : StartsBody s) : StartsSolid s := by
  cases h with
  | label s => exact ⟨_, _, rfl, rfl, by decide⟩
  | results s => exact ⟨_, _, rfl, rfl, by decide⟩
  | name h s => exact h.startsSolid.append _

/-- No other mark of the grammar is there. -/
theorem StartsBody.avoids (h : StartsBody s) :
    Avoids ['@', '(', ',', '[', '-', ':', '{', '}'] s := by
  intro c hc
  rw [h.startsSolid.solid?_eq]
  rintro heq
  cases h with
  | label s =>
    cases heq
    revert hc
    decide
  | results s =>
    cases heq
    revert hc
    decide
  | name hname s =>
    obtain ⟨d, ds, hdialect, hd, -⟩ := hname
    rw [hdialect] at heq
    cases heq
    simp only [List.mem_cons, List.not_mem_nil, or_false] at hc
    rcases hc with rfl | rfl | rfl | rfl | rfl | rfl | rfl | rfl <;> cases hd

/-- It is not the name of an entry with the equals sign behind it. -/
theorem StartsBody.key_fails {β : Type} (h : StartsBody s) (f : String → Unit → Reader β) :
    Fails (do let key ← identifier; blanks; char '=' >>= f key) s := by
  cases h with
  | label s => exact ⟨_, bind_fail (identifier_fail rfl s)⟩
  | results s => exact ⟨_, bind_fail (identifier_fail rfl s)⟩
  | name hname s =>
    have hpoint : StartsSolid ('.' :: s) := ⟨_, _, rfl, rfl, by decide⟩
    refine .after (identifier_of_isIdentifier hname (breaksWord_cons rfl s)) ?_
    exact .after hpoint.blanks_eq ((char_fails fun h => by cases h).bind _)

/-- A brace in front of it opens no dictionary. -/
theorem StartsBody.noDict (h : StartsBody (dropBlanks false s)) : NoDict (' ' :: '{' :: s) := by
  intro attr
  have hblanks := h.startsSolid.dropBlanks_eq
  have hclose : (dropBlanks false s).head? ≠ some '}' :=
    h.startsSolid.solid?_eq ▸ h.avoids '}' (by decide)
  obtain ⟨r, hkey⟩ := h.key_fails fun key _ => do blanks; let value ← attr; return (key, value)
  have hentries : commaList (do
      let key ← identifier
      blanks
      char '='
      blanks
      let value ← attr
      return (key, value)) (dropBlanks false s) = .ok [] (dropBlanks false s) :=
    separated_none (padded_fail (hblanks.symm ▸ hkey))
  refine .after (rfl : blanks _ = .ok () ('{' :: s)) ?_
  refine .after (char_self '{' s) (.after (rfl : blanks s = .ok () (dropBlanks false s)) ?_)
  refine .after hentries (.after h.startsSolid.blanks_eq ((char_fails hclose).bind _))

/-- What may follow an operation: no mark of a part, and behind a bare operation no results. -/
structure Follows (op : Op) (t : List Char) : Prop where
  avoids : Avoids ['@', '(', ',', '[', '-', ':', '{'] t
  percent : op.Bare → solid? t ≠ some '%'

/-- Without results a head starts with its dialect, otherwise with a percent sign. -/
theorem OpHead.opening_starts {h : OpHead} (hh : h.Legible) (t : List Char) :
    StartsBody (h.opening.toList ++ t) ∧
      (h.results = [] → solid? (h.opening.toList ++ t) ≠ some '%') ∧
      solid? (h.opening.toList ++ t) ≠ some '^' := by
  by_cases hresults : h.results = []
  · have hbody := StartsBody.name hh.dialect (h.name.toList ++ t)
    have hfirst : ∀ c, isWordChar c = false →
        solid? (h.dialect.toList ++ '.' :: (h.name.toList ++ t)) ≠ some c := by
      intro c hc
      obtain ⟨d, ds, hdialect, hd, -⟩ := hh.dialect
      rw [hbody.startsSolid.solid?_eq, hdialect]
      exact fun h => ne_of_isWordChar (isWordChar_of_isIdentStart hd) hc (Option.some.inj h)
    rw [OpHead.toList_opening_bare hresults]
    exact ⟨hbody, fun _ => hfirst '%' rfl, hfirst '^' rfl⟩
  · rw [OpHead.toList_opening hresults]
    obtain ⟨r, hstart⟩ := resultsText_starts hresults
      (' ' :: (h.dialect.toList ++ '.' :: (h.name.toList ++ t)))
    have hbody := StartsBody.results r
    rw [hstart]
    refine ⟨hbody, fun h => absurd h hresults, ?_⟩
    rw [hbody.startsSolid.solid?_eq]
    exact fun h => by cases h

theorem toList_blankRun (n : Nat) : (blankRun n).toList = List.replicate n ' ' :=
  String.toList_ofList

theorem Op.toList_lines (head : OpHead) (regions : List Region) (indent : Nat) (t : List Char) :
    ((Op.mk head regions).lines indent).toList ++ t = List.replicate indent ' ' ++
      (head.opening.toList ++ (head.parts.toList ++
        ((regionsLines indent regions).toList ++ '\n' :: t))) := by
  simp [Op.lines, toList_blankRun]

/-- Behind its indentation an operation starts with its opening. -/
theorem Op.Legible.dropBlanks_lines {op : Op} (h : op.Legible) (indent : Nat) (t : List Char) :
    dropBlanks false ((op.lines indent).toList ++ t) = op.head.opening.toList ++
      (op.head.parts.toList ++ ((regionsLines indent op.regions).toList ++ '\n' :: t)) := by
  obtain ⟨-, hhead, -, -⟩ := h
  rw [Op.toList_lines, dropBlanks_replicate]
  exact (OpHead.opening_starts hhead _).1.startsSolid.dropBlanks_eq

theorem Op.Legible.head {op : Op} (h : op.Legible) : op.head.Legible := by
  obtain ⟨-, hhead, -, -⟩ := h
  exact hhead

/-- It starts with its results or its name. -/
theorem Op.Legible.starts {op : Op} (h : op.Legible) (indent : Nat) (t : List Char) :
    StartsBody (dropBlanks false ((op.lines indent).toList ++ t)) ∧
      (op.head.results = [] → solid? ((op.lines indent).toList ++ t) ≠ some '%') ∧
      solid? ((op.lines indent).toList ++ t) ≠ some '^' := by
  have htext := h.dropBlanks_lines indent t
  obtain ⟨hbody, hpercent, hcaret⟩ := OpHead.opening_starts h.head
    (op.head.parts.toList ++ ((regionsLines indent op.regions).toList ++ '\n' :: t))
  rw [← htext] at hbody hpercent hcaret
  rw [solid?_congr (dropBlanks_dropBlanks _ false)] at hpercent hcaret
  exact ⟨hbody, hpercent, hcaret⟩

/-! ## Blocks -/

/-- An operation is read back wherever something may follow it. -/
def Op.IsRead (op : Op) : Prop :=
  ∀ indent t, Follows op t →
    operation (dropBlanks false ((op.lines indent).toList ++ t)) = .ok op (dropBlanks false t)

theorem beforeNone_eq {stops : List Char} (h : solid? s = some c) :
    beforeNone stops s = .ok (!stops.contains c) (dropBlanks false s) := by
  obtain ⟨r, hr⟩ := List.head?_eq_some_iff.1 h
  unfold beforeNone
  rw [bind_ok (rfl : blanks s = .ok () (dropBlanks false s)), hr]
  rfl

/-- Any operation may stand in front of a label or a closing brace. -/
theorem follows_of_stop (op : Op) (ht : solid? t = some c) (hc : c ∈ ['^', '}']) :
    Follows op t := by
  have hmark : c ∉ ['@', '(', ',', '[', '-', ':', '{', '%'] := by
    simp only [List.mem_cons, List.not_mem_nil, or_false] at hc
    rcases hc with rfl | rfl <;> decide
  refine ⟨fun d hd heq => ?_, fun _ heq => ?_⟩
  · cases ht.symm.trans heq
    exact hmark (List.mem_append_left ['%'] hd)
  · cases ht.symm.trans heq
    exact hmark (by decide)

/-- In front of another operation the two have to be told apart. -/
theorem follows_of_next {op next : Op} (hnext : next.Legible)
    (hspaced : op.Bare → next.head.results = []) (indent : Nat) (t : List Char) :
    Follows op ((next.lines indent).toList ++ t) := by
  obtain ⟨hbody, hpercent, -⟩ := hnext.starts indent t
  have havoids : Avoids _ ((next.lines indent).toList ++ t) := fun c hc =>
    solid?_congr (dropBlanks_dropBlanks _ _) ▸ hbody.avoids c hc
  exact ⟨havoids.mono (by decide), fun hbare => hpercent (hspaced hbare)⟩

/-- In front of an operation the loop goes on. -/
theorem StartsBody.goes_on {stops : List Char} (h : StartsBody (dropBlanks false s))
    (hcaret : solid? s ≠ some '^') (hstops : stops ⊆ ['^', '}']) :
    beforeNone stops s = .ok true (dropBlanks false s) := by
  obtain ⟨d, r, hr, -, -⟩ := h.startsSolid
  have hfirst : solid? s = some d := congrArg List.head? hr
  have hd : d ∉ stops := by
    intro hmem
    have hmark := hstops hmem
    simp only [List.mem_cons, List.not_mem_nil, or_false] at hmark
    rcases hmark with rfl | rfl
    · exact hcaret hfirst
    · exact h.avoids '}' (by decide) ((solid?_congr (dropBlanks_dropBlanks _ _)).trans hfirst)
  rw [beforeNone_eq hfirst]
  simp [hd]

theorem Op.Legible.goes_on {op : Op} {stops : List Char} (h : op.Legible)
    (hstops : stops ⊆ ['^', '}'])
    (hv : dropBlanks false v = dropBlanks false ((op.lines indent).toList ++ t)) :
    beforeNone stops v = .ok true (dropBlanks false v) := by
  obtain ⟨hbody, -, hcaret⟩ := h.starts indent t
  exact StartsBody.goes_on (hv ▸ hbody) (solid?_congr hv ▸ hcaret) hstops

/-- Operations are read one after the other, up to a label or a closing brace. -/
theorem ops_read {ops : List Op} {stops : List Char} (hlegible : ∀ op ∈ ops, op.Legible)
    (hread : ∀ op ∈ ops, op.IsRead) (hspaced : Spaced ops) (hstops : stops ⊆ ['^', '}'])
    (ht : solid? t = some c) (hc : c ∈ stops) (hv : dropBlanks false v =
      dropBlanks false ((opsLines indent ops).toList ++ t)) :
    LoopReads (beforeNone stops) operation v ops (dropBlanks false t) := by
  induction ops generalizing v with
  | nil =>
    have hstop : beforeNone stops v = _ := beforeNone_eq ((solid?_congr hv).trans ht)
    rw [hv, List.contains_iff_mem.2 hc] at hstop
    exact .stop hstop
  | cons op ops ih =>
    obtain ⟨hop, hlegible⟩ := List.forall_mem_cons.1 hlegible
    obtain ⟨hopRead, hread⟩ := List.forall_mem_cons.1 hread
    have htext : (opsLines indent (op :: ops)).toList ++ t =
        (op.lines indent).toList ++ ((opsLines indent ops).toList ++ t) := by
      simp [opsLines]
    have hfollows : Follows op ((opsLines indent ops).toList ++ t) := by
      cases ops with
      | nil => exact follows_of_stop op ht (hstops hc)
      | cons next rest =>
        obtain ⟨hpair, -⟩ := List.isChain_cons_cons.1 hspaced
        have := follows_of_next (hlegible next List.mem_cons_self) hpair indent
          ((opsLines indent rest).toList ++ t)
        simpa [opsLines] using this
    rw [htext] at hv
    refine .step (hop.goes_on hstops hv) ?_ (ih hlegible hread hspaced.tail
      (dropBlanks_dropBlanks _ _))
    rw [hv]
    exact hopRead indent _ hfollows

/-- Block arguments are read; without any, none are read in front of the colon. -/
theorem args_read {args : List TypedName} (hnames : ∀ a ∈ args, IsWord a.name)
    (htypes : ∀ a ∈ args, LegibleTy a.ty) (t : List Char) :
    orNothing typedNames ((argsText args).toList ++ ':' :: t) = .ok args (':' :: t) := by
  cases args with
  | nil => exact orNothing_fail ((char_fails fun h => by cases h).bind _)
  | cons a args =>
    have htext : (argsText (a :: args)).toList ++ ':' :: t =
        '(' :: ((commaSeparated ((a :: args).map TypedName.render)).toList ++ ')' :: ':' :: t) := by
      simp [argsText]
    have hrender : ∀ x : TypedName, x.render.toList =
        (percent x.name).toList ++ ':' :: ' ' :: x.ty.render.toList := by
      intro x
      simp [TypedName.render]
    have hnone : Fails (char '%') (')' :: ':' :: t) := char_fails fun h => by cases h
    rw [htext]
    refine orNothing_ok (bracketed_commaList '(' (fun x _ => ?_) (fun x hx t ht => ?_) (.paren _)
      (by decide) ((hnone.bind _).bind _))
    · rw [hrender]
      exact (percent_startsSolid x.name).append _
    · have hty := htypes x hx
      have hcolon : StartsSolid (':' :: ' ' :: (x.ty.render.toList ++ t)) :=
        ⟨_, _, rfl, rfl, by decide⟩
      rw [hrender, List.append_assoc, List.cons_append, List.cons_append,
        bind_ok (valueName_reads (hnames x hx) (breaksWord_cons rfl _)), bind_ok hcolon.blanks_eq,
        bind_ok (char_self ':' _),
        bind_ok ((typeText_startsSolid hty.wellFormed).append t).blanks_space,
        bind_ok (typeText_reads hty.wellFormed hty.plain ht.endsType)]
      rfl

/-- What is required of the operations of a block for the block to be read. -/
def Block.IsRead (b : Block) : Prop :=
  ∀ op ∈ b.ops, op.Legible ∧ op.IsRead

theorem operation_readsAtLeast : ReadsAtLeast 1 operation :=
  fun _ _ _ hread => opWithin_readsAtLeast _ hread

/-- The lines of a block behind its header. -/
theorem body_reads {b : Block} {stops : List Char} (hb : b.Framed) (hops : b.IsRead)
    (hstops : stops ⊆ ['^', '}']) (ht : solid? t = some c) (hc : c ∈ stops)
    (hv : dropBlanks false v = dropBlanks false ((opsLines indent b.ops).toList ++ t)) :
    repeatWhile (beforeNone stops) operation v = .ok b.ops (dropBlanks false t) :=
  repeatWhile_reads (beforeNone_readsAtLeast stops) operation_readsAtLeast
    (ops_read (fun op hop => (hops op hop).1) (fun op hop => (hops op hop).2) hb.spaced hstops ht hc
      hv)

theorem Block.toList_lines (b : Block) (indent : Nat) (t : List Char) :
    (b.lines indent true).toList ++ t = List.replicate indent ' ' ++ ((caret b.label).toList ++
      ((argsText b.args).toList ++ ':' :: '\n' ::
        ((opsLines (indent + 2) b.ops).toList ++ t))) := by
  cases b
  simp [Block.lines, Block.label, Block.args, Block.ops, toList_blankRun]

/-- A block is read from its header on. -/
theorem block_reads {b : Block} (hb : b.Framed) (hops : b.IsRead) (ht : solid? t = some c)
    (hc : c ∈ ['^', '}']) :
    blockOf operation (dropBlanks false ((b.lines indent true).toList ++ t)) =
      .ok b (dropBlanks false t) := by
  rw [Block.toList_lines, dropBlanks_replicate,
    ((caret_startsSolid b.label).append _).dropBlanks_eq]
  have hbody := body_reads (v := '\n' :: ((opsLines (indent + 2) b.ops).toList ++ t)) hb hops
    (List.Subset.refl _) ht hc rfl
  have hcolon : StartsSolid (':' :: '\n' :: ((opsLines (indent + 2) b.ops).toList ++ t)) :=
    ⟨_, _, rfl, rfl, by decide⟩
  have hargs : BreaksWord ((argsText b.args).toList ++
      ':' :: '\n' :: ((opsLines (indent + 2) b.ops).toList ++ t)) := by
    cases b.args with
    | nil => exact breaksWord_cons rfl _
    | cons a args =>
      have htext : (argsText (a :: args)).toList = '(' ::
          ((commaSeparated ((a :: args).map TypedName.render)).toList ++ [')']) := by
        simp [argsText]
      rw [htext]
      exact breaksWord_cons rfl _
  unfold blockOf
  rw [bind_ok ((caret_startsSolid b.label).append _).blanks_eq,
    bind_ok (blockLabel_reads hb.label hargs), bind_ok (args_read hb.names hb.types _),
    bind_ok hcolon.blanks_eq, bind_ok (char_self ':' _), bind_ok hbody]
  cases b
  rfl

theorem beforeBrace_eq (h : solid? s = some c) :
    beforeBrace s = .ok (c != '}') (dropBlanks false s) := by
  obtain ⟨r, hr⟩ := List.head?_eq_some_iff.1 h
  unfold beforeBrace
  rw [bind_ok (rfl : blanks s = .ok () (dropBlanks false s)), hr]
  rfl

/-- A block with a header starts with its label. -/
theorem Block.lines_caret (b : Block) (indent : Nat) (t : List Char) :
    solid? ((b.lines indent true).toList ++ t) = some '^' := by
  have hstart := (caret_startsSolid b.label).append ((argsText b.args).toList ++
    ':' :: '\n' :: ((opsLines (indent + 2) b.ops).toList ++ t))
  rw [Block.toList_lines, solid?, dropBlanks_replicate, hstart.dropBlanks_eq, toList_caret]
  rfl

/-- Blocks are read one after the other, up to the closing brace. -/
theorem blocks_read {bs : List Block} (hframed : ∀ b ∈ bs, b.Framed) (hops : ∀ b ∈ bs, b.IsRead)
    (ht : solid? t = some '}') (hv : dropBlanks false v =
      dropBlanks false ((blocksLines indent true bs).toList ++ t)) :
    LoopReads beforeBrace (blockOf operation) v bs (dropBlanks false t) := by
  induction bs generalizing v with
  | nil =>
    have hstop := beforeBrace_eq ((solid?_congr hv).trans ht)
    rw [hv] at hstop
    exact .stop hstop
  | cons b bs ih =>
    obtain ⟨hb, hframed⟩ := List.forall_mem_cons.1 hframed
    obtain ⟨hbOps, hops⟩ := List.forall_mem_cons.1 hops
    -- the blank line between two blocks does not matter
    obtain ⟨u, htext, hu⟩ : ∃ u, (blocksLines indent true (b :: bs)).toList ++ t =
        (b.lines indent true).toList ++ u ∧
          dropBlanks false u = dropBlanks false ((blocksLines indent true bs).toList ++ t) := by
      refine ⟨(if bs.isEmpty then "" else "\n").toList ++
        ((blocksLines indent true bs).toList ++ t), by simp [blocksLines], ?_⟩
      split <;> rfl
    obtain ⟨c, hc, hstop⟩ : ∃ c, solid? u = some c ∧ c ∈ ['^', '}'] := by
      rw [solid?_congr hu]
      cases bs with
      | nil => exact ⟨'}', ht, by decide⟩
      | cons b' bs =>
        refine ⟨'^', ?_, by decide⟩
        rw [blocksLines, String.toList_append, String.toList_append, List.append_assoc,
          List.append_assoc]
        exact b'.lines_caret indent _
    rw [htext] at hv
    have hgo := beforeBrace_eq ((solid?_congr hv).trans (b.lines_caret indent u))
    refine .step hgo ?_ (ih hframed hops ((dropBlanks_dropBlanks _ _).trans hu))
    rw [hv]
    exact block_reads hb hbOps hc hstop

/-! ## Regions and operations -/

theorem Region.lines_eq (r : Region) (indent : Nat) : r.lines indent =
    blocksLines indent (labelled r.blocks) r.blocks := by
  cases r
  rfl

/-- A region without labels has one block, without arguments. -/
theorem labelled_eq_false {bs : List Block} (h : labelled bs = false) :
    ∃ label ops, bs = [.mk label [] ops] := by
  unfold labelled at h
  split at h
  · rename_i label args ops
    cases args with
    | nil => exact ⟨label, ops, rfl⟩
    | cons a args => cases h
  · cases h

/-- The lines of a region whose header is left out are those of its operations. -/
theorem Region.lines_unlabelled {r : Region} (h : labelled r.blocks = false) :
    ∃ label ops, r = .mk [.mk label [] ops] ∧
      ∀ indent, r.lines indent = opsLines (indent + 2) ops := by
  obtain ⟨label, ops, hblocks⟩ := labelled_eq_false h
  obtain ⟨bs⟩ := r
  obtain rfl : bs = _ := hblocks
  refine ⟨label, ops, rfl, fun indent => ?_⟩
  simp [Region.lines, labelled, blocksLines, Block.lines]

theorem Region.lines_labelled {r : Region} (h : labelled r.blocks = true) (indent : Nat) :
    r.lines indent = blocksLines indent true r.blocks := by
  rw [Region.lines_eq, h]

theorem blocksLines_caret {bs : List Block} (hne : bs ≠ []) (indent : Nat) (t : List Char) :
    solid? ((blocksLines indent true bs).toList ++ t) = some '^' := by
  obtain ⟨b, bs, rfl⟩ := List.exists_cons_of_ne_nil hne
  rw [blocksLines, String.toList_append, String.toList_append, List.append_assoc,
    List.append_assoc]
  exact b.lines_caret indent _

/-- The operations of a region whose header is left out start with a result or a name. -/
theorem opsLines_start {ops : List Op} (hne : ops ≠ []) (hops : ∀ op ∈ ops, op.Legible)
    (indent : Nat) (t : List Char) :
    StartsBody (dropBlanks false ((opsLines indent ops).toList ++ t)) ∧
      solid? ((opsLines indent ops).toList ++ t) ≠ some '^' := by
  obtain ⟨op, rest, rfl⟩ := List.exists_cons_of_ne_nil hne
  obtain ⟨hbody, -, hcaret⟩ := (hops op List.mem_cons_self).starts indent
    ((opsLines indent rest).toList ++ t)
  rw [opsLines, String.toList_append, List.append_assoc]
  exact ⟨hbody, hcaret⟩

/-- A region starts with a label or with its first operation. -/
theorem Region.lines_start {r : Region} (hr : r.Framed) (hops : ∀ b ∈ r.blocks, b.IsRead)
    (indent : Nat) (t : List Char) :
    StartsBody (dropBlanks false ((r.lines indent).toList ++ t)) := by
  cases hlabelled : labelled r.blocks with
  | true =>
    obtain ⟨s, hs⟩ := List.head?_eq_some_iff.1 (blocksLines_caret hr.nonempty indent t)
    rw [Region.lines_labelled hlabelled, hs]
    exact .label s
  | false =>
    have hne := hr.ops hlabelled
    obtain ⟨label, ops, rfl, hlines⟩ := Region.lines_unlabelled hlabelled
    rw [hlines]
    exact (opsLines_start (hne _ List.mem_cons_self)
      (fun op hop => (hops _ List.mem_cons_self op hop).1) _ t).1

/-- A region whose first character is a caret consists of labelled blocks. -/
theorem regionOf_labelled {op : Reader Op} {bs : List Block}
    (hs : dropBlanks false s = '^' :: u)
    (hblocks : repeatWhile beforeBrace (blockOf op) ('^' :: u) = .ok bs v)
    (hv : dropBlanks false v = '}' :: t) : regionOf op ('{' :: s) = .ok (.mk bs) t := by
  have hblanks : blanks s = .ok () ('^' :: u) := congrArg _ hs
  have hclose : blanks v = .ok () ('}' :: t) := congrArg _ hv
  have hother : ('^' :: u).head? ≠ some '}' := fun h => by cases h
  unfold regionOf
  rw [bind_ok (char_self '{' s), bind_ok hblanks, bind_ok (nextIs_self '^' u),
    bind_ok (nextIs_other hother)]
  simp only [if_true]
  rw [bind_ok hblocks, bind_ok hclose, bind_ok (char_self '}' t)]
  rfl

/-- Otherwise, if it is not empty, it is one block without a label. -/
theorem regionOf_unlabelled {op : Reader Op} {ops : List Op} (hs : dropBlanks false s = u)
    (hcaret : u.head? ≠ some '^') (hbrace : u.head? ≠ some '}')
    (hops : repeatWhile (beforeNone ['}']) op u = .ok ops v)
    (hv : dropBlanks false v = '}' :: t) :
    regionOf op ('{' :: s) = .ok (.mk [.mk "bb0" [] ops]) t := by
  have hblanks : blanks s = .ok () u := congrArg _ hs
  have hclose : blanks v = .ok () ('}' :: t) := congrArg _ hv
  unfold regionOf
  rw [bind_ok (char_self '{' s), bind_ok hblanks, bind_ok (nextIs_other hcaret),
    bind_ok (nextIs_other hbrace)]
  simp only [Bool.false_eq_true, if_false]
  rw [bind_ok hops]
  show (blanks >>= fun _ => char '}' >>= fun _ => pure (Region.mk [.mk "bb0" [] ops])) v = _
  rw [bind_ok hclose, bind_ok (char_self '}' t)]
  rfl

/-- A region is read between its braces. -/
theorem region_reads {r : Region} (hr : r.Framed) (hops : ∀ b ∈ r.blocks, b.IsRead)
    (indent k : Nat) (t : List Char) :
    regionOf operation ('{' :: '\n' :: ((r.lines indent).toList ++
      (List.replicate k ' ' ++ '}' :: t))) = .ok r t := by
  have hclosed : dropBlanks false (List.replicate k ' ' ++ '}' :: t) = '}' :: t :=
    dropBlanks_replicate k _
  have hclose : solid? (List.replicate k ' ' ++ '}' :: t) = some '}' := congrArg List.head? hclosed
  generalize List.replicate k ' ' ++ '}' :: t = close at hclosed hclose
  have hrest := (dropBlanks_dropBlanks close false).trans hclosed
  cases hlabelled : labelled r.blocks with
  | true =>
    obtain ⟨s, hs⟩ := List.head?_eq_some_iff.1 (blocksLines_caret hr.nonempty indent close)
    have hidem : dropBlanks false ('^' :: s) = '^' :: s := hs ▸ dropBlanks_dropBlanks _ false
    have hloop := blocks_read hr.blocks hops hclose (hidem.trans hs.symm)
    rw [Region.lines_labelled hlabelled]
    cases r
    exact regionOf_labelled hs (repeatWhile_reads beforeBrace_readsAtLeast
      (blockOf_readsAtLeast operation_readsAtLeast.zero) hloop) hrest
  | false =>
    have hlabel := hr.label hlabelled
    have hne := hr.ops hlabelled
    have hframed := hr.blocks
    obtain ⟨label, ops, rfl, hlines⟩ := Region.lines_unlabelled hlabelled
    obtain rfl : label = "bb0" := hlabel _ List.mem_cons_self
    have hb := hops _ List.mem_cons_self
    obtain ⟨hbody, hcaret⟩ := opsLines_start (hne _ List.mem_cons_self)
      (fun op hop => (hb op hop).1) (indent + 2) close
    have hbrace := hbody.avoids '}' (by decide)
    rw [hbody.startsSolid.solid?_eq] at hbrace
    rw [hlines]
    exact regionOf_unlabelled rfl hcaret hbrace (body_reads (hframed _ List.mem_cons_self) hb
      (by decide) hclose List.mem_cons_self (dropBlanks_dropBlanks _ false)) hrest

theorem beforeRegion_eq (h : solid? s = some c) :
    beforeRegion s = .ok (c == '{') (dropBlanks false s) := by
  obtain ⟨r, hr⟩ := List.head?_eq_some_iff.1 h
  unfold beforeRegion
  rw [bind_ok (rfl : blanks s = .ok () (dropBlanks false s)), hr]
  rfl

/-- Regions are read one after the other, as long as a brace follows. -/
theorem regions_read {rs : List Region} (hframed : ∀ r ∈ rs, r.Framed)
    (hops : ∀ r ∈ rs, ∀ b ∈ r.blocks, b.IsRead) (ht : solid? t ≠ some '{')
    (hv : dropBlanks false v = dropBlanks false ((regionsLines indent rs).toList ++ '\n' :: t)) :
    LoopReads beforeRegion (regionOf operation) v rs (dropBlanks false t) := by
  induction rs generalizing v with
  | nil =>
    have hstop : beforeRegion v = .ok false (dropBlanks false t) := by
      unfold beforeRegion
      rw [bind_ok (rfl : blanks v = .ok () (dropBlanks false v)), hv]
      exact nextIs_other ht
    exact .stop hstop
  | cons r rs ih =>
    obtain ⟨hr, hframed⟩ := List.forall_mem_cons.1 hframed
    obtain ⟨hrOps, hops⟩ := List.forall_mem_cons.1 hops
    have htext : (regionsLines indent (r :: rs)).toList ++ '\n' :: t =
        ' ' :: '{' :: '\n' :: ((r.lines (indent + 2)).toList ++ (List.replicate indent ' ' ++
          '}' :: ((regionsLines indent rs).toList ++ '\n' :: t))) := by
      simp [regionsLines, toList_blankRun]
    rw [htext] at hv
    have hgo := beforeRegion_eq (solid?_congr hv)
    refine .step hgo ?_ (ih hframed hops rfl)
    rw [hv]
    exact region_reads hr hrOps (indent + 2) indent _

/-- Behind a head there are regions, or the line ends. -/
theorem endsHead_of_regions {head : OpHead} {rs : List Region} (indent : Nat)
    (hframed : ∀ r ∈ rs, r.Framed) (hops : ∀ r ∈ rs, ∀ b ∈ r.blocks, b.IsRead)
    (ht : Follows (.mk head rs) t) :
    EndsHead ((regionsLines indent rs).toList ++ '\n' :: t) ∧
      (head.Bare → solid? ((regionsLines indent rs).toList ++ '\n' :: t) ≠ some '%') := by
  cases rs with
  | nil =>
    have hnoDict : NoDict ('\n' :: t) := noDict_of_solid? (ht.avoids '{' (by decide))
    exact ⟨⟨breaksWord_cons rfl t, ht.avoids.mono (by decide), hnoDict⟩,
      fun hbare => ht.percent ⟨hbare, rfl⟩⟩
  | cons r rs =>
    obtain ⟨s, htext, hstart⟩ : ∃ s, (regionsLines indent (r :: rs)).toList ++ '\n' :: t =
        ' ' :: '{' :: s ∧ StartsBody (dropBlanks false s) := by
      refine ⟨'\n' :: ((r.lines (indent + 2)).toList ++ (List.replicate indent ' ' ++
        '}' :: ((regionsLines indent rs).toList ++ '\n' :: t))),
        by simp [regionsLines, toList_blankRun], ?_⟩
      exact Region.lines_start (hframed r List.mem_cons_self) (hops r List.mem_cons_self) _ _
    have hbrace : solid? (' ' :: '{' :: s) = some '{' := rfl
    rw [htext]
    refine ⟨⟨breaksWord_cons rfl _, fun c hc => ?_, hstart.noDict⟩, fun _ => ?_⟩
    · rw [hbrace]
      rintro heq
      cases heq
      revert hc
      decide
    · rw [hbrace]
      exact fun h => by cases h

/-- Legible operations are read back from their lines. -/
theorem operation_reads {op : Op} (h : op.Legible) : op.IsRead := by
  induction h with
  | @mk head regions hplain hhead hframed hlegible ih =>
    intro indent t hfollows
    have hops : ∀ r ∈ regions, ∀ b ∈ r.blocks, b.IsRead := fun r hr b hb op hop =>
      ⟨hlegible r hr b hb op hop, ih r hr b hb op hop⟩
    obtain ⟨hends, hbare⟩ := endsHead_of_regions indent hframed hops hfollows
    have hbreaks : BreaksWord (head.parts.toList ++
        ((regionsLines indent regions).toList ++ '\n' :: t)) := by
      rw [head.toList_parts]
      exact (isPart_operands head.operands).breaksWord (head.afterOperands_breaks hends)
    obtain ⟨r, hread, hr⟩ := opHead_reads hhead hends hbare hbreaks rfl
    have hregions := repeatWhile_reads beforeRegion_readsAtLeast
      (regionOf_readsAtLeast operation_readsAtLeast.zero)
      (regions_read hframed hops (hfollows.avoids '{' (by decide)) hr)
    rw [(Op.Legible.mk hplain hhead hframed hlegible).dropBlanks_lines, operation_eq]
    refine (bind_ok hread).trans ?_
    rw [bind_ok hregions]
    rfl

/-- **Written operations are read back.**  If the operations of a block are legible, and no bare one
stands in front of one with results, their lines are read as these operations up to the closing
brace or the next label, with any bounds that the text does not reach. -/
theorem operations_read {ops : List Op} {stops : List Char} {bound fuel : Nat}
    (hlegible : ∀ op ∈ ops, op.Legible) (hspaced : Spaced ops) (hstops : stops ⊆ ['^', '}'])
    (ht : solid? t = some c) (hc : c ∈ stops)
    (hbound : ((opsLines indent ops).toList ++ t).length < bound)
    (hfuel : ((opsLines indent ops).toList ++ t).length < fuel) :
    repeatWhileFuel (beforeNone stops) (opWithin bound) fuel ((opsLines indent ops).toList ++ t) =
      .ok ops (dropBlanks false t) := by
  have hop : AgreeUpTo ((opsLines indent ops).toList ++ t).length (opWithin bound) operation :=
    fun s hs => opWithin_eq (Nat.lt_of_le_of_lt hs hbound)
  have hcontinues := beforeNone_readsAtLeast stops
  rw [hop.repeatWhileFuel hcontinues (opWithin_readsAtLeast bound).zero fuel (Nat.le_refl _),
    repeatWhileFuel_stable hcontinues operation_readsAtLeast _ fuel _ hfuel (Nat.lt_succ_self _)
      (Nat.le_refl _)]
  exact repeatWhile_reads hcontinues operation_readsAtLeast
    (ops_read hlegible (fun op hop => operation_reads (hlegible op hop)) hspaced hstops ht hc rfl)

end AffineRaising.Surface
