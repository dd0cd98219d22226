/-
# AffineRaising.Proofs.Surface.BareOperation — where printed operations run together.

Nothing ends the text of an operation but the start of the next one.  An operation without operands,
attributes, types and regions prints as its bare name; if the next one has results, their names
stand where the operands of the first would, and are read as such.  What is left starts with an
equals sign, and no operation does.
-/
import AffineRaising.Pipeline
import AffineRaising.Proofs.Surface.OperationText

namespace AffineRaising.Surface

open AffineRaising.Affine AffineRaising.IR AffineRaising.Text AffineRaising.Text.Reader

variable {s t v gap : List Char} {dialect name : String} {names : List String} {h : OpHead}
  {stops : List Char} {indent : Nat}

/-! ## Results read as operands -/

/-- A head with other operands. -/
def OpHead.withOperands (h : OpHead) (names : List String) : OpHead :=
  { h with operands := names }

theorem OpHead.Legible.withOperands (hh : h.Legible) (hwords : ∀ x ∈ names, IsWord x) :
    (h.withOperands names).Legible :=
  { hh with operands := hwords }

/-- The head of an operation that consists of its name. -/
def bareHead (dialect name : String) : OpHead where
  results := []
  dialect := dialect
  name := name
  symbol := none
  params := []
  operands := []
  successors := []
  returnType := none
  attrs := []
  resultTypes := []

theorem bareHead_legible (hdialect : IsIdentifier dialect) (hname : IsIdentifier name) :
    (bareHead dialect name).Legible where
  results := fun _ h => by cases h
  dialect := hdialect
  name := hname
  noSymbol := rfl
  noParams := rfl
  operands := fun _ h => by cases h
  successors := fun _ h => by cases h
  noReturnType := rfl
  keys := fun _ h => by cases h
  values := fun _ h => by cases h
  plain := fun _ h => by cases h
  types := fun _ h => by cases h

theorem OpHead.Bare.toList_parts (hbare : h.Bare) : h.parts.toList = [] := by
  simp [OpHead.parts, hbare.operands, hbare.successors, hbare.attrs, hbare.resultTypes, afterBlank,
    Dict.render, renderBraces, renderEntries]

/-- Nothing of a head starts with an equals sign. -/
theorem endsHead_equals (s : List Char) : EndsHead (' ' :: '=' :: s) := by
  have hequals : solid? (' ' :: '=' :: s) = some '=' := rfl
  refine ⟨breaksWord_cons rfl _, fun c hc => ?_, noDict_of_solid? fun h => ?_⟩
  · rw [hequals]
    rintro heq
    cases heq
    revert hc
    decide
  · cases hequals.symm.trans h

/-- The bare head of an operation takes the results of the next operation for its operands: behind
blanks, they are written as its operands would be. -/
theorem opHead_takes_results (hh : h.Legible) (hbare : h.Bare) (hwords : ∀ x ∈ names, IsWord x)
    (hne : names ≠ []) (hbreak : BreaksWord gap)
    (hgap : dropBlanks false gap = resultsText names s) :
    ∃ r, opHead (h.opening.toList ++ gap) = .ok (h.withOperands names) r ∧
      dropBlanks false r = '=' :: s := by
  have hparts : (h.withOperands names).parts.toList ++ ' ' :: '=' :: s =
      ' ' :: resultsText names s := by
    simp [OpHead.parts, OpHead.withOperands, hbare.successors, hbare.attrs, hbare.resultTypes, hne,
      resultsText, afterBlank, Dict.render, renderBraces, renderEntries]
  have hbehind : dropBlanks false gap =
      dropBlanks false ((h.withOperands names).parts.toList ++ ' ' :: '=' :: s) := by
    obtain ⟨r, hstart⟩ := resultsText_starts hne s
    rw [hgap, hparts, hstart]
    rfl
  exact opHead_reads (hh.withOperands hwords) (endsHead_equals s) (fun _ h => by cases h) hbreak
    hbehind

theorem opWithin_takes_results (hh : h.Legible) (hbare : h.Bare) (hwords : ∀ x ∈ names, IsWord x)
    (hne : names ≠ []) (hbreak : BreaksWord gap)
    (hgap : dropBlanks false gap = resultsText names s) (depth : Nat) :
    opWithin (depth + 1) (h.opening.toList ++ gap) =
      .ok (.mk (h.withOperands names) []) ('=' :: s) := by
  obtain ⟨r, hread, hr⟩ := opHead_takes_results hh hbare hwords hne hbreak hgap
  have hequals : solid? r = some '=' := congrArg List.head? hr
  have hregions := repeatWhile_reads beforeRegion_readsAtLeast
    (regionOf_readsAtLeast (opWithin_readsAtLeast depth).zero) (.stop (beforeRegion_eq hequals))
  rw [opWithin, bind_ok hread, bind_ok hregions, hr]
  rfl

/-- No operation starts with an equals sign. -/
theorem opWithin_equals (depth : Nat) (s : List Char) : Fails (opWithin depth) ('=' :: s) := by
  cases depth with
  | zero => exact ⟨_, rfl⟩
  | succ depth =>
    have hsolid : StartsSolid ('=' :: s) := ⟨_, _, rfl, rfl, by decide⟩
    have hresults : Fails resultNames ('=' :: s) := resultNames_missing fun h => by cases h
    have hname : Fails qualifiedName ('=' :: s) := ⟨_, bind_fail (identifier_fail rfl s)⟩
    have hhead : Fails opHead ('=' :: s) :=
      .after hsolid.blanks_eq (.after (orNothing_fail hresults) (.after hsolid.blanks_eq
        (hname.bind _)))
    exact hhead.bind _

/-- A loop over operations fails if its first one, where it is read at all, ends in front of an
equals sign, and none can start there. -/
theorem loop_fails_at_equals {p : Reader Op} (hstops : stops ⊆ ['^', '}'])
    (hgo : beforeNone stops t = .ok true v)
    (hread : (∃ op, p v = .ok op ('=' :: s)) ∨ Fails p v) (hequals : Fails p ('=' :: s))
    (fuel : Nat) :
    Fails (repeatWhileFuel (beforeNone stops) p fuel) t := by
  have hnext : '=' ∉ stops := fun hmem => absurd (hstops hmem) (by decide)
  have hgoes : beforeNone stops ('=' :: s) = .ok true ('=' :: s) := by
    have hfirst : solid? ('=' :: s) = some '=' := rfl
    rw [beforeNone_eq hfirst]
    simp [hnext]
    rfl
  cases fuel with
  | zero => exact ⟨_, rfl⟩
  | succ fuel =>
    refine .after hgo ?_
    rcases hread with ⟨op, hread⟩ | hread
    · have hsecond : Fails (repeatWhileFuel (beforeNone stops) p fuel) ('=' :: s) := by
        cases fuel with
        | zero => exact ⟨_, rfl⟩
        | succ fuel => exact .after hgoes (hequals.bind _)
      exact .after hread (hsecond.bind _)
    · exact hread.bind _

/-- A run of operations in which a bare one is followed by the results of another cannot be read,
whatever the bounds. -/
theorem operations_unreadable (hstops : stops ⊆ ['^', '}']) (hh : h.Legible) (hbare : h.Bare)
    (hwords : ∀ x ∈ names, IsWord x) (hne : names ≠ []) (hbreak : BreaksWord gap)
    (hgap : dropBlanks false gap = resultsText names s)
    (ht : dropBlanks false t = h.opening.toList ++ gap) (depth fuel : Nat) :
    Fails (repeatWhileFuel (beforeNone stops) (opWithin depth) fuel) t := by
  obtain ⟨hbody, -, hcaret⟩ := OpHead.opening_starts hh gap
  rw [← ht] at hbody
  rw [← ht, solid?_congr (dropBlanks_dropBlanks t false)] at hcaret
  have hgo := hbody.goes_on hcaret hstops
  refine loop_fails_at_equals hstops hgo ?_ (opWithin_equals depth s) fuel
  cases depth with
  | zero => exact .inr ⟨_, rfl⟩
  | succ depth =>
    rw [ht]
    exact .inl ⟨_, opWithin_takes_results hh hbare hwords hne hbreak hgap depth⟩

/-- **Operations that are not spaced are not read back.**  Up to the first bare operation that
stands in front of one with results everything is read; there the loop fails. -/
theorem operations_unspaced {ops : List Op} {bound fuel : Nat} (hlegible : ∀ op ∈ ops, op.Legible)
    (hspaced : ¬ Spaced ops) (hstops : stops ⊆ ['^', '}'])
    (hbound : ((opsLines indent ops).toList ++ t).length < bound) :
    Fails (repeatWhileFuel (beforeNone stops) (opWithin bound) fuel)
      ((opsLines indent ops).toList ++ t) := by
  suffices hfrom : ∀ v fuel, dropBlanks false v =
      dropBlanks false ((opsLines indent ops).toList ++ t) → v.length < bound →
        Fails (repeatWhileFuel (beforeNone stops) (opWithin bound) fuel) v from
    hfrom _ fuel rfl hbound
  clear hbound
  induction ops with
  | nil => exact absurd .nil hspaced
  | cons op ops ih =>
    cases ops with
    | nil => exact absurd (.singleton op) hspaced
    | cons next rest =>
      intro v fuel hv hlen
      obtain ⟨hop, hrest⟩ := List.forall_mem_cons.1 hlegible
      have hnext := hrest next List.mem_cons_self
      have htext : (opsLines indent (op :: next :: rest)).toList ++ t = (op.lines indent).toList ++
          ((next.lines indent).toList ++ ((opsLines indent rest).toList ++ t)) := by
        simp [opsLines]
      rw [htext] at hv
      by_cases hpair : op.Bare → next.head.results = []
      · have hmore : ¬ Spaced (next :: rest) := fun h =>
          hspaced (List.isChain_cons_cons.2 ⟨hpair, h⟩)
        have hshort := length_dropBlanks_le v false
        have hread := operation_reads hop indent _
          (follows_of_next hnext hpair indent ((opsLines indent rest).toList ++ t))
        rw [← hv, ← opWithin_eq (Nat.lt_of_le_of_lt hshort hlen)] at hread
        have hless := opWithin_readsAtLeast bound hread
        cases fuel with
        | zero => exact ⟨_, rfl⟩
        | succ fuel =>
          refine .after (hop.goes_on hstops hv)
            (.after hread ((ih hrest hmore _ fuel ?_ ?_).bind _))
          · rw [dropBlanks_dropBlanks, opsLines, String.toList_append, List.append_assoc]
          · omega
      · obtain ⟨⟨hbare, hregions⟩, hresults⟩ := Classical.not_imp.1 hpair
        have hresults : next.head.results ≠ [] := hresults
        rw [hop.dropBlanks_lines, hregions, hbare.toList_parts] at hv
        obtain ⟨u, hgap⟩ : ∃ u, dropBlanks false ('\n' ::
            ((next.lines indent).toList ++ ((opsLines indent rest).toList ++ t))) =
              resultsText next.head.results u :=
          ⟨_, (hnext.dropBlanks_lines indent _).trans (OpHead.toList_opening hresults _)⟩
        exact operations_unreadable hstops hop.head hbare hnext.head.results hresults
          (breaksWord_cons rfl _) hgap hv bound fuel

end AffineRaising.Surface

namespace AffineRaising.IR

open AffineRaising.Affine AffineRaising.Surface AffineRaising.Text.Reader

variable {α β : Type} {s : Store} {o : OpRef} {d : OpData} {n m : Numbering} {depth indent : Nat}
  {text : String}

/-! ## What is printed -/

theorem Printer.bind_ok {p : Printer α} {f : α → Printer β} {b : β} :
    (p >>= f) n = .ok (b, m) ↔ ∃ a n', p n = .ok (a, n') ∧ f a n' = .ok (b, m) := by
  show (p n >>= fun r => f r.1 r.2) = .ok (b, m) ↔ _
  cases p n with
  | error e => simp [bind, Except.bind]
  | ok r =>
    obtain ⟨a, n'⟩ := r
    constructor
    · intro h
      exact ⟨a, n', rfl, h⟩
    · rintro ⟨a', n'', h, h'⟩
      cases h
      exact h'

theorem Printer.ask_ok {q : Except Fault α} {a : α} :
    Printer.ask q n = .ok (a, m) ↔ q = .ok a ∧ m = n := by
  cases q with
  | error e =>
    constructor
    · intro h
      cases h
    · rintro ⟨h, -⟩
      cases h
  | ok b =>
    constructor
    · intro h
      cases h
      exact ⟨rfl, rfl⟩
    · rintro ⟨h, rfl⟩
      cases h
      rfl

theorem Printer.ask_bind {q : Except Fault α} {f : α → Printer β} {a : α} (hq : q = .ok a) :
    (Printer.ask q >>= f) n = f a n := by
  rw [hq]
  rfl

theorem isWord_toString (k : Nat) : IsWord (toString k) := by
  obtain ⟨c, cs, htext, hdigits⟩ := digits_start k
  exact ⟨htext ▸ List.cons_ne_nil c cs, fun d hd => isWordChar_of_isDigit (hdigits d (htext ▸ hd))⟩

/-- Results are numbered one after the other. -/
theorem mapM_numberValue {vs : List ValueRef} {texts : List String} :
    vs.mapM numberValue n = .ok (texts, m) →
      texts = ((List.range' n.nextValue vs.length).map toString).map percent := by
  induction vs generalizing n texts with
  | nil =>
    intro h
    cases h
    rfl
  | cons v vs ih =>
    intro hrun
    rw [List.mapM_cons] at hrun
    obtain ⟨first, n', hfirst, hrest⟩ := Printer.bind_ok.1 hrun
    obtain ⟨more, n'', hmore, hlast⟩ := Printer.bind_ok.1 hrest
    cases hlast
    cases hfirst
    rw [ih hmore, List.length_cons, List.range'_succ]
    rfl

theorem resultsOf_of_op (h : s.op o = .ok d) : s.resultsOf o = d.results := by
  unfold Store.op at h
  unfold Store.resultsOf
  split at h
  · cases h
    rfl
  · cases h

/-- Operations that are printed in the general form. -/
structure IsPlain (d : OpData) : Prop where
  notModule : d.name ≠ ⟨"core", "module"⟩
  notFunction : d.name ≠ ⟨"func", "func"⟩

theorem printWithin_plain (h : s.op o = .ok d) (hplain : IsPlain d) :
    printWithin s (depth + 1) indent o n = (do
      let head ← printHead s o d
      let regions ← printRegionsWith (printWithin s depth) s indent d.regions
      return blankRun indent ++ head ++ regions ++ "\n" : Printer String) n := by
  rw [printWithin, Printer.ask_bind h, if_neg hplain.notModule,
    if_neg hplain.notFunction]

/-- Nothing but the name of an operation is written. -/
structure IsBare (d : OpData) : Prop extends IsPlain d where
  operands : d.operands = []
  results : d.results = []
  resultTypes : d.resultTypes = []
  attrs : d.attrs = []
  regions : d.regions = []
  successors : d.successors = []

theorem printWithin_bare (h : s.op o = .ok d) (hbare : IsBare d)
    (hprint : printWithin s depth indent o n = .ok (text, m)) :
    text.toList = List.replicate indent ' ' ++ d.name.dialect.toList ++
      '.' :: (d.name.name.toList ++ ['\n']) := by
  cases depth with
  | zero => cases hprint
  | succ depth =>
    rw [printWithin_plain h hbare.toIsPlain] at hprint
    obtain ⟨head, n', hhead, hrest⟩ := Printer.bind_ok.1 hprint
    obtain ⟨regions, n'', hregions, hlast⟩ := Printer.bind_ok.1 hrest
    rw [hbare.regions] at hregions
    cases hregions
    cases hlast
    unfold printHead at hhead
    rw [resultsOf_of_op h, hbare.results, hbare.operands, hbare.successors, hbare.attrs,
      hbare.resultTypes] at hhead
    cases hhead
    simp [blankRun, OpName.render, afterBlank, Dict.render, renderBraces, renderEntries]

/-- An operation with results prints their names first. -/
theorem printWithin_results (h : s.op o = .ok d) (hplain : IsPlain d) (hresults : d.results ≠ [])
    (hprint : printWithin s depth indent o n = .ok (text, m)) :
    ∃ names rest, names ≠ [] ∧ (∀ x ∈ names, IsWord x) ∧
      text.toList = List.replicate indent ' ' ++ resultsText names rest := by
  cases depth with
  | zero => cases hprint
  | succ depth =>
    rw [printWithin_plain h hplain] at hprint
    obtain ⟨head, n', hhead, hrest⟩ := Printer.bind_ok.1 hprint
    obtain ⟨regions, n'', hregions, hlast⟩ := Printer.bind_ok.1 hrest
    unfold printHead at hhead
    obtain ⟨texts, n₁, hnames, hrest⟩ := Printer.bind_ok.1 hhead
    obtain ⟨operands, n₂, -, hrest⟩ := Printer.bind_ok.1 hrest
    obtain ⟨successors, n₃, -, hdone⟩ := Printer.bind_ok.1 hrest
    rw [resultsOf_of_op h] at hnames
    obtain rfl := mapM_numberValue hnames
    cases hdone
    cases hlast
    have hne : (List.range' n.nextValue d.results.length).map toString ≠ [] := by
      simpa using hresults
    have hfull : (((List.range' n.nextValue d.results.length).map toString).map percent).isEmpty =
        false := by simpa using hresults
    let behind : String := d.name.render ++ afterBlank operands "" "" ++
      afterBlank successors "[" "]" ++ d.attrs.render ++
      afterBlank (d.resultTypes.map Ty.render) ": " "" ++ regions ++ "\n"
    refine ⟨_, ' ' :: behind.toList, hne, fun x hx => ?_, ?_⟩
    · obtain ⟨k, -, rfl⟩ := List.mem_map.1 hx
      exact isWord_toString k
    · rw [hfull]
      simp [blankRun, resultsText, behind]

/-- The operations of a block that start with a bare one and one with results print as a text in
which no reader of operations finds them again, at whatever depth and whatever follows. -/
theorem printed_bare_operation_unreadable {o' : OpRef} {d' : OpData} {more : List OpRef}
    {stops : List Char} (h : s.op o = .ok d) (hbare : IsBare d)
    (hdialect : IsIdentifier d.name.dialect) (hname : IsIdentifier d.name.name)
    (h' : s.op o' = .ok d') (hplain : IsPlain d') (hresults : d'.results ≠ [])
    (hprint : printOpsWith (printWithin s depth) indent (o :: o' :: more) n = .ok (text, m))
    (hstops : ∀ c ∈ stops, c = '^' ∨ c = '\x7d') (t : List Char) (bound fuel : Nat) :
    ∃ r, repeatWhileFuel (beforeNone stops) (opWithin bound) fuel (text.toList ++ t) = .fail r := by
  unfold printOpsWith at hprint
  rw [List.mapM_cons, List.mapM_cons] at hprint
  obtain ⟨texts, n₁, htexts, hdone⟩ := Printer.bind_ok.1 hprint
  obtain ⟨first, n₂, hfirst, htail⟩ := Printer.bind_ok.1 htexts
  obtain ⟨rest, n₃, hrest, hcons⟩ := Printer.bind_ok.1 htail
  obtain ⟨second, n₄, hsecond, htail'⟩ := Printer.bind_ok.1 hrest
  obtain ⟨others, n₅, -, hcons'⟩ := Printer.bind_ok.1 htail'
  cases hcons'
  cases hcons
  cases hdone
  have hfirstText := printWithin_bare h hbare hfirst
  obtain ⟨names, tail, hne, hwords, hsecondText⟩ := printWithin_results h' hplain hresults hsecond
  have hstops' : stops ⊆ ['^', '}'] := by
    intro c hc
    rcases hstops c hc with rfl | rfl <;> decide
  let after : List Char := tail ++ ((others.flatMap String.toList) ++ t)
  let gap : List Char := '\n' :: (List.replicate indent ' ' ++ resultsText names after)
  have hgap : dropBlanks false gap = resultsText names after := by
    obtain ⟨r, hstart⟩ := resultsText_starts hne after
    have hmark : StartsSolid ('%' :: r) := ⟨_, _, rfl, rfl, by decide⟩
    exact (dropBlanks_replicate indent _).trans (hstart ▸ hmark.dropBlanks_eq)
  have hhead := bareHead_legible hdialect hname
  have htext : (String.join (first :: second :: others)).toList ++ t = List.replicate indent ' ' ++
      ((bareHead d.name.dialect d.name.name).opening.toList ++ gap) := by
    rw [String.toList_join, List.flatMap_cons, List.flatMap_cons, hfirstText, hsecondText]
    simp [gap, after, resultsText, OpHead.opening, bareHead]
  rw [htext]
  refine operations_unreadable hstops' hhead ⟨rfl, rfl, rfl, rfl⟩ hwords hne (breaksWord_cons rfl _)
    hgap ?_ bound fuel
  rw [dropBlanks_replicate]
  exact (OpHead.opening_starts hhead gap).1.startsSolid.dropBlanks_eq

/-- `test.nop` in front of a constant: the two lines are printed, and not read back. -/
theorem printed_bare_operation_unreadable_constant :
    let nop : OpData := ⟨⟨"test", "nop"⟩, [], [], [], [], [], [], none⟩
    let constant : OpData := ⟨⟨"arith", "const"⟩, [], [⟨0⟩], [.index], [], [], [], none⟩
    let s : Store := ⟨#[nop, constant], #[⟨.result ⟨1⟩ 0, .index⟩], #[], #[], #[[]]⟩
    let text := "    test.nop\n    %0 = arith.const : core.index\n"
    (∃ m, printOpsWith (printWithin s 1) 4 [⟨0⟩, ⟨1⟩] Numbering.fresh = .ok (text, m)) ∧
      ∃ r, repeatWhileFuel (beforeNone ['\x7d']) (opWithin 9) 9 (text.toList ++ ['\x7d']) =
        .fail r := by
  intro nop constant s text
  have hprint : printOpsWith (printWithin s 1) 4 [⟨0⟩, ⟨1⟩] Numbering.fresh =
      .ok (text, ⟨[(⟨0⟩, 0)], [], 1, 0⟩) := by rfl
  have hnop : s.op ⟨0⟩ = .ok nop := by rfl
  have hconstant : s.op ⟨1⟩ = .ok constant := by rfl
  have hbare : IsBare nop := ⟨⟨by decide, by decide⟩, rfl, rfl, rfl, rfl, rfl, rfl⟩
  have htest : IsIdentifier "test" :=
    ⟨'t', ['e', 's', 't'], by decide, rfl, List.all_eq_true.1 rfl⟩
  have hname : IsIdentifier "nop" := ⟨'n', ['o', 'p'], by decide, rfl, List.all_eq_true.1 rfl⟩
  refine ⟨⟨_, hprint⟩, ?_⟩
  exact printed_bare_operation_unreadable hnop hbare htest hname hconstant
    ⟨by decide, by decide⟩ (List.cons_ne_nil _ _) hprint
    (fun c hc => .inr (List.mem_singleton.1 hc)) ['\x7d'] 9 9

end AffineRaising.IR

namespace AffineRaising

/-- The text that an accepted source is printed as. -/
def printed? (source : String) : Option String :=
  match printSource source with
  | .ok (.ok text) => some text
  | _ => none

/-- Printed text is not always read back: here a function starts with a bare operation whose empty
dictionary is not printed, and the next operation has a result. -/
theorem printing_not_stable :
    let source :=
      "core.module @m \x7b\n  func.func @f() -> core.nil \x7b\n    test.nop \x7b\x7d\n" ++
      "    %0 = arith.const \x7bvalue = 1\x7d : core.index\n    func.return\n  \x7d\n\x7d"
    let text := "core.module @m \x7b\n  func.func @f() -> core.nil \x7b\n    test.nop\n" ++
      "    %0 = arith.const \x7bvalue = 1\x7d : core.index\n    func.return\n  \x7d\n\x7d\n"
    printed? source = some text ∧ printed? text = none := by
  decide +kernel

end AffineRaising
