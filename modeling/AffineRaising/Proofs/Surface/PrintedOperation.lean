/-
# AffineRaising.Proofs.Surface.PrintedOperation — which printed operations are read back.

The tree of an operation in a store is what its text stands for: the names that the printer gives to
values and blocks, with the types and attributes of the store (`treeWithin`).  The printer writes
the lines of this tree, so what is known of written trees holds of printed operations.

`printed_operations_read_back` says for which operations of a block this is enough.  Every value
and every type has to have a text that can be read, floats and the least word in maps and sets
apart; regions without a header must not be empty; and no bare operation may stand in front of one
with results, which is the case of `printed_bare_operation_unreadable`.
-/
import AffineRaising.Proofs.Surface.BareOperation

namespace AffineRaising.IR

open AffineRaising.Affine AffineRaising.Surface AffineRaising.Text.Reader

variable {α β : Type} {s : Store} {o : OpRef} {d : OpData} {n m : Numbering} {depth indent : Nat}
  {text : String}

/-! ## Trees of operations -/

/-- A name without the mark it is written with. -/
def unmarked (text : String) : String := String.ofList text.toList.tail

/-- The head of an operation, with the names the printer gives. -/
def treeHead (s : Store) (op : OpRef) (d : OpData) : Printer OpHead := do
  let results ← (s.resultsOf op).mapM numberValue
  let operands ← d.operands.mapM valueName
  let successors ← d.successors.mapM blockLabel
  return { results := results.map unmarked, dialect := d.name.dialect, name := d.name.name,
           symbol := none, params := [], operands := operands.map unmarked,
           successors := successors.map unmarked, returnType := none, attrs := d.attrs,
           resultTypes := d.resultTypes }

/-- A block argument with its type. -/
def treeArg (s : Store) (v : ValueRef) : Printer TypedName := do
  let name ← numberValue v
  let ty ← Printer.ask (s.typeOf v)
  return ⟨unmarked name, ty⟩

/-- The label and the arguments of a block; a block without a header has the label that stands for
none. -/
def treeHeader (s : Store) (header : Bool) (b : BlockRef) : Printer (String × List TypedName) :=
  if header then do
    let label ← blockLabel b
    let args ← (s.argsOf b).mapM (treeArg s)
    return (unmarked label, args)
  else return ("bb0", [])

/-- A block with its operations. -/
def treeBlock (tree : OpRef → Printer Op) (s : Store) (header : Bool) (b : BlockRef) :
    Printer Block := do
  let (label, args) ← treeHeader s header b
  let d ← Printer.ask (s.block b)
  let ops ← d.ops.mapM tree
  return .mk label args ops

/-- Whether the blocks of a region have headers. -/
def needsHeaders (s : Store) : List BlockRef → Bool
  | [b] => !(s.argsOf b).isEmpty
  | _ => true

/-- A region with its blocks. -/
def treeRegion (tree : OpRef → Printer Op) (s : Store) (r : RegionRef) : Printer Region := do
  let d ← Printer.ask (s.region r)
  if needsHeaders s d.blocks then d.blocks.forM numberBlock
  let blocks ← d.blocks.mapM (treeBlock tree s (needsHeaders s d.blocks))
  return .mk blocks

/-- The tree of an operation, nested no deeper than a bound. -/
def treeWithin (s : Store) : Nat → OpRef → Printer Op
  | 0, _ => throw .cyclic
  | depth + 1, op => do
    let d ← Printer.ask (s.op op)
    let head ← treeHead s op d
    let regions ← d.regions.mapM (treeRegion (treeWithin s depth) s)
    return .mk head regions

/-! ## Names -/

theorem unmarked_percent (x : String) : unmarked (percent x) = x := by
  rw [unmarked, toList_percent, List.tail_cons, String.ofList_toList]

theorem unmarked_caret (x : String) : unmarked (caret x) = x := by
  rw [unmarked, toList_caret, List.tail_cons, String.ofList_toList]

/-- Whatever a printer of names gives is a name behind a mark. -/
def Marks (mark : String → String) (p : Printer String) : Prop :=
  ∀ n text m, p n = .ok (text, m) → mark (unmarked text) = text

theorem numberValue_marks (v : ValueRef) : Marks percent (numberValue v) := by
  intro n text m h
  cases h
  exact congrArg percent (unmarked_percent (toString n.nextValue))

theorem valueName_eq (v : ValueRef) (n : Numbering) :
    valueName v n = .ok (percent ((n.values.lookup v).elim "?" toString), n) := by
  unfold valueName
  simp only [bind, StateT.bind, get, getThe, MonadStateOf.get, StateT.get, Except.bind, pure,
    Except.pure]
  cases n.values.lookup v <;> rfl

theorem blockLabel_eq (b : BlockRef) (n : Numbering) :
    blockLabel b n = .ok (caret ((n.blocks.lookup b).elim "bb?" ("bb" ++ toString ·)), n) := by
  unfold blockLabel
  simp only [bind, StateT.bind, get, getThe, MonadStateOf.get, StateT.get, Except.bind, pure,
    Except.pure]
  cases n.blocks.lookup b with
  | none => rfl
  | some i =>
    have hlabel : "^bb" ++ toString i = caret ("bb" ++ toString i) := by
      apply String.toList_inj.1
      simp [toList_caret]
    simp only [Option.elim, ← hlabel]
    rfl

theorem valueName_marks (v : ValueRef) : Marks percent (valueName v) := by
  intro n text m h
  cases (valueName_eq v n).symm.trans h
  exact congrArg percent (unmarked_percent _)

theorem blockLabel_marks (b : BlockRef) : Marks caret (blockLabel b) := by
  intro n text m h
  cases (blockLabel_eq b n).symm.trans h
  exact congrArg caret (unmarked_caret _)

/-- Two printers that number alike do so item by item. -/
theorem mapM_of_tree {γ : Type} {f : α → Printer β} {g : α → Printer γ} {P : β → Prop}
    (text : β → γ) (h : ∀ a n b m, f a n = .ok (b, m) → P b → g a n = .ok (text b, m))
    {as : List α} {bs : List β} (hrun : as.mapM f n = .ok (bs, m)) (hbs : ∀ b ∈ bs, P b) :
    as.mapM g n = .ok (bs.map text, m) := by
  induction as generalizing n bs with
  | nil =>
    cases hrun
    rfl
  | cons a as ih =>
    rw [List.mapM_cons] at hrun ⊢
    obtain ⟨b, n₁, hb, hrun⟩ := Printer.bind_ok.1 hrun
    obtain ⟨rest, n₂, hrest, hrun⟩ := Printer.bind_ok.1 hrun
    cases hrun
    obtain ⟨hP, hbs⟩ := List.forall_mem_cons.1 hbs
    exact Printer.bind_ok.2 ⟨_, n₁, h a n b n₁ hb hP,
      Printer.bind_ok.2 ⟨_, _, ih hrest hbs, rfl⟩⟩

theorem mapM_length {f : α → Printer β} {as : List α} {bs : List β}
    (h : as.mapM f n = .ok (bs, m)) : bs.length = as.length := by
  induction as generalizing n bs with
  | nil =>
    cases h
    rfl
  | cons a as ih =>
    rw [List.mapM_cons] at h
    obtain ⟨b, n₁, -, h⟩ := Printer.bind_ok.1 h
    obtain ⟨rest, n₂, hrest, h⟩ := Printer.bind_ok.1 h
    cases h
    exact congrArg (· + 1) (ih hrest)

/-- Names are written with their marks again. -/
theorem mapM_marks {mark : String → String} {f : α → Printer String} (hf : ∀ a, Marks mark (f a))
    {as : List α} {texts : List String} (h : as.mapM f n = .ok (texts, m)) :
    (texts.map unmarked).map mark = texts := by
  have hmarks : ∀ a n text m, f a n = .ok (text, m) → True →
      f a n = .ok ((mark ∘ unmarked) text, m) := by
    intro a n text m hrun _
    rw [hrun, Function.comp_apply, hf a n text m hrun]
  have hsame := mapM_of_tree _ hmarks h fun _ _ => trivial
  rw [List.map_map]
  exact (congrArg Prod.fst (Except.ok.inj (h.symm.trans hsame))).symm

/-! ## Printing writes the lines of the tree -/

theorem printHead_tree {h : OpHead} (htree : treeHead s o d n = .ok (h, m)) :
    printHead s o d n = .ok (h.opening ++ h.parts, m) := by
  obtain ⟨results, n₁, hresults, htree⟩ := Printer.bind_ok.1 htree
  obtain ⟨operands, n₂, hoperands, htree⟩ := Printer.bind_ok.1 htree
  obtain ⟨successors, n₃, hsuccessors, htree⟩ := Printer.bind_ok.1 htree
  cases htree
  refine Printer.bind_ok.2 ⟨results, n₁, hresults, Printer.bind_ok.2 ⟨operands, n₂, hoperands,
    Printer.bind_ok.2 ⟨successors, _, hsuccessors, ?_⟩⟩⟩
  have hopening : (results.map unmarked).isEmpty = results.isEmpty := List.isEmpty_map
  simp only [OpHead.opening, OpHead.parts, mapM_marks numberValue_marks hresults,
    mapM_marks valueName_marks hoperands, mapM_marks blockLabel_marks hsuccessors, hopening,
    OpName.render, String.append_assoc]
  rfl

theorem treeHead_name {h : OpHead} (htree : treeHead s o d n = .ok (h, m)) :
    h.dialect = d.name.dialect ∧ h.name = d.name.name := by
  obtain ⟨results, n₁, -, htree⟩ := Printer.bind_ok.1 htree
  obtain ⟨operands, n₂, -, htree⟩ := Printer.bind_ok.1 htree
  obtain ⟨successors, n₃, -, htree⟩ := Printer.bind_ok.1 htree
  cases htree
  exact ⟨rfl, rfl⟩

theorem opsLines_eq (indent : Nat) (ops : List Op) :
    opsLines indent ops = String.join (ops.map (Op.lines indent)) := by
  apply String.toList_inj.1
  induction ops with
  | nil => rfl
  | cons op ops ih =>
    rw [opsLines, String.toList_append, ih, String.toList_join, String.toList_join, List.map_cons,
      List.flatMap_cons]

theorem printArg_tree {v : ValueRef} {a : TypedName} (htree : treeArg s v n = .ok (a, m)) :
    printArg s v n = .ok (a.render, m) := by
  obtain ⟨name, n₁, hname, htree⟩ := Printer.bind_ok.1 htree
  obtain ⟨ty, n₂, hty, htree⟩ := Printer.bind_ok.1 htree
  cases htree
  refine Printer.bind_ok.2 ⟨name, n₁, hname, Printer.bind_ok.2 ⟨ty, _, hty, ?_⟩⟩
  rw [TypedName.render, numberValue_marks v n name n₁ hname]
  rfl

/-- The arguments of a block are written behind its label. -/
theorem printBlockArgs_tree {b : BlockRef} {args : List TypedName}
    (htree : (s.argsOf b).mapM (treeArg s) n = .ok (args, m)) :
    printBlockArgs s b n = .ok (argsText args, m) := by
  have harg : ∀ v n a m, treeArg s v n = .ok (a, m) → True →
      printArg s v n = .ok (a.render, m) := fun _ _ _ _ h _ => printArg_tree h
  have htexts := mapM_of_tree TypedName.render harg htree fun _ _ => trivial
  unfold printBlockArgs
  cases hargs : s.argsOf b with
  | nil =>
    rw [hargs] at htree
    cases htree
    rfl
  | cons v vs =>
    have hfull : args.isEmpty = false := by
      have hlength := mapM_length htree
      rw [hargs] at hlength
      cases args with
      | nil => cases hlength
      | cons a args => rfl
    rw [hargs] at htexts
    refine Printer.bind_ok.2 ⟨_, m, htexts, ?_⟩
    rw [argsText, hfull]
    rfl

/-- Printing an operation writes the lines of its tree. -/
def WritesTrees (print : Nat → OpRef → Printer String) (tree : OpRef → Printer Op) : Prop :=
  ∀ indent o n op m, tree o n = .ok (op, m) → op.Legible →
    print indent o n = .ok (op.lines indent, m)

section Level

variable {print : Nat → OpRef → Printer String} {tree : OpRef → Printer Op}
  (hprint : WritesTrees print tree)

include hprint

theorem printOps_tree {os : List OpRef} {ops : List Op} (htree : os.mapM tree n = .ok (ops, m))
    (hlegible : ∀ op ∈ ops, op.Legible) :
    printOpsWith print indent os n = .ok (opsLines indent ops, m) := by
  rw [opsLines_eq]
  exact Printer.bind_ok.2 ⟨_, m, mapM_of_tree _ (hprint indent) htree hlegible, rfl⟩

/-- Blocks are written with a blank line between them. -/
theorem printBlocks_tree {header : Bool} {refs : List BlockRef} {bs : List Block}
    (htree : refs.mapM (treeBlock tree s header) n = .ok (bs, m))
    (hlegible : ∀ b ∈ bs, ∀ op ∈ b.ops, op.Legible) :
    printBlocksWith print s indent header refs n = .ok (blocksLines indent header bs, m) := by
  induction refs generalizing n bs with
  | nil =>
    cases htree
    rfl
  | cons b refs ih =>
    rw [List.mapM_cons] at htree
    obtain ⟨block, n₁, hblock, htree⟩ := Printer.bind_ok.1 htree
    obtain ⟨rest, n₂, hrest, htree⟩ := Printer.bind_ok.1 htree
    cases htree
    obtain ⟨⟨label, args⟩, n₃, hheader, hblock⟩ := Printer.bind_ok.1 hblock
    obtain ⟨d, n₄, hd, hblock⟩ := Printer.bind_ok.1 hblock
    obtain ⟨ops, n₅, hbody, hblock⟩ := Printer.bind_ok.1 hblock
    cases hblock
    obtain ⟨hops, hmore⟩ := List.forall_mem_cons.1 hlegible
    have hempty : refs.isEmpty = rest.isEmpty := by
      have hlength := mapM_length hrest
      cases refs <;> cases rest <;> first | rfl | cases hlength
    -- whatever stands in the header, the lines of the operations and of further blocks follow
    have hbehind : ∀ text : String, (do
        let d ← Printer.ask (s.block b)
        let body ← printOpsWith print (indent + 2) d.ops
        let more ← printBlocksWith print s indent header refs
        return text ++ body ++ (if refs.isEmpty then "" else "\n") ++ more : Printer String) n₃ =
          .ok (text ++ opsLines (indent + 2) ops ++ (if rest.isEmpty then "" else "\n") ++
            blocksLines indent header rest, m) := by
      intro text
      rw [← hempty]
      exact Printer.bind_ok.2 ⟨d, n₄, hd, Printer.bind_ok.2 ⟨_, _, printOps_tree hprint hbody hops,
        Printer.bind_ok.2 ⟨_, _, ih hrest hmore, rfl⟩⟩⟩
    cases header with
    | true =>
      obtain ⟨text, n₆, hlabel, hheader⟩ := Printer.bind_ok.1 hheader
      obtain ⟨as, n₇, hargs, hheader⟩ := Printer.bind_ok.1 hheader
      cases hheader
      refine Printer.bind_ok.2 ⟨text, n₆, hlabel,
        Printer.bind_ok.2 ⟨_, _, printBlockArgs_tree hargs, ?_⟩⟩
      rw [blocksLines, Block.lines, if_pos rfl, blockLabel_marks b n text n₆ hlabel]
      exact hbehind _
    | false =>
      cases hheader
      exact hbehind ""

omit hprint in
/-- A region has headers where its tree is written with them. -/
theorem labelled_tree {refs : List BlockRef} {bs : List Block}
    (htree : refs.mapM (treeBlock tree s (needsHeaders s refs)) n = .ok (bs, m)) :
    labelled bs = needsHeaders s refs := by
  have hlength := mapM_length htree
  obtain _ | ⟨b, _ | ⟨b', refs⟩⟩ := refs
  · cases htree
    rfl
  · rw [List.mapM_cons] at htree
    obtain ⟨block, n₁, hblock, hrest⟩ := Printer.bind_ok.1 htree
    cases hrest
    obtain ⟨⟨label, args⟩, n₂, hheader, hblock⟩ := Printer.bind_ok.1 hblock
    obtain ⟨d, n₃, -, hblock⟩ := Printer.bind_ok.1 hblock
    obtain ⟨ops, n₄, -, hblock⟩ := Printer.bind_ok.1 hblock
    cases hblock
    cases hneeds : needsHeaders s [b] with
    | true =>
      rw [hneeds] at hheader
      obtain ⟨text, n₅, -, hheader⟩ := Printer.bind_ok.1 hheader
      obtain ⟨as, n₆, hargs, hheader⟩ := Printer.bind_ok.1 hheader
      cases hheader
      have hfull : (s.argsOf b).isEmpty = false := by simpa [needsHeaders] using hneeds
      have hcount := mapM_length hargs
      cases hvs : s.argsOf b with
      | nil =>
        rw [hvs] at hfull
        cases hfull
      | cons v vs =>
        rw [hvs] at hcount
        cases args with
        | nil => cases hcount
        | cons a args => rfl
    | false =>
      rw [hneeds] at hheader
      cases hheader
      rfl
  · obtain _ | ⟨block, _ | ⟨block', bs⟩⟩ := bs
    · cases hlength
    · cases hlength
    · cases block
      rfl

theorem printRegion_tree {r : RegionRef} {region : Region}
    (htree : treeRegion tree s r n = .ok (region, m))
    (hlegible : ∀ b ∈ region.blocks, ∀ op ∈ b.ops, op.Legible) :
    printRegionWith print s indent r n = .ok (region.lines indent, m) := by
  obtain ⟨d, n₁, hd, htree⟩ := Printer.bind_ok.1 htree
  refine Printer.bind_ok.2 ⟨d, n₁, hd, ?_⟩
  have hblocks : ∀ n₂, (do
      let blocks ← d.blocks.mapM (treeBlock tree s (needsHeaders s d.blocks))
      return Region.mk blocks : Printer Region) n₂ = .ok (region, m) →
      printBlocksWith print s indent (needsHeaders s d.blocks) d.blocks n₂ =
        .ok (region.lines indent, m) := by
    intro n₂ h
    obtain ⟨bs, n₃, hbs, h⟩ := Printer.bind_ok.1 h
    cases h
    rw [Region.lines, labelled_tree hbs]
    exact printBlocks_tree hprint hbs hlegible
  show (if needsHeaders s d.blocks = true then do
      d.blocks.forM numberBlock
      printBlocksWith print s indent (needsHeaders s d.blocks) d.blocks
    else printBlocksWith print s indent (needsHeaders s d.blocks) d.blocks : Printer String) n₁ = _
  by_cases hneeds : needsHeaders s d.blocks = true
  · rw [if_pos hneeds] at htree ⊢
    obtain ⟨u, n₂, hnumber, htree⟩ := Printer.bind_ok.1 htree
    exact Printer.bind_ok.2 ⟨u, n₂, hnumber, hblocks n₂ htree⟩
  · rw [if_neg hneeds] at htree ⊢
    exact hblocks n₁ htree

/-- Regions are written one behind the other. -/
theorem printRegions_tree {rs : List RegionRef} {regions : List Region}
    (htree : rs.mapM (treeRegion tree s) n = .ok (regions, m))
    (hlegible : ∀ r ∈ regions, ∀ b ∈ r.blocks, ∀ op ∈ b.ops, op.Legible) :
    printRegionsWith print s indent rs n = .ok (regionsLines indent regions, m) := by
  induction rs generalizing n regions with
  | nil =>
    cases htree
    rfl
  | cons r rs ih =>
    rw [List.mapM_cons] at htree
    obtain ⟨region, n₁, hregion, htree⟩ := Printer.bind_ok.1 htree
    obtain ⟨rest, n₂, hrest, htree⟩ := Printer.bind_ok.1 htree
    cases htree
    obtain ⟨hops, hmore⟩ := List.forall_mem_cons.1 hlegible
    exact Printer.bind_ok.2 ⟨_, n₁, printRegion_tree hprint hregion hops,
      Printer.bind_ok.2 ⟨_, _, ih hrest hmore, rfl⟩⟩

end Level

/-- By induction on the bound of the nesting. -/
theorem printWithin_tree (s : Store) (depth : Nat) :
    WritesTrees (printWithin s depth) (treeWithin s depth) := by
  induction depth with
  | zero =>
    intro indent o n op m htree
    cases htree
  | succ depth ih =>
    intro indent o n op m htree hlegible
    obtain ⟨d, n₁, hask, hrest⟩ := Printer.bind_ok.1 htree
    obtain ⟨hd, rfl⟩ := Printer.ask_ok.1 hask
    obtain ⟨head, n₂, hhead, hrest⟩ := Printer.bind_ok.1 hrest
    obtain ⟨regions, n₃, hregions, hrest⟩ := Printer.bind_ok.1 hrest
    cases hrest
    obtain ⟨hplain, -, -, hops⟩ := hlegible
    have hname := treeHead_name hhead
    have hplain : IsPlain d := by
      refine ⟨fun h => hplain.notModule ?_, fun h => hplain.notFunction ?_⟩
      all_goals
        rw [hname.1, hname.2, h]
        exact ⟨rfl, rfl⟩
    rw [printWithin_plain hd hplain]
    exact Printer.bind_ok.2 ⟨_, n₂, printHead_tree hhead,
      Printer.bind_ok.2 ⟨_, _, printRegions_tree ih hregions hops, rfl⟩⟩

/-- **Which printed operations are read back.**  The operations of a block print as the lines of
their trees.  Where these are legible, the text is read as these trees up to the closing brace or
the next label, if no bare operation stands in front of one with results, and it cannot be read at
all otherwise; the indentation and the numbers given out before do not matter. -/
theorem printed_operations_read_back {os : List OpRef} {ops : List Op} {stops : List Char}
    {c : Char}
    {t : List Char} (htree : os.mapM (treeWithin s depth) n = .ok (ops, m))
    (hlegible : ∀ op ∈ ops, op.Legible) (hstops : stops ⊆ ['^', '\x7d']) (ht : solid? t = some c)
    (hc : c ∈ stops) :
    ∃ text, printOpsWith (printWithin s depth) indent os n = .ok (text, m) ∧
      ∀ bound fuel, (text.toList ++ t).length < bound → (text.toList ++ t).length < fuel →
        (Spaced ops → repeatWhileFuel (beforeNone stops) (opWithin bound) fuel (text.toList ++ t) =
          .ok ops (dropBlanks false t)) ∧
        (¬ Spaced ops → Fails (repeatWhileFuel (beforeNone stops) (opWithin bound) fuel)
          (text.toList ++ t)) := by
  refine ⟨_, printOps_tree (printWithin_tree s depth) htree hlegible,
    fun bound fuel hbound hfuel => ⟨fun hspaced => ?_, fun hspaced => ?_⟩⟩
  · exact operations_read hlegible hspaced hstops ht hc hbound hfuel
  · exact operations_unspaced hlegible hspaced hstops hbound

end AffineRaising.IR
