/-
# AffineRaising.Proofs.Store.Printed — a restored program prints as before.

The printer looks only at what it reaches from the operation it is given, and in a linked store
everything that it reaches is in the tables.  So a store that restores another one has the same text
wherever the other one has a text: `Restores.print`.

Names are given to values in the order in which they are printed first, so the state of the printer
is a list of values; as restoring keeps references, the second run goes through the same states.
`Repeats` is the relation between the two printers, closed under the ways in which printers are put
together.  The depth of the recursion is bounded by a size of the tables, which may only be larger
in the store that restores.
-/
import AffineRaising.IR.Print
import AffineRaising.Proofs.Store.Padding

namespace AffineRaising.IR

open Store AffineRaising.Analysis

variable {α β : Type}

namespace Printer

/-- Where the first printer comes to an end, the second one does so with the same text and the same
numbers. -/
def Repeats (p p' : Printer α) : Prop := ∀ n x, p n = .ok x → p' n = .ok x

theorem Repeats.refl (p : Printer α) : Repeats p p := fun _ _ h => h

namespace Repeats

/-- A printer whose parts repeat repeats as a whole. -/
theorem bind {p p' : Printer α} {k k' : α → Printer β} (hp : Repeats p p')
    (hk : ∀ a, Repeats (k a) (k' a)) : Repeats (p >>= k) (p' >>= k') := by
  intro n x h
  obtain ⟨⟨a, n₁⟩, hfirst, hrest⟩ := except_bind_ok.1 h
  exact except_bind_ok.2 ⟨(a, n₁), hp n _ hfirst, hk a n₁ x hrest⟩

/-- A query has to find the same in the second store, and what follows has to repeat. -/
theorem ask_bind {q q' : Except Fault α} {k k' : α → Printer β}
    (hq : ∀ a, q = .ok a → q' = .ok a ∧ Repeats (k a) (k' a)) :
    Repeats (Printer.ask q >>= k) (Printer.ask q' >>= k') := by
  intro n x h
  obtain ⟨⟨a, n₁⟩, hfirst, hrest⟩ := except_bind_ok.1 h
  obtain ⟨a', ha, heq⟩ := except_bind_ok.1 hfirst
  cases heq
  obtain ⟨ha', hk⟩ := hq a ha
  exact except_bind_ok.2 ⟨(a, n), except_bind_ok.2 ⟨a, ha', rfl⟩, hk n x hrest⟩

theorem mapM {f f' : α → Printer β} (hf : ∀ a, Repeats (f a) (f' a)) (l : List α) :
    Repeats (l.mapM f) (l.mapM f') := by
  induction l with
  | nil => exact .refl _
  | cons a l ih =>
    rw [List.mapM_cons, List.mapM_cons]
    exact .bind (hf a) fun _ => .bind ih fun _ => .refl _

theorem ite {c : Prop} [Decidable c] {p p' q q' : Printer α} (hp : Repeats p p')
    (hq : Repeats q q') : Repeats (if c then p else q) (if c then p' else q') := by
  split
  · exact hp
  · exact hq

end Repeats

end Printer

open Printer (Repeats)

/-- Operations of a block are printed alike if each of them is. -/
theorem printOpsWith_repeats {print print' : Nat → OpRef → Printer String}
    (hprint : ∀ indent o, Repeats (print indent o) (print' indent o)) (indent : Nat)
    (ops : List OpRef) : Repeats (printOpsWith print indent ops) (printOpsWith print' indent ops) :=
  .bind (.mapM (hprint indent) ops) fun _ => .refl _

section Printed

variable {s t : Store} (h : Restores s t)

include h

/-- A block that was there has the arguments it had. -/
theorem Restores.argsOf {b : BlockRef} {d : BlockData} (hb : s.block? b = some d) :
    t.argsOf b = s.argsOf b := by
  rw [argsOf_eq hb, argsOf_eq (h.block? b d hb)]

/-- A value that was there has the type it had. -/
theorem Restores.typeOf {v : ValueRef} {ty : Ty} (hv : s.typeOf v = .ok ty) :
    t.typeOf v = .ok ty := by
  simp only [Store.typeOf, except_bind_ok, value_ok] at hv ⊢
  obtain ⟨d, hd, hty⟩ := hv
  exact ⟨d, h.value? v d hd, hty⟩

theorem printArgs_repeats (args : List ValueRef) :
    Repeats (printArgs s args) (printArgs t args) := by
  have harg : ∀ v, Repeats (printArg s v) (printArg t v) := fun v =>
    .bind (.refl _) fun name => .ask_bind fun ty hty => ⟨h.typeOf hty, .refl _⟩
  exact .bind (.mapM harg args) fun _ => .refl _

/-- The labels of a block that was there are printed alike. -/
theorem printBlockArgs_repeats {b : BlockRef} {d : BlockData} (hb : s.block? b = some d) :
    Repeats (printBlockArgs s b) (printBlockArgs t b) := by
  unfold printBlockArgs
  rw [h.argsOf hb]
  split
  · exact .refl _
  · exact printArgs_repeats h _

/-! ## One level -/

section Level

variable {print print' : Nat → OpRef → Printer String}
  (hprint : ∀ indent o, Repeats (print indent o) (print' indent o))

include hprint

/-- Blocks that were there are printed alike, level by level. -/
theorem printBlocksWith_repeats (indent : Nat) (labelled : Bool) {bs : List BlockRef}
    (hbs : ∀ b ∈ bs, ∃ d, s.block? b = some d) :
    Repeats (printBlocksWith print s indent labelled bs)
      (printBlocksWith print' t indent labelled bs) := by
  induction bs with
  | nil => exact .refl _
  | cons b bs ih =>
    obtain ⟨d, hd⟩ := hbs b List.mem_cons_self
    have hbody : ∀ header : String, Repeats
        (do
          let ops ← Printer.ask (s.block b)
          let body ← printOpsWith print (indent + 2) ops.ops
          let more ← printBlocksWith print s indent labelled bs
          return header ++ body ++ (if bs.isEmpty then "" else "\n") ++ more)
        (do
          let ops ← Printer.ask (t.block b)
          let body ← printOpsWith print' (indent + 2) ops.ops
          let more ← printBlocksWith print' t indent labelled bs
          return header ++ body ++ (if bs.isEmpty then "" else "\n") ++ more) := by
      intro header
      refine .ask_bind fun bd hbd => ⟨block_ok.2 (h.block? b bd (block_ok.1 hbd)), ?_⟩
      refine .bind (printOpsWith_repeats hprint _ _) fun _ => ?_
      exact .bind (ih fun b' hb' => hbs b' (List.mem_cons_of_mem b hb')) fun _ => .refl _
    cases labelled with
    | false => exact .bind (.refl _) hbody
    | true =>
      refine .bind (.refl _) fun label => ?_
      exact .bind (printBlockArgs_repeats h hd) fun args => .bind (.refl _) hbody

/-- In a linked store the blocks of a region are there, so its text repeats. -/
theorem printRegionWith_repeats (hl : Linked s) (indent : Nat) (r : RegionRef) :
    Repeats (printRegionWith print s indent r) (printRegionWith print' t indent r) := by
  refine .ask_bind fun d hd => ⟨region_ok.2 (h.region? r d (region_ok.1 hd)), ?_⟩
  have hblocks : ∀ b ∈ d.blocks, ∃ bd, s.block? b = some bd := by
    intro b hb
    obtain ⟨bd, hbd, _⟩ := block?_of_region hl (region_ok.1 hd) hb
    exact ⟨bd, hbd⟩
  have hrest : ∀ labelled labelled' : Bool, labelled = labelled' → Repeats
      (do
        if labelled then d.blocks.forM numberBlock
        printBlocksWith print s indent labelled d.blocks)
      (do
        if labelled' then d.blocks.forM numberBlock
        printBlocksWith print' t indent labelled' d.blocks) := by
    rintro labelled _ rfl
    have hprinted := printBlocksWith_repeats h hprint indent labelled hblocks
    exact .ite (.bind (.refl _) fun _ => hprinted) hprinted
  refine hrest _ _ ?_
  -- only the arguments of a single block are looked at
  split
  · rename_i b heq
    obtain ⟨bd, hbd⟩ := hblocks b (by rw [heq]; exact List.mem_cons_self)
    rw [h.argsOf hbd]
  · rfl

theorem printRegionsWith_repeats (hl : Linked s) (indent : Nat) (rs : List RegionRef) :
    Repeats (printRegionsWith print s indent rs) (printRegionsWith print' t indent rs) := by
  induction rs with
  | nil => exact .refl _
  | cons r rs ih =>
    exact .bind (printRegionWith_repeats h hprint hl _ r) fun _ => .bind ih fun _ => .refl _

theorem printModuleBody_repeats (indent : Nat) (bs : List BlockRef) :
    Repeats (printModuleBody print s indent bs) (printModuleBody print' t indent bs) := by
  induction bs with
  | nil => exact .refl _
  | cons b bs ih =>
    refine .ask_bind fun d hd => ⟨block_ok.2 (h.block? b d (block_ok.1 hd)), ?_⟩
    refine .bind (.mapM (fun o => .bind (.refl _) fun _ => hprint indent o) d.ops) fun _ => ?_
    exact .bind ih fun _ => .refl _

/-- A module that has its attributes and blocks again has its text again. -/
theorem printModuleWith_repeats (indent : Nat) (d : OpData) :
    Repeats (printModuleWith print s indent d) (printModuleWith print' t indent d) := by
  unfold printModuleWith
  cases d.regions with
  | nil => exact .refl _
  | cons r rs =>
    refine .ask_bind fun rd hrd => ⟨region_ok.2 (h.region? r rd (region_ok.1 hrd)), ?_⟩
    exact .bind (printModuleBody_repeats h hprint _ _) fun _ => .refl _

theorem printFunctionBlocks_repeats (indent : Nat) (labelled : Bool) {bs : List BlockRef} :
    ∀ entry, (∀ b ∈ bs, ∃ d, s.block? b = some d) →
      Repeats (printFunctionBlocks print s indent labelled entry bs)
        (printFunctionBlocks print' t indent labelled entry bs) := by
  induction bs with
  | nil => exact fun _ _ => .refl _
  | cons b bs ih =>
    intro entry hbs
    obtain ⟨d, hd⟩ := hbs b List.mem_cons_self
    have hbody : ∀ header : String, Repeats
        (do
          let d ← Printer.ask (s.block b)
          let body ← printOpsWith print (indent + if labelled then 4 else 2) d.ops
          let more ← printFunctionBlocks print s indent labelled false bs
          return header ++ body ++ more)
        (do
          let d ← Printer.ask (t.block b)
          let body ← printOpsWith print' (indent + if labelled then 4 else 2) d.ops
          let more ← printFunctionBlocks print' t indent labelled false bs
          return header ++ body ++ more) := by
      intro header
      refine .ask_bind fun bd hbd => ⟨block_ok.2 (h.block? b bd (block_ok.1 hbd)), ?_⟩
      refine .bind (printOpsWith_repeats hprint _ _) fun _ => ?_
      exact .bind (ih false fun b' hb' => hbs b' (List.mem_cons_of_mem b hb')) fun _ => .refl _
    cases labelled with
    | false => exact .bind (.refl _) hbody
    | true =>
      refine .bind (.refl _) fun label => ?_
      cases entry with
      | true => exact .bind (.refl _) fun args => .bind (.refl _) hbody
      | false => exact .bind (printBlockArgs_repeats h hd) fun args => .bind (.refl _) hbody

/-- A function that has its attributes and blocks again has its text again. -/
theorem printFunctionWith_repeats (hl : Linked s) (indent : Nat) (d : OpData) :
    Repeats (printFunctionWith print s indent d) (printFunctionWith print' t indent d) := by
  refine .bind (.refl _) fun _ => ?_
  extract_lets rest rest'
  -- once the blocks are known, the two printers ask for the same things
  have hrest : ∀ blocks, (∀ b ∈ blocks, ∃ bd, s.block? b = some bd) →
      Repeats (rest blocks) (rest' blocks) := by
    intro blocks hblocks
    cases blocks with
    | nil => exact .refl _
    | cons b bs =>
      obtain ⟨bd, hbd⟩ := hblocks b List.mem_cons_self
      have hargs : Repeats (printArgs s (s.argsOf b)) (printArgs t (t.argsOf b)) := by
        rw [h.argsOf hbd]
        exact printArgs_repeats h _
      refine .bind hargs fun args => .ite (.refl _) ?_
      have hbody : ∀ labelled : Bool, Repeats
          (printFunctionBlocks print s indent labelled true (b :: bs))
          (printFunctionBlocks print' t indent labelled true (b :: bs)) := fun labelled =>
        printFunctionBlocks_repeats h hprint indent labelled true hblocks
      exact .ite (.bind (.refl _) fun _ => .bind (hbody _) fun _ => .refl _)
        (.bind (hbody _) fun _ => .refl _)
  cases d.regions with
  | nil => exact hrest [] (fun b hb => by cases hb)
  | cons r rs =>
    refine .ask_bind fun rd hrd => ⟨region_ok.2 (h.region? r rd (region_ok.1 hrd)), ?_⟩
    refine hrest rd.blocks fun b hb => ?_
    obtain ⟨bd, hbd, _⟩ := block?_of_region hl (region_ok.1 hrd) hb
    exact ⟨bd, hbd⟩

end Level

/-! ## All levels -/

/-- By induction on the depth, whatever is printed is printed alike with any larger bound. -/
theorem printWithin_repeats (hl : Linked s) (n : Nat) : ∀ m, n ≤ m → ∀ indent o,
    Repeats (printWithin s n indent o) (printWithin t m indent o) := by
  induction n with
  | zero =>
    intro m _ indent o k x hrun
    cases hrun
  | succ n ih =>
    intro m hm indent o
    obtain ⟨m, rfl⟩ : ∃ k, m = k + 1 := ⟨m - 1, by omega⟩
    have hprint := ih m (by omega)
    refine .ask_bind fun d hd => ⟨op_ok.2 (h.op? o d (op_ok.1 hd)), ?_⟩
    refine .ite (printModuleWith_repeats h hprint indent d) ?_
    refine .ite (printFunctionWith_repeats h hprint hl indent d) ?_
    have hhead : printHead t o d = printHead s o d := by
      unfold printHead
      rw [resultsOf_eq (op_ok.1 hd), resultsOf_eq (h.op? o d (op_ok.1 hd))]
    rw [hhead]
    exact .bind (.refl _) fun _ => .bind (printRegionsWith_repeats h hprint hl _ _) fun _ => .refl _

/-- A program that was restored has the text that it had. -/
theorem Restores.print (hl : Linked s) {o : OpRef} {text : String} (hs : s.print o = .ok text) :
    t.print o = .ok text := by
  have hdepth : s.depthBound ≤ t.depthBound := by
    have hsize := (getElem?_move s.ops t.ops (fun i => h.op? ⟨i⟩) 0).2.size
    simp only [Store.depthBound]
    omega
  obtain ⟨⟨text', n⟩, hrun, heq⟩ := except_bind_ok.1 hs
  exact except_bind_ok.2 ⟨(text', n),
    printWithin_repeats h hl s.depthBound t.depthBound hdepth 0 o _ _ hrun, heq⟩

end Printed

end AffineRaising.IR
