import Peephole.Graph.Printer
import Peephole.Proofs.Entries
import Mathlib.Data.Fintype.Card

/-!
# What a printed text depends on

The text of an operation is made from the entries of the operation, of the regions, blocks and
arguments inside it, and of what is nested there.  Where two graphs agree on these
(`Graph.AgreeOn`), they print the same text.

The printer goes down to a given depth and gives up below it.  `Follows` compares two
printings of which the second may have gone deeper: either they are the same, or the first one
gave up.  More depth than the table of operations has entries changes nothing
(`printTo_deeper`): the operations that can be printed to a depth are more and more, and as
soon as one level adds none, no later level does.
-/

namespace Peephole

/-- The second computation ends as the first one does, unless the first one gave up.  Its
result is the same if `exact` holds, and any result if not. -/
inductive Follows {α : Type} (exact : Prop) : Except Fault α → Except Fault α → Prop
  | ok {a b : α} : (exact → a = b) → Follows exact (.ok a) (.ok b)
  | error (e : Fault) : Follows exact (.error e) (.error e)
  | endless (y : Except Fault α) : Follows exact (.error .endless) y

namespace Follows

variable {α β : Type} {exact : Prop} {x y : Except Fault α}

theorem bind {k l : α → Except Fault β} (h : Follows exact x y)
    (hk : ∀ a b, (exact → a = b) → Follows exact (k a) (l b)) :
    Follows exact (x >>= k) (y >>= l) := by
  cases h with
  | ok hab => exact hk _ _ hab
  | error e => exact .error e
  | endless y => exact .endless _

theorem bind_self {k l : α → Except Fault β}
    (hk : ∀ a, x = .ok a → Follows exact (k a) (l a)) : Follows exact (x >>= k) (x >>= l) := by
  cases x with
  | ok a => exact hk a rfl
  | error e => exact .error e

/-- Two computations that end as each other do are the same. -/
theorem antisymm (h : Follows True x y) (h' : Follows True y x) : x = y := by
  cases h with
  | ok hab => rw [hab trivial]
  | error e => rfl
  | endless y =>
    cases h' with
    | error => rfl
    | endless => rfl

/-- Unless the first one gave up, both are the same. -/
theorem eq (h : Follows True x y) (hx : x ≠ .error .endless) : x = y := by
  cases h with
  | ok hab => rw [hab trivial]
  | error e => rfl
  | endless y => exact absurd rfl hx

/-- If the second one gave up, then so did the first. -/
theorem gives_up (h : Follows exact x y) (hy : y = .error .endless) : x = .error .endless := by
  cases h with
  | ok => cases hy
  | error => exact hy
  | endless => rfl

end Follows

namespace Graph

variable {g g' : Graph} {exact : Prop} {ns ns' : Numbering}

/-- The block is in a region of the operation. -/
def Contained (g : Graph) (o : OpId) (b : BlockId) : Prop :=
  ∃ d r R, g.op o = .ok d ∧ r ∈ d.regions ∧ g.region r = .ok R ∧ b ∈ R.blocks

/-- The graphs agree on some operations and on all that is printed with them. -/
structure AgreeOn (printed : OpId → Prop) (g g' : Graph) : Prop where
  op {o : OpId} : printed o → g'.op o = g.op o
  region {o : OpId} {d : Op} {r : RegionId} : printed o → g.op o = .ok d → r ∈ d.regions →
    g'.region r = g.region r
  block {o : OpId} {b : BlockId} : printed o → g.Contained o b → g'.block b = g.block b
  value {o : OpId} {b : BlockId} {B : Block} {v : ValueId} : printed o → g.Contained o b →
    g.block b = .ok B → v ∈ B.args → g'.value v = g.value v
  nested {o p : OpId} {b : BlockId} {B : Block} : printed o → g.Contained o b →
    g.block b = .ok B → p ∈ B.ops → printed p

theorem AgreeOn.refl (g : Graph) : AgreeOn (fun _ => True) g g :=
  ⟨fun _ => rfl, fun _ _ _ => rfl, fun _ _ => rfl, fun _ _ _ _ => rfl, fun _ _ _ _ => trivial⟩

theorem AgreeOn.contained {printed : OpId → Prop} {o : OpId} {b : BlockId}
    (h : AgreeOn printed g g') (ho : printed o) (hb : g'.Contained o b) : g.Contained o b := by
  obtain ⟨d, r, R, hd, hr, hR, hb⟩ := hb
  rw [h.op ho] at hd
  rw [h.region ho hd hr] at hR
  exact ⟨d, r, R, hd, hr, hR, hb⟩

theorem AgreeOn.symm {printed : OpId → Prop} (h : AgreeOn printed g g') : AgreeOn printed g' g where
  op ho := (h.op ho).symm
  region ho hd hr := (h.region ho ((h.op ho).symm.trans hd) hr).symm
  block ho hb := (h.block ho (h.contained ho hb)).symm
  value ho hb hB hv := by
    have hb' := h.contained ho hb
    rw [h.block ho hb'] at hB
    exact (h.value ho hb' hB hv).symm
  nested ho hb hB hp := by
    have hb' := h.contained ho hb
    rw [h.block ho hb'] at hB
    exact h.nested ho hb' hB hp

/-! ## The parts of the printer -/

theorem follows_printAll {α : Type} {f f' : Numbering → α → Except Fault Printed} :
    ∀ {l : List α} {ns ns' : Numbering}, (exact → ns = ns') →
      (∀ ns ns', (exact → ns = ns') → ∀ a ∈ l, Follows exact (f ns a) (f' ns' a)) →
      Follows exact (printAll f ns l) (printAll f' ns' l)
  | [], _, _, hns, _ => .ok fun he => by rw [hns he]
  | a :: l, ns, ns', hns, hf => by
      refine (hf ns ns' hns a (.head l)).bind fun first first' hfirst => ?_
      have hrest : ∀ ns ns', (exact → ns = ns') → ∀ b ∈ l, Follows exact (f ns b) (f' ns' b) :=
        fun ns ns' hns b hb => hf ns ns' hns b (.tail a hb)
      have hnext : exact → first.2 = first'.2 := fun he => by rw [hfirst he]
      refine (follows_printAll hnext hrest).bind fun rest rest' hrest => ?_
      exact .ok fun he => by rw [hfirst he, hrest he]

theorem follows_mapM_value {vs : List ValueId} (hvalue : ∀ v ∈ vs, g'.value v = g.value v) :
    (vs.mapM fun v => return (← g'.value v).type : Except Fault (List Ty)) =
      vs.mapM fun v => return (← g.value v).type := by
  induction vs with
  | nil => rfl
  | cons v vs ih =>
    rw [List.mapM_cons, List.mapM_cons, hvalue v (.head vs), ih fun w hw => hvalue w (.tail v hw)]

theorem follows_printArgs {args : List ValueId} (hns : exact → ns = ns')
    (hvalue : ∀ v ∈ args, g'.value v = g.value v) :
    Follows exact (g.printArgs ns args) (g'.printArgs ns' args) := by
  rw [printArgs, printArgs]
  dsimp only
  rw [follows_mapM_value hvalue]
  refine .bind_self fun types _ => .ok fun he => ?_
  rw [hns he]

theorem blockArgs_of_block {b : BlockId} {B : Block} (hB : g.block b = .ok B) :
    g.blockArgs b = B.args := by
  rw [blockArgs, block_eq_ok.1 hB]

theorem blockArgs_congr {b : BlockId} (h : g'.block b = g.block b) :
    g'.blockArgs b = g.blockArgs b := by
  have hentry : g'.blocks[b.index]? = g.blocks[b.index]? := by
    apply Option.ext
    intro B
    rw [← block_eq_ok, ← block_eq_ok, h]
  rw [blockArgs, blockArgs, hentry]

theorem mem_blockArgs {b : BlockId} {v : ValueId} (hv : v ∈ g.blockArgs b) :
    ∃ B, g.block b = .ok B ∧ v ∈ B.args := by
  rw [blockArgs] at hv
  split at hv
  · rename_i B hB
    exact ⟨B, block_eq_ok.2 hB, hv⟩
  · cases hv

section Parts

variable {printed : OpId → Prop} {o : OpId} (hagree : AgreeOn printed g g') (ho : printed o)
  {f f' : Numbering → OpId → Except Fault Printed} {w w' : Nat}
  (hf : ∀ ns ns', (exact → ns = ns') → ∀ p, printed p → Follows exact (f ns p) (f' ns' p))
  (hw : exact → w = w')
include hagree ho hf hw

omit hf in
theorem follows_printLabel {b : BlockId} (hb : g.Contained o b) (i : Nat) (hns : exact → ns = ns') :
    Follows exact (g.printLabel w ns i b) (g'.printLabel w' ns' i b) := by
  rw [printLabel, printLabel, blockArgs_congr (hagree.block ho hb)]
  dsimp only
  split
  · exact .ok fun he => by rw [hns he, hw he]
  · have hvalue : ∀ v ∈ g.blockArgs b, g'.value v = g.value v := by
      intro v hv
      obtain ⟨B, hB, hv⟩ := mem_blockArgs hv
      exact hagree.value ho hb hB hv
    refine (follows_printArgs hns hvalue).bind fun text text' htext => ?_
    exact .ok fun he => by rw [htext he, hw he]

omit hw in
theorem follows_printBlockBy {b : BlockId} (hb : g.Contained o b) (hns : exact → ns = ns') :
    Follows exact (g.printBlockBy f ns b) (g'.printBlockBy f' ns' b) := by
  rw [printBlockBy, printBlockBy, hagree.block ho hb]
  refine .bind_self fun B hB => follows_printAll hns fun ns ns' hns p hp => ?_
  exact hf ns ns' hns p (hagree.nested ho hb hB hp)

theorem follows_printLabelledBy {blocks : List (BlockId × Nat)}
    (hblocks : ∀ x ∈ blocks, g.Contained o x.1) (hns : exact → ns = ns') :
    Follows exact (g.printLabelledBy f w ns blocks) (g'.printLabelledBy f' w' ns' blocks) := by
  refine follows_printAll hns fun ns ns' hns x hx => ?_
  refine (follows_printLabel hagree ho hw (hblocks x hx) x.2 hns).bind fun label label' hlabel => ?_
  have hnext : exact → label.2 = label'.2 := fun he => by rw [hlabel he]
  refine (follows_printBlockBy hagree ho hf (hblocks x hx) hnext).bind fun body body' hbody => ?_
  exact .ok fun he => by rw [hlabel he, hbody he]

theorem follows_printRegionBy {d : Op} {r : RegionId} (hd : g.op o = .ok d) (hr : r ∈ d.regions)
    (hns : exact → ns = ns') :
    Follows exact (g.printRegionBy f w ns r) (g'.printRegionBy f' w' ns' r) := by
  rw [printRegionBy, printRegionBy, hagree.region ho hd hr]
  refine .bind_self fun R hR => ?_
  have hin : ∀ b ∈ R.blocks, g.Contained o b := fun b hb => ⟨d, r, R, hd, hr, hR, hb⟩
  split
  · rename_i b heq
    have hb : g.Contained o b := hin b (heq ▸ .head _)
    rw [blockArgs_congr (hagree.block ho hb)]
    split
    · exact follows_printBlockBy hagree ho hf hb hns
    · refine follows_printLabelledBy hagree ho hf hw (fun x hx => ?_) hns
      rw [List.mem_singleton.1 hx]
      exact hb
  · refine follows_printLabelledBy hagree ho hf hw (fun x hx => ?_) hns
    exact hin x.1 (List.fst_mem_of_mem_zipIdx hx)

theorem follows_printPlainBy {d : Op} (hd : g.op o = .ok d) (hns : exact → ns = ns') :
    Follows exact (g.printPlainBy f w ns d) (g'.printPlainBy f' w' ns' d) := by
  rw [printPlainBy, printPlainBy]
  dsimp only
  refine (follows_printAll (fun he => by rw [hns he]) fun ns ns' hns r hr => ?_).bind
    fun regions regions' hregions => ?_
  · refine (follows_printRegionBy hagree ho hf hw hd hr hns).bind fun body body' hbody => ?_
    exact .ok fun he => by rw [hbody he, hw he]
  · exact .ok fun he => by rw [hregions he, hw he, hns he]

theorem follows_printFuncBy {d : Op} (hd : g.op o = .ok d) :
    Follows exact (g.printFuncBy f w d) (g'.printFuncBy f' w' d) := by
  rw [printFuncBy, printFuncBy]
  dsimp only
  split
  · exact .ok fun he => by rw [hw he]
  · rename_i body rest heq
    have hr : body ∈ d.regions := heq ▸ .head _
    rw [hagree.region ho hd hr]
    refine .bind_self fun R hR => ?_
    have hin : ∀ b ∈ R.blocks, g.Contained o b := fun b hb => ⟨d, body, R, hd, hr, hR, hb⟩
    split
    · exact .ok fun he => by rw [hw he]
    · rename_i first others hblocks
      have hfirst : g.Contained o first := hin first (hblocks ▸ .head _)
      rw [blockArgs_congr (hagree.block ho hfirst)]
      have hvalue : ∀ v ∈ g.blockArgs first, g'.value v = g.value v := by
        intro v hv
        obtain ⟨B, hB, hv⟩ := mem_blockArgs hv
        exact hagree.value ho hfirst hB hv
      refine (follows_printArgs (fun _ => rfl) hvalue).bind fun args args' hargs => ?_
      refine (follows_printBlockBy hagree ho hf hfirst fun he => by rw [hargs he]).bind
        fun head head' hhead => ?_
      refine (follows_printLabelledBy hagree ho hf hw (fun x hx => ?_)
        fun he => by rw [hhead he]).bind fun tail tail' htail => ?_
      · exact hin x.1 (hblocks ▸ .tail _ (List.fst_mem_of_mem_zipIdx hx))
      · exact .ok fun he => by rw [hargs he, hhead he, htail he, hw he]

end Parts

/-! ## Whole operations -/

/-- One level of printing. -/
theorem follows_printTo_succ {printed : OpId → Prop} (hagree : AgreeOn printed g g') {n m : Nat}
    (hnext : ∀ w w' ns ns', (exact → w = w') → (exact → ns = ns') → ∀ p, printed p →
      Follows exact (g.printTo n w ns p) (g'.printTo m w' ns' p))
    {w w' : Nat} (hw : exact → w = w') (hns : exact → ns = ns') {o : OpId} (ho : printed o) :
    Follows exact (g.printTo (n + 1) w ns o) (g'.printTo (m + 1) w' ns' o) := by
  rw [printTo, printTo, hagree.op ho]
  refine .bind_self fun d hd => ?_
  have hwidth : exact → w + 2 = w' + 2 := fun he => by rw [hw he]
  have hf := fun ns ns' hns p hp => hnext (w + 2) (w' + 2) ns ns' hwidth hns p hp
  dsimp only
  split
  · exact follows_printFuncBy hagree ho hf hw hd
  · exact follows_printPlainBy hagree ho hf hw hd hns

theorem follows_printTo {printed : OpId → Prop} (hagree : AgreeOn printed g g') :
    ∀ {n m : Nat}, n ≤ m → ∀ (w w' : Nat) (ns ns' : Numbering), (exact → w = w') →
      (exact → ns = ns') → ∀ o, printed o →
        Follows exact (g.printTo n w ns o) (g'.printTo m w' ns' o)
  | 0, _, _, _, _, _, _, _, _, _, _ => .endless _
  | _ + 1, _ + 1, hnm, _, _, _, _, hw, hns, _, ho =>
      follows_printTo_succ hagree
        (fun w w' ns ns' hw hns p hp =>
          follows_printTo hagree (Nat.le_of_succ_le_succ hnm) w w' ns ns' hw hns p hp) hw hns ho

/-- The graphs print what they agree on the same way. -/
theorem AgreeOn.printTo {printed : OpId → Prop} (h : AgreeOn printed g g') (n w : Nat)
    (ns : Numbering) {o : OpId} (ho : printed o) : g'.printTo n w ns o = g.printTo n w ns o :=
  Follows.antisymm
    (follows_printTo h.symm (Nat.le_refl n) w w ns ns (fun _ => rfl) (fun _ => rfl) o ho)
    (follows_printTo h (Nat.le_refl n) w w ns ns (fun _ => rfl) (fun _ => rfl) o ho)

/-! ## Depth -/

/-- The printer gives up on the operation at this depth. -/
def GivesUp (g : Graph) (n : Nat) (o : OpId) : Prop := g.printTo n 0 .empty o = .error .endless

/-- Whether the printer gives up depends neither on the margin nor on the numbers. -/
theorem givesUp_iff {n w : Nat} {o : OpId} :
    g.printTo n w ns o = .error .endless ↔ g.GivesUp n o := by
  have hany : ∀ w w' ns ns', Follows False (g.printTo n w ns o) (g.printTo n w' ns' o) :=
    fun w w' ns ns' => follows_printTo (.refl g) (Nat.le_refl n) w w' ns ns' nofun nofun o trivial
  exact ⟨(hany _ _ _ _).gives_up, (hany _ _ _ _).gives_up⟩

theorem follows_printTo_le {n m : Nat} (hnm : n ≤ m) (w : Nat) (ns : Numbering) (o : OpId) :
    Follows True (g.printTo n w ns o) (g.printTo m w ns o) :=
  follows_printTo (.refl g) hnm w w ns ns (fun _ => rfl) (fun _ => rfl) o trivial

theorem GivesUp.anti {n m : Nat} {o : OpId} (h : g.GivesUp m o) (hnm : n ≤ m) : g.GivesUp n o :=
  (follows_printTo_le hnm 0 .empty o).gives_up h

theorem printTo_eq_of_givesUp {n m : Nat} (hnm : n ≤ m)
    (h : ∀ o, g.GivesUp n o → g.GivesUp m o) : g.printTo m = g.printTo n := by
  funext w ns o
  by_cases hn : g.GivesUp n o
  · rw [givesUp_iff.2 hn, givesUp_iff.2 (h o hn)]
  · exact ((follows_printTo_le hnm w ns o).eq (mt givesUp_iff.1 hn)).symm

/-- A name that was never given out is found out at once. -/
theorem not_givesUp_of_new {n : Nat} {o : OpId} (ho : g.ops.size ≤ o.index) :
    ¬g.GivesUp (n + 1) o := by
  have hnone : g.ops[o.index]? = none := Array.getElem?_eq_none ho
  have hop : g.op o = .error .outOfBounds := by
    rw [op, slot, hnone]
    rfl
  intro h
  rw [GivesUp, printTo, hop] at h
  cases h

open scoped Classical in
/-- The operations that can be printed to a depth. -/
noncomputable def printable (g : Graph) (n : Nat) : Finset (Fin g.ops.size) :=
  Finset.univ.filter fun i => ¬g.GivesUp (n + 1) ⟨i⟩

theorem mem_printable {n : Nat} {i : Fin g.ops.size} :
    i ∈ g.printable n ↔ ¬g.GivesUp (n + 1) ⟨i⟩ := by
  simp [printable]

theorem printable_mono : Monotone g.printable := by
  intro n m hnm i hi
  rw [mem_printable] at hi ⊢
  exact fun hm => hi (hm.anti (Nat.succ_le_succ hnm))

theorem printTo_eq_of_printable {n m : Nat} (hnm : n ≤ m)
    (h : (g.printable n).card = (g.printable m).card) : g.printTo (m + 1) = g.printTo (n + 1) := by
  have heq : g.printable n = g.printable m :=
    Finset.eq_of_subset_of_card_le (printable_mono hnm) h.ge
  refine printTo_eq_of_givesUp (Nat.succ_le_succ hnm) fun o ho => ?_
  by_cases hlt : o.index < g.ops.size
  · by_contra hm
    have hmem : (⟨o.index, hlt⟩ : Fin g.ops.size) ∈ g.printable m := mem_printable.2 hm
    rw [← heq] at hmem
    exact mem_printable.1 hmem ho
  · exact absurd ho (not_givesUp_of_new (Nat.le_of_not_lt hlt))

/-- Below the depth to which operations can nest there is nothing to print. -/
theorem printTo_deeper {n : Nat} (hn : g.depth ≤ n) : g.printTo n = g.printTo g.depth := by
  obtain ⟨m, rfl⟩ : ∃ m, n = m + 1 := ⟨n - 1, by have := hn; unfold depth at this; omega⟩
  have hm : g.ops.size ≤ m := Nat.le_of_succ_le_succ hn
  -- a level that adds no operation is the last one to add any
  have hstall : ∀ k, (g.printable k).card = (g.printable (k + 1)).card →
      (g.printable (k + 1)).card = (g.printable (k + 2)).card := by
    intro k hk
    have hnext : g.printTo (k + 2) = g.printTo (k + 1) :=
      printTo_eq_of_printable (Nat.le_succ k) hk
    have hlater : g.printTo (k + 3) = g.printTo (k + 2) := by
      funext w ns o
      rw [printTo, printTo, hnext]
    congr 1
    ext i
    simp only [mem_printable, GivesUp, hlater]
  have hbound : ∀ k, (g.printable k).card ≤ g.ops.size := by
    intro k
    simpa using Finset.card_le_univ (g.printable k)
  have hcard := Nat.stabilises_of_monotone
    (fun _ _ h => Finset.card_le_card (printable_mono h)) hbound hstall hm
  exact printTo_eq_of_printable hm hcard.symm

/-- Where graphs agree, they print the same texts, if the second has at least as many
operations as the first. -/
theorem AgreeOn.opText {printed : OpId → Prop} {o : OpId} (h : AgreeOn printed g g')
    (hsize : g.ops.size ≤ g'.ops.size) (ho : printed o) : g'.opText o = g.opText o := by
  have hdepth : g.depth ≤ g'.depth := Nat.succ_le_succ hsize
  rw [Graph.opText, Graph.opText, h.printTo _ _ _ ho, printTo_deeper hdepth]

end Graph

end Peephole
