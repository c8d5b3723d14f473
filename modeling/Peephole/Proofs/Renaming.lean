import Peephole.Proofs.Availability
import Peephole.Proofs.Pieces
import Peephole.Proofs.UseLists
import Mathlib.Data.List.Find

/-!
# Texts under renaming

Names of operations, blocks, regions and values are positions in tables, and where a thing stands
in its table depends on the history of the graph.  None of this is printed.  `Graph.Renaming`
relates the tree under an operation to a tree of another graph that has other names and is
otherwise the same, and `Reachable.opText_renamed` says that both are printed as the same text.

The pieces of the second tree are those of the first with the names changed.  Filling them gives
the same text since the renaming keeps the values of the tree apart.
-/

namespace Peephole

/-! ## Renamed pieces -/

section Rename

variable (f : OpId → OpId) (ν : ValueId → ValueId)

def Line.rename (l : Line) : Line :=
  { l with op := f l.op, operands := l.operands.map ν, results := l.results.map ν }

def Piece.rename : Piece → Piece
  | text s => text s
  | args vs types => args (vs.map ν) types
  | line l => line (l.rename f ν)
  | restart => restart

def Sheet.rename (s : Sheet) : Sheet := ⟨s.args.map ν, s.types, s.ops.map f⟩

def Frame.rename (frame : Frame) : Frame := frame.map (Sum.map (Piece.rename f ν) f)

/-- A numbering with other names of the values. -/
def Numbering.rename (ns : Numbering) : Numbering :=
  ⟨ns.known.map fun (v, n) => (ν v, n), ns.next⟩

end Rename

namespace Frame

variable {f : OpId → OpId} {ν : ValueId → ValueId} {w : Nat}

@[simp]
theorem rename_append (frame frame' : Frame) :
    Frame.rename f ν (frame ++ frame') = frame.rename f ν ++ frame'.rename f ν :=
  List.map_append

@[simp]
theorem rename_body (s : Sheet) : Frame.rename f ν s.body = (s.rename f ν).body := by
  simp [Frame.rename, Sheet.body, Sheet.rename]

@[simp]
theorem rename_sheet (s : Sheet) (i : Nat) :
    Frame.rename f ν (s.labelled w i) = (s.rename f ν).labelled w i := by
  have hempty : (s.rename f ν).args.isEmpty = s.args.isEmpty := List.isEmpty_map
  rw [Sheet.labelled, Sheet.labelled, rename_append, rename_body, Sheet.label, Sheet.label, hempty]
  split <;> rfl

@[simp]
theorem rename_labelled (i : Nat) (sheets : List Sheet) :
    Frame.rename f ν (labelled w i sheets) = labelled w i (sheets.map (Sheet.rename f ν)) := by
  induction sheets generalizing i with
  | nil => rfl
  | cons s sheets ih =>
    rw [labelled_cons, rename_append, rename_sheet, ih, List.map_cons, labelled_cons]

theorem rename_region (sheets : List Sheet) :
    Frame.rename f ν (region w sheets) = region w (sheets.map (Sheet.rename f ν)) := by
  rcases sheets with _ | ⟨s, _ | ⟨s', sheets⟩⟩
  · rfl
  · have hempty : (s.rename f ν).args.isEmpty = s.args.isEmpty := List.isEmpty_map
    rw [region, List.map_singleton, region, hempty]
    split
    · exact rename_body s
    · exact rename_sheet s 0
  · exact rename_labelled 0 _

theorem rename_enclosed (regions : List (List Sheet)) :
    Frame.rename f ν (regions.flatMap (enclosed w)) =
      (regions.map (List.map (Sheet.rename f ν))).flatMap (enclosed w) := by
  induction regions with
  | nil => rfl
  | cons sheets regions ih =>
    rw [List.flatMap_cons, rename_append, ih, List.map_cons, List.flatMap_cons, enclosed,
      rename_append, rename_append, rename_region]
    rfl

theorem rename_funcBody (regions : List (List Sheet)) :
    Frame.rename f ν (funcBody w regions) =
      funcBody w (regions.map (List.map (Sheet.rename f ν))) := by
  rcases regions with _ | ⟨_ | ⟨first, others⟩, regions⟩
  · rfl
  · rfl
  · rw [funcBody, rename_append, rename_append, rename_append, rename_body, rename_labelled]
    rfl

/-- The frame of a renamed operation is its frame renamed. -/
theorem rename_op (l : Line) (regions : List (List Sheet)) :
    Frame.rename f ν (op w l regions) =
      op w (l.rename f ν) (regions.map (List.map (Sheet.rename f ν))) := by
  have hkind : (l.rename f ν).kind = l.kind := rfl
  rw [op, op, hkind]
  split
  · rw [func, rename_append, rename_funcBody]
    rfl
  · rw [plain, rename_append, rename_append, rename_enclosed]
    rfl

theorem inner_rename (frame : Frame) : (Frame.rename f ν frame).inner = frame.inner.map f := by
  rw [inner, inner, Frame.rename, List.filterMap_map, List.map_filterMap]
  congr 1
  funext part
  cases part <;> rfl

theorem expand_rename {frame : Frame} {inner inner' : OpId → List Piece}
    (h : ∀ c ∈ frame.inner, inner' (f c) = (inner c).map (Piece.rename f ν)) :
    (Frame.rename f ν frame).expand inner' = (frame.expand inner).map (Piece.rename f ν) := by
  rw [expand, expand, Frame.rename, List.flatMap_map, List.map_flatMap]
  refine List.flatMap_congr fun part hpart => ?_
  cases part with
  | inl p => rfl
  | inr c => exact h c (Graph.mem_inner.2 hpart)

end Frame

/-! ## Filling renamed pieces -/

section Fill

variable {f : OpId → OpId} {ν : ValueId → ValueId} {ns : Numbering} {S : ValueId → Prop}

/-- The values that occur in a piece. -/
def Piece.values : Piece → List ValueId
  | args vs _ => vs
  | line l => l.operands ++ l.results
  | _ => []

theorem Numbering.name_rename {v : ValueId} (h : ∀ e ∈ ns.known, ν e.1 = ν v → e.1 = v) :
    (ns.rename ν).name (ν v) = ns.name v := by
  have hfind : ns.known.find? ((fun e => decide (e.1 = ν v)) ∘ fun e => (ν e.1, e.2)) =
      ns.known.find? fun e => decide (e.1 = v) := by
    refine List.find?_congr fun e he => ?_
    exact decide_eq_decide.2 ⟨h e he, congrArg ν⟩
  rw [name, name, rename, List.find?_map, hfind]
  cases ns.known.find? fun e => decide (e.1 = v) <;> rfl

theorem Numbering.assignAll_rename (vs : List ValueId) : (ns.rename ν).assignAll (vs.map ν) =
    ((ns.assignAll vs).1, (ns.assignAll vs).2.rename ν) := by
  induction vs generalizing ns with
  | nil => rfl
  | cons v vs ih =>
    have hnext : (ns.rename ν).assign (ν v) = (ns.assign v).rename ν := rfl
    rw [List.map_cons, assignAll, assignAll, hnext, ih]
    rfl

theorem Piece.fill_rename {p : Piece}
    (h : ∀ v ∈ p.values, ∀ e ∈ ns.known, ν e.1 = ν v → e.1 = v) :
    (p.rename f ν).fill (ns.rename ν) = ((p.fill ns).1, (p.fill ns).2.rename ν) := by
  cases p with
  | text s => rfl
  | args vs types => simp [rename, fill, Numbering.assignAll_rename]
  | line l =>
    have hname : ∀ v ∈ l.operands, (ns.rename ν).name (ν v) = ns.name v :=
      fun v hv => Numbering.name_rename (h v (List.mem_append_left _ hv))
    have hnames : (l.rename f ν).operands.map (ns.rename ν).name = l.operands.map ns.name := by
      simpa [Line.rename] using hname
    have hresults : (l.rename f ν).results = l.results.map ν := rfl
    rw [rename, fill, fill, hnames, hresults, Numbering.assignAll_rename]
    rfl
  | restart => rfl

theorem Piece.made_subset_values (p : Piece) : p.made ⊆ p.values := by
  cases p with
  | text s => exact List.Subset.refl _
  | args vs types => exact List.Subset.refl _
  | line l => exact List.subset_append_right _ _
  | restart => exact List.Subset.refl _

/-- If the renaming keeps values apart, renamed pieces are written as the pieces are. -/
theorem Piece.fillAll_rename (hν : ∀ v w, S v → S w → ν v = ν w → v = w) {ps : List Piece}
    (hns : ∀ e ∈ ns.known, S e.1) (hps : ∀ p ∈ ps, ∀ v ∈ p.values, S v) :
    Piece.fillAll (ns.rename ν) (ps.map (Piece.rename f ν)) =
      ((Piece.fillAll ns ps).1, (Piece.fillAll ns ps).2.rename ν) := by
  induction ps generalizing ns with
  | nil => rfl
  | cons p ps ih =>
    have hp : ∀ v ∈ p.values, S v := hps p (.head ps)
    have hnext : ∀ e ∈ (p.fill ns).2.known, S e.1 := by
      intro e he
      rcases Piece.known_fill he with he | he
      · exact hns e he
      · exact hp _ (p.made_subset_values he)
    have hfill := Piece.fill_rename (f := f) fun v hv e he => hν e.1 v (hns e he) (hp v hv)
    rw [List.map_cons, Piece.fillAll, hfill, ih hnext fun q hq => hps q (.tail p hq)]
    rfl

end Fill

namespace Graph

variable {g g' : Graph} {root : OpId}

/-! ## Renamed trees -/

/-- Other names for the tree under an operation, by which it is a tree of the second graph.  The
kinds, fixed data and types are the same, the lists are in the same order, and the values that the
tree touches are kept apart. -/
structure Renaming (g g' : Graph) (root : OpId) where
  /-- The new names of operations. -/
  op : OpId → OpId
  /-- The new names of blocks. -/
  block : BlockId → BlockId
  /-- The new names of regions. -/
  region : RegionId → RegionId
  /-- The new names of values. -/
  value : ValueId → ValueId
  op_entry {n : Nat} {o : OpId} {d : Op} : Within g root n o → g.op o = .ok d →
    ∃ d', g'.op (op o) = .ok d' ∧ d'.line (op o) = (d.line o).rename op value ∧
      d'.regions = d.regions.map region
  region_entry {n : Nat} {o : OpId} {d : Op} {r : RegionId} {R : Region} : Within g root n o →
    g.op o = .ok d → r ∈ d.regions → g.region r = .ok R →
    ∃ R', g'.region (region r) = .ok R' ∧ R'.blocks = R.blocks.map block
  block_entry {n : Nat} {o : OpId} {b : BlockId} {s : Sheet} : Within g root n o →
    g.Contained o b → g.sheet b = .ok s → g'.sheet (block b) = .ok (s.rename op value)
  value_inj {v w : ValueId} : g.Touches root v → g.Touches root w → value v = value w → v = w

theorem mapM_renamed {α β α' β' : Type} {f : α → Except Fault β} {f' : α' → Except Fault β'}
    {k : α → α'} {k' : β → β'} {l : List α} {bs : List β} (h : l.mapM f = .ok bs)
    (hf : ∀ a ∈ l, ∀ b, f a = .ok b → f' (k a) = .ok (k' b)) :
    (l.map k).mapM f' = .ok (bs.map k') := by
  induction l generalizing bs with
  | nil =>
    cases h
    rfl
  | cons a l ih =>
    obtain ⟨b, bs, hb, hbs, rfl⟩ := mapM_cons_eq_ok.1 h
    have hrest := ih hbs fun c hc => hf c (.tail a hc)
    exact mapM_cons_eq_ok.2 ⟨k' b, bs.map k', hf a (.head l) b hb, hrest, rfl⟩

namespace Renaming

variable (ρ : Renaming g g' root) {n w : Nat} {o : OpId} {d : Op}

theorem sheets {regions : List (List Sheet)} (ho : Within g root n o) (hd : g.op o = .ok d)
    (h : d.regions.mapM g.sheets = .ok regions) : (d.regions.map ρ.region).mapM g'.sheets =
      .ok (regions.map (List.map (Sheet.rename ρ.op ρ.value))) := by
  refine mapM_renamed h fun r hr ss hss => ?_
  obtain ⟨R, hR, hss⟩ := sheets_eq_ok.1 hss
  obtain ⟨R', hR', hblocks⟩ := ρ.region_entry ho hd hr hR
  rw [sheets_eq_ok]
  refine ⟨R', hR', ?_⟩
  rw [hblocks]
  exact mapM_renamed hss fun b hb s hs => ρ.block_entry ho ⟨d, r, R, hd, hr, hR, hb⟩ hs

/-- The pieces of the second tree are those of the first renamed. -/
theorem piecesTo (hg : g.Linked) {m : Nat} {ps : List Piece} (ho : Within g root m o)
    (h : g.piecesTo n w o = .ok ps) :
    g'.piecesTo n w (ρ.op o) = .ok (ps.map (Piece.rename ρ.op ρ.value)) := by
  induction n generalizing m w o ps with
  | zero => cases h
  | succ n ih =>
    obtain ⟨d, regions, inner, hd, hregions, hinner, rfl⟩ := piecesTo_succ_eq_ok.1 h
    obtain ⟨d', hd', hline, hregions'⟩ := ρ.op_entry ho hd
    have hsheets := ρ.sheets ho hd hregions
    rw [← hregions'] at hsheets
    have hframe : Frame.op w (d'.line (ρ.op o))
        (regions.map (List.map (Sheet.rename ρ.op ρ.value))) =
          Frame.rename ρ.op ρ.value (Frame.op w (d.line o) regions) := by
      rw [Frame.rename_op, hline]
    have hnext : ∀ c ∈ (Frame.op w (d.line o) regions).inner, g'.piecesTo n (w + 2) (ρ.op c) =
        .ok ((inner c).map (Piece.rename ρ.op ρ.value)) := by
      intro c hc
      refine ih (m := m + 1) (.step ?_ ho) (hinner c hc)
      rw [Frame.inner_op] at hc
      obtain ⟨s, hs, hc⟩ := List.mem_flatMap.1 hc
      exact hg.ownerOf?_of_shown hd hregions hs hc
    have hsome : ∀ c ∈ (Frame.rename ρ.op ρ.value (Frame.op w (d.line o) regions)).inner,
        ∃ qs, g'.piecesTo n (w + 2) c = .ok qs := by
      intro c' hc'
      rw [Frame.inner_rename] at hc'
      obtain ⟨c, hc, rfl⟩ := List.mem_map.1 hc'
      exact ⟨_, hnext c hc⟩
    obtain ⟨inner', hinner'⟩ := exists_inner hsome
    rw [piecesTo_succ_eq_ok]
    refine ⟨d', _, inner', hd', hsheets, ?_, ?_⟩
    · rw [hframe]
      exact hinner'
    · rw [hframe]
      refine (Frame.expand_rename fun c hc => ?_).symm
      have hc' : ρ.op c ∈ (Frame.rename ρ.op ρ.value (Frame.op w (d.line o) regions)).inner := by
        rw [Frame.inner_rename]
        exact List.mem_map_of_mem hc
      exact Except.ok.inj ((hinner' _ hc').symm.trans (hnext c hc))

end Renaming

theorem Linked.encloses_of_contained (hg : g.Linked) {n : Nat} {o : OpId} {b : BlockId}
    (ho : Within g root n o) (hb : g.Contained o b) : g.Encloses root b := by
  obtain ⟨d, r, R, hd, hr, hR, hb⟩ := hb
  obtain ⟨R', hR', howner⟩ := hg.owned.2 ⟨d, slot_of_op hd, hr⟩
  rw [hR] at hR'
  cases hR'
  obtain ⟨B', hB', hBr⟩ := hg.parted.2 ⟨R, hR, hb⟩
  exact ⟨n, o, r, R, B', ho, hR, howner, hB', hBr⟩

/-- The values in the pieces of an operation are touched by its tree. -/
theorem Linked.touches_of_pieces (hg : g.Linked) {n w : Nat} {ps : List Piece} {q : Piece}
    {v : ValueId} (h : g.piecesTo n w root = .ok ps) (hq : q ∈ ps) (hv : v ∈ q.values) :
    g.Touches root v := by
  obtain ⟨t, rfl⟩ | ⟨k, p, x, hk, hx, ⟨-, rfl⟩ | ⟨-, rfl⟩ | ⟨b, B, types, hb, hB, rfl⟩⟩ :=
    hg.mem_pieces h hq
  · cases hv
  · cases hv
  · exact .inl ⟨p, x, hk.eq_or_inside, hx, List.mem_append.1 hv⟩
  · exact .inr ⟨b, B, hg.encloses_of_contained hk hb, hB, hv⟩

/-- A text that is printed to some depth is the text. -/
theorem opText_of_printTo {n : Nat} {o : OpId} {out : Printed}
    (h : g.printTo n 0 .empty o = .ok out) : g.opText o = .ok out.1 := by
  have hdepth : g.printTo g.depth 0 .empty o = .ok out := by
    rcases Nat.le_total g.depth n with hn | hn
    · rw [← printTo_deeper hn]
      exact h
    · rw [← h]
      refine ((follows_printTo_le hn 0 .empty o).eq ?_).symm
      rw [h]
      nofun
  simp [opText, hdepth]

/-- Trees that differ in their names only are printed as the same text. -/
theorem Reachable.opText_renamed {d : Op} (h : g.Reachable false) (hd : g.op root = .ok d)
    (hroot : g.Anchored root) (ρ : Renaming g g' root) :
    ∃ text, g.opText root = .ok text ∧ g'.opText (ρ.op root) = .ok text := by
  obtain ⟨ps, hps, htext⟩ := h.linked.opText_pieces hd hroot.not_inside
  have hfill : Piece.fillAll (.rename ρ.value .empty) (ps.map (Piece.rename ρ.op ρ.value)) =
      ((Piece.fillAll .empty ps).1, (Piece.fillAll .empty ps).2.rename ρ.value) := by
    refine Piece.fillAll_rename (fun v w => ρ.value_inj) (fun e he => ?_) fun q hq v hv => ?_
    · cases he
    · exact h.linked.touches_of_pieces hps hq hv
  have hprint : g'.printTo g.depth 0 .empty (ρ.op root) = _ :=
    (printTo_of_pieces (ρ.piecesTo h.linked .root hps) .empty).trans (congrArg Except.ok hfill)
  have htext' := opText_of_printTo hprint
  exact ⟨_, htext, htext'⟩

/-! ## A branch told twice -/

/-- A function with the branch of `leakBody`.  Its arguments come in the other order. -/
def retoldBody (args : List ValueId) : BuildM Unit := do
  let _ ← BuildM.branch (args.getLastD default) [] do
    let _ ← BuildM.add (args.headD default) (args.headD default)
    let _ ← BuildM.yield []
  let _ ← BuildM.ret []

/-- The function that `retoldBody` is the body of, beside another function. -/
def retoldGraph : Graph :=
  match pairGraph.newFunc "g" [.number, .bit] retoldBody with
  | .ok (_, g) => g
  | .error _ => .empty

theorem leakGraph_branch {n : Nat} {o : OpId} (h : Within leakGraph ⟨2⟩ n o) :
    o = ⟨2⟩ ∨ o = ⟨0⟩ ∨ o = ⟨1⟩ := by
  have htree : leakGraph.opTree ⟨2⟩ = .ok [⟨2⟩, ⟨0⟩, ⟨1⟩] := by decide +kernel
  have hmem := (opTree_eq_ok.1 htree).downward leakGraph_built.linked.housed (.head _) h
  simpa using hmem

/-- The branch of the one function is that of the other.  What it reads from outside is the second
argument there and the first here. -/
def retold : Renaming leakGraph retoldGraph ⟨2⟩ where
  op o := ⟨o.index + 4⟩
  block b := ⟨b.index + 1⟩
  region r := ⟨r.index + 1⟩
  value v := if v.index = 0 then ⟨4⟩ else if v.index = 1 then ⟨3⟩ else ⟨v.index + 3⟩
  op_entry ho hd := by
    rcases leakGraph_branch ho with rfl | rfl | rfl
    all_goals
      cases hd
      refine ⟨_, rfl, by decide +kernel, by decide +kernel⟩
  region_entry ho hd hr hR := by
    rcases leakGraph_branch ho with rfl | rfl | rfl
    · cases hd
      cases List.mem_singleton.1 hr
      cases hR
      exact ⟨_, rfl, by decide +kernel⟩
    all_goals
      cases hd
      cases hr
  block_entry ho hb hs := by
    obtain ⟨d, r, R, hd, hr, hR, hb⟩ := hb
    rcases leakGraph_branch ho with rfl | rfl | rfl
    · cases hd
      cases List.mem_singleton.1 hr
      cases hR
      cases List.mem_singleton.1 hb
      cases hs
      decide +kernel
    all_goals
      cases hd
      cases hr
  value_inj {v w} _ _ heq := by
    obtain ⟨i⟩ := v
    obtain ⟨j⟩ := w
    simp only [ValueId.mk.injEq] at heq ⊢
    grind

/-- Both branches are printed in the same way, with unknown names for what is read from outside. -/
theorem opText_renamed_retold :
    leakGraph.opText ⟨2⟩ =
        .ok "scf.if %? \x7b\n  %0 = arith.addf %?, %? : f64\n  scf.yield\n\x7d\n" ∧
      retoldGraph.opText ⟨6⟩ = leakGraph.opText ⟨2⟩ := by
  have howner : leakGraph.ownerOf? ⟨2⟩ = .ok (some ⟨5⟩) := by decide +kernel
  have hanchored : leakGraph.Anchored ⟨2⟩ :=
    (Anchored.of_no_owner (by decide +kernel)).within (.step howner .root)
  obtain ⟨text, htext, htext'⟩ := leakGraph_built.opText_renamed rfl hanchored retold
  exact ⟨by decide +kernel, htext'.trans htext.symm⟩

end Graph

end Peephole
