import Peephole.Proofs.Isolation

/-!
# The pieces of a printed text

Printing reads the graph and numbers values at the same time.  Here the two are taken apart.
`Graph.piecesTo` reads the graph and leaves the names open: what it gives is a list of pieces,
each of which is fixed text, the arguments of a block, or the line of an operation.
`Piece.fillAll` goes through such a list from left to right and numbers the values, and it does
not look at the graph.  `printTo_of_pieces` says that the one after the other is the printer.

One level of printing is a `Frame`: pieces, and between them the operations right inside, which
are printed in their place.  It is made from the blocks of the operation as they are read, the
`Sheet`s.
-/

namespace Peephole

/-- What the line of an operation says. -/
structure Line where
  /-- The operation. -/
  op : OpId
  /-- What it does. -/
  kind : Kind
  /-- The values it reads. -/
  operands : List ValueId
  /-- The values it makes. -/
  results : List ValueId
  /-- Their types. -/
  resultTypes : List Ty
  /-- Its fixed data. -/
  attributes : Attributes
deriving DecidableEq

/-- The line of an operation. -/
def Op.line (d : Op) (o : OpId) : Line :=
  ⟨o, d.kind, d.operands, d.results, d.resultTypes, d.attributes⟩

/-- The regions that are printed with an operation: all, or the first one if it is a function. -/
def Op.shownRegions (d : Op) : List RegionId :=
  if d.kind = .func then d.regions.take 1 else d.regions

theorem Op.shownRegions_sublist (d : Op) : d.shownRegions.Sublist d.regions := by
  rw [Op.shownRegions]
  split
  · exact List.take_sublist 1 d.regions
  · exact .refl _

/-- A line as written, with the given names for results and operands. -/
def Line.write (l : Line) (results operands : List String) : String :=
  (if results.isEmpty then "" else commaList results ++ " = ") ++ l.kind.text ++
    (if operands.isEmpty then "" else " " ++ commaList operands) ++ l.attributes.text ++
    if l.resultTypes.isEmpty then "" else " : " ++ commaList (l.resultTypes.map Ty.text)

/-- The symbol that a function defines, as written after its kind. -/
def Line.symbol (l : Line) : String :=
  match (l.attributes.get? "sym_name").bind Attribute.text? with
  | some name => " @" ++ name
  | none => ""

/-- Block arguments as written, with the given names. -/
def writeArgs (names : List String) (types : List Ty) : String :=
  commaList (names.zipWith (fun name type => s!"{name}: {type.text}") types)

theorem Numbering.mem_assignAll {ns : Numbering} {vs : List ValueId} {e : ValueId × Nat}
    (h : e ∈ (ns.assignAll vs).2.known) : e ∈ ns.known ∨ e.1 ∈ vs := by
  induction vs generalizing ns with
  | nil => exact .inl h
  | cons v vs ih =>
    rcases ih h with he | he
    · rcases List.mem_cons.1 he with rfl | he
      · exact .inr (.head vs)
      · exact .inl he
    · exact .inr (.tail v he)

/-- A piece of a text whose names are left open. -/
inductive Piece where
  /-- Fixed text. -/
  | text (s : String)
  /-- Arguments of a block, which get the next numbers. -/
  | args (vs : List ValueId) (types : List Ty)
  /-- The line of an operation, whose results get the next numbers. -/
  | line (l : Line)
  /-- A function begins, and numbering starts over. -/
  | restart
deriving DecidableEq

namespace Piece

/-- The values that are numbered by a piece. -/
def made : Piece → List ValueId
  | args vs _ => vs
  | line l => l.results
  | _ => []

/-- A piece as written, and the numbering after it.  Operands are named before results are
numbered. -/
def fill (ns : Numbering) : Piece → Graph.Printed
  | text s => (s, ns)
  | args vs types => (writeArgs (ns.assignAll vs).1 types, (ns.assignAll vs).2)
  | line l =>
      (l.write (ns.assignAll l.results).1 (l.operands.map ns.name), (ns.assignAll l.results).2)
  | restart => ("", .empty)

/-- Pieces as written one after the other, and the numbering after them. -/
def fillAll (ns : Numbering) : List Piece → Graph.Printed
  | [] => ("", ns)
  | p :: ps => ((p.fill ns).1 ++ (fillAll (p.fill ns).2 ps).1, (fillAll (p.fill ns).2 ps).2)

theorem fillAll_append (ns : Numbering) (ps qs : List Piece) : fillAll ns (ps ++ qs) =
    ((fillAll ns ps).1 ++ (fillAll (fillAll ns ps).2 qs).1, (fillAll (fillAll ns ps).2 qs).2) := by
  induction ps generalizing ns with
  | nil => simp [fillAll]
  | cons p ps ih => simp [fillAll, ih, String.append_assoc]

/-- A value that is known after a piece was known before, or the piece numbers it. -/
theorem known_fill {ns : Numbering} {p : Piece} {e : ValueId × Nat}
    (h : e ∈ (p.fill ns).2.known) : e ∈ ns.known ∨ e.1 ∈ p.made := by
  cases p with
  | text s => exact .inl h
  | args vs types => exact Numbering.mem_assignAll h
  | line l => exact Numbering.mem_assignAll h
  | restart => cases h

end Piece

/-- A block as it is read for printing. -/
structure Sheet where
  /-- Its arguments. -/
  args : List ValueId
  /-- Their types. -/
  types : List Ty
  /-- Its operations. -/
  ops : List OpId
deriving DecidableEq

/-- Pieces, and in their places the operations that are printed between them. -/
abbrev Frame := List (Piece ⊕ OpId)

/-- The operations that are printed in a frame. -/
def Frame.inner (frame : Frame) : List OpId := frame.filterMap Sum.getRight?

/-- A frame with pieces in place of the operations. -/
def Frame.expand (frame : Frame) (pieces : OpId → List Piece) : List Piece :=
  frame.flatMap (Sum.elim (fun p => [p]) pieces)

/-- Fixed text in a frame. -/
def Frame.say (s : String) : Piece ⊕ OpId := .inl (.text s)

namespace Sheet

/-- The arguments of a block. -/
def signature (s : Sheet) : Piece ⊕ OpId := .inl (.args s.args s.types)

/-- The operations of a block. -/
def body (s : Sheet) : Frame := s.ops.map .inr

/-- The line that starts the block at position `i` of its region. -/
def label (width : Nat) (s : Sheet) (i : Nat) : Frame :=
  if s.args.isEmpty then [Frame.say (margin width ++ s!"^bb{i}" ++ ":\n")]
  else [Frame.say (margin width ++ s!"^bb{i}" ++ "("), s.signature, Frame.say "):\n"]

/-- The block at position `i` of its region, with the line that starts it. -/
def labelled (width : Nat) (s : Sheet) (i : Nat) : Frame := s.label width i ++ s.body

end Sheet

namespace Frame

/-- Blocks with the lines that start them, the first one at position `i`. -/
def labelled (width i : Nat) (sheets : List Sheet) : Frame :=
  (sheets.zipIdx i).flatMap fun (s, j) => s.labelled width j

theorem labelled_cons (width i : Nat) (s : Sheet) (sheets : List Sheet) :
    labelled width i (s :: sheets) = s.labelled width i ++ labelled width (i + 1) sheets := rfl

section Expand

variable (pieces : OpId → List Piece) (f f' : Frame)

@[simp]
theorem expand_nil : expand [] pieces = [] := rfl

@[simp]
theorem expand_say (s : String) : expand (say s :: f) pieces = .text s :: f.expand pieces := rfl

@[simp]
theorem expand_inl (p : Piece) : expand (.inl p :: f) pieces = p :: f.expand pieces := rfl

@[simp]
theorem expand_append : expand (f ++ f') pieces = f.expand pieces ++ f'.expand pieces :=
  List.flatMap_append

theorem expand_body (s : Sheet) : expand s.body pieces = s.ops.flatMap pieces := by
  simp [expand, Sheet.body, List.flatMap_map]

end Expand

/-- A region. -/
def region (width : Nat) : List Sheet → Frame
  | [s] => if s.args.isEmpty then s.body else s.labelled width 0
  | sheets => labelled width 0 sheets

/-- A region in braces. -/
def enclosed (width : Nat) (sheets : List Sheet) : Frame :=
  [say " \x7b\n"] ++ region width sheets ++ [say (margin width ++ "\x7d")]

/-- An operation that is not a function. -/
def plain (width : Nat) (l : Line) (regions : List (List Sheet)) : Frame :=
  [say (margin width), .inl (.line l)] ++ regions.flatMap (enclosed width) ++ [say "\n"]

/-- The body of a function.  The arguments of its first block are its own. -/
def funcBody (width : Nat) : List (List Sheet) → Frame
  | [] => [say "\n"]
  | [] :: _ => [say ("() \x7b\n" ++ margin width ++ "\x7d\n")]
  | (first :: others) :: _ => [say "(", first.signature, say ") \x7b\n"] ++ first.body ++
      labelled width 1 others ++ [say (margin width ++ "\x7d\n")]

/-- A function. -/
def func (width : Nat) (l : Line) (regions : List (List Sheet)) : Frame :=
  [say (margin width ++ l.kind.text ++ l.symbol), .inl .restart] ++ funcBody width regions

/-- An operation of any kind. -/
def op (width : Nat) (l : Line) (regions : List (List Sheet)) : Frame :=
  if l.kind = .func then func width l regions else plain width l regions

/-- The blocks that are printed with an operation: those of all its regions, or of the first one
if it is a function. -/
def shown (l : Line) (regions : List (List Sheet)) : List Sheet :=
  if l.kind = .func then regions.headD [] else regions.flatten

/-! ## How frames are laid out -/

/-- The frame prints the blocks in turn, each after its arguments, with fixed text between. -/
inductive Laid : List Sheet → Frame → Prop
  | nil : Laid [] []
  | say {sheets : List Sheet} {frame : Frame} (t : String) : Laid sheets frame →
      Laid sheets (Frame.say t :: frame)
  | bare {s : Sheet} {sheets : List Sheet} {frame : Frame} : s.args = [] → Laid sheets frame →
      Laid (s :: sheets) (s.body ++ frame)
  | signed {s : Sheet} {sheets : List Sheet} {frame : Frame} (t : String) : Laid sheets frame →
      Laid (s :: sheets) (s.signature :: Frame.say t :: (s.body ++ frame))

namespace Laid

variable {width : Nat}

theorem append {sheets sheets' : List Sheet} {frame frame' : Frame} (h : Laid sheets frame)
    (h' : Laid sheets' frame') : Laid (sheets ++ sheets') (frame ++ frame') := by
  induction h with
  | nil => exact h'
  | say t _ ih => exact .say t ih
  | bare hs _ ih =>
    rw [List.append_assoc]
    exact .bare hs ih
  | signed t _ ih =>
    rw [List.cons_append, List.cons_append, List.cons_append, List.append_assoc]
    exact .signed t ih

theorem body {s : Sheet} (h : s.args = []) : Laid [s] s.body := by
  simpa using Laid.bare h .nil

theorem sheet (s : Sheet) (i : Nat) : Laid [s] (s.labelled width i) := by
  rw [Sheet.labelled, Sheet.label]
  split
  · rename_i h
    exact .say _ (body (List.isEmpty_iff.1 h))
  · simpa using Laid.say _ (.signed "):\n" .nil)

theorem labelled (i : Nat) (sheets : List Sheet) : Laid sheets (labelled width i sheets) := by
  induction sheets generalizing i with
  | nil => exact .nil
  | cons s sheets ih => exact (sheet s i).append (ih (i + 1))

theorem region (sheets : List Sheet) : Laid sheets (region width sheets) := by
  unfold Frame.region
  split
  · split
    · rename_i h
      exact body (List.isEmpty_iff.1 h)
    · exact sheet _ 0
  · exact labelled 0 sheets

theorem enclosed (regions : List (List Sheet)) :
    Laid regions.flatten (regions.flatMap (enclosed width)) := by
  induction regions with
  | nil => exact .nil
  | cons sheets regions ih =>
    refine append ?_ ih
    simpa [Frame.enclosed] using Laid.say _ ((region sheets).append (.say _ .nil))

theorem funcBody (regions : List (List Sheet)) :
    Laid (regions.headD []) (funcBody width regions) := by
  rcases regions with _ | ⟨_ | ⟨first, others⟩, regions⟩
  · exact .say _ .nil
  · exact .say _ .nil
  · have hothers := (@labelled width 1 others).append (.say (margin width ++ "\x7d\n") .nil)
    simpa [Frame.funcBody] using Laid.say "(" (.signed ") \x7b\n" hothers)

/-- The operations in a frame are those of its blocks. -/
theorem inner {sheets : List Sheet} {frame : Frame} (h : Laid sheets frame) :
    frame.inner = sheets.flatMap Sheet.ops := by
  have hbody : ∀ s : Sheet, Frame.inner s.body = s.ops := by
    intro s
    simp [Frame.inner, Sheet.body, List.filterMap_map, Function.comp_def]
  induction h with
  | nil => rfl
  | say t _ ih => exact ih
  | @bare s sheets frame _ _ ih =>
    rw [List.flatMap_cons, ← ih, ← hbody s]
    exact List.filterMap_append
  | @signed s sheets frame t _ ih =>
    rw [List.flatMap_cons, ← ih, ← hbody s]
    exact List.filterMap_append

/-- A piece of a frame is fixed text, the arguments of a block, or a piece of an operation. -/
theorem mem_expand {q : Piece} {inner : OpId → List Piece} {sheets : List Sheet} {frame : Frame}
    (h : Laid sheets frame) (hq : q ∈ frame.expand inner) : (∃ t, q = .text t) ∨
      ∃ s ∈ sheets, q = .args s.args s.types ∨ ∃ c ∈ s.ops, q ∈ inner c := by
  induction h with
  | nil => cases hq
  | say t _ ih =>
    rcases List.mem_cons.1 hq with rfl | hq
    · exact .inl ⟨t, rfl⟩
    · exact ih hq
  | @bare s sheets frame _ _ ih =>
    rw [expand_append, expand_body, List.mem_append, List.mem_flatMap] at hq
    rcases hq with hq | hq
    · exact .inr ⟨s, .head _, .inr hq⟩
    · exact (ih hq).imp_right fun ⟨s, hs, hq⟩ => ⟨s, .tail _ hs, hq⟩
  | @signed s sheets frame t _ ih =>
    rw [Sheet.signature, expand_inl, expand_say, expand_append, expand_body, List.mem_cons,
      List.mem_cons, List.mem_append, List.mem_flatMap] at hq
    rcases hq with hq | hq | hq | hq
    · exact .inr ⟨s, .head _, .inl hq⟩
    · exact .inl ⟨t, hq⟩
    · exact .inr ⟨s, .head _, .inr hq⟩
    · exact (ih hq).imp_right fun ⟨s, hs, hq⟩ => ⟨s, .tail _ hs, hq⟩

/-- What is read off the pieces of a frame, where nothing is read off fixed text: off the arguments
of each block, and then off its operations. -/
theorem flatMap {γ : Type} (val : Piece → List γ) (htext : ∀ s, val (.text s) = [])
    (hargs : ∀ types, val (.args [] types) = []) (inner : OpId → List Piece) {sheets : List Sheet}
    {frame : Frame} (h : Laid sheets frame) : (frame.expand inner).flatMap val =
      sheets.flatMap fun s =>
        val (.args s.args s.types) ++ s.ops.flatMap fun c => (inner c).flatMap val := by
  induction h with
  | nil => rfl
  | say t _ ih => simp [htext, ih]
  | bare hs _ ih => simp [expand_body, hs, hargs, ih, List.flatMap_assoc]
  | signed t _ ih => simp [expand_body, Sheet.signature, htext, ih, List.flatMap_assoc]

end Laid

/-- What the frame of an operation begins with. -/
def opening (l : Line) : Piece := if l.kind = .func then .restart else .line l

/-- The frame of an operation opens with its line, or starts the numbering over if the operation is
a function.  Then come the blocks. -/
theorem op_laid (width : Nat) (l : Line) (regions : List (List Sheet)) :
    ∃ t rest, op width l regions = say t :: .inl (opening l) :: rest ∧
      Laid (shown l regions) rest := by
  rw [op, opening, shown]
  split
  · exact ⟨_, _, rfl, .funcBody regions⟩
  · refine ⟨_, regions.flatMap (enclosed width) ++ [say "\n"], rfl, ?_⟩
    simpa using (Laid.enclosed regions).append (.say "\n" .nil)

theorem inner_op (width : Nat) (l : Line) (regions : List (List Sheet)) :
    inner (op width l regions) = (shown l regions).flatMap Sheet.ops := by
  obtain ⟨t, rest, hop, hlaid⟩ := op_laid width l regions
  rw [hop, ← hlaid.inner]
  rfl

end Frame

namespace Graph

variable {g : Graph}

/-- A block as it is read for printing. -/
def sheet (g : Graph) (b : BlockId) : Except Fault Sheet := do
  let data ← g.block b
  let types ← data.args.mapM fun v => return (← g.value v).type
  return ⟨data.args, types, data.ops⟩

/-- The blocks of a region as they are read for printing. -/
def sheets (g : Graph) (r : RegionId) : Except Fault (List Sheet) := do
  (← g.region r).blocks.mapM g.sheet

/-- The pieces of a part of a frame, by the given pieces of one operation. -/
def partPieces (pieces : OpId → Except Fault (List Piece)) :
    Piece ⊕ OpId → Except Fault (List Piece)
  | .inl p => return [p]
  | .inr c => pieces c

/-- The pieces of an operation and of what is nested in it, down to the given depth. -/
def piecesTo (g : Graph) : (depth : Nat) → (width : Nat) → OpId → Except Fault (List Piece)
  | 0, _, _ => throw .endless
  | depth + 1, width, o => do
      let data ← g.op o
      let regions ← data.regions.mapM g.sheets
      let frame := Frame.op width (data.line o) regions
      return (← frame.mapM (partPieces (g.piecesTo depth (width + 2)))).flatten

/-- The pieces of an operation and of what is nested in it. -/
def pieces (g : Graph) (o : OpId) : Except Fault (List Piece) := g.piecesTo g.depth 0 o

theorem mem_inner {frame : Frame} {c : OpId} : c ∈ frame.inner ↔ .inr c ∈ frame := by
  simp [Frame.inner, List.mem_filterMap]

/-- Parts of a frame have pieces just if the operations printed there have. -/
theorem mapM_partPieces {f : OpId → Except Fault (List Piece)} {inner : OpId → List Piece}
    {frame : Frame} (h : ∀ c ∈ frame.inner, f c = .ok (inner c)) :
    frame.mapM (partPieces f) = .ok (frame.map (Sum.elim (fun p => [p]) inner)) := by
  induction frame with
  | nil => rfl
  | cons part frame ih =>
    have hrest := ih fun c hc => h c (mem_inner.2 (.tail part (mem_inner.1 hc)))
    refine mapM_cons_eq_ok.2 ⟨_, _, ?_, hrest, rfl⟩
    cases part with
    | inl p => rfl
    | inr c => exact h c (mem_inner.2 (.head frame))

theorem exists_inner {f : OpId → Except Fault (List Piece)} {cs : List OpId}
    (h : ∀ c ∈ cs, ∃ qs, f c = .ok qs) :
    ∃ inner : OpId → List Piece, ∀ c ∈ cs, f c = .ok (inner c) := by
  refine ⟨fun c => (f c).toOption.getD [], fun c hc => ?_⟩
  obtain ⟨qs, hqs⟩ := h c hc
  simp [hqs, Except.toOption]

/-- What one level of pieces is. -/
theorem piecesTo_succ_eq_ok {n w : Nat} {o : OpId} {ps : List Piece} :
    g.piecesTo (n + 1) w o = .ok ps ↔ ∃ d regions inner, g.op o = .ok d ∧
      d.regions.mapM g.sheets = .ok regions ∧
      (∀ c ∈ (Frame.op w (d.line o) regions).inner, g.piecesTo n (w + 2) c = .ok (inner c)) ∧
      ps = (Frame.op w (d.line o) regions).expand inner := by
  simp only [piecesTo, bind_eq_ok, pure_eq_ok, Except.ok.injEq]
  constructor
  · rintro ⟨d, hd, regions, hregions, parts, hparts, rfl⟩
    have hsome : ∀ c ∈ (Frame.op w (d.line o) regions).inner,
        ∃ qs, g.piecesTo n (w + 2) c = .ok qs := by
      intro c hc
      obtain ⟨qs, -, hqs⟩ := (mem_of_mapM hparts).2 _ (mem_inner.1 hc)
      exact ⟨qs, hqs⟩
    obtain ⟨inner, hinner⟩ := exists_inner hsome
    cases (mapM_partPieces hinner).symm.trans hparts
    exact ⟨d, regions, inner, hd, hregions, hinner, List.flatMap_def.symm⟩
  · rintro ⟨d, regions, inner, hd, hregions, hinner, rfl⟩
    exact ⟨d, hd, regions, hregions, _, mapM_partPieces hinner, List.flatMap_def.symm⟩

/-- What the pieces of an operation are: an opening, and then the pieces of the operations inside,
laid out by blocks. -/
theorem piecesTo_laid {n w : Nat} {o : OpId} {ps : List Piece}
    (h : g.piecesTo n w o = .ok ps) : ∃ m d regions inner t rest, n = m + 1 ∧ g.op o = .ok d ∧
      d.regions.mapM g.sheets = .ok regions ∧
      (∀ s ∈ Frame.shown (d.line o) regions, ∀ c ∈ s.ops,
        g.piecesTo m (w + 2) c = .ok (inner c)) ∧
      Frame.Laid (Frame.shown (d.line o) regions) rest ∧
      ps = .text t :: Frame.opening (d.line o) :: rest.expand inner := by
  cases n with
  | zero => cases h
  | succ m =>
    obtain ⟨d, regions, inner, hd, hregions, hinner, rfl⟩ := piecesTo_succ_eq_ok.1 h
    obtain ⟨t, rest, hop, hlaid⟩ := Frame.op_laid w (d.line o) regions
    refine ⟨m, d, regions, inner, t, rest, rfl, hd, hregions, fun s hs c hc => ?_, hlaid, ?_⟩
    · refine hinner c ?_
      rw [Frame.inner_op]
      exact List.mem_flatMap.2 ⟨s, hs, hc⟩
    · rw [hop]
      rfl

/-! ## Printing by pieces -/

section Parts

variable {print : Numbering → OpId → Except Fault Printed} {inner : OpId → List Piece}
  {ns : Numbering} {w : Nat}

theorem printAll_cons_fill {α : Type} {f : Numbering → α → Except Fault Printed} {a : α}
    {l : List α} {ps qs : List Piece} (ha : f ns a = .ok (Piece.fillAll ns ps))
    (hl : ∀ ns, printAll f ns l = .ok (Piece.fillAll ns qs)) :
    printAll f ns (a :: l) = .ok (Piece.fillAll ns (ps ++ qs)) := by
  simp [printAll, ha, hl, Piece.fillAll_append]

theorem printAll_fill {α : Type} {f : Numbering → α → Except Fault Printed} {k : α → List Piece} :
    ∀ {l : List α} {ns : Numbering}, (∀ a ∈ l, ∀ ns, f ns a = .ok (Piece.fillAll ns (k a))) →
      printAll f ns l = .ok (Piece.fillAll ns (l.flatMap k))
  | [], _, _ => rfl
  | a :: l, ns, h =>
      printAll_cons_fill (h a (.head l) ns) fun _ => printAll_fill fun b hb => h b (.tail a hb)

/-- The printer of one operation writes the given pieces of it. -/
def Fills (print : Numbering → OpId → Except Fault Printed) (inner : OpId → List Piece)
    (c : OpId) : Prop :=
  ∀ ns, print ns c = .ok (Piece.fillAll ns (inner c))

theorem sheet_eq_ok {b : BlockId} {s : Sheet} : g.sheet b = .ok s ↔
    ∃ B types, g.block b = .ok B ∧ (B.args.mapM fun v => return (← g.value v).type) = .ok types ∧
      s = ⟨B.args, types, B.ops⟩ := by
  simp only [sheet, bind_eq_ok, pure_eq_ok, Except.ok.injEq]
  grind

theorem sheets_eq_ok {r : RegionId} {ss : List Sheet} : g.sheets r = .ok ss ↔
    ∃ R, g.region r = .ok R ∧ R.blocks.mapM g.sheet = .ok ss := by
  rw [sheets, bind_eq_ok]

theorem printArgs_fill {args : List ValueId} {types : List Ty}
    (h : (args.mapM fun v => return (← g.value v).type : Except Fault (List Ty)) = .ok types) :
    g.printArgs ns args = .ok ((Piece.args args types).fill ns) := by
  rw [printArgs]
  dsimp only
  rw [h]
  rfl

theorem printBlockBy_fill {b : BlockId} {s : Sheet} (hs : g.sheet b = .ok s)
    (hinner : ∀ c ∈ s.ops, Fills print inner c) :
    g.printBlockBy print ns b = .ok (Piece.fillAll ns (Frame.expand s.body inner)) := by
  obtain ⟨B, types, hB, -, rfl⟩ := sheet_eq_ok.1 hs
  rw [printBlockBy, hB, ok_bind, Frame.expand_body]
  exact printAll_fill hinner

theorem printLabel_fill (inner : OpId → List Piece) {b : BlockId} {s : Sheet}
    (hs : g.sheet b = .ok s) (i : Nat) :
    g.printLabel w ns i b = .ok (Piece.fillAll ns (Frame.expand (s.label w i) inner)) := by
  obtain ⟨B, types, hB, htypes, rfl⟩ := sheet_eq_ok.1 hs
  rw [printLabel, blockArgs_of_block hB]
  dsimp only [Sheet.label]
  split
  · simp [Frame.expand, Frame.say, Piece.fillAll, Piece.fill]
  · simp [printArgs_fill htypes, Frame.expand, Frame.say, Sheet.signature, Piece.fillAll,
      Piece.fill, String.append_assoc]

theorem printLabelledBy_fill {bs : List BlockId} {ss : List Sheet} {i : Nat}
    (hss : bs.mapM g.sheet = .ok ss) (hinner : ∀ s ∈ ss, ∀ c ∈ s.ops, Fills print inner c) :
    g.printLabelledBy print w ns (bs.zipIdx i) =
      .ok (Piece.fillAll ns (Frame.expand (Frame.labelled w i ss) inner)) := by
  induction bs generalizing ss i ns with
  | nil =>
    cases hss
    rfl
  | cons b bs ih =>
    obtain ⟨s, rest, hs, hrest, rfl⟩ := mapM_cons_eq_ok.1 hss
    rw [Frame.labelled_cons, Frame.expand_append, List.zipIdx_cons]
    refine printAll_cons_fill ?_ fun ns => ih hrest fun t ht => hinner t (.tail s ht)
    simp [printLabel_fill inner hs i, printBlockBy_fill hs (hinner s (.head rest)),
      Frame.expand_append, Sheet.labelled, Piece.fillAll_append]

theorem printRegionBy_fill {r : RegionId} {ss : List Sheet} (hss : g.sheets r = .ok ss)
    (hinner : ∀ s ∈ ss, ∀ c ∈ s.ops, Fills print inner c) :
    g.printRegionBy print w ns r =
      .ok (Piece.fillAll ns (Frame.expand (Frame.region w ss) inner)) := by
  obtain ⟨R, hR, hss⟩ := sheets_eq_ok.1 hss
  have hlabelled := @printLabelledBy_fill g print inner ns w R.blocks ss 0 hss hinner
  rw [printRegionBy, hR, ok_bind]
  rcases hb : R.blocks with _ | ⟨b, _ | ⟨b', bs⟩⟩ <;> rw [hb] at hss hlabelled
  · cases hss
    exact hlabelled
  · obtain ⟨s, rest, hs, hrest, rfl⟩ := mapM_cons_eq_ok.1 hss
    rw [List.mapM_nil] at hrest
    cases hrest
    have hargs : g.blockArgs b = s.args := by
      obtain ⟨B, types, hB, -, rfl⟩ := sheet_eq_ok.1 hs
      exact blockArgs_of_block hB
    dsimp only
    rw [hargs, Frame.region]
    split
    · exact printBlockBy_fill hs (hinner s (.head []))
    · simpa [Frame.labelled] using hlabelled
  · obtain ⟨s, rest, -, hrest, rfl⟩ := mapM_cons_eq_ok.1 hss
    obtain ⟨s', rest, -, -, rfl⟩ := mapM_cons_eq_ok.1 hrest
    exact hlabelled

theorem printEnclosed_fill {rs : List RegionId} {regions : List (List Sheet)}
    (hregions : rs.mapM g.sheets = .ok regions)
    (hinner : ∀ ss ∈ regions, ∀ s ∈ ss, ∀ c ∈ s.ops, Fills print inner c) :
    printAll (fun ns r => do
        let (body, ns) ← g.printRegionBy print w ns r
        return (" \x7b\n" ++ body ++ margin w ++ "\x7d", ns)) ns rs =
      .ok (Piece.fillAll ns (Frame.expand (regions.flatMap (Frame.enclosed w)) inner)) := by
  induction rs generalizing regions ns with
  | nil =>
    cases hregions
    rfl
  | cons r rs ih =>
    obtain ⟨ss, rest, hss, hrest, rfl⟩ := mapM_cons_eq_ok.1 hregions
    rw [List.flatMap_cons, Frame.expand_append]
    refine printAll_cons_fill ?_ fun ns => ih hrest fun ss hss => hinner ss (.tail _ hss)
    rw [printRegionBy_fill hss (hinner ss (.head rest))]
    simp [Frame.enclosed, Piece.fillAll_append, Piece.fillAll, Piece.fill, String.append_assoc]

theorem printPlainBy_fill {o : OpId} {d : Op} {regions : List (List Sheet)}
    (hregions : d.regions.mapM g.sheets = .ok regions)
    (hinner : ∀ ss ∈ regions, ∀ s ∈ ss, ∀ c ∈ s.ops, Fills print inner c) :
    g.printPlainBy print w ns d =
      .ok (Piece.fillAll ns (Frame.expand (Frame.plain w (d.line o) regions) inner)) := by
  rw [printPlainBy]
  dsimp only
  rw [printEnclosed_fill hregions hinner]
  simp [Frame.plain, Piece.fillAll_append, Piece.fillAll, Piece.fill, Line.write, Op.line,
    String.append_assoc]

theorem printFuncBy_fill {o : OpId} {d : Op} {regions : List (List Sheet)}
    (hregions : d.regions.mapM g.sheets = .ok regions)
    (hinner : ∀ s ∈ regions.headD [], ∀ c ∈ s.ops, Fills print inner c) :
    g.printFuncBy print w d =
      .ok (Piece.fillAll ns (Frame.expand (Frame.func w (d.line o) regions) inner)) := by
  rw [printFuncBy]
  -- the text up to the name of the function
  generalize hstart : margin w ++ d.kind.text ++ _ = start
  have hname : margin w ++ (d.line o).kind.text ++ (d.line o).symbol = start := hstart
  rw [Frame.func, hname]
  rcases hr : d.regions with _ | ⟨r, rs⟩ <;> rw [hr] at hregions
  · cases hregions
    simp [Frame.funcBody, Piece.fillAll, Piece.fill]
  · obtain ⟨ss, rest, hss, -, rfl⟩ := mapM_cons_eq_ok.1 hregions
    obtain ⟨R, hR, hss⟩ := sheets_eq_ok.1 hss
    dsimp only
    rw [hR, ok_bind]
    rcases hb : R.blocks with _ | ⟨b, bs⟩ <;> rw [hb] at hss
    · cases hss
      simp [Frame.funcBody, Piece.fillAll, Piece.fill, String.append_assoc]
    · obtain ⟨s, rest, hs, hrest, rfl⟩ := mapM_cons_eq_ok.1 hss
      have hargs : ∀ ns, g.printArgs ns (g.blockArgs b) =
          .ok ((Piece.args s.args s.types).fill ns) := by
        intro ns
        obtain ⟨B, types, hB, htypes, rfl⟩ := sheet_eq_ok.1 hs
        rw [blockArgs_of_block hB, printArgs_fill htypes]
      have hfirst := fun ns => @printBlockBy_fill g print inner ns b s hs (hinner s (.head rest))
      have hothers := fun ns => @printLabelledBy_fill g print inner ns w bs rest 1 hrest
        fun t ht => hinner t (.tail s ht)
      simp [hargs, hfirst, hothers, Frame.funcBody, Sheet.signature, Piece.fillAll_append,
        Piece.fillAll, Piece.fill, String.append_assoc]

end Parts

/-- What is printed is the pieces, one after the other. -/
theorem printTo_of_pieces {n w : Nat} {o : OpId} {ps : List Piece}
    (h : g.piecesTo n w o = .ok ps) (ns : Numbering) :
    g.printTo n w ns o = .ok (Piece.fillAll ns ps) := by
  induction n generalizing w o ps ns with
  | zero => cases h
  | succ n ih =>
    obtain ⟨d, regions, inner, hd, hregions, hinner, rfl⟩ := piecesTo_succ_eq_ok.1 h
    have hfills : ∀ s ∈ Frame.shown (d.line o) regions, ∀ c ∈ s.ops,
        Fills (g.printTo n (w + 2)) inner c := by
      intro s hs c hc ns
      refine ih (hinner c ?_) ns
      rw [Frame.inner_op]
      exact List.mem_flatMap.2 ⟨s, hs, hc⟩
    rw [printTo, hd, ok_bind, Frame.op]
    rw [Frame.shown] at hfills
    by_cases hkind : d.kind = .func
    · have hline : (d.line o).kind = .func := hkind
      rw [if_pos hline] at hfills ⊢
      rw [if_pos hkind, printFuncBy_fill hregions hfills]
    · have hline : (d.line o).kind ≠ .func := hkind
      rw [if_neg hline] at hfills ⊢
      rw [if_neg hkind]
      refine printPlainBy_fill hregions fun ss hss s hs => ?_
      exact hfills s (List.mem_flatten.2 ⟨ss, hss, hs⟩)

/-! ## Where there are pieces -/

section Shown

variable {o : OpId} {d : Op} {regions : List (List Sheet)} {s : Sheet}

theorem shown_eq_flatten (hregions : d.regions.mapM g.sheets = .ok regions) :
    ∃ rs, d.shownRegions.mapM g.sheets = .ok rs ∧ Frame.shown (d.line o) regions = rs.flatten := by
  by_cases hkind : d.kind = .func
  · have hline : (d.line o).kind = .func := hkind
    rw [Op.shownRegions, if_pos hkind, Frame.shown, if_pos hline]
    cases hr : d.regions with
    | nil =>
      rw [hr] at hregions
      cases hregions
      exact ⟨[], rfl, rfl⟩
    | cons r rs =>
      rw [hr] at hregions
      obtain ⟨ss, rest, hss, -, rfl⟩ := mapM_cons_eq_ok.1 hregions
      exact ⟨[ss], mapM_cons_eq_ok.2 ⟨ss, [], hss, rfl, rfl⟩, by simp⟩
  · have hline : (d.line o).kind ≠ .func := hkind
    rw [Op.shownRegions, if_neg hkind, Frame.shown, if_neg hline]
    exact ⟨regions, hregions, rfl⟩

/-- The blocks that are printed with an operation are those of the regions that are. -/
theorem mem_shown (hregions : d.regions.mapM g.sheets = .ok regions) :
    s ∈ Frame.shown (d.line o) regions ↔
      ∃ r ∈ d.shownRegions, ∃ R, g.region r = .ok R ∧ ∃ b ∈ R.blocks, g.sheet b = .ok s := by
  obtain ⟨rs, hrs, hshown⟩ := shown_eq_flatten hregions
  rw [hshown, ← List.flatMap_id, mem_flatMap_of_mapM hrs]
  simp only [sheets_eq_ok]
  constructor
  · rintro ⟨r, hr, ss, ⟨R, hR, hss⟩, hs⟩
    exact ⟨r, hr, R, hR, (mem_of_mapM hss).1 s hs⟩
  · rintro ⟨r, hr, R, hR, b, hb, hs⟩
    obtain ⟨ss, -, hss⟩ := (mem_of_mapM hrs).2 r hr
    obtain ⟨R', hR', hss⟩ := sheets_eq_ok.1 hss
    rw [hR] at hR'
    cases hR'
    obtain ⟨s', hs', hb⟩ := (mem_of_mapM hss).2 b hb
    rw [hs] at hb
    cases hb
    exact ⟨r, hr, ss, ⟨R, hR, hss⟩, hs'⟩

/-- A block that is printed with an operation is in it. -/
theorem contained_of_shown (hd : g.op o = .ok d)
    (hregions : d.regions.mapM g.sheets = .ok regions) (hs : s ∈ Frame.shown (d.line o) regions) :
    ∃ b, g.Contained o b ∧ g.sheet b = .ok s := by
  obtain ⟨r, hr, R, hR, b, hb, hs⟩ := (mem_shown hregions).1 hs
  exact ⟨b, ⟨d, r, R, hd, d.shownRegions_sublist.subset hr, hR, hb⟩, hs⟩

theorem Linked.ownerOf?_of_shown (hg : g.Linked) (hd : g.op o = .ok d)
    (hregions : d.regions.mapM g.sheets = .ok regions) (hs : s ∈ Frame.shown (d.line o) regions)
    {c : OpId} (hc : c ∈ s.ops) : g.ownerOf? c = .ok (some o) := by
  obtain ⟨b, hb, hs⟩ := contained_of_shown hd hregions hs
  obtain ⟨B, types, hB, -, rfl⟩ := sheet_eq_ok.1 hs
  exact hg.ownerOf?_of_contained hb hB hc

/-- A piece is fixed text, or it comes from an operation inside: it starts a function, or it is the
line of another operation, or the arguments of a block. -/
theorem Linked.mem_pieces (hg : g.Linked) {n w : Nat} {ps : List Piece} {q : Piece}
    (h : g.piecesTo n w o = .ok ps) (hq : q ∈ ps) : (∃ t, q = .text t) ∨
      ∃ k p x, Within g o k p ∧ g.op p = .ok x ∧ (x.kind = .func ∧ q = .restart ∨
        x.kind ≠ .func ∧ q = .line (x.line p) ∨
        ∃ b B types, g.Contained p b ∧ g.block b = .ok B ∧ q = .args B.args types) := by
  induction n generalizing w o ps with
  | zero => cases h
  | succ n ih =>
    obtain ⟨_, d, regions, inner, t, rest, hn, hd, hregions, hinner, hlaid, rfl⟩ := piecesTo_laid h
    cases hn
    rcases List.mem_cons.1 hq with rfl | hq
    · exact .inl ⟨t, rfl⟩
    rcases List.mem_cons.1 hq with rfl | hq
    · refine .inr ⟨0, o, d, .root, hd, ?_⟩
      unfold Frame.opening
      split
      · exact .inl ⟨‹_›, rfl⟩
      · exact .inr (.inl ⟨‹_›, rfl⟩)
    rcases hlaid.mem_expand hq with htext | ⟨s, hs, rfl | ⟨c, hc, hq⟩⟩
    · exact .inl htext
    · obtain ⟨b, hb, hs⟩ := contained_of_shown hd hregions hs
      obtain ⟨B, types, hB, -, rfl⟩ := sheet_eq_ok.1 hs
      exact .inr ⟨0, o, d, .root, hd, .inr (.inr ⟨b, B, types, hb, hB, rfl⟩)⟩
    · have hstep : Within g o 1 c := .step (hg.ownerOf?_of_shown hd hregions hs hc) .root
      exact (ih (hinner s hs c hc) hq).imp_right
        fun ⟨k, p, x, hk, hp⟩ => ⟨1 + k, p, x, hstep.trans hk, hp⟩

end Shown

theorem Linked.sheets_ok (hg : g.Linked) {o : OpId} {d : Op} (hd : g.op o = .ok d) :
    ∃ regions, d.regions.mapM g.sheets = .ok regions := by
  refine mapM_ok fun r hr => ?_
  obtain ⟨R, hR, -⟩ := hg.owned.2 ⟨d, slot_of_op hd, hr⟩
  have hsheet : ∀ b ∈ R.blocks, ∃ s, g.sheet b = .ok s := by
    intro b hb
    obtain ⟨B, hB, -⟩ := hg.parted.2 ⟨R, hR, hb⟩
    have htypes : ∀ v ∈ B.args, ∃ t, (return (← g.value v).type : Except Fault Ty) = .ok t := by
      intro v hv
      obtain ⟨y, -, hy, -⟩ := hg.origin_argument hB hv
      exact ⟨y.type, by simp [hy]⟩
    obtain ⟨types, htypes⟩ := mapM_ok htypes
    exact ⟨_, sheet_eq_ok.2 ⟨B, types, hB, htypes, rfl⟩⟩
  obtain ⟨ss, hss⟩ := mapM_ok hsheet
  exact ⟨ss, sheets_eq_ok.2 ⟨R, hR, hss⟩⟩

/-- The operations under a live operation that is not nested in itself have pieces, and the depth
that printing is given is enough. -/
theorem Linked.piecesTo_ok (hg : g.Linked) {root : OpId} {d : Op} (hd : g.op root = .ok d)
    (hroot : ¬g.Inside root root) (m : Nat) {n : Nat} {o : OpId} (w : Nat)
    (ho : Within g root n o) (hle : g.ops.size ≤ n + m) : ∃ ps, g.piecesTo m w o = .ok ps := by
  induction m generalizing n o w with
  | zero =>
    have := ho.level_lt hd hroot
    omega
  | succ m ih =>
    obtain ⟨x, hx⟩ := ho.live hd
    obtain ⟨regions, hregions⟩ := hg.sheets_ok hx
    have hinner : ∀ c ∈ (Frame.op w (x.line o) regions).inner,
        ∃ qs, g.piecesTo m (w + 2) c = .ok qs := by
      intro c hc
      rw [Frame.inner_op] at hc
      obtain ⟨s, hs, hc⟩ := List.mem_flatMap.1 hc
      exact ih (w + 2) (.step (hg.ownerOf?_of_shown hx hregions hs hc) ho) (by omega)
    obtain ⟨inner, hinner⟩ := exists_inner hinner
    exact ⟨_, piecesTo_succ_eq_ok.2 ⟨x, regions, inner, hx, hregions, hinner, rfl⟩⟩

/-- The text of an operation is that of its pieces. -/
theorem Linked.opText_pieces (hg : g.Linked) {root : OpId} {d : Op} (hd : g.op root = .ok d)
    (hroot : ¬g.Inside root root) :
    ∃ ps, g.pieces root = .ok ps ∧ g.opText root = .ok (Piece.fillAll .empty ps).1 := by
  obtain ⟨ps, hps⟩ := hg.piecesTo_ok hd hroot g.depth 0 .root (by rw [depth]; omega)
  exact ⟨ps, hps, by simp [opText, printTo_of_pieces hps]⟩

end Graph

end Peephole
