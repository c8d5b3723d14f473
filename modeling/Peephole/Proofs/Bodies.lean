import Peephole.Proofs.Coherence

/-!
# Bodies

The text of a function is a `Body`: statements one after the other, where a branch has
another body in it.  A statement reads values by number, and a number stands for an argument
of the function or for a result of an earlier statement, in the same body or in one around
it.  A text that reads anything else cannot be written down.

`Body.build` runs a text.  The operations of an inner body are made before the branch
around them, and they are in no region until the branch is there, so `Graph.Laid` says what
a body looks like while it is being built: it is about the block of the body and what is
below, and nothing that comes later changes that (`Laid.grows`).  `Body.build_ok` is the
induction over texts.
-/

namespace Peephole

/-! ## Texts -/

/-- A statement that has no body in it, where `n` values may be read. -/
inductive Statement (n : Nat) where
  | alloc
  | const (x : Binary64)
  | add (left right : Fin n)
  | rotate (axis : Axis) (angle qubit : Fin n)
  | gate (kind : Kind) (qubit : Fin n) (isGate : kind ∈ [.hadamard, .pauliX, .pauliZ])
  | measure (qubit : Fin n)
  | ret (values : List (Fin n))
  | yield (values : List (Fin n))

theorem hadamard_isGate : Kind.hadamard ∈ [.hadamard, .pauliX, .pauliZ] := by decide

/-- The types of the results of a statement. -/
def Statement.types {n : Nat} : Statement n → List Ty
  | alloc => [.qubit]
  | const _ => [.number]
  | add _ _ => [.number]
  | rotate _ _ _ => [.qubit]
  | gate _ _ _ => [.qubit]
  | measure _ => [.bit]
  | ret _ => []
  | yield _ => []

/-- Statements, where `n` values may be read by the first of them.  The body of a branch reads
what the branch may read, and what it makes is not read after it. -/
inductive Body : Nat → Type
  | done {n : Nat} : Body n
  | step {n : Nat} (s : Statement n) (rest : Body (n + s.types.length)) : Body n
  | branch {n : Nat} (condition : Fin n) (types : List Ty) (inner : Body n)
      (rest : Body (n + types.length)) : Body n

/-- The value that a number stands for. -/
def named (known : List ValueId) {n : Nat} (i : Fin n) : ValueId := known.getD i default

theorem named_mem {known : List ValueId} {n : Nat} (h : known.length = n) (i : Fin n) :
    named known i ∈ known := by
  have hi : i.val < known.length := h ▸ i.isLt
  rw [named, List.getD_eq_getElem?_getD, List.getElem?_eq_getElem hi]
  exact List.getElem_mem hi

namespace Statement

variable {n : Nat}

/-- Runs a statement, and gives its results. -/
def build (known : List ValueId) : Statement n → BuildM (List ValueId)
  | alloc => return [← BuildM.alloc]
  | const x => return [← BuildM.const x]
  | add i j => return [← BuildM.add (named known i) (named known j)]
  | rotate axis i j => return [← BuildM.rotate axis (named known i) (named known j)]
  | gate kind i _ => return [← BuildM.gate kind (named known i)]
  | measure i => return [← BuildM.measure (named known i)]
  | ret is => do
      let _ ← BuildM.ret (is.map (named known))
      return []
  | yield is => do
      let _ ← BuildM.yield (is.map (named known))
      return []

/-- What a statement asks for. -/
def draft (known : List ValueId) (l : Location) : Statement n → Draft
  | alloc => .alloc l
  | const x => .const l x
  | add i j => .add l (named known i) (named known j)
  | rotate axis i j => .rotate l axis (named known i) (named known j)
  | gate kind i _ => { kind, location := l, operands := [named known i], resultTypes := [.qubit] }
  | measure i => .measure l (named known i)
  | ret is => .ret l (is.map (named known))
  | yield is => .yield l (is.map (named known))

@[simp]
theorem resultTypes_draft (s : Statement n) (known : List ValueId) (l : Location) :
    (s.draft known l).resultTypes = s.types := by
  cases s <;> rfl

@[simp]
theorem regions_draft (s : Statement n) (known : List ValueId) (l : Location) :
    (s.draft known l).regions = [] := by
  cases s <;> rfl

@[simp]
theorem block_draft (s : Statement n) (known : List ValueId) (l : Location) :
    (s.draft known l).block = none := by
  cases s <;> rfl

/-- A statement reads what is known. -/
theorem operands_draft (s : Statement n) {known : List ValueId} (l : Location)
    (h : known.length = n) : ∀ v ∈ (s.draft known l).operands, v ∈ known := by
  have hlist : ∀ is : List (Fin n), ∀ v ∈ is.map (named known), v ∈ known := by
    intro is v hv
    obtain ⟨i, -, rfl⟩ := List.mem_map.1 hv
    exact named_mem h i
  cases s with
  | alloc => exact hlist []
  | const _ => exact hlist []
  | add i j => exact hlist [i, j]
  | rotate _ i j => exact hlist [i, j]
  | gate _ i _ => exact hlist [i]
  | measure i => exact hlist [i]
  | ret is => exact hlist is
  | yield is => exact hlist is

theorem build_program (s : Statement n) (known : List ValueId) : (s.build known).Program := by
  cases s with
  | alloc => exact .bind (.single _) fun _ => .pure _
  | const _ => exact .bind (.single _) fun _ => .pure _
  | add _ _ => exact .bind (.single _) fun _ => .pure _
  | rotate _ _ _ => exact .bind (.single _) fun _ => .pure _
  | gate _ _ _ => exact .bind (.single _) fun _ => .pure _
  | measure _ => exact .bind (.single _) fun _ => .pure _
  | ret _ => exact .bind (.op _) fun _ => .pure _
  | yield _ => exact .bind (.op _) fun _ => .pure _

end Statement

/-- Runs a text where the given values are known. -/
def Body.build {n : Nat} : Body n → List ValueId → BuildM Unit
  | done, _ => return ()
  | step s rest, known => do
      let results ← s.build known
      rest.build (known ++ results)
  | branch condition types inner rest, known => do
      let (_, results) ← BuildM.branch (named known condition) types (inner.build known)
      rest.build (known ++ results)

theorem Body.build_program {n : Nat} (p : Body n) :
    ∀ known : List ValueId, (p.build known).Program := by
  induction p with
  | done => exact fun _ => .pure ()
  | step s rest ih => exact fun known => .bind (s.build_program known) fun _ => ih _
  | branch i types inner rest ihin ihrest =>
    exact fun known => .bind (.branch (ihin known)) fun _ => ihrest _

namespace Graph

variable {g g' g'' : Graph}

/-! ## Growth -/

theorem ne_of_block {b : BlockId} {B : Block} (hB : g.block b = .ok B) : b ≠ ⟨g.blocks.size⟩ := by
  rintro rfl
  exact Nat.lt_irrefl _ (index_lt_of_block hB)

theorem block_newBlock_old (args : List Ty) (l : Location) {b : BlockId} {B : Block}
    (hB : g.block b = .ok B) : (g.newBlock args l).2.block b = .ok B := by
  rw [block_newBlock, if_neg (Nat.ne_of_lt (index_lt_of_block hB))]
  exact hB

/-- What is there stays as it is, apart from blocks in no region and regions without an
owner. -/
structure Grows (g g' : Graph) : Prop where
  slot {o : OpId} {d : Op} : g.slot o = .ok d → g'.slot o = .ok d
  value {v : ValueId} {y : Value} : g.value v = .ok y → g'.value v = .ok y
  block {b : BlockId} {B : Block} {r : RegionId} : g.block b = .ok B → B.region = some r →
    g'.block b = .ok B
  region {r : RegionId} {R : Region} {o : OpId} : g.region r = .ok R → R.owner = some o →
    g'.region r = .ok R

namespace Grows

theorem refl (g : Graph) : Grows g g where
  slot := id
  value := id
  block hB _ := hB
  region hR _ := hR

theorem trans (h : Grows g g') (h' : Grows g' g'') : Grows g g'' where
  slot hd := h'.slot (h.slot hd)
  value hy := h'.value (h.value hy)
  block hB hr := h'.block (h.block hB hr) hr
  region hR ho := h'.region (h.region hR ho) ho

theorem op (h : Grows g g') {o : OpId} {d : Op} (hd : g.op o = .ok d) : g'.op o = .ok d := by
  obtain ⟨hs, he⟩ := op_eq_ok.1 hd
  exact op_eq_ok.2 ⟨h.slot hs, he⟩

theorem values_le (h : Grows g g') : g.values.size ≤ g'.values.size := by
  cases hsize : g.values.size with
  | zero => exact Nat.zero_le _
  | succ k =>
    obtain ⟨y, hy⟩ := value_of_index_lt (g := g) (v := ⟨k⟩) (hsize ▸ Nat.lt_succ_self k)
    exact index_lt_of_value (h.value hy)

theorem newBlock (g : Graph) (args : List Ty) (l : Location) :
    Grows g (g.newBlock args l).2 where
  slot hd := hd
  value hy := (value_newBlock g args l [] none).2 (.inl hy)
  block hB _ := block_newBlock_old args l hB
  region hR _ := hR

theorem newRegion {bs : List BlockId} {r : RegionId} (h : g.newRegion bs = .ok (r, g')) :
    Grows g g' where
  slot hd := (slot_newRegion h _).trans hd
  value hy := (value_newRegion h _).trans hy
  block {b B q} hB hq := by
    rw [block_newRegion h, if_neg ?_]
    · exact hB
    intro hb
    obtain ⟨B', hB', hnone⟩ := (newRegion_blocks h).2 b hb
    rw [hB] at hB'
    cases hB'
    rw [hq] at hnone
    cases hnone
  region {q R o} hR _ := by
    rw [region_newRegion h, if_neg ?_]
    · exact hR
    rintro rfl
    exact not_region_of_newRegion h R hR

theorem newOp {d : Draft} {o : OpId} (h : g.newOp d = .ok (o, g')) : Grows g g' where
  slot {p x} hx := by
    rw [slot_newOp h, if_neg ?_]
    · exact hx
    rintro rfl
    exact not_slot_of_newOp h x hx
  value hy := (value_newOp h).2 (.inl hy)
  block hB _ := (block_newOp h _).trans hB
  region {r R p} hR hp := by
    rw [region_newOp h, if_neg ?_]
    · exact hR
    intro hr
    obtain ⟨R', hR', hnone⟩ := (newOp_regions h).2 r hr
    rw [hR] at hR'
    cases hR'
    rw [hp] at hnone
    cases hnone

end Grows

/-! ## The steps of building -/

theorem size_newOp {d : Draft} {o : OpId} (h : g.newOp d = .ok (o, g')) :
    g'.ops.size = g.ops.size + 1 := by
  obtain ⟨-, -, g₁, -, rfl⟩ := newOp_eq_ok h
  exact Array.size_push _

theorem newOp_ok {d : Draft} {g₁ : Graph} (hb : d.block = none)
    (h : d.regions.foldlM (claimRegion ⟨g.ops.size⟩) g = .ok g₁) :
    ∃ g', g.newOp d = .ok (⟨g.ops.size⟩, g') := by
  exact ⟨_, by simp only [newOp, hb, h, ok_bind]; rfl⟩

/-- The values are the results of an operation, and not among the first `m` values. -/
structure Yields (g : Graph) (m : Nat) (o : OpId) (types : List Ty) (vs : List ValueId) : Prop where
  length : vs.length = types.length
  new : ∀ v ∈ vs, m ≤ v.index
  origin : ∀ v ∈ vs, ∃ y i, g.value v = .ok y ∧ y.origin = .result o i

theorem Yields.grows {m : Nat} {o : OpId} {types : List Ty} {vs : List ValueId}
    (h : Yields g m o types vs) (hg : Grows g g') : Yields g' m o types vs where
  length := h.length
  new := h.new
  origin v hv := by
    obtain ⟨y, i, hy, horigin⟩ := h.origin v hv
    exact ⟨y, i, hg.value hy, horigin⟩

theorem Yields.exist {m : Nat} {o : OpId} {types : List Ty} {vs : List ValueId}
    (h : Yields g m o types vs) : ∀ v ∈ vs, ∃ y, g.value v = .ok y := by
  intro v hv
  obtain ⟨y, i, hy, -⟩ := h.origin v hv
  exact ⟨y, hy⟩

theorem yields_newOp {d : Draft} {o : OpId} {m : Nat} (h : g.newOp d = .ok (o, g'))
    (hm : m ≤ g.values.size) :
    Yields g' m o d.resultTypes (g.nextValues d.resultTypes.length) where
  length := length_nextValues _
  new v hv := Nat.le_trans hm (index_of_mem_nextValues hv).1
  origin v hv := by
    obtain ⟨i, hi⟩ := List.mem_iff_getElem?.1 hv
    obtain ⟨hlt, hindex⟩ := getElem?_nextValues.1 hi
    exact ⟨_, i, (value_newOp h).2 (.inr ⟨i, _, List.getElem?_eq_getElem hlt, hindex, rfl⟩), rfl⟩

/-- An operation has been made at the end of a block that is in no region. -/
structure Appended (g : Graph) (b : BlockId) (B : Block) (d : Draft) (g' : Graph) : Prop where
  grows : Grows g g'
  made : g'.op ⟨g.ops.size⟩ = .ok ((d.made (g.nextValues d.resultTypes.length)).inBlock b)
  yields {m : Nat} : m ≤ g.values.size →
    Yields g' m ⟨g.ops.size⟩ d.resultTypes (g.nextValues d.resultTypes.length)
  size : g'.ops.size = g.ops.size + 1
  block (c : BlockId) : g'.block c =
    if c = b then .ok { B with ops := B.ops ++ [⟨g.ops.size⟩] } else g.block c
  region (r : RegionId) : g'.region r =
    if r ∈ d.regions then (g.region r).map fun R => { R with owner := some ⟨g.ops.size⟩ }
    else g.region r

theorem appendOp_ok {b : BlockId} {B : Block} {d : Draft} {g₁ : Graph} (hB : g.block b = .ok B)
    (hopen : B.region = none) (hb : d.block = none)
    (hregions : d.regions.foldlM (claimRegion ⟨g.ops.size⟩) g = .ok g₁) :
    ∃ g', g.appendOp b d = .ok (⟨g.ops.size⟩, g') ∧ Appended g b B d g' := by
  obtain ⟨g₂, hnew⟩ := newOp_ok hb hregions
  have hop := op_newOp hnew ⟨g.ops.size⟩
  rw [if_pos rfl] at hop
  have hB₂ := (block_newOp hnew b).trans hB
  have hplace := placeLast_eq_ok.2 ⟨_, B, hop, rfl, hB₂, rfl⟩
  refine ⟨g₂.put ⟨g.ops.size⟩ b (· ++ [⟨g.ops.size⟩]), ?_, ?_⟩
  · simp only [appendOp, hnew, ok_bind, hplace]
    rfl
  have hslot : ∀ {p x}, g.slot p = .ok x → (⟨g.ops.size⟩ : OpId) ≠ p := by
    rintro p x hx rfl
    exact not_slot_of_newOp hnew x hx
  have hold := Grows.newOp hnew
  refine ⟨⟨?_, hold.value, ?_, hold.region⟩, ?_, ?_, ?_, ?_, ?_⟩
  · intro p x hx
    rw [slot_put, if_neg (hslot hx)]
    exact hold.slot hx
  · intro c C r hC hr
    rw [block_put, if_neg ?_]
    · exact hold.block hC hr
    rintro rfl
    rw [hB] at hC
    cases hC
    rw [hopen] at hr
    cases hr
  · rw [op_put, if_pos rfl, hop]
    rfl
  · intro m hm
    obtain ⟨hlength, hnews, horigin⟩ := yields_newOp hnew hm
    exact ⟨hlength, hnews, horigin⟩
  · rw [← size_newOp hnew]
    simp [put, modifyOp, modifyBlock]
  · intro c
    rw [block_put]
    by_cases hc : c = b
    · subst hc
      simp [hB₂]
    · simp [hc, Ne.symm hc, block_newOp hnew]
  · intro r
    rw [region_put, region_newOp hnew]

theorem newRegion_ok {c : BlockId} {C : Block} (hC : g.block c = .ok C) (hopen : C.region = none) :
    ∃ g', g.newRegion [c] = .ok (⟨g.regions.size⟩, g') := by
  have hclaim : claimBlock ⟨g.regions.size⟩ g c = .ok _ :=
    claimBlock_eq_ok.2 ⟨C, hC, hopen, rfl⟩
  exact ⟨_, by simp only [newRegion, List.foldlM_cons, hclaim, ok_bind]; rfl⟩

section NewRegion

variable {c : BlockId} {r : RegionId} (h : g.newRegion [c] = .ok (r, g'))
include h

theorem ops_newRegion : g'.ops = g.ops := by
  obtain ⟨-, g₁, h₁, rfl⟩ := newRegion_eq_ok h
  rw [(claimBlocks_eq_ok h₁).2.2.2]

theorem values_newRegion : g'.values = g.values := by
  obtain ⟨-, g₁, h₁, rfl⟩ := newRegion_eq_ok h
  rw [(claimBlocks_eq_ok h₁).2.2.2]

theorem claimRegions_newRegion (o : OpId) : ∃ g₁, [r].foldlM (claimRegion o) g' = .ok g₁ := by
  have hr := region_newRegion h r
  rw [if_pos rfl] at hr
  have hclaim : claimRegion o g' r = .ok _ := claimRegion_eq_ok.2 ⟨_, hr, rfl, rfl⟩
  exact ⟨_, by rw [List.foldlM_cons, hclaim]; rfl⟩

end NewRegion

/-- A branch has been made at the end of the block `b`, around the block `c`. -/
structure Enclosed (g : Graph) (b : BlockId) (B : Block) (c : BlockId) (C : Block) (l : Location)
    (condition : ValueId) (types : List Ty) (g' : Graph) : Prop where
  grows : Grows g g'
  made : g'.op ⟨g.ops.size⟩ = .ok (((Draft.branch l condition types ⟨g.regions.size⟩).made
    (g.nextValues types.length)).inBlock b)
  yields {m : Nat} : m ≤ g.values.size →
    Yields g' m ⟨g.ops.size⟩ types (g.nextValues types.length)
  size : g'.ops.size = g.ops.size + 1
  block (a : BlockId) : g'.block a =
    if a = b then .ok { B with ops := B.ops ++ [⟨g.ops.size⟩] }
    else if a = c then .ok { C with region := some ⟨g.regions.size⟩ } else g.block a
  region : g'.region ⟨g.regions.size⟩ = .ok ⟨[c], some ⟨g.ops.size⟩⟩

theorem closeBranch_ok {b c : BlockId} {B C : Block} (l : Location) (condition : ValueId)
    (types : List Ty) (hB : g.block b = .ok B) (hb : B.region = none) (hC : g.block c = .ok C)
    (hc : C.region = none) (hne : b ≠ c) :
    ∃ g', g.closeBranch b l condition types c = .ok (⟨g.ops.size⟩, g') ∧
      Enclosed g b B c C l condition types g' := by
  obtain ⟨g₁, hregion⟩ := newRegion_ok hC hc
  have hB₁ : g₁.block b = .ok B := by
    rw [block_newRegion hregion, if_neg (by simpa using hne)]
    exact hB
  obtain ⟨g₂, hclaims⟩ := claimRegions_newRegion hregion ⟨g₁.ops.size⟩
  obtain ⟨g', happend, h⟩ := appendOp_ok (d := .branch l condition types ⟨g.regions.size⟩)
    hB₁ hb rfl hclaims
  have hsize : g₁.ops.size = g.ops.size := by rw [ops_newRegion hregion]
  have hnext : g₁.nextValues types.length = g.nextValues types.length := by
    simp only [nextValues, values_newRegion hregion]
  refine ⟨g', ?_, (Grows.newRegion hregion).trans h.grows, ?_, ?_, ?_, ?_, ?_⟩
  · simp only [closeBranch, hregion, ok_bind, happend, hsize]
  · rw [← hsize, ← hnext]
    exact h.made
  · intro m hm
    rw [← hsize, ← hnext]
    exact h.yields (values_newRegion hregion ▸ hm)
  · rw [h.size, hsize]
  · intro a
    simp only [h.block, hsize, block_newRegion hregion, List.mem_singleton]
    by_cases ha : a = c
    · simp [ha, hC]
    · simp [ha]
  · rw [h.region, if_pos (.head _), region_newRegion hregion, if_pos rfl, hsize]
    rfl

/-- A function has been made around the block `b`. -/
theorem closeFunc_ok {b : BlockId} {B : Block} (l : Location) (name : String)
    (hB : g.block b = .ok B) (hb : B.region = none) :
    ∃ g', g.closeFunc l name b = .ok (⟨g.ops.size⟩, g') ∧ Grows g g' ∧
      g'.op ⟨g.ops.size⟩ = .ok ((Draft.func l name ⟨g.regions.size⟩).made []) ∧
      g'.ops.size = g.ops.size + 1 ∧
      g'.block b = .ok { B with region := some ⟨g.regions.size⟩ } ∧
      g'.region ⟨g.regions.size⟩ = .ok ⟨[b], some ⟨g.ops.size⟩⟩ := by
  obtain ⟨g₁, hregion⟩ := newRegion_ok hB hb
  obtain ⟨g₂, hclaims⟩ := claimRegions_newRegion hregion ⟨g₁.ops.size⟩
  obtain ⟨g', hnew⟩ := newOp_ok (d := .func l name ⟨g.regions.size⟩) rfl hclaims
  have hsize : g₁.ops.size = g.ops.size := by rw [ops_newRegion hregion]
  rw [hsize] at hnew
  refine ⟨g', ?_, (Grows.newRegion hregion).trans (.newOp hnew), ?_, ?_, ?_, ?_⟩
  · simp only [closeFunc, hregion, ok_bind, hnew]
  · rw [op_newOp hnew, if_pos rfl]
    rfl
  · rw [size_newOp hnew, hsize]
  · rw [block_newOp hnew, block_newRegion hregion, if_pos (.head _), hB]
    rfl
  · rw [region_newOp hnew, if_pos (.head _), region_newRegion hregion, if_pos rfl]
    rfl

/-! ## Bodies in a graph -/

/-- The block `b` ends with the operations `top` of a text, and `ops` are these and those below
them, in the order of the text.  What the text makes is not among the first `m` values. -/
inductive Laid (g : Graph) (m : Nat) : BlockId → {n : Nat} → Body n → List ValueId →
    List OpId → List OpId → Prop
  | done {b : BlockId} {n : Nat} {known : List ValueId} : Laid g m b (.done : Body n) known [] []
  | step {b : BlockId} {n : Nat} {s : Statement n} {rest : Body (n + s.types.length)}
      {known vs : List ValueId} {l : Location} {o : OpId} {top ops : List OpId} :
      g.op o = .ok (((s.draft known l).made vs).inBlock b) → Yields g m o s.types vs →
      Laid g m b rest (known ++ vs) top ops → Laid g m b (.step s rest) known (o :: top) (o :: ops)
  | branch {b c : BlockId} {C : Block} {r : RegionId} {n : Nat} {i : Fin n} {types : List Ty}
      {inner : Body n} {rest : Body (n + types.length)} {known vs : List ValueId} {l : Location}
      {o : OpId} {top below ops : List OpId} :
      g.op o = .ok (((Draft.branch l (named known i) types r).made vs).inBlock b) →
      Yields g m o types vs → g.region r = .ok ⟨[c], some o⟩ → g.block c = .ok C →
      C.region = some r → C.args = [] → b.index < c.index → Laid g m c inner known C.ops below →
      Laid g m b rest (known ++ vs) top ops →
      Laid g m b (.branch i types inner rest) known (o :: top) (o :: (below ++ ops))

section

variable {m n : Nat} {b : BlockId} {p : Body n} {known : List ValueId} {top ops : List OpId}

theorem Laid.grows (h : Laid g m b p known top ops) (hg : Grows g g') :
    Laid g' m b p known top ops := by
  induction h with
  | done => exact .done
  | step hd hvs _ ih => exact .step (hg.op hd) (hvs.grows hg) ih
  | branch hd hvs hR hC hr hargs hlt _ _ ihin ihrest =>
    exact .branch (hg.op hd) (hvs.grows hg) (hg.region hR rfl) (hg.block hC hr) hr hargs hlt
      ihin ihrest

end

/-- A text has been written at the end of a block. -/
structure Written (g : Graph) (m : Nat) (b : BlockId) (B : Block) {n : Nat} (p : Body n)
    (known : List ValueId) (top ops : List OpId) (g' : Graph) : Prop where
  grows : Grows g g'
  home : g'.block b = .ok { B with ops := B.ops ++ top }
  others {c : BlockId} {C : Block} : c ≠ b → g.block c = .ok C → g'.block c = .ok C
  laid : Laid g' m b p known top ops
  size : g'.ops.size = g.ops.size + ops.length
  range (o : OpId) : o ∈ ops ↔ g.ops.size ≤ o.index ∧ o.index < g'.ops.size
  nodup : ops.Nodup

namespace Written

variable {m n : Nat} {b : BlockId} {B : Block} {known : List ValueId} {top ops : List OpId}
  {l : Location}

theorem done (hB : g.block b = .ok B) : Written g m b B (.done : Body n) known [] [] g where
  grows := .refl g
  home := by simpa using hB
  others _ hC := hC
  laid := .done
  size := rfl
  range o := by
    simp only [List.not_mem_nil, false_iff]
    omega
  nodup := .nil

/-- A statement, and then the rest. -/
theorem step {s : Statement n} {rest : Body (n + s.types.length)} {g₁ : Graph}
    (hm : m ≤ g.values.size) (h : Appended g b B (s.draft known l) g₁)
    (hrest : Written g₁ m b { B with ops := B.ops ++ [⟨g.ops.size⟩] } rest
      (known ++ g.nextValues s.types.length) top ops g') :
    Written g m b B (.step s rest) known (⟨g.ops.size⟩ :: top) (⟨g.ops.size⟩ :: ops) g' where
  grows := h.grows.trans hrest.grows
  home := by simpa using hrest.home
  others hc hC := by
    apply hrest.others hc
    rw [h.block, if_neg hc]
    exact hC
  laid := by
    have hmade := h.made
    have hyields := h.yields hm
    rw [Statement.resultTypes_draft] at hmade hyields
    exact .step (hrest.grows.op hmade) (hyields.grows hrest.grows) hrest.laid
  size := by
    rw [hrest.size, h.size, List.length_cons]
    omega
  range o := by
    have hsize := hrest.size
    rw [List.mem_cons, hrest.range, ← OpId.index_inj]
    rw [h.size] at hsize ⊢
    dsimp only
    omega
  nodup := by
    refine List.nodup_cons.2 ⟨?_, hrest.nodup⟩
    rw [hrest.range, h.size]
    dsimp only
    omega

/-- The body of a branch in a block of its own, the branch, and then the rest. -/
theorem branch {i : Fin n} {types : List Ty} {inner : Body n} {rest : Body (n + types.length)}
    {g₁ g₂ : Graph} {within below : List OpId} (hm : m ≤ g.values.size) (hB : g.block b = .ok B)
    (hin : Written (g.newBlock [] l).2 m ⟨g.blocks.size⟩ ⟨[], [], [], none, l⟩ inner known
      within below g₁)
    (h : Enclosed g₁ b B ⟨g.blocks.size⟩ ⟨[], [], within, none, l⟩ l (named known i) types g₂)
    (hrest : Written g₂ m b { B with ops := B.ops ++ [⟨g₁.ops.size⟩] } rest
      (known ++ g₁.nextValues types.length) top ops g') :
    Written g m b B (.branch i types inner rest) known (⟨g₁.ops.size⟩ :: top)
      (⟨g₁.ops.size⟩ :: (below ++ ops)) g' where
  grows := (Grows.newBlock g [] l).trans (hin.grows.trans (h.grows.trans hrest.grows))
  home := by simpa using hrest.home
  others {a A} ha hA := by
    have hac := ne_of_block hA
    apply hrest.others ha
    rw [h.block, if_neg ha, if_neg hac]
    exact hin.others hac (block_newBlock_old [] l hA)
  laid := by
    have hm₁ := Nat.le_trans hm ((Grows.newBlock g [] l).trans hin.grows).values_le
    have hC := h.block ⟨g.blocks.size⟩
    rw [if_neg (ne_of_block hB).symm, if_pos rfl] at hC
    exact .branch (hrest.grows.op h.made) ((h.yields hm₁).grows hrest.grows)
      (hrest.grows.region h.region rfl) (hrest.grows.block hC rfl) rfl rfl (index_lt_of_block hB)
      (hin.laid.grows (h.grows.trans hrest.grows)) hrest.laid
  size := by
    rw [hrest.size, h.size, hin.size, List.length_cons, List.length_append]
    show g.ops.size + below.length + 1 + ops.length = _
    omega
  range o := by
    have hsize₁ : g₁.ops.size = g.ops.size + below.length := hin.size
    have hbelow : o ∈ below ↔ g.ops.size ≤ o.index ∧ o.index < g₁.ops.size := hin.range o
    have hsize := hrest.size
    rw [List.mem_cons, List.mem_append, hbelow, hrest.range, ← OpId.index_inj]
    rw [h.size] at hsize ⊢
    dsimp only
    omega
  nodup := by
    refine List.nodup_cons.2 ⟨?_, List.nodup_append.2 ⟨hin.nodup, hrest.nodup, ?_⟩⟩
    · rw [List.mem_append, hin.range, hrest.range, h.size]
      dsimp only
      omega
    · rintro o ho o' ho' rfl
      rw [hin.range] at ho
      rw [hrest.range, h.size] at ho'
      omega

end Written

end Graph

/-! ## Running a text -/

namespace BuildM

variable {g g' : Graph} {b : BlockId} {l : Location} {draft : Location → Except Fault Draft}
  {d : Draft} {o : OpId}

theorem op_ok (hd : draft l = .ok d) (h : g.appendOp b d = .ok (o, g')) :
    op draft ⟨g, b, l⟩ = .ok (o, ⟨g', b, l⟩) := by
  rw [op, get_bind]
  exact lift_bind_eq_ok.2 ⟨d, hd, lift_bind_eq_ok.2 ⟨_, h, rfl⟩⟩

theorem single_ok {v : ValueId} (hd : draft l = .ok d) (h : g.appendOp b d = .ok (o, g'))
    (hv : g'.result o 0 = .ok v) : single draft ⟨g, b, l⟩ = .ok (v, ⟨g', b, l⟩) := by
  refine bind_eq_ok.2 ⟨o, _, op_ok hd h, ?_⟩
  rw [get_bind]
  show (g'.result o 0 >>= fun x => .ok (x, _)) = _
  rw [hv]
  rfl

theorem branch_ok {g₁ g₂ : Graph} {condition : ValueId} {types : List Ty} {body : BuildM Unit}
    {x : Op} (hbody : body ⟨(g.newBlock [] l).2, ⟨g.blocks.size⟩, l⟩ =
      .ok ((), ⟨g₁, ⟨g.blocks.size⟩, l⟩))
    (hclose : g₁.closeBranch b l condition types ⟨g.blocks.size⟩ = .ok (o, g₂))
    (hx : g₂.op o = .ok x) :
    branch condition types body ⟨g, b, l⟩ = .ok ((o, x.results), ⟨g₂, b, l⟩) := by
  rw [branch, get_bind]
  refine lift_bind_eq_ok.2 ⟨_, hbody, lift_bind_eq_ok.2 ⟨_, hclose, ?_⟩⟩
  simp only [set_bind]
  exact lift_bind_eq_ok.2 ⟨x.results, by simp [Graph.results, hx], rfl⟩

end BuildM

open Peephole.Graph

variable {g : Graph} {b : BlockId} {B : Block} {l : Location} {n : Nat}

theorem Statement.build_ok (s : Statement n) (known : List ValueId) (hB : g.block b = .ok B)
    (hopen : B.region = none) :
    ∃ g', s.build known ⟨g, b, l⟩ = .ok (g.nextValues s.types.length, ⟨g', b, l⟩) ∧
      Appended g b B (s.draft known l) g' := by
  have hclaims : (s.draft known l).regions.foldlM (claimRegion ⟨g.ops.size⟩) g = .ok g := by
    rw [regions_draft]
    rfl
  obtain ⟨g', happend, h⟩ := appendOp_ok hB hopen (s.block_draft known l) hclaims
  refine ⟨g', ?_, h⟩
  have hmade := h.made
  rw [resultTypes_draft] at hmade
  have hresult : s.types.length = 1 → g'.result ⟨g.ops.size⟩ 0 = .ok ⟨g.values.size⟩ := by
    intro hone
    simp [result, results, hmade, Op.inBlock, Draft.made, hone, nextValues, entry]
  cases s with
  | alloc => exact BuildM.bind_eq_ok.2 ⟨_, _, BuildM.single_ok rfl happend (hresult rfl), rfl⟩
  | const x => exact BuildM.bind_eq_ok.2 ⟨_, _, BuildM.single_ok rfl happend (hresult rfl), rfl⟩
  | add i j => exact BuildM.bind_eq_ok.2 ⟨_, _, BuildM.single_ok rfl happend (hresult rfl), rfl⟩
  | rotate axis i j =>
    exact BuildM.bind_eq_ok.2 ⟨_, _, BuildM.single_ok rfl happend (hresult rfl), rfl⟩
  | gate kind i hk =>
    have hdraft : Draft.gate l kind (named known i) = .ok ((gate kind i hk).draft known l) := by
      rw [Draft.gate, if_pos hk]
      rfl
    exact BuildM.bind_eq_ok.2 ⟨_, _, BuildM.single_ok hdraft happend (hresult rfl), rfl⟩
  | measure i => exact BuildM.bind_eq_ok.2 ⟨_, _, BuildM.single_ok rfl happend (hresult rfl), rfl⟩
  | ret is => exact BuildM.bind_eq_ok.2 ⟨_, _, BuildM.op_ok rfl happend, rfl⟩
  | yield is => exact BuildM.bind_eq_ok.2 ⟨_, _, BuildM.op_ok rfl happend, rfl⟩

/-- Every text can be run, and it is then written at the end of the block. -/
theorem Body.build_ok {m : Nat} (p : Body n) :
    ∀ {g : Graph} {b : BlockId} {B : Block} (l : Location) (known : List ValueId),
      m ≤ g.values.size → g.block b = .ok B → B.region = none →
      ∃ g' top ops, p.build known ⟨g, b, l⟩ = .ok ((), ⟨g', b, l⟩) ∧
        Written g m b B p known top ops g' := by
  induction p with
  | done =>
    intro g b B l known _ hB _
    exact ⟨g, [], [], rfl, .done hB⟩
  | step s rest ih =>
    intro g b B l known hm hB hopen
    obtain ⟨g₁, hbuild, h⟩ := s.build_ok known (l := l) hB hopen
    have hB₁ := h.block b
    rw [if_pos rfl] at hB₁
    obtain ⟨g', top, ops, hrest, hwritten⟩ := ih l (known ++ g.nextValues s.types.length)
      (Nat.le_trans hm h.grows.values_le) hB₁ hopen
    exact ⟨g', _, _, BuildM.bind_eq_ok.2 ⟨_, _, hbuild, hrest⟩, .step hm h hwritten⟩
  | branch i types inner rest ihin ihrest =>
    intro g b B l known hm hB hopen
    -- the body is written first, in a block that is in no region until it is done
    have hgrows := Grows.newBlock g [] l
    have hne := ne_of_block hB
    have hC := block_newBlock g [] l [] none ⟨g.blocks.size⟩
    rw [if_pos rfl] at hC
    obtain ⟨g₁, within, below, hinner, hin⟩ := ihin l known
      (Nat.le_trans hm hgrows.values_le) hC rfl
    obtain ⟨g₂, hclose, h⟩ := closeBranch_ok l (named known i) types
      (hin.others hne (block_newBlock_old [] l hB)) hopen hin.home rfl hne
    have hB₂ := h.block b
    rw [if_pos rfl] at hB₂
    have hbranch := BuildM.branch_ok hinner hclose h.made
    obtain ⟨g', top, ops, hrest, hwritten⟩ := ihrest l (known ++ g₁.nextValues types.length)
      (Nat.le_trans hm (hgrows.trans (hin.grows.trans h.grows)).values_le) hB₂ hopen
    exact ⟨g', _, _, BuildM.bind_eq_ok.2 ⟨_, _, hbranch, hrest⟩, .branch hm hB hin h hwritten⟩

end Peephole
