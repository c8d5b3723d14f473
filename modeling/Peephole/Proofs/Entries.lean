import Peephole.Session.Computation

/-!
# Entries of the tables

What the tables of a graph hold after one entry was written or added.  An entry is
always spoken of through the question that reads it: `g.op o = .ok d` says that `o` is
live and `d` is what is known of it, `g.slot o = .ok d` says the same of an operation
that may have been erased, and `g.block`, `g.region` and `g.value` are used likewise.

`Graph.held?` is the value in an operand slot of a live operation.
-/

namespace Peephole

theorem OpId.index_inj {o p : OpId} : o.index = p.index ↔ o = p := by
  cases o
  cases p
  simp

theorem ValueId.index_inj {v w : ValueId} : v.index = w.index ↔ v = w := by
  cases v
  cases w
  simp

theorem BlockId.index_inj {b c : BlockId} : b.index = c.index ↔ b = c := by
  cases b
  cases c
  simp

theorem RegionId.index_inj {r q : RegionId} : r.index = q.index ↔ r = q := by
  cases r
  cases q
  simp

namespace Graph

variable {g : Graph}

/-! ## Reading entries -/

theorem slot_eq_ok {o : OpId} {d : Op} : g.slot o = .ok d ↔ g.ops[o.index]? = some d := entry_eq_ok

theorem value_eq_ok {v : ValueId} {d : Value} :
    g.value v = .ok d ↔ g.values[v.index]? = some d := entry_eq_ok

theorem block_eq_ok {b : BlockId} {d : Block} :
    g.block b = .ok d ↔ g.blocks[b.index]? = some d := entry_eq_ok

theorem region_eq_ok {r : RegionId} {d : Region} :
    g.region r = .ok d ↔ g.regions[r.index]? = some d := entry_eq_ok

/-- An operation is live if it has an entry that is not marked as erased. -/
theorem op_eq_ok {o : OpId} {d : Op} : g.op o = .ok d ↔ g.slot o = .ok d ∧ d.erased = false := by
  rw [op, bind_eq_ok]
  constructor
  · rintro ⟨d', hs, h⟩
    split at h
    · cases h
    · rename_i he
      cases h
      exact ⟨hs, by simpa using he⟩
  · rintro ⟨hs, he⟩
    exact ⟨d, hs, by rw [if_neg (by simp [he])]; rfl⟩

theorem slot_of_op {o : OpId} {d : Op} (h : g.op o = .ok d) : g.slot o = .ok d := (op_eq_ok.1 h).1

theorem isLive_eq_ok {o : OpId} {live : Bool} :
    g.isLive o = .ok live ↔ ∃ d, g.slot o = .ok d ∧ live = !d.erased := by
  rw [isLive, bind_eq_ok]
  constructor
  · rintro ⟨d, hs, h⟩
    cases h
    exact ⟨d, hs, rfl⟩
  · rintro ⟨d, hs, rfl⟩
    exact ⟨d, hs, rfl⟩

theorem isLive_eq_true {o : OpId} : g.isLive o = .ok true ↔ ∃ d, g.op o = .ok d := by
  simp only [isLive_eq_ok, op_eq_ok]
  grind

theorem isLive_of_op {o : OpId} {d : Op} (h : g.op o = .ok d) : g.isLive o = .ok true :=
  isLive_eq_true.2 ⟨d, h⟩

theorem index_lt_of_slot {o : OpId} {d : Op} (h : g.slot o = .ok d) : o.index < g.ops.size := by
  rw [slot_eq_ok] at h
  exact (Array.getElem?_eq_some_iff.1 h).1

theorem index_lt_of_value {v : ValueId} {d : Value} (h : g.value v = .ok d) :
    v.index < g.values.size := by
  rw [value_eq_ok] at h
  exact (Array.getElem?_eq_some_iff.1 h).1

theorem value_of_index_lt {v : ValueId} (h : v.index < g.values.size) : ∃ d, g.value v = .ok d :=
  ⟨g.values[v.index], value_eq_ok.2 (Array.getElem?_eq_getElem h)⟩

theorem index_lt_of_block {b : BlockId} {d : Block} (h : g.block b = .ok d) :
    b.index < g.blocks.size := by
  rw [block_eq_ok] at h
  exact (Array.getElem?_eq_some_iff.1 h).1

theorem index_lt_of_region {r : RegionId} {d : Region} (h : g.region r = .ok d) :
    r.index < g.regions.size := by
  rw [region_eq_ok] at h
  exact (Array.getElem?_eq_some_iff.1 h).1

/-! ## Operand slots -/

/-- The value in an operand slot of a live operation. -/
def held? (g : Graph) (u : Use) : Option ValueId :=
  match g.op u.user with
  | .ok d => d.operands[u.index]?
  | .error _ => none

theorem held?_eq_some {u : Use} {v : ValueId} :
    g.held? u = some v ↔ ∃ d, g.op u.user = .ok d ∧ d.operands[u.index]? = some v := by
  unfold held?
  split
  · rename_i d hd
    simp [hd]
  · rename_i f hf
    simp [hf]

theorem held?_of_op {u : Use} {d : Op} (h : g.op u.user = .ok d) :
    g.held? u = d.operands[u.index]? := by
  simp [held?, h]

theorem operand_eq_ok {o : OpId} {i : Nat} {v : ValueId} :
    g.operand o i = .ok v ↔ g.held? ⟨o, i⟩ = some v := by
  simp only [operand, operands, bind_eq_ok, pure_eq_ok, Except.ok.injEq, entry_eq_ok, held?_eq_some]
  constructor
  · rintro ⟨_, ⟨d, hd, rfl⟩, hi⟩
    exact ⟨d, hd, hi⟩
  · rintro ⟨d, hd, hi⟩
    exact ⟨_, ⟨d, hd, rfl⟩, hi⟩

/-- What slots hold depends on the entries of operations only. -/
theorem held?_congr {g' : Graph} {u : Use} (h : g'.slot u.user = g.slot u.user) :
    g'.held? u = g.held? u := by
  simp only [held?, op, h]

/-! ## Written entries -/

section Write

variable (g)

@[simp]
theorem slot_modifyOp (o p : OpId) (f : Op → Op) :
    (g.modifyOp o f).slot p = if o = p then (g.slot p).map f else g.slot p := by
  simp only [slot, modifyOp, Array.getElem?_modify, OpId.index_inj]
  split
  · cases g.ops[p.index]? with
    | none => rfl
    | some d => rfl
  · rfl

@[simp]
theorem block_modifyBlock (b c : BlockId) (f : Block → Block) :
    (g.modifyBlock b f).block c = if b = c then (g.block c).map f else g.block c := by
  simp only [block, modifyBlock, Array.getElem?_modify, BlockId.index_inj]
  split
  · cases g.blocks[c.index]? with
    | none => rfl
    | some d => rfl
  · rfl

@[simp]
theorem region_modifyRegion (r q : RegionId) (f : Region → Region) :
    (g.modifyRegion r f).region q = if r = q then (g.region q).map f else g.region q := by
  simp only [region, modifyRegion, Array.getElem?_modify, RegionId.index_inj]
  split
  · cases g.regions[q.index]? with
    | none => rfl
    | some d => rfl
  · rfl

@[simp]
theorem uses_modifyUses (v w : ValueId) (f : List Use → List Use) :
    (g.modifyUses v f).uses w = if v = w then f (g.uses w) else g.uses w := by
  simp only [uses, modifyUses, SideTable.get_modify, ValueId.index_inj]

@[simp]
theorem value_modifyOp (o : OpId) (f : Op → Op) (v : ValueId) :
    (g.modifyOp o f).value v = g.value v := rfl

@[simp]
theorem block_modifyOp (o : OpId) (f : Op → Op) (b : BlockId) :
    (g.modifyOp o f).block b = g.block b := rfl

@[simp]
theorem region_modifyOp (o : OpId) (f : Op → Op) (r : RegionId) :
    (g.modifyOp o f).region r = g.region r := rfl

@[simp]
theorem uses_modifyOp (o : OpId) (f : Op → Op) (v : ValueId) :
    (g.modifyOp o f).uses v = g.uses v := rfl

@[simp]
theorem slot_modifyBlock (b : BlockId) (f : Block → Block) (o : OpId) :
    (g.modifyBlock b f).slot o = g.slot o := rfl

@[simp]
theorem value_modifyBlock (b : BlockId) (f : Block → Block) (v : ValueId) :
    (g.modifyBlock b f).value v = g.value v := rfl

@[simp]
theorem region_modifyBlock (b : BlockId) (f : Block → Block) (r : RegionId) :
    (g.modifyBlock b f).region r = g.region r := rfl

@[simp]
theorem uses_modifyBlock (b : BlockId) (f : Block → Block) (v : ValueId) :
    (g.modifyBlock b f).uses v = g.uses v := rfl

@[simp]
theorem slot_modifyRegion (r : RegionId) (f : Region → Region) (o : OpId) :
    (g.modifyRegion r f).slot o = g.slot o := rfl

@[simp]
theorem value_modifyRegion (r : RegionId) (f : Region → Region) (v : ValueId) :
    (g.modifyRegion r f).value v = g.value v := rfl

@[simp]
theorem block_modifyRegion (r : RegionId) (f : Region → Region) (b : BlockId) :
    (g.modifyRegion r f).block b = g.block b := rfl

@[simp]
theorem uses_modifyRegion (r : RegionId) (f : Region → Region) (v : ValueId) :
    (g.modifyRegion r f).uses v = g.uses v := rfl

@[simp]
theorem slot_modifyUses (v : ValueId) (f : List Use → List Use) (o : OpId) :
    (g.modifyUses v f).slot o = g.slot o := rfl

@[simp]
theorem value_modifyUses (v : ValueId) (f : List Use → List Use) (w : ValueId) :
    (g.modifyUses v f).value w = g.value w := rfl

@[simp]
theorem block_modifyUses (v : ValueId) (f : List Use → List Use) (b : BlockId) :
    (g.modifyUses v f).block b = g.block b := rfl

@[simp]
theorem region_modifyUses (v : ValueId) (f : List Use → List Use) (r : RegionId) :
    (g.modifyUses v f).region r = g.region r := rfl

end Write

end Graph

end Peephole
