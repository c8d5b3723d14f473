import Peephole.Graph.Build
import Peephole.Graph.Walk

/-!
# Editing graphs

The four changes to a graph that is already built: writing an operand slot,
inserting an operation before another, moving all uses of a value to another value,
and erasing an operation with what is nested in it.  Each keeps the use lists in
step with the operand slots.  They report to nobody, so whoever has an
observer edits through a session instead.
-/

namespace Peephole.Graph

/-- Writes an operand slot.  The use leaves the list of the old value and joins the
end of that of the new one, unless they are the same value. -/
def writeSlot (g : Graph) (o : OpId) (i : Nat) (new : ValueId) : Except Fault Graph := do
  let data ← g.slot o
  match data.operands[i]? with
  | none => throw (.operandOutOfRange i o data.operands.length)
  | some old =>
      if old = new then return g
      let g := g.modifyOp o fun data => { data with operands := data.operands.set i new }
      let g := g.modifyUses old fun uses => uses.filter (· ≠ ⟨o, i⟩)
      return g.modifyUses new fun uses => uses ++ [⟨o, i⟩]

/-- Puts an operation that is in no block right before another one. -/
def placeBefore (g : Graph) (anchor o : OpId) : Except Fault Graph := do
  if let some old := (← g.op o).block then throw (.insertPlaced o old)
  match (← g.op anchor).block with
  | none => throw (.anchorDetached anchor)
  | some b =>
      match (← g.block b).ops.idxOf? anchor with
      | none => throw (.anchorMissing anchor b)
      | some i =>
          let g := g.modifyBlock b fun data => { data with ops := data.ops.insertIdx i o }
          return g.modifyOp o fun data => { data with block := some b }

/-- Moves one use of `old` to `new`. -/
def redirect (old new : ValueId) (g : Graph) (u : Use) : Except Fault Graph := do
  let held ← entry (← g.slot u.user).operands[u.index]?
  if held ≠ old then throw (.useMismatch held old)
  let g := g.modifyOp u.user fun data => { data with operands := data.operands.set u.index new }
  return g.modifyUses new fun uses => uses ++ [u]

/-- Makes every slot that holds `old` hold `new`. -/
def redirectUses (g : Graph) (old new : ValueId) : Except Fault Graph := do
  if old = new then return g
  (g.uses old).foldlM (redirect old new) (g.modifyUses old fun _ => [])

/-- Takes the operands of an operation out of the use lists, from position `i` on. -/
def removeUses (op : OpId) : (i : Nat) → List ValueId → Graph → Graph
  | _, [], g => g
  | i, v :: rest, g =>
      removeUses op (i + 1) rest (g.modifyUses v fun uses => uses.filter (· ≠ ⟨op, i⟩))

/-! ## Erasure -/

/-- Takes the link to its block off an operation. -/
def detach (g : Graph) (o : OpId) : Graph := g.modifyOp o fun data => { data with block := none }

/-- Marks an operation as erased and reading nothing. -/
def bury (g : Graph) (o : OpId) : Graph :=
  match g.ops[o.index]? with
  | none => g
  | some data =>
      (g.removeUses o 0 data.operands).modifyOp o fun data => { data with erased := true }

/-- Takes the operations out of a block and erases each of them as given, the last one
first. -/
def eraseBlockBy (erase : Graph → OpId → Except Fault Graph) (g : Graph) (b : BlockId) :
    Except Fault Graph := do
  let nested := (← g.block b).ops
  let g := g.modifyBlock b fun data => { data with ops := [] }
  nested.reverse.foldlM (fun g o => erase (g.detach o) o) g

/-- Erases what is in the blocks of a region. -/
def eraseRegionBy (erase : Graph → OpId → Except Fault Graph) (g : Graph) (r : RegionId) :
    Except Fault Graph := do
  (← g.region r).blocks.foldlM (eraseBlockBy erase) g

/-- Erases an operation that is in no block: first what is nested in it, to the given
depth, then the operation itself. -/
def eraseDetachedTo : Nat → Graph → OpId → Except Fault Graph
  | 0, _, _ => throw .endless
  | depth + 1, g, o => do
      let g ← (← g.slot o).regions.foldlM (eraseRegionBy (eraseDetachedTo depth)) g
      return g.bury o

/-- Takes an operation out of its block. -/
def unlist (g : Graph) (o : OpId) : Option BlockId → Graph
  | none => g
  | some b =>
      (g.detach o).modifyBlock b fun data => { data with ops := data.ops.filter (· ≠ o) }

/-- Erases an operation whose results nobody reads, with what is nested in it.  The
block it was in loses it, and the blocks nested in it are left empty.  On the way down
every block is emptied before its operations are erased, so no chain of nested operations
is longer than the number of blocks. -/
def erase (g : Graph) (o : OpId) : Except Fault Graph := do
  for v in ← g.results o do
    if g.useCount v ≠ 0 then throw (.resultUsed v o (g.useCount v))
  let g := g.unlist o (← g.op o).block
  eraseDetachedTo (g.blocks.size + 1) g o

end Peephole.Graph
