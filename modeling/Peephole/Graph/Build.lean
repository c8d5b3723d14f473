import Peephole.Graph.Basic

/-!
# Building graphs

Operations, blocks and regions are made from the inside out.  A region is given its
blocks when it is made, and an operation its regions.  Each part has at most one
owner, and a second one is a fault.  A new operation is in no block until it is put
at the end of one.

A `Draft` is an operation that has not been made yet.
-/

namespace Peephole

/-- What a new operation is to be. -/
structure Draft where
  /-- What it does. -/
  kind : Kind
  /-- Where it comes from. -/
  location : Location
  /-- The values it reads. -/
  operands : List ValueId := []
  /-- The types of its results. -/
  resultTypes : List Ty := []
  /-- Its fixed data. -/
  attributes : Attributes := .empty
  /-- The regions it will own. -/
  regions : List RegionId := []
  /-- The block it is in.  A draft that names one is refused. -/
  block : Option BlockId := none
deriving DecidableEq, Inhabited

namespace Graph

/-- The source location of things that have none. -/
def nowhere (g : Graph) : Location × Graph :=
  let (path, g) := g.intern "<unknown>"
  (⟨path, 0, 0⟩, g)

/-- Makes values of the given types, numbered from zero by `origin`. -/
def makeValues (g : Graph) (origin : Nat → Origin) (types : List Ty) : List ValueId × Graph :=
  let ids := (List.range types.length).map fun i => ⟨g.values.size + i⟩
  let values := types.mapIdx fun i type => ⟨origin i, type⟩
  (ids, { g with values := g.values ++ values.toArray })

/-- Makes an operation the owner of a region that has none. -/
def claimRegion (op : OpId) (g : Graph) (r : RegionId) : Except Fault Graph := do
  match (← g.region r).owner with
  | some owner => throw (.regionOwned r owner op)
  | none => return g.modifyRegion r fun data => { data with owner := some op }

/-- Enters the operands of an operation in the use lists, from position `i` on. -/
def addUses (op : OpId) : (i : Nat) → List ValueId → Graph → Graph
  | _, [], g => g
  | i, v :: rest, g => addUses op (i + 1) rest (g.modifyUses v fun uses => uses ++ [⟨op, i⟩])

/-- Makes an operation.  It is in no block yet. -/
def newOp (g : Graph) (d : Draft) : Except Fault (OpId × Graph) := do
  if d.block.isSome then throw .presetBlock
  let op : OpId := ⟨g.ops.size⟩
  let g ← d.regions.foldlM (claimRegion op) g
  let g := g.addUses op 0 d.operands
  let (results, g) := g.makeValues (.result op) d.resultTypes
  let data : Op :=
    { kind := d.kind, operands := d.operands, results, resultTypes := d.resultTypes,
      attributes := d.attributes, regions := d.regions, block := none,
      location := d.location, erased := false }
  return (op, { g with ops := g.ops.push data })

/-- Makes a block with arguments of the given types.  It may list operations and name
a region from the start, and both are taken as they are. -/
def newBlock (g : Graph) (argTypes : List Ty) (location : Location) (ops : List OpId := [])
    (region : Option RegionId := none) : BlockId × Graph :=
  let block : BlockId := ⟨g.blocks.size⟩
  let (args, g) := g.makeValues (.argument block) argTypes
  (block, { g with blocks := g.blocks.push { args, argTypes, ops, region, location } })

/-- Makes a region the owner of a block that has none. -/
def claimBlock (region : RegionId) (g : Graph) (b : BlockId) : Except Fault Graph := do
  match (← g.block b).region with
  | some owner => throw (.blockOwned b owner region)
  | none => return g.modifyBlock b fun data => { data with region := some region }

/-- Makes a region of blocks that are in none.  It may name an owner from the start,
which is taken as it is. -/
def newRegion (g : Graph) (blocks : List BlockId) (owner : Option OpId := none) :
    Except Fault (RegionId × Graph) := do
  let region : RegionId := ⟨g.regions.size⟩
  let g ← blocks.foldlM (claimBlock region) g
  return (region, { g with regions := g.regions.push { blocks, owner } })

/-- Puts an operation at the end of a block. -/
def placeLast (g : Graph) (b : BlockId) (o : OpId) : Except Fault Graph := do
  if let some old := (← g.op o).block then throw (.appendPlaced o old)
  let _ ← g.block b
  return (g.modifyOp o fun data => { data with block := some b }).modifyBlock b fun data =>
    { data with ops := data.ops ++ [o] }

/-- Makes an operation at the end of a block. -/
def appendOp (g : Graph) (b : BlockId) (d : Draft) : Except Fault (OpId × Graph) := do
  let (op, g) ← g.newOp d
  return (op, ← g.placeLast b op)

end Graph

end Peephole
