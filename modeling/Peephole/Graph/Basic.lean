import Peephole.Attribute
import Peephole.Graph.Fault
import Peephole.Graph.Path
import Peephole.SideTable

/-!
# The graph

A circuit is a graph of operations.  An operation reads values, its operands, and
makes values, its results.  It may own regions, a region is a list of blocks, and a
block is a list of operations, so operations nest.  A block also makes values, its
arguments.

The graph keeps all of them in tables.  Links upwards (the block of an operation,
the region of a block, the owner of a region) stand beside the lists downwards, and
for every value there is the list of its *uses*, the operand slots that hold it.
Erasing an operation leaves its entry in the table, marked as erased.

This module holds the tables and the questions one can ask of them.  A question
about a name that was never given out, or about an erased operation, is a fault.
-/

namespace Peephole

/-- An operation. -/
structure Op where
  /-- What it does. -/
  kind : Kind
  /-- The values it reads. -/
  operands : List ValueId
  /-- The values it makes. -/
  results : List ValueId
  /-- Their types. -/
  resultTypes : List Ty
  /-- Its fixed data. -/
  attributes : Attributes
  /-- The regions it owns. -/
  regions : List RegionId
  /-- The block it is in. -/
  block : Option BlockId
  /-- Where it comes from. -/
  location : Location
  /-- Whether it has been erased. -/
  erased : Bool
deriving DecidableEq, Inhabited

/-- Where a value is made. -/
inductive Origin where
  /-- By an operation, at a position among its results. -/
  | result (op : OpId) (index : Nat)
  /-- By a block, at a position among its arguments. -/
  | argument (block : BlockId) (index : Nat)
deriving DecidableEq, Repr, Inhabited

namespace Origin

/-- The operation that makes the value, if one does. -/
def op? : Origin → Option OpId
  | result op _ => some op
  | argument _ _ => none

/-- An origin as written. -/
def text : Origin → String
  | result op i => s!"{op.text}#{i}"
  | argument block i => s!"{block.text}#{i}"

end Origin

/-- A value. -/
structure Value where
  /-- Where it is made. -/
  origin : Origin
  /-- Its type. -/
  type : Ty
deriving DecidableEq, Repr, Inhabited

/-- A block. -/
structure Block where
  /-- Its arguments. -/
  args : List ValueId
  /-- Their types. -/
  argTypes : List Ty
  /-- Its operations, in order. -/
  ops : List OpId
  /-- The region it is in. -/
  region : Option RegionId
  /-- Where it comes from. -/
  location : Location
deriving DecidableEq, Repr, Inhabited

/-- A region. -/
structure Region where
  /-- Its blocks, in order. -/
  blocks : List BlockId
  /-- The operation that owns it. -/
  owner : Option OpId
deriving DecidableEq, Repr, Inhabited

/-- An operand slot. -/
structure Use where
  /-- The operation that reads. -/
  user : OpId
  /-- The position among its operands. -/
  index : Nat
deriving DecidableEq, Repr, Inhabited

/-- A use as written. -/
def Use.text (u : Use) : String := s!"{u.user.text}#{u.index}"

/-- A graph of operations. -/
structure Graph where
  /-- The operations ever made, erased ones too. -/
  ops : Array Op
  /-- The values ever made. -/
  values : Array Value
  /-- The blocks ever made. -/
  blocks : Array Block
  /-- The regions ever made. -/
  regions : Array Region
  /-- For every value the slots that hold it, in the order they came to hold it. -/
  useLists : SideTable (List Use)
  /-- The source paths met so far. -/
  paths : Paths
deriving DecidableEq

namespace Graph

/-- The graph with nothing in it. -/
def empty : Graph := ⟨#[], #[], #[], #[], .empty, .empty⟩

instance : Inhabited Graph := ⟨empty⟩

/-! ## Entries -/

/-- The entry of an operation, erased or not. -/
def slot (g : Graph) (o : OpId) : Except Fault Op := entry g.ops[o.index]?

/-- An operation that has not been erased. -/
def op (g : Graph) (o : OpId) : Except Fault Op := do
  let data ← g.slot o
  if data.erased then throw (.erased o) else pure data

/-- A value. -/
def value (g : Graph) (v : ValueId) : Except Fault Value := entry g.values[v.index]?

/-- A block. -/
def block (g : Graph) (b : BlockId) : Except Fault Block := entry g.blocks[b.index]?

/-- A region. -/
def region (g : Graph) (r : RegionId) : Except Fault Region := entry g.regions[r.index]?

/-- The slots that hold a value.  A value that does not exist has none written. -/
def uses (g : Graph) (v : ValueId) : List Use := g.useLists.get v.index

/-! ## Operations -/

/-- Whether an operation has not been erased. -/
def isLive (g : Graph) (o : OpId) : Except Fault Bool := do
  return !(← g.slot o).erased

/-- The kind of an operation. -/
def kind (g : Graph) (o : OpId) : Except Fault Kind := return (← g.op o).kind

/-- The operands of an operation. -/
def operands (g : Graph) (o : OpId) : Except Fault (List ValueId) := return (← g.op o).operands

/-- One operand of an operation. -/
def operand (g : Graph) (o : OpId) (i : Nat) : Except Fault ValueId := do
  entry (← g.operands o)[i]?

/-- The results of an operation. -/
def results (g : Graph) (o : OpId) : Except Fault (List ValueId) := return (← g.op o).results

/-- One result of an operation. -/
def result (g : Graph) (o : OpId) (i : Nat) : Except Fault ValueId := do
  entry (← g.results o)[i]?

/-- The attribute of an operation under a key. -/
def attribute? (g : Graph) (o : OpId) (key : String) : Except Fault (Option Attribute) :=
  return (← g.op o).attributes.get? key

/-- Whether an operation is live and of the given kind. -/
def isKind (g : Graph) (o : OpId) (k : Kind) : Except Fault Bool := do
  let data ← g.slot o
  return !data.erased && data.kind = k

/-! ## Values -/

/-- Where a value is made. -/
def origin (g : Graph) (v : ValueId) : Except Fault Origin := return (← g.value v).origin

/-- The operation that makes a value, or none for a block argument. -/
def definer? (g : Graph) (v : ValueId) : Except Fault (Option OpId) := return (← g.origin v).op?

/-- The operation that makes a value, if it is live and of the given kind. -/
def definerOfKind? (g : Graph) (v : ValueId) (k : Kind) : Except Fault (Option OpId) := do
  match ← g.definer? v with
  | none => return none
  | some o => return if ← g.isKind o k then some o else none

/-- The number of slots that hold a value. -/
def useCount (g : Graph) (v : ValueId) : Nat := (g.uses v).length

/-- The operations that read a value, each once, in the order of its uses. -/
def readers (g : Graph) (v : ValueId) : List OpId := ((g.uses v).map Use.user).eraseDups

/-- The number of slots that hold a result of an operation. -/
def totalUses (g : Graph) (o : OpId) : Except Fault Nat := do
  return ((← g.results o).flatMap g.uses).length

/-- The operations that read a result of an operation, each once. -/
def users (g : Graph) (o : OpId) : Except Fault (List OpId) := do
  return ((← g.results o).flatMap fun v => (g.uses v).map Use.user).eraseDups

/-! ## Placement -/

/-- The arguments of a block.  A block that does not exist has none. -/
def blockArgs (g : Graph) (b : BlockId) : List ValueId :=
  match g.blocks[b.index]? with
  | some data => data.args
  | none => []

/-- One argument of a block. -/
def blockArg (g : Graph) (b : BlockId) (i : Nat) : Except Fault ValueId :=
  entry (g.blockArgs b)[i]?

/-- The region an operation is in. -/
def regionOf? (g : Graph) (o : OpId) : Except Fault (Option RegionId) := do
  match (← g.op o).block with
  | none => return none
  | some b => return (← g.block b).region

/-- The operation that owns the region an operation is in. -/
def ownerOf? (g : Graph) (o : OpId) : Except Fault (Option OpId) := do
  match ← g.regionOf? o with
  | none => return none
  | some r => return (← g.region r).owner

/-- The position of an operation in its block. -/
def position? (g : Graph) (o : OpId) : Except Fault (Option Nat) := do
  match (← g.op o).block with
  | none => return none
  | some b => return (← g.block b).ops.idxOf? o

/-! ## Writing entries -/

/-- Changes the entry of an operation. -/
def modifyOp (g : Graph) (o : OpId) (f : Op → Op) : Graph :=
  { g with ops := g.ops.modify o.index f }

/-- Changes the entry of a block. -/
def modifyBlock (g : Graph) (b : BlockId) (f : Block → Block) : Graph :=
  { g with blocks := g.blocks.modify b.index f }

/-- Changes the entry of a region. -/
def modifyRegion (g : Graph) (r : RegionId) (f : Region → Region) : Graph :=
  { g with regions := g.regions.modify r.index f }

/-- Changes the use list of a value. -/
def modifyUses (g : Graph) (v : ValueId) (f : List Use → List Use) : Graph :=
  { g with useLists := g.useLists.modify v.index f }

/-- Interns a source path. -/
def intern (g : Graph) (path : String) : PathId × Graph :=
  let (p, paths) := g.paths.intern path
  (p, { g with paths })

/-- Interns source paths one after the other. -/
def internAll (g : Graph) (paths : List String) : Graph :=
  { g with paths := (g.paths.internAll paths).2 }

end Graph

end Peephole
