import Peephole.Graph.Parts

/-!
# Building functions

A block is built by adding operations at its end, all at the current source
location.  `BuildM` is the monad for that.  A branch is built around the steps of
its body: first its block, then the body, then its region and the branch itself.
A function is built the same way, and is in no block at the end.

The halves before and after a body are functions of their own (`openBlock`,
`closeBranch`, `closeFunc`), for bodies that are run by other means.
-/

namespace Peephole

namespace Graph

/-- Makes the block of a new body: the block and its arguments. -/
def openBlock (g : Graph) (args : List Ty) (l : Location) : BlockId × List ValueId × Graph :=
  let (block, g) := g.newBlock args l
  (block, g.blockArgs block, g)

/-- Makes a branch at the end of `outer` around a block that has been built. -/
def closeBranch (g : Graph) (outer : BlockId) (l : Location) (condition : ValueId)
    (types : List Ty) (inner : BlockId) : Except Fault (OpId × Graph) := do
  let (region, g) ← g.newRegion [inner]
  g.appendOp outer (.branch l condition types region)

/-- Makes a function around a block that has been built. -/
def closeFunc (g : Graph) (l : Location) (name : String) (entry : BlockId) :
    Except Fault (OpId × Graph) := do
  let (region, g) ← g.newRegion [entry]
  g.newOp (.func l name region)

end Graph

/-- A block being built. -/
structure BuildState where
  /-- The graph so far. -/
  graph : Graph
  /-- The block. -/
  block : BlockId
  /-- The source location of what is added. -/
  location : Location

/-- Steps that build a block. -/
abbrev BuildM := StateT BuildState (Except Fault)

namespace BuildM

/-- Adds an operation. -/
def op (draft : Location → Except Fault Draft) : BuildM OpId := do
  let b ← get
  let (o, graph) ← b.graph.appendOp b.block (← draft b.location)
  set { b with graph }
  return o

/-- Adds an operation and gives its first result. -/
def single (draft : Location → Except Fault Draft) : BuildM ValueId := do
  let o ← op draft
  (← get).graph.result o 0

/-- A new qubit. -/
def alloc : BuildM ValueId := single fun l => return .alloc l

/-- A number known in advance. -/
def const (x : Binary64) : BuildM ValueId := single fun l => return .const l x

/-- The sum of two numbers. -/
def add (left right : ValueId) : BuildM ValueId := single fun l => return .add l left right

/-- A rotated qubit. -/
def rotate (axis : Axis) (angle qubit : ValueId) : BuildM ValueId :=
  single fun l => return .rotate l axis angle qubit

/-- A qubit after a gate without parameters. -/
def gate (kind : Kind) (qubit : ValueId) : BuildM ValueId := single fun l => Draft.gate l kind qubit

/-- A measured qubit. -/
def measure (qubit : ValueId) : BuildM ValueId := single fun l => return .measure l qubit

/-- The end of a function. -/
def ret (values : List ValueId) : BuildM OpId := op fun l => return .ret l values

/-- The end of the region of a branch. -/
def yield (values : List ValueId) : BuildM OpId := op fun l => return .yield l values

/-- A branch around the steps of its body: the branch and its results. -/
def branch (condition : ValueId) (types : List Ty) (body : BuildM Unit) :
    BuildM (OpId × List ValueId) := do
  let b ← get
  let (inner, _, graph) := b.graph.openBlock [] b.location
  let (_, built) ← (body { graph, block := inner, location := b.location } : Except Fault _)
  let (o, graph) ← built.graph.closeBranch b.block b.location condition types inner
  set { b with graph }
  return (o, ← graph.results o)

end BuildM

/-- Builds a function.  The steps of its body are given its arguments. -/
def Graph.newFunc (g : Graph) (name : String) (args : List Ty)
    (body : List ValueId → BuildM Unit) : Except Fault (OpId × Graph) := do
  let (location, g) := g.nowhere
  let (block, values, graph) := g.openBlock args location
  let (_, built) ← body values { graph, block, location }
  built.graph.closeFunc location name block

end Peephole
