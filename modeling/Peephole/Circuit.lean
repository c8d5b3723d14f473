import Peephole.Graph.Function
import Peephole.Graph.Printer
import Peephole.Pass

/-!
# Demo circuits

Two families of circuits to try the pass on.  A rotation series turns one qubit by
a list of angles and measures it.  The axes may change from one rotation to the next,
and the last rotation may be put under a branch.  The Hadamard series has Hadamard
gates around an X gate.
-/

namespace Peephole

/-- A function with the graph it is in. -/
structure Circuit where
  /-- The graph. -/
  graph : Graph
  /-- The function. -/
  func : OpId

namespace Circuit

/-- Builds a circuit without arguments. -/
def build (body : BuildM Unit) : Except Fault Circuit := do
  let (func, graph) ← Graph.empty.newFunc "main" [] fun _ => body
  return ⟨graph, func⟩

/-- The circuit as text. -/
def print (c : Circuit) : Except Fault String := c.graph.opText c.func

/-- Runs a pass on the circuit. -/
def optimize (c : Circuit) (p : Pass) :
    Except Fault (Except Pass.Failure Pass.Summary × Circuit) := do
  let (result, graph) ← p.run c.graph c.func
  return (result, { c with graph })

end Circuit

/-- The axis that many steps on in the cycle x, y, z. -/
def Axis.advance : Nat → Axis → Axis
  | 0, axis => axis
  | n + 1, axis => (axis.advance n).next

/-- Rotations of one qubit, one after the other, and a measurement. -/
structure RotationSeries where
  /-- The axis of the first rotation. -/
  axis : Axis
  /-- The angles, in circuit order. -/
  angles : List Binary64
  /-- Whether every rotation takes the next axis. -/
  cycleAxes : Bool := false
  /-- Whether the last rotation is under a branch on the measurement of a second
  qubit. -/
  lastBranched : Bool := false
deriving DecidableEq

namespace RotationSeries

open BuildM

/-- The axis of the rotation at a position. -/
def axisOf (c : RotationSeries) (i : Nat) : Axis :=
  if c.cycleAxes then c.axis.advance i else c.axis

/-- Rotations by the given angles, the first of them at position `i`. -/
def rotations (c : RotationSeries) : (i : Nat) → List ValueId → ValueId → BuildM ValueId
  | _, [], q => return q
  | i, angle :: rest, q => do
      let q ← rotate (c.axisOf i) angle q
      c.rotations (i + 1) rest q

/-- A rotation under a branch on the measurement of a second qubit. -/
def branchedRotation (axis : Axis) (angle q : ValueId) : BuildM ValueId := do
  let flag ← alloc
  let condition ← measure flag
  let (_, results) ← branch condition [.qubit] do
    let q ← rotate axis angle q
    let _ ← yield [q]
  entry results[0]?

/-- The steps of the circuit. -/
def body (c : RotationSeries) : BuildM Unit := do
  let q ← alloc
  let angles ← c.angles.mapM const
  let split := if c.lastBranched then angles.length - 1 else angles.length
  let q ← c.rotations 0 (angles.take split) q
  let q ←
    match angles[split]? with
    | none => pure q
    | some angle => branchedRotation (c.axisOf split) angle q
  let m ← measure q
  let _ ← ret [m]

/-- The circuit of a series. -/
def build (c : RotationSeries) : Except Fault Circuit := Circuit.build c.body

end RotationSeries

/-- Three Hadamard gates, an X gate and a Hadamard gate on one qubit. -/
def hadamardSeries : Except Fault Circuit := Circuit.build do
  let q ← BuildM.alloc
  let q ← BuildM.gate .hadamard q
  let q ← BuildM.gate .hadamard q
  let q ← BuildM.gate .hadamard q
  let q ← BuildM.gate .pauliX q
  let q ← BuildM.gate .hadamard q
  let m ← BuildM.measure q
  let _ ← BuildM.ret [m]

end Peephole
