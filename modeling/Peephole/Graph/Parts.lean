import Peephole.Graph.Build

/-!
# Operations by kind

For every kind there is a draft with the operands, results, attributes and regions
that belong to it, and for some kinds there are readers of these.  A reader trusts
the kind and looks only at the part it reads, so on an operation that lacks the
part it is a fault.
-/

namespace Peephole

namespace Draft

/-- A new qubit. -/
def alloc (l : Location) : Draft := { kind := .alloc, location := l, resultTypes := [.qubit] }

/-- A number known in advance. -/
def const (l : Location) (x : Binary64) : Draft :=
  { kind := .const, location := l, resultTypes := [.number],
    attributes := Attributes.empty.insert "value" (.number x) }

/-- The sum of two numbers. -/
def add (l : Location) (left right : ValueId) : Draft :=
  { kind := .add, location := l, operands := [left, right], resultTypes := [.number] }

/-- A rotation of a qubit. -/
def rotate (l : Location) (axis : Axis) (angle qubit : ValueId) : Draft :=
  { kind := .rotate, location := l, operands := [angle, qubit], resultTypes := [.qubit],
    attributes := Attributes.empty.insert "axis" (.axis axis) }

/-- A gate on one qubit without parameters: `h`, `x` or `z`. -/
def gate (l : Location) (kind : Kind) (qubit : ValueId) : Except Fault Draft :=
  if kind ∈ [.hadamard, .pauliX, .pauliZ] then
    return { kind, location := l, operands := [qubit], resultTypes := [.qubit] }
  else throw (.notAGate kind)

/-- A measurement of a qubit. -/
def measure (l : Location) (qubit : ValueId) : Draft :=
  { kind := .measure, location := l, operands := [qubit], resultTypes := [.bit] }

/-- The end of a function. -/
def ret (l : Location) (values : List ValueId) : Draft :=
  { kind := .ret, location := l, operands := values }

/-- The end of the region of a branch. -/
def yield (l : Location) (values : List ValueId) : Draft :=
  { kind := .yield, location := l, operands := values }

/-- A region that runs if a bit is set. -/
def branch (l : Location) (condition : ValueId) (types : List Ty) (body : RegionId) : Draft :=
  { kind := .branch, location := l, operands := [condition], resultTypes := types,
    regions := [body] }

/-- A function. -/
def func (l : Location) (name : String) (body : RegionId) : Draft :=
  { kind := .func, location := l, regions := [body],
    attributes := Attributes.empty.insert "sym_name" (.text name) }

end Draft

namespace Graph

/-- The number of a constant. -/
def constNumber (g : Graph) (o : OpId) : Except Fault Binary64 := do
  match (← g.attribute? o "value").bind Attribute.number? with
  | some x => return x
  | none => throw (.missingNumber o)

/-- The axis of a rotation. -/
def rotationAxis (g : Graph) (o : OpId) : Except Fault Axis := do
  match (← g.attribute? o "axis").bind Attribute.axis? with
  | some axis => return axis
  | none => throw (.missingAxis o)

/-- The angle operand of a rotation. -/
def rotationAngle (g : Graph) (o : OpId) : Except Fault ValueId := g.operand o 0

/-- The qubit operand of a rotation. -/
def rotationQubit (g : Graph) (o : OpId) : Except Fault ValueId := g.operand o 1

/-- The qubit operand of a gate without parameters. -/
def gateQubit (g : Graph) (o : OpId) : Except Fault ValueId := g.operand o 0

/-- The name of a function. -/
def funcName (g : Graph) (o : OpId) : Except Fault String := do
  return ((← g.attribute? o "sym_name").bind Attribute.text?).getD "<unnamed>"

/-- The first region of an operation: the body of a function or a branch. -/
def body (g : Graph) (o : OpId) : Except Fault RegionId := do
  entry (← g.op o).regions[0]?

/-- The first block of a function. -/
def firstBlock (g : Graph) (o : OpId) : Except Fault BlockId := do
  entry (← g.region (← g.body o)).blocks[0]?

/-- The sum of an addition of two constants.  Other operations have none. -/
def foldedSum? (g : Graph) (o : OpId) : Except Fault (Option Binary64) := do
  if !(← g.isKind o .add) then return none
  match ← g.definerOfKind? (← g.operand o 0) .const with
  | none => return none
  | some left =>
      match ← g.definerOfKind? (← g.operand o 1) .const with
      | none => return none
      | some right => return some ((← g.constNumber left) + (← g.constNumber right))

end Graph

end Peephole
