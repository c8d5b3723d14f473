import Peephole.Pass
import Peephole.Script.Edit

/-!
# Answers of scripts

Every step of a script has an answer.  A step that was given an expression for
something absent is answered as unresolved, and a fault is the last answer of a script.
-/

namespace Peephole.Script

/-- The parts of a function. -/
structure FuncInfo where
  /-- The function. -/
  op : OpId
  /-- Its name. -/
  name : String
  /-- Its body. -/
  body : RegionId
  /-- Its first block. -/
  entry : BlockId
  /-- Its arguments. -/
  args : List ValueId
deriving DecidableEq, Repr

/-- The parts of an operation by its kind. -/
inductive View where
  | func (name : String)
  | ret
  | branch (condition : ValueId) (body : RegionId)
  | yield
  | alloc
  | rotate (axis : Axis) (angle qubit result : ValueId)
  | hadamard (input : ValueId)
  | pauliX (input : ValueId)
  | pauliZ (input : ValueId)
  | measure
  | const (x : Binary64) (result : ValueId)
  | add (left right result : ValueId)
deriving DecidableEq

/-- What a question about one thing is answered with. -/
inductive Fact where
  | bool (b : Bool)
  | count (n : Nat)
  | position (n : Option Nat)
  | kind (k : Kind)
  | type (t : Ty)
  | types (ts : List Ty)
  | value (v : ValueId)
  | values (vs : List ValueId)
  | op (o : Option OpId)
  | ops (os : List OpId)
  | region (r : Option RegionId)
  | blocks (bs : List BlockId)
  | attribute (a : Option Attribute)
  | origin (o : Origin)
  | uses (us : List Use)

/-- The answer to a step. -/
inductive Answer where
  /-- The parts of a function, or nothing for another operation. -/
  | funcInfo (info : Option FuncInfo)
  /-- The operations of a block. -/
  | ops (os : List OpId)
  /-- A new block and its arguments. -/
  | block (b : BlockId) (args : List ValueId)
  /-- A new region. -/
  | region (r : RegionId)
  /-- A new operation and its results. -/
  | op (o : OpId) (results : List ValueId)
  /-- An interned path. -/
  | path (p : PathId) (path : String)
  /-- A text. -/
  | text (s : String)
  /-- What validation found. -/
  | report (r : Report)
  /-- It is so. -/
  | ok
  /-- A number, or nothing. -/
  | number (x : Option Binary64)
  /-- The parts of an operation, or nothing for an erased one. -/
  | view (v : Option View)
  /-- The operations a walk saw, and the one it was stopped at. -/
  | walked (seen : List OpId) (stoppedAt : Option OpId)
  /-- A fact. -/
  | fact (f : Fact)
  /-- The whole graph. -/
  | dump (g : Graph)
  /-- The results of edits, whether there was a change, and the events. -/
  | edited (results : List EditResult) (mutated : Bool) (events : List Event)
  /-- What a rule answered, whether there was a change, and the events. -/
  | applied (answer : Except EditError Match) (mutated : Bool) (events : List Event)
  /-- What greedy simplification came to, and the rules called. -/
  | ran (outcome : Except EditError Outcome) (calls : Array Call)
  /-- What the pass came to. -/
  | passed (result : Except Pass.Failure Pass.Summary)
  /-- An expression of the step is unresolved. -/
  | unresolved
  /-- A fault came up. -/
  | fault (f : Fault)

end Peephole.Script
