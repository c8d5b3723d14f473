import Peephole.Graph.Id
import Peephole.Kind

/-!
# Faults

A fault is a broken promise of the caller: a name that was never given out, an
operation used after it was erased, a part given to two owners.  The work at hand
cannot go on after one.  `message` is the text that goes with it.  A name that was
never given out has no text, and neither has a walk that would not end.
-/

namespace Peephole

/-- Why a piece of work cannot go on. -/
inductive Fault where
  /-- A name or a position that does not exist. -/
  | outOfBounds
  /-- The ownership links run in a circle, so following them does not end. -/
  | endless
  /-- The operation has been erased. -/
  | erased (op : OpId)
  /-- A new operation already names a block. -/
  | presetBlock
  /-- The region of a new operation has an owner. -/
  | regionOwned (region : RegionId) (owner op : OpId)
  /-- The block of a new region has an owner. -/
  | blockOwned (block : BlockId) (owner region : RegionId)
  /-- An operation to be put at the end of a block is in a block. -/
  | appendPlaced (op : OpId) (block : BlockId)
  /-- An operation to be put before another is in a block. -/
  | insertPlaced (op : OpId) (block : BlockId)
  /-- The operation to insert before is in no block. -/
  | anchorDetached (anchor : OpId)
  /-- The operation to insert before is missing from its block. -/
  | anchorMissing (anchor : OpId) (block : BlockId)
  /-- An operand slot past the last one. -/
  | operandOutOfRange (index : Nat) (op : OpId) (count : Nat)
  /-- A use list names a slot that holds another value. -/
  | useMismatch (found expected : ValueId)
  /-- A result of an operation to be erased is still read. -/
  | resultUsed (value : ValueId) (op : OpId) (uses : Nat)
  /-- A constant without its number. -/
  | missingNumber (op : OpId)
  /-- A rotation without its axis. -/
  | missingAxis (op : OpId)
  /-- A kind that is no gate on one qubit without parameters. -/
  | notAGate (kind : Kind)
  /-- An update of an erased operation. -/
  | updateErased (op : OpId)
  /-- A second erasure of an operation. -/
  | alreadyErased (op : OpId)
  /-- The wrong number of values to replace the results of an operation. -/
  | replacementCount (op : OpId) (results values : Nat)
  /-- A validation that had to pass did not. -/
  | invalid (stage report : String)
  /-- The caller gave up in the middle of an update. -/
  | givenUp
deriving DecidableEq, Repr

namespace Fault

/-- The text of a fault, for those that have one. -/
def message : Fault → Option String
  | outOfBounds => none
  | endless => none
  | erased op => some s!"operation {op.text} has been erased"
  | presetBlock =>
      some ("create_op: operation must not have parent_block set; "
        ++ "use push_op to attach to a block after creation")
  | regionOwned region owner op =>
      some (s!"create_op: region {region.text} already belongs to operation {owner.text}; "
        ++ s!"cannot reassign to {op.text}")
  | blockOwned block owner region =>
      some (s!"create_region: block {block.text} already belongs to region {owner.text}; "
        ++ s!"cannot reassign to {region.text}")
  | appendPlaced op block =>
      some (s!"push_op: operation {op.text} already belongs to {block.text}; "
        ++ "remove it from the old block first")
  | insertPlaced op block =>
      some (s!"insert_op_before: operation {op.text} already belongs to {block.text}; "
        ++ "remove it from the old block first")
  | anchorDetached anchor => some s!"insert_op_before: anchor {anchor.text} is detached"
  | anchorMissing anchor block =>
      some s!"insert_op_before: {anchor.text} not found in {block.text}"
  | operandOutOfRange index op count =>
      some s!"set_operand: operand index {index} out of range for {op.text} ({count} operands)"
  | useMismatch found expected =>
      some ("assertion `left == right` failed\n  left: " ++ found.text
        ++ "\n right: " ++ expected.text)
  | resultUsed value op uses =>
      some (s!"erase_op: result value {value.text} of {op.text} still has {uses} use(s); "
        ++ "replace all uses before erasing the operation")
  | missingNumber op => some s!"arith.constf {op.text} is missing its float value"
  | missingAxis op => some s!"quantum.rotate {op.text} is missing its axis"
  | notAGate kind =>
      some s!"gate_builder: {kind.text} is not a parameterless single-qubit gate"
  | updateErased op => some s!"start_root_update: operation {op.text} has been erased"
  | alreadyErased op => some s!"erase_op: operation {op.text} has already been erased"
  | replacementCount op results values =>
      some ("assertion `left == right` failed: replace_op_with_values: "
        ++ s!"{op.text} has {results} result(s), got {values} replacement(s)"
        ++ s!"\n  left: {results}\n right: {values}")
  | invalid stage report => some ("IR validation failed after `" ++ stage ++ "`:\n" ++ report)
  | givenUp => some "client panic"

end Fault

/-- The entry found in a table, or the fault of a name that was never given out. -/
def entry {α : Type} : Option α → Except Fault α
  | some a => .ok a
  | none => .error .outOfBounds

end Peephole
