import Peephole.Graph.Walk

/-!
# Availability

A value is available at an operation if it is an argument of the block the
operation is in, or a result of a live operation earlier in that block, or
available in this sense at the operation around it.

The search climbs from the operation outwards.  It stops at the first block that
makes the value, whatever the answer there, and at an operation in no block.
-/

namespace Peephole

/-- What one level of the search says. -/
inductive Level where
  /-- The value is found here, and this is the answer. -/
  | here (available : Bool)
  /-- The value is not made at this level. -/
  | above
deriving DecidableEq, Repr

/-- Whether one position comes before another.  No position comes before any. -/
def positionLt : Option Nat → Option Nat → Bool
  | none, some _ => true
  | some i, some j => i < j
  | _, none => false

namespace Graph

/-- Looks for a value in the block `b` that `cursor` is in. -/
def levelOf (g : Graph) (v : ValueId) (cursor : OpId) (b : BlockId) : Except Fault Level := do
  match ← g.origin v with
  | .argument home _ => return if home = b then .here true else .above
  | .result definer _ =>
      let data ← g.slot definer
      if !data.erased && data.block = some b then
        return .here (positionLt (← g.position? definer) (← g.position? cursor))
      else return .above

/-- Whether a value is available at an operation, climbing at most `depth` levels. -/
def inScopeTo (g : Graph) (v : ValueId) : (depth : Nat) → OpId → Except Fault Bool
  | 0, _ => throw .endless
  | depth + 1, cursor => do
      match (← g.op cursor).block with
      | none => return false
      | some b =>
          match ← g.levelOf v cursor b with
          | .here answer => return answer
          | .above =>
              match ← g.ownerOf? cursor with
              | none => return false
              | some parent => g.inScopeTo v depth parent

/-- Whether a value is available at an operation. -/
def inScope (g : Graph) (v : ValueId) (anchor : OpId) : Except Fault Bool :=
  g.inScopeTo v g.depth anchor

end Graph

end Peephole
