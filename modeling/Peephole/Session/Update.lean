import Peephole.Session.Basic

/-!
# Updates

An update writes several operand slots of one operation as a unit.  It remembers what
each slot held at first.  Committing tells the observer once, if some slot ends up with
another value, and restoring gives every slot back what it held and tells nobody.  Both
close the update.  One that is let go while it is still open is committed, unless its
owner is giving up.
-/

namespace Peephole

/-- An update of the operands of one operation that is under way. -/
structure Update where
  /-- The operation. -/
  op : OpId
  /-- The slots written so far with what they held at first, the last one first. -/
  saved : List (Nat × ValueId)
  /-- Whether it is still to be ended. -/
  isOpen : Bool
deriving DecidableEq, Repr

namespace Update

/-- Starts an update. -/
def start (g : Graph) (o : OpId) : Except Fault Update := do
  if ← g.isLive o then return ⟨o, [], true⟩ else throw (.updateErased o)

/-- Writes a slot. -/
def write (u : Update) (g : Graph) (i : Nat) (v : ValueId) : Except Fault (Update × Graph) := do
  let old ← g.operand u.op i
  let saved := if u.saved.any fun entry => entry.1 = i then u.saved else (i, old) :: u.saved
  return ({ u with saved }, ← g.writeSlot u.op i v)

/-- Writes slots until one of the writes is a fault, which is then handed back. -/
def writeAll (u : Update) (g : Graph) : List (Nat × ValueId) → Update × Graph × Option Fault
  | [] => (u, g, none)
  | (i, v) :: rest =>
      match u.write g i v with
      | .ok (u, g) => u.writeAll g rest
      | .error f => (u, g, some f)

/-- Whether some slot holds another value than at first. -/
def isChange (u : Update) (g : Graph) : Except Fault Bool :=
  u.saved.reverse.anyM fun (i, old) => return (← g.operand u.op i) ≠ old

/-- Restores every slot, the last one written first. -/
def restore (u : Update) (g : Graph) : Except Fault Graph :=
  u.saved.foldlM (fun g (i, old) => g.writeSlot u.op i old) g

/-- The update after its end. -/
def close (u : Update) : Update := { u with isOpen := false }

end Update

/-- How an update ends. -/
inductive Ending where
  /-- The slots keep what was written. -/
  | commit
  /-- The slots get back what they held at first. -/
  | cancel
  /-- The caller lets the update go without a word, and the slots keep what was written. -/
  | drop
  /-- The caller gives up with a fault, and the slots get back what they held. -/
  | abandon
deriving DecidableEq, Repr

namespace EditM

/-- Commits an update. -/
def commit (u : Update) (g : Graph) : EditM Update := do
  if ← u.isChange g then changed g (.updated u.op)
  else modify fun s => { s with graph := g }
  return u.close

/-- Takes an update back. -/
def restore (u : Update) (g : Graph) : EditM Update := do
  let g ← u.restore g
  modify fun s => { s with graph := g }
  return u.close

/-- Lets an update go.  If it is open, it is committed, or taken back if its owner is
giving up. -/
def release (u : Update) (g : Graph) (givingUp : Bool) : EditM Unit := do
  if u.isOpen then
    let _ ← if givingUp then restore u g else commit u g

/-- Ends an update on which every write succeeded.  The answer is the operands right
before the end, unless the caller gives up. -/
def finish (u : Update) (g : Graph) : Ending → EditM (Except Fault (List ValueId))
  | .commit => do release (← commit u g) g false; return g.operands u.op
  | .cancel => do release (← restore u g) g false; return g.operands u.op
  | .drop => do release u g false; return g.operands u.op
  | .abandon => do release u g true; return .error .givenUp

/-- Writes slots of an operation as one update that ends as given.  A fault on the way
is handed to the caller, who gives the update up. -/
def attemptUpdate (o : OpId) (slots : List (Nat × ValueId)) (ending : Ending) :
    EditM (Except Fault (List ValueId)) := do
  let g ← graph
  match Update.start g o with
  | .error f => return .error f
  | .ok u =>
      match u.writeAll g slots with
      | (u, g, some f) => release u g true; return .error f
      | (u, g, none) => finish u g ending

/-- Writes slots of an operation as one update. -/
def update (o : OpId) (slots : List (Nat × ValueId)) : EditM Unit := do
  let _ ← (← attemptUpdate o slots .commit : Except Fault _)

/-- Writes one slot of an operation. -/
def writeSlot (o : OpId) (i : Nat) (v : ValueId) : EditM Unit := update o [(i, v)]

end EditM

end Peephole
