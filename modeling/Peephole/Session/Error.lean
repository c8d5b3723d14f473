import Peephole.Graph.Basic

/-!
# Edit errors

An edit error is an answer, not a fault: the graph is left as it was when the error
came up, and the caller goes on from there.
-/

namespace Peephole

/-- Why an edit was not done, or was done by a rule that may not do it. -/
inductive EditError where
  /-- The results of an operation to be erased are still read. -/
  | stillRead (op : OpId) (kind : Kind) (uses : Nat)
  /-- An erased operation was offered to a rule. -/
  | staleOp (op : OpId)
  /-- A rule changed the graph and said that it did not apply. -/
  | silentChange (rule : String) (op : OpId)
  /-- The graph is no longer valid after a rule. -/
  | invalidAfter (rule details : String)
deriving DecidableEq, Repr

namespace EditError

/-- The error as written. -/
def message : EditError → String
  | stillRead op kind uses =>
      s!"cannot erase {op.text} ({kind.text}): its results still have {uses} use(s)"
  | staleOp op => s!"{op.text} was dispatched after being erased"
  | silentChange rule op =>
      "pattern `" ++ rule ++ s!"` mutated the IR at {op.text} but reported no match"
  | invalidAfter rule details => "use-chain corrupted after `" ++ rule ++ "`:\n" ++ details

end EditError

end Peephole
