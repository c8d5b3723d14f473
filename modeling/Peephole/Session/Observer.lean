import Peephole.Worklist

/-!
# Observers

An observer is told of every change to a graph, at the moment of the change.  What it
is told is a notice, and it looks at the graph for the rest.  A recorder writes down
what it sees.  A worklist queues the operations that the change may have made worth
another look.

An erasure is announced before it happens, while the operation can still be looked at.
The other notices come after the change.
-/

namespace Peephole

/-- What an observer is told. -/
inductive Notice where
  /-- An operation has been inserted. -/
  | inserted (op : OpId)
  /-- Operand slots of an operation have been written. -/
  | updated (op : OpId)
  /-- An operation is about to be erased. -/
  | erasing (op : OpId)
  /-- The uses of a value, by these operations, have been moved to another value. -/
  | replaced (old : ValueId) (users : List OpId)
deriving DecidableEq, Repr

/-- What a recorder writes down. -/
inductive Event where
  /-- An inserted operation, its kind and its position. -/
  | inserted (op : OpId) (kind : Kind) (position : Option Nat)
  /-- An updated operation, its operands and its users. -/
  | updated (op : OpId) (operands : List ValueId) (users : List OpId)
  /-- An operation about to be erased, and its operands. -/
  | erasing (op : OpId) (operands : List ValueId)
  /-- A value that lost its uses, who read it, and how many uses it has now. -/
  | replaced (old : ValueId) (users : List OpId) (uses : Nat)
deriving DecidableEq, Repr

/-- What a recorder writes down for a notice. -/
def Event.ofNotice (g : Graph) : Notice → Except Fault Event
  | .inserted o => return .inserted o (← g.kind o) (← g.position? o)
  | .updated o => return .updated o (← g.operands o) (← g.users o)
  | .erasing o => return .erasing o (← g.operands o)
  | .replaced old users => return .replaced old users (g.useCount old)

/-- What a notice queues.  The definers of the operands of an erased operation and of
a value that lost its uses are queued too, since they may now be unused. -/
def Worklist.react (g : Graph) (w : Worklist) : Notice → Except Fault Worklist
  | .inserted o => return w.queue o
  | .updated o => return (w.queue o).queueAll (← g.users o)
  | .erasing o => do (← g.operands o).foldlM (queueDefiner g) (w.mark o .erased)
  | .replaced old users => queueDefiner g (w.queueAll users) old

/-- Who is told of changes. -/
inductive Observer where
  /-- Nobody. -/
  | silent
  /-- A record of the changes, the last one first. -/
  | recorder (events : List Event)
  /-- A worklist. -/
  | worklist (w : Worklist)

namespace Observer

/-- Tells an observer of a change to the graph. -/
def notify (g : Graph) (n : Notice) : Observer → Except Fault Observer
  | silent => return silent
  | recorder events => return recorder ((← Event.ofNotice g n) :: events)
  | worklist w => return worklist (← w.react g n)

/-- The events of a recorder, in order. -/
def events : Observer → List Event
  | recorder events => events.reverse
  | _ => []

/-- The worklist of an observer, or the given one if it has none. -/
def worklistD (w : Worklist) : Observer → Worklist
  | worklist w => w
  | _ => w

end Observer

end Peephole
