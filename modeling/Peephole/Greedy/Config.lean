import Peephole.Rule

/-!
# Settings and outcome of greedy simplification

A *reduction* is one thing that greedy simplification does to a graph: a rule applied,
an addition folded, or an unused operation erased.  The settings say which reductions
are made and how many, and the outcome says how the work ended.
-/

namespace Peephole

/-- How the work is done and how far it may go. -/
structure Config where
  /-- The greatest number of sweeps. -/
  maxSweeps : Nat := 10
  /-- The greatest number of reductions, or none for a cap on every sweep. -/
  budget : Option Nat := some 10000
  /-- Whether additions of constants are folded. -/
  fold : Bool := true
  /-- Whether pure operations that nobody reads are erased. -/
  removeDead : Bool := true
  /-- Whether the graph is validated after every reduction. -/
  verify : Bool := false
  /-- How the host of the work has set the stop flag turn by turn, or none if there is no
  flag.  After the last turn that is listed it is down. -/
  stopFlag : Option (List Bool) := none
deriving DecidableEq, Repr

/-- Whether the host has the stop flag up at a turn. -/
def Config.raised (c : Config) (turn : Nat) : Bool :=
  c.stopFlag.any fun readings => readings.getD turn false

/-- How the work ended. -/
inductive RunStatus where
  /-- Nothing applies any more. -/
  | converged
  /-- The last sweep that was allowed still made a reduction. -/
  | sweepLimit
  /-- The budget of reductions was spent before the end. -/
  | budgetSpent
  /-- Someone asked to stop. -/
  | stopped
deriving DecidableEq, Repr

/-- The status as written. -/
def RunStatus.text : RunStatus → String
  | converged => "Converged"
  | sweepLimit => "IterationLimit"
  | budgetSpent => "RewriteLimit"
  | stopped => "Cancelled"

/-- What the work came to. -/
structure Outcome where
  /-- How it ended. -/
  status : RunStatus
  /-- The sweeps made. -/
  sweeps : Nat
  /-- The reductions made. -/
  reductions : Nat
deriving DecidableEq, Repr

/-- One call of a rule and what the rule answered. -/
structure Call where
  /-- The rule. -/
  rule : String
  /-- The operation it was offered. -/
  op : OpId
  /-- Its answer. -/
  answer : Except EditError Match

end Peephole
