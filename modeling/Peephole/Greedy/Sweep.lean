import Peephole.Graph.Report
import Peephole.Greedy.Dispatch

/-!
# Sweeps

A *sweep* queues the operations under a root and dispatches one after the other, and
those that a reduction made worth another look, until none is left or a limit is
reached.  The limit is a budget of reductions for all sweeps together or, if there is
none, a cap for this sweep that grows with the number of operations it starts with.
When the budget is spent with operations still queued, the operations under the root
are tried once more on a copy of the graph, to tell whether the budget cut the work
short.

One turn of a sweep either makes a reduction, which brings it nearer to its limit, or
takes an entry off the stack and adds none.  This is why a sweep ends
(`remaining_lt_of_turn`).
-/

namespace Peephole

/-! ## Progress -/

/-- The work so far. -/
structure Progress where
  /-- The graph. -/
  graph : Graph
  /-- What is still to be looked at. -/
  worklist : Worklist
  /-- The reductions made. -/
  reductions : Nat
  /-- The turns taken. -/
  turns : Nat
  /-- Whether a rule asked to stop. -/
  stopRequested : Bool
  /-- The rules called, in order. -/
  calls : Array Call

namespace Progress

/-- The start of the work on a graph. -/
def start (g : Graph) : Progress := ⟨g, .empty, 0, 0, false, #[]⟩

/-- Whether the settings have a stop flag and it is up, raised by a rule or by the host. -/
def isStopped (p : Progress) (c : Config) : Bool :=
  c.stopFlag.isSome && (p.stopRequested || c.raised p.turns)

/-- The work with operations queued, the last one first. -/
def seeded (p : Progress) (ops : List OpId) : Progress :=
  { p with worklist := p.worklist.queueAll ops.reverse }

@[simp]
theorem graph_seeded (p : Progress) (ops : List OpId) : (p.seeded ops).graph = p.graph := rfl

@[simp]
theorem worklist_seeded (p : Progress) (ops : List OpId) :
    (p.seeded ops).worklist = p.worklist.queueAll ops.reverse := rfl

@[simp]
theorem reductions_seeded (p : Progress) (ops : List OpId) :
    (p.seeded ops).reductions = p.reductions := rfl

/-- The work with one more turn taken. -/
def next (p : Progress) : Progress := { p with turns := p.turns + 1 }

/-- The work after a dispatch, but for the worklist. -/
def record (p : Progress) (d : Dispatched) : Progress :=
  { p with graph := d.graph, stopRequested := p.stopRequested || d.stopRequested,
           calls := p.calls ++ d.calls.toArray }

end Progress

/-- How many reductions may have been made when a sweep has to end. -/
inductive Limit where
  /-- The budget of all sweeps together. -/
  | budget (reductions : Nat)
  /-- The count at which this sweep's cap is reached. -/
  | cap (reductions : Nat)
deriving DecidableEq, Repr

/-- The number of reductions of a limit. -/
def Limit.reductions : Limit → Nat
  | budget n => n
  | cap n => n

/-! ## Turns -/

/-- How a sweep ended. -/
inductive SweepEnd where
  /-- Nothing is left to be looked at in this sweep. -/
  | finished
  /-- The budget is spent and something would still apply. -/
  | limited
  /-- The budget is spent and nothing applies any more. -/
  | settled
  /-- Someone asked to stop. -/
  | stopped
  /-- A reduction failed. -/
  | failed (e : EditError)
deriving DecidableEq, Repr

/-- What one turn of a sweep came to. -/
inductive Turn where
  /-- The sweep goes on. -/
  | again (p : Progress)
  /-- The sweep has ended. -/
  | done (e : SweepEnd) (p : Progress)

/-- Dispatches operations on a copy of the graph, which is given up afterwards, until
there is a reduction. -/
def probe (c : Config) (rules : RuleSet) (p : Progress) (copy : Graph) :
    List OpId → Except Fault (SweepEnd × Progress)
  | [] => return (.settled, p)
  | o :: rest => do
      let d ← dispatch c rules copy .silent o
      let after := { p.record d with graph := p.graph }
      match d.verdict with
      | .idle => probe c rules after d.graph rest
      | .applied _ => return (.limited, after)
      | .failed e => return (.failed e, after)

/-- The turn in which a limit has been reached. -/
def limitTurn (c : Config) (rules : RuleSet) (root : OpId) (p : Progress) :
    Limit → Except Fault Turn
  | .cap _ => return .done .finished { p with worklist := p.worklist.clear }
  | .budget _ => do
      if p.worklist.anyQueued then
        let (e, p) ← probe c rules p p.graph (← p.graph.nestedOps root)
        return .done e p
      else return .done .finished p

/-- The turn that dispatches an operation taken off the worklist, which is `w` without
it. -/
def dispatchTurn (c : Config) (rules : RuleSet) (root : OpId) (p : Progress) (o : OpId)
    (w : Worklist) : Except Fault Turn := do
  if !(← p.graph.isLive o) then
    return .done (.failed (.staleOp o)) { p with worklist := w }
  let w := w.mark o .inProgress
  let d ← dispatch c rules p.graph (.worklist w) o
  match d.verdict with
  | .idle => return .again { p.record d with worklist := (d.observer.worklistD w).settle o }
  | .failed e => return .done (.failed e) { p.record d with worklist := d.observer.worklistD w }
  | .applied name =>
      let after := { p.record d with
        worklist := (d.observer.worklistD w).settle o, reductions := p.reductions + 1 }
      if c.verify then
        let report ← after.graph.validate root
        if !report.isOk then return .done (.failed (.invalidAfter name report.text)) after
      return .again after

/-- One turn of a sweep, which starts with a look at the stop flag. -/
def turn (c : Config) (rules : RuleSet) (root : OpId) (limit : Limit) (p : Progress) :
    Except Fault Turn :=
  if p.isStopped c then return .done .stopped p.next
  else if limit.reductions ≤ p.reductions then limitTurn c rules root p.next limit
  else
    match p.worklist.pop with
    | none => return .done .finished { p.next with worklist := p.worklist.clear }
    | some (o, w) => dispatchTurn c rules root p.next o w

/-! ## Why a sweep ends -/

/-- What a sweep has left to do: reductions up to its limit, then stack entries. -/
def Progress.remaining (p : Progress) (limit : Limit) : Nat × Nat :=
  (limit.reductions - p.reductions, p.worklist.stack.length)

/-- A turn at the limit is the last one. -/
theorem not_again_of_limitTurn {c : Config} {rules : RuleSet} {root : OpId} {p q : Progress}
    {limit : Limit} : limitTurn c rules root p limit ≠ .ok (.again q) := by
  intro h
  unfold limitTurn at h
  split at h
  · simp [pure, Except.pure] at h
  · split at h
    · simp only [bind, Except.bind, pure, Except.pure] at h
      repeat' split at h
      all_goals simp at h
    · simp [pure, Except.pure] at h

/-- A turn that is not the last one makes a reduction, or leaves the stack as it was
given. -/
theorem dispatchTurn_again {c : Config} {rules : RuleSet} {root : OpId} {p q : Progress}
    {o : OpId} {w : Worklist} (h : dispatchTurn c rules root p o w = .ok (.again q)) :
    q.reductions = p.reductions + 1 ∨
      q.reductions = p.reductions ∧ q.worklist.stack.length = w.stack.length := by
  rw [dispatchTurn, bind_eq_ok] at h
  obtain ⟨live, -, h⟩ := h
  cases live with
  | false => cases h
  | true =>
    obtain ⟨d, hd, h⟩ := bind_eq_ok.1 h
    split at h
    · rename_i hidle
      cases h
      exact .inr ⟨rfl, by simp [observer_of_dispatch hd hidle, Observer.worklistD]⟩
    · cases h
    · dsimp only at h
      split at h
      · obtain ⟨report, -, h⟩ := bind_eq_ok.1 h
        split at h
        · cases h
        · cases h
          exact .inl rfl
      · cases h
        exact .inl rfl

/-- A turn that is not the last one leaves less to do. -/
theorem remaining_lt_of_turn {c : Config} {rules : RuleSet} {root : OpId} {limit : Limit}
    {p q : Progress} (h : turn c rules root limit p = .ok (.again q)) :
    Prod.Lex (· < ·) (· < ·) (q.remaining limit) (p.remaining limit) := by
  unfold turn at h
  split at h
  · simp [pure, Except.pure] at h
  split at h
  · exact absurd h not_again_of_limitTurn
  split at h
  · simp [pure, Except.pure] at h
  · rename_i hp
    have := Worklist.pop_stack_length hp
    simp only [Progress.remaining, Prod.lex_def]
    rcases dispatchTurn_again h with hr | ⟨hr, hs⟩
    · have hr : q.reductions = p.reductions + 1 := hr
      omega
    · have hr : q.reductions = p.reductions := hr
      omega

/-! ## Whole sweeps -/

/-- Takes turns until the sweep ends. -/
def drain (c : Config) (rules : RuleSet) (root : OpId) (limit : Limit) (p : Progress) :
    Except Fault (SweepEnd × Progress) :=
  match _h : turn c rules root limit p with
  | .error f => .error f
  | .ok (.done e p) => .ok (e, p)
  | .ok (.again p) => drain c rules root limit p
termination_by p.remaining limit
decreasing_by exact remaining_lt_of_turn ‹_›

/-- How many reductions a sweep may make for every operation it starts with, if there
is no budget. -/
def sweepFactor : Nat := 32

/-- The limit of a sweep that starts with the given number of operations. -/
def Progress.limit (p : Progress) (c : Config) (seeded : Nat) : Limit :=
  match c.budget with
  | some n => .budget n
  | none => .cap (p.reductions + max seeded 1 * sweepFactor)

/-- One sweep: queues the operations under the root, the first one on top, and takes
turns until the end. -/
def sweep (c : Config) (rules : RuleSet) (root : OpId) (p : Progress) :
    Except Fault (SweepEnd × Progress) := do
  let ops ← p.graph.nestedOps root
  drain c rules root (p.limit c ops.length) (p.seeded ops)

end Peephole
